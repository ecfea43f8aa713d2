/-
  File:      MiningQuery/Proofs/Offending/Value.lean
  Subject:   Where a value stands in parentheses, the attempt at a condition comes to the same end.

  A condition in parentheses is attempted first. If the attempt is given up, the error that is
  reported is the one of a second reading, which takes the parenthesis for that of a value; the two
  need not stop at the same token. This module compares them: as far as a value is read, the attempt
  reads the same tokens as a condition.

  * `PartStarts` -- tokens behind which a part of a condition may begin;
  * `Excused` -- the tokens that are reported although a query may go on with them;
  * **`negation_of_value`** -- where a value ends the attempt ends, but if a condition goes on there;
  * **`negation_fails`** -- where no value can be read, the attempt fails, or the token is excused.
-/
import MiningQuery.Proofs.Grammar.Condition
import MiningQuery.Proofs.Offending.Expr

namespace MiningQuery.Parse

/-! ## 1. Excused tokens -/

/-- Does a word or symbol behind a value show that a condition goes on? -/
def showsCondition (k : TokenKind) : Bool :=
  (comparison? k).isSome || (conjunctive? k).isSome || (disjunctive? k).isSome ||
    k = .keyword .IS || k = .keyword .NOT || negatable.contains k

theorem showsCondition_closeParen {k : TokenKind} (h : k = .symbol .closeParen) :
    showsCondition k = false := by
  subst h
  rfl

/-- The tokens can be read as a value. -/
def IsValue (ts : List Token) : Prop := ∃ levels x rest, expr levels (ts ++ rest) = .ok (x, rest)

/-- The tokens behind `WHERE` end where a part of the condition may begin: at the start, behind a
    `NOT` or an opening parenthesis, and behind a connective that follows a part. -/
inductive Begun : List Token → Prop
  | start : Begun []
  | negated {ts : List Token} {o : Token} : Begun ts → o.kind = .keyword .NOT → Begun (ts ++ [o])
  | opened {ts : List Token} {o : Token} : Begun ts → o.kind = .symbol .openParen →
      Begun (ts ++ [o])
  | conjoined {ts us rest : List Token} {o : Token} {levels : Nat} {attempting : Bool}
      {p : Predicate} : Begun ts → negation levels attempting (us ++ rest) = .ok (p, rest) →
      o.kind = .keyword .AND → Begun (ts ++ us ++ [o])
  | disjoined {ts us rest : List Token} {o : Token} {levels : Nat} {attempting : Bool}
      {p : Predicate} : Begun ts →
      chain conjunctive? .logical (negation levels attempting) (us ++ rest) = .ok (p, rest) →
      o.kind = .keyword .OR → Begun (ts ++ us ++ [o])

/-- Behind the tokens a part of a condition may begin. -/
def PartStarts (ts : List Token) : Prop :=
  ∃ pre w items, ts = pre ++ w :: items ∧ w.kind = .keyword .WHERE ∧ Begun items

/-- The tokens end with a value in parentheses that stands where a part of a condition may begin,
    and the next one is a `NOT`, which may belong to what is said of the value. -/
def NotBehindValue (before : List Token) (t : Token) : Prop :=
  t.kind = .keyword .NOT ∧ ∃ pre o value c, before = pre ++ o :: (value ++ [c]) ∧ PartStarts pre ∧
    o.kind = .symbol .openParen ∧ IsValue value ∧ c.kind = .symbol .closeParen

/-- The errors at a token, behind some tokens, that do not show that no query goes on so. -/
inductive Excused (before : List Token) (t : Token) : Cause → Prop
  /-- A minus sign that no number follows, where a value is expected. -/
  | sign : t.kind = .symbol .minus → Excused before t (.mismatched (factorStart.map TokenKind.name))
  /-- What shows that the parenthesis before a value was that of a condition. -/
  | condition {pre value : List Token} {o : Token} : before = pre ++ o :: value → PartStarts pre →
      o.kind = .symbol .openParen → IsValue value → showsCondition t.kind = true →
      Excused before t (.mismatched [TokenKind.name (.symbol .closeParen)])
  /-- A `NOT` right behind the parenthesis of a condition. -/
  | negation {pre : List Token} {o : Token} : before = pre ++ [o] → PartStarts pre →
      o.kind = .symbol .openParen → t.kind = .keyword .NOT →
      Excused before t (.mismatched (factorStart.map TokenKind.name))
  /-- The label of a number of clusters that no equals sign follows. -/
  | label {pre : List Token} {w : Token} : before = pre ++ [w] → w.kind = .keyword .CLUSTER →
      t.kind = .identifier → Text.upper t.text = ascii "K" →
      Excused before t (.mismatched ([TokenKind.int, .float].map TokenKind.name))
  /-- A `NOT` behind a value in parentheses that was taken for a condition. -/
  | value {names : List Text} : NotBehindValue before t → Excused before t (.extraneous names)

/-! ## 2. A value that opens with a parenthesis -/

variable {k : Fork}

/-- The rest of an expression, behind its first factor. -/
def exprRest (factor : Parse Expr) (x : Expr) : Parse Expr := fun ts =>
  chainFrom multiplicative? .arith factor ts.length x ts >>= fun p =>
    chainFrom additive? .arith (chain multiplicative? .arith factor) p.2.length p.1 p.2

theorem exprOf_eq (factor : Parse Expr) : exprOf factor = factor >>= exprRest factor := by
  funext ts
  show (factor ts >>= _) >>= _ = factor ts >>= _
  cases factor ts <;> rfl

theorem exprRest_forward {factor : Parse Expr} (h : Forward factor) (x : Expr) :
    Forward (exprRest factor x) := fun ts =>
  (h.chainFrom _ x ts).bind fun y rest => h.chain.chainFrom _ y rest

/-- Where no operator follows, the expression is its first factor. -/
theorem exprRest_stop {factor : Parse Expr} (x : Expr) {ts : List Token}
    (hmul : multiplicative? (kindOf ts) = none) (hadd : additive? (kindOf ts) = none) :
    exprRest factor x ts = .ok (x, ts) := by
  show chainFrom multiplicative? .arith factor ts.length x ts >>= _ = _
  rw [chainFrom_stop hmul]
  exact chainFrom_stop hadd

section Group

variable {n : Nat} {o : Token} {ts : List Token}

/-- A value that opens with a parenthesis: the value inside is not read, or is not closed, or is the
    first factor. -/
theorem expr_group (ho : o.kind = .symbol .openParen) (n : Nat) (ts : List Token) :
    (∃ f, expr n ts = .error f ∧ expr (n + 1) (o :: ts) = .error f) ∨
      (∃ x rest, expr n ts = .ok (x, rest) ∧ kindOf rest ≠ .symbol .closeParen ∧
        expr (n + 1) (o :: ts) =
          .error ⟨rest, .mismatched [TokenKind.name (.symbol .closeParen)]⟩) ∨
      ∃ x c rest, expr n ts = .ok (x, c :: rest) ∧ c.kind = .symbol .closeParen ∧
        expr (n + 1) (o :: ts) = exprRest (factor (n + 1)) (.paren x) rest := by
  have hfactor : factor (n + 1) (o :: ts) = parenthesized (factor n) ts := by
    simp only [factor, factorStep, ho]
  cases hvalue : expr n ts with
  | error f =>
    have hfail := hfactor.trans (bind_of_error hvalue)
    exact .inl ⟨f, rfl, chain_of_error (chain_of_error hfail)⟩
  | ok r =>
    obtain ⟨x, rest⟩ := r
    by_cases hclose : kindOf rest = .symbol .closeParen
    · obtain ⟨c, rest, rfl, hc⟩ := eq_cons_of_kindOf hclose (by decide)
      have hread : factor (n + 1) (o :: ts) = .ok (.paren x, rest) :=
        hfactor.trans ((bind_of_ok hvalue).trans (bind_of_ok (sign_cons hc rest)))
      refine .inr (.inr ⟨x, c, rest, rfl, hc, ?_⟩)
      show exprOf (factor (n + 1)) (o :: ts) = _
      rw [exprOf_eq]
      exact bind_of_ok hread
    · have hfail := hfactor.trans ((bind_of_ok hvalue).trans (bind_of_error (expect_of_ne hclose)))
      exact .inr (.inl ⟨x, rest, rfl, hclose, chain_of_error (chain_of_error hfail)⟩)

theorem expr_group_closed (ho : o.kind = .symbol .openParen) {x : Expr} {c : Token}
    {rest : List Token} (h : expr n ts = .ok (x, c :: rest)) (hc : c.kind = .symbol .closeParen) :
    expr (n + 1) (o :: ts) = exprRest (factor (n + 1)) (.paren x) rest := by
  rcases expr_group ho n ts with ⟨f, hf, -⟩ | ⟨y, us, hy, hclose, -⟩ | ⟨y, c', us, hy, -, he⟩
  · cases hf.symm.trans h
  · cases hy.symm.trans h
    exact absurd hc hclose
  · cases hy.symm.trans h
    exact he

/-- What is read of such a value is behind the parenthesis. -/
theorem expr_group_within (ho : o.kind = .symbol .openParen) (n : Nat) (ts : List Token) :
    Within ts (expr (n + 1) (o :: ts)) := by
  have hinner := expr_forward n ts
  rcases expr_group ho n ts with
    ⟨f, hf, h⟩ | ⟨x, rest, hx, -, h⟩ | ⟨x, c, rest, hx, -, h⟩ <;> rw [h]
  · exact .of_error (hinner.failure hf)
  · exact .of_error (hinner.value hx)
  · refine (exprRest_forward (factor_forward _) _ rest).after ?_
    exact (List.suffix_cons c rest).trans (hinner.value hx)

/-- No value opens with a `NOT`. -/
theorem expr_not (levels : Nat) (h : kindOf ts = .keyword .NOT) :
    expr levels ts = .error ⟨ts, .mismatched (factorStart.map TokenKind.name)⟩ := by
  obtain ⟨t, us, rfl, ht⟩ := eq_cons_of_kindOf h (by decide)
  have hfactor : factor levels (t :: us) =
      .error ⟨t :: us, .mismatched (factorStart.map TokenKind.name)⟩ := by
    cases levels <;> simp only [factor, factorStep, ht] <;> rfl
  exact chain_of_error (chain_of_error hfactor)

/-- Without levels of nesting no parenthesis is opened. -/
theorem expr_zero_group (ho : o.kind = .symbol .openParen) (ts : List Token) :
    expr 0 (o :: ts) = .error ⟨o :: ts, .nestedTooDeeply⟩ := by
  have hfactor : factor 0 (o :: ts) = .error ⟨o :: ts, .nestedTooDeeply⟩ := by
    simp only [factor, factorStep, ho]
    rfl
  exact chain_of_error (chain_of_error hfactor)

end Group

/-! ## 3. Parts of a condition -/

section Part

variable {attempting : Bool} {levels n : Nat} {o : Token} {ts rest : List Token} {f : Failure}
  {p : Predicate}

theorem negation_simple (levels : Nat) (attempting : Bool) (hnot : kindOf ts ≠ .keyword .NOT)
    (hopen : kindOf ts ≠ .symbol .openParen) :
    negation levels attempting ts = simple levels ts := by
  cases levels <;> exact negationStep_simple hnot hopen

theorem negation_zero_not (h : kindOf ts = .keyword .NOT) :
    negation 0 attempting ts = .error ⟨ts.tail, .nestedTooDeeply⟩ := by
  simp only [negation, negationStep, h]
  rfl

theorem negation_not (h : kindOf ts = .keyword .NOT) :
    negation (n + 1) attempting ts = (Predicate.not <$> negation n attempting) ts.tail := by
  simp only [negation, negationStep, h]

theorem negation_zero_group (ho : o.kind = .symbol .openParen) (attempting : Bool)
    (ts : List Token) :
    negation 0 attempting (o :: ts) = .error ⟨o :: ts, .nestedTooDeeply⟩ := by
  simp only [negation, negationStep, kindOf_cons, ho]
  rfl

theorem negation_group (ho : o.kind = .symbol .openParen)
    (h : grouped (negation n true) ts = .ok (p, rest)) (hrest : continuesValue rest = false) :
    negation (n + 1) attempting (o :: ts) = .ok (.paren p, rest) :=
  negationStep_grouped ho h hrest

theorem negation_value (ho : o.kind = .symbol .openParen)
    (h : grouped (negation n true) ts = .ok (p, rest)) (hrest : continuesValue rest = true) :
    negation (n + 1) attempting (o :: ts) = simple (n + 1) (o :: ts) :=
  negationStep_value ho h hrest

/-- An attempt that fails within an attempt, or fatally, is not given up. -/
theorem negation_failed (ho : o.kind = .symbol .openParen)
    (h : grouped (negation n true) ts = .error f) (hf : (f.fatal || attempting) = true) :
    negation (n + 1) attempting (o :: ts) = .error f := by
  simp only [negation, negationStep, kindOf_cons, ho, List.tail_cons, h, hf, if_true]

theorem negation_given_up (ho : o.kind = .symbol .openParen)
    (h : grouped (negation n true) ts = .error f) (hf : f.fatal = false) :
    negation (n + 1) false (o :: ts) = simple (n + 1) (o :: ts) := by
  simp only [negation, negationStep, kindOf_cons, ho, List.tail_cons, h, hf, Bool.or_false,
    Bool.false_eq_true, if_false]

end Part

/-! ## 4. Where an attempt ends -/

/-- The reading leaves these tokens, if it is not nested too deeply. -/
def Reaches {α : Type} (o : Except Failure (α × List Token)) (rest : List Token) : Prop :=
  (∃ x, o = .ok (x, rest)) ∨ ∃ f, o = .error f ∧ f.fatal = true

section Ends

variable {negation : Parse Predicate} {levels : Nat} {x : Expr} {c : Token} {f : Failure}
  {ts rest : List Token}

theorem simple_of_error (h : expr levels ts = .error f) : simple levels ts = .error f :=
  bind_of_error h

/-- Where nothing shows that a condition goes on, a value is all of it. -/
theorem simple_of_value (h : expr levels ts = .ok (x, rest))
    (hrest : showsCondition (kindOf rest) = false) : simple levels ts = .ok (.value x, rest) := by
  simp only [showsCondition, Bool.or_eq_false_iff, decide_eq_false_iff_not, negatable,
    List.contains_eq_mem, List.mem_cons, List.not_mem_nil, or_false, not_or] at hrest
  obtain ⟨⟨⟨⟨⟨hcompare, -⟩, -⟩, his⟩, hnot⟩, hbetween, hlike, hin⟩ := hrest
  have hcompare : comparison? (kindOf rest) = none := by simpa using hcompare
  refine (bind_of_ok h).trans ?_
  simp only [simpleTail, hcompare, negatableTail]

theorem conditionOf_failed (h : negation ts = .error f) : conditionOf negation ts = .error f :=
  chain_of_error (chain_of_error h)

/-- Where no connective follows, the condition is its first part. -/
theorem conditionOf_part {p : Predicate} (h : negation ts = .ok (p, rest))
    (hrest : showsCondition (kindOf rest) = false) : conditionOf negation ts = .ok (p, rest) := by
  simp only [showsCondition, Bool.or_eq_false_iff] at hrest
  have hand : conjunctive? (kindOf rest) = none := by simpa using hrest.1.1.1.1.2
  have hor : disjunctive? (kindOf rest) = none := by simpa using hrest.1.1.1.2
  exact chain_of_item (chain_of_item h hand) hor

theorem conditionOf_reaches (h : Reaches (negation ts) rest)
    (hrest : showsCondition (kindOf rest) = false) : Reaches (conditionOf negation ts) rest := by
  rcases h with ⟨p, hp⟩ | ⟨f, hf, hfatal⟩
  · exact .inl ⟨p, conditionOf_part hp hrest⟩
  · exact .inr ⟨f, conditionOf_failed hf, hfatal⟩

theorem grouped_failed (h : conditionOf negation ts = .error f) :
    grouped negation ts = .error f := bind_of_error h

/-- A condition that is closed is one in parentheses. -/
theorem grouped_eq_ok {p : Predicate} : grouped negation ts = .ok (p, rest) ↔
    ∃ c, conditionOf negation ts = .ok (p, c :: rest) ∧ c.kind = .symbol .closeParen := by
  refine ⟨fun h => ?_, fun ⟨c, h, hc⟩ => (bind_of_ok h).trans (bind_of_ok (sign_cons hc rest))⟩
  obtain ⟨q, us, hq, hclosing⟩ := bind_eq_ok h
  obtain ⟨c, vs, hc, hpure⟩ := bind_eq_ok hclosing
  obtain ⟨rfl, rfl⟩ := pure_eq_ok hpure
  obtain ⟨rfl, hkind⟩ := expect_eq_ok hc
  exact ⟨c, hq, hkind⟩

theorem grouped_reaches (h : Reaches (conditionOf negation ts) (c :: rest))
    (hc : c.kind = .symbol .closeParen) : Reaches (grouped negation ts) rest := by
  rcases h with ⟨p, hp⟩ | ⟨f, hf, hfatal⟩
  · exact .inl ⟨p, grouped_eq_ok.mpr ⟨c, hp, hc⟩⟩
  · exact .inr ⟨f, grouped_failed hf, hfatal⟩

theorem grouped_unclosed (h : Reaches (conditionOf negation ts) rest)
    (hrest : kindOf rest ≠ .symbol .closeParen) : ∃ f, grouped negation ts = .error f := by
  rcases h with ⟨p, hp⟩ | ⟨f, hf, -⟩
  · exact ⟨_, (bind_of_ok hp).trans (bind_of_error (expect_of_ne hrest))⟩
  · exact ⟨f, grouped_failed hf⟩

end Ends

/-! ## 5. A value and the attempt at a condition -/

section Attempt

variable {levels : Nat} {mid mid' : List Token} {x : Expr}

/-- Where nothing shows that a value goes on no operator follows. -/
theorem no_operator {ts : List Token} (h : continuesValue ts = false) :
    multiplicative? (kindOf ts) = none ∧ additive? (kindOf ts) = none := by
  simp only [continuesValue, Bool.or_eq_false_iff, Option.isSome_eq_false_iff,
    Option.isNone_iff_eq_none] at h
  exact ⟨h.1.1.1.2, h.1.1.1.1.2⟩

/-- The simple condition is the value alone, up to the token in common. -/
theorem simple_reaches (h : expr levels (mid ++ k.first) = .ok (x, mid' ++ k.first))
    (hstop : showsCondition (kindOf (mid' ++ k.first)) = false) (levels' : Nat) :
    Reaches (simple levels' (mid ++ k.second)) (mid' ++ k.second) := by
  rcases (expr_local levels levels' mid).value h with hok | ⟨f, hf, hfatal⟩ | ⟨-, hfalse⟩
  · exact .inl ⟨_, simple_of_value hok (k.kindOf_same mid' ▸ hstop)⟩
  · exact .inr ⟨f, simple_of_error hf, hfatal⟩
  · exact hfalse.elim

/-- The parenthesis that closes a value stands before the token in common, if what is read behind
    it does not go past the token. -/
theorem closed_before {n : Nat} {y : Expr} {c : Token} {rest : List Token}
    (h : expr n (mid ++ k.first) = .ok (y, c :: rest))
    (hnot : ¬ Within k.left (exprRest (factor (n + 1)) (.paren y) rest)) :
    ∃ mid', rest = mid' ++ k.first := by
  have hsuffix := (List.suffix_cons c rest).trans ((expr_forward n _).value h)
  rcases k.suffix_cases mid hsuffix with ⟨-, mid', -, hrest⟩ | hpast
  · exact ⟨mid', hrest⟩
  · exact absurd ((exprRest_forward (factor_forward _) _ rest).after hpast) hnot

/-- A value in parentheses that ends before the token in common or at it. -/
theorem group_of_value (h : expr levels (mid ++ k.first) = .ok (x, mid' ++ k.first))
    (hopen : kindOf (mid ++ k.first) = .symbol .openParen) :
    ∃ n o inside y c behind, levels = n + 1 ∧ mid = o :: inside ∧ o.kind = .symbol .openParen ∧
      expr n (inside ++ k.first) = .ok (y, c :: (behind ++ k.first)) ∧
      c.kind = .symbol .closeParen ∧
      exprRest (factor (n + 1)) (.paren y) (behind ++ k.first) = .ok (x, mid' ++ k.first) := by
  have hzero : ∀ o ts, o.kind = .symbol .openParen → mid ++ k.first = o :: ts → levels ≠ 0 := by
    rintro o ts ho hts rfl
    rw [hts, expr_zero_group ho] at h
    cases h
  cases mid with
  | nil =>
    obtain ⟨n, rfl⟩ := Nat.exists_eq_succ_of_ne_zero (hzero _ _ hopen rfl)
    exact absurd rfl (k.ne_of_past _ ((expr_group_within hopen n k.left).value h))
  | cons o inside =>
    obtain ⟨n, rfl⟩ := Nat.exists_eq_succ_of_ne_zero (hzero _ _ hopen rfl)
    rw [List.cons_append] at h
    rcases expr_group hopen n (inside ++ k.first) with ⟨f, -, he⟩ | ⟨y, rest, -, -, he⟩ |
      ⟨y, c, rest, hy, hc, he⟩
    · cases he.symm.trans h
    · cases he.symm.trans h
    · obtain ⟨behind, rfl⟩ := closed_before hy fun hwithin =>
        k.ne_of_past _ (hwithin.value (he.symm.trans h)) rfl
      exact ⟨n, o, inside, y, c, behind, rfl, rfl, hopen, hy, hc, he.symm.trans h⟩

/-- A value in parentheses that fails at the token in common. -/
theorem group_fails {cause : Cause} (hcause : cause.offends = true)
    (h : expr levels (mid ++ k.first) = .error ⟨k.first, cause⟩)
    (hopen : kindOf (mid ++ k.first) = .symbol .openParen) :
    ∃ n o inside, levels = n + 1 ∧ mid = o :: inside ∧ o.kind = .symbol .openParen ∧
      (expr n (inside ++ k.first) = .error ⟨k.first, cause⟩ ∨
        (∃ y, expr n (inside ++ k.first) = .ok (y, k.first) ∧
          kindOf k.first ≠ .symbol .closeParen ∧
          cause = .mismatched [TokenKind.name (.symbol .closeParen)]) ∨
        ∃ y c behind, expr n (inside ++ k.first) = .ok (y, c :: (behind ++ k.first)) ∧
          c.kind = .symbol .closeParen ∧
          exprRest (factor (n + 1)) (.paren y) (behind ++ k.first) = .error ⟨k.first, cause⟩) := by
  have hzero : ∀ o ts, o.kind = .symbol .openParen → mid ++ k.first = o :: ts → levels ≠ 0 := by
    rintro o ts ho hts rfl
    rw [hts, expr_zero_group ho] at h
    obtain ⟨-, rfl⟩ := Failure.mk.inj (Except.error.inj h)
    cases hcause
  cases mid with
  | nil =>
    obtain ⟨n, rfl⟩ := Nat.exists_eq_succ_of_ne_zero (hzero _ _ hopen rfl)
    exact absurd rfl (k.ne_of_past [] ((expr_group_within hopen n k.left).failure h))
  | cons o inside =>
    obtain ⟨n, rfl⟩ := Nat.exists_eq_succ_of_ne_zero (hzero _ _ hopen rfl)
    refine ⟨n, o, inside, rfl, rfl, hopen, ?_⟩
    rw [List.cons_append] at h
    rcases expr_group hopen n (inside ++ k.first) with ⟨f, hf, he⟩ | ⟨y, rest, hy, hclose, he⟩ |
      ⟨y, c, rest, hy, hc, he⟩
    · exact .inl (hf.trans (he.symm.trans h))
    · obtain ⟨rfl, rfl⟩ := Failure.mk.inj (Except.error.inj (he.symm.trans h))
      exact .inr (.inl ⟨y, hy, hclose, rfl⟩)
    · obtain ⟨behind, rfl⟩ := closed_before hy fun hwithin =>
        k.ne_of_past [] (hwithin.failure (he.symm.trans h)) rfl
      exact .inr (.inr ⟨y, c, behind, hy, hc, he.symm.trans h⟩)

/-- **Where a value ends the attempt at a part of a condition ends as well**, unless what follows
    shows that a condition goes on. -/
theorem negation_of_value (h : expr levels (mid ++ k.first) = .ok (x, mid' ++ k.first))
    (hstop : showsCondition (kindOf (mid' ++ k.first)) = false) (levels' : Nat) :
    Reaches (negation levels' true (mid ++ k.second)) (mid' ++ k.second) := by
  induction levels using Nat.strongRecOn generalizing levels' mid mid' x with
  | ind levels ih =>
    have hsimple := simple_reaches h hstop levels'
    by_cases hnot : kindOf (mid ++ k.first) = .keyword .NOT
    · rw [expr_not levels hnot] at h
      cases h
    by_cases hopen : kindOf (mid ++ k.first) = .symbol .openParen
    · obtain ⟨n, o, inside, y, c, behind, rfl, rfl, ho, hy, hc, hrest⟩ := group_of_value h hopen
      cases levels' with
      | zero => exact .inr ⟨_, negation_zero_group ho true _, rfl⟩
      | succ n' =>
        have hclose : showsCondition (kindOf (c :: behind ++ k.first)) = false :=
          showsCondition_closeParen hc
        have hinside : Reaches (negation n' true (inside ++ k.second)) (c :: behind ++ k.second) :=
          ih n (Nat.lt_succ_self n) hy hclose n'
        have hclosed := conditionOf_reaches hinside (k.kindOf_same (c :: behind) ▸ hclose)
        rcases grouped_reaches hclosed hc with ⟨p, hp⟩ | ⟨f, hf, hfatal⟩
        · cases hcontinues : continuesValue (behind ++ k.second) with
          | true =>
            have hread : negation (n' + 1) true (o :: inside ++ k.second) =
                simple (n' + 1) (o :: inside ++ k.second) := negation_value ho hp hcontinues
            exact hread ▸ hsimple
          | false =>
            -- Nothing continues the value, so it is the parenthesis alone.
            obtain ⟨hmul, hadd⟩ := no_operator hcontinues
            rw [← k.kindOf_same] at hmul hadd
            rw [exprRest_stop _ hmul hadd] at hrest
            have hmid : behind = mid' :=
              List.append_cancel_right (Prod.mk.inj (Except.ok.inj hrest)).2
            exact .inl ⟨_, hmid ▸ negation_group ho hp hcontinues⟩
        · exact .inr ⟨f, negation_failed ho hf (by simp), hfatal⟩
    · rw [negation_simple levels' true (k.kindOf_same mid ▸ hnot) (k.kindOf_same mid ▸ hopen)]
      exact hsimple

/-- What a closed value is followed by, the attempt comes to as well. -/
theorem grouped_of_value {n : Nat} {c : Token} (h : expr n (mid ++ k.first) =
    .ok (x, c :: (mid' ++ k.first))) (hc : c.kind = .symbol .closeParen) (levels' : Nat) :
    Reaches (grouped (negation levels' true) (mid ++ k.second)) (mid' ++ k.second) := by
  have hclose : showsCondition (kindOf (c :: mid' ++ k.first)) = false :=
    showsCondition_closeParen hc
  have hpart : Reaches (negation levels' true (mid ++ k.second)) (c :: mid' ++ k.second) :=
    negation_of_value h hclose levels'
  exact grouped_reaches (conditionOf_reaches hpart (k.kindOf_same (c :: mid') ▸ hclose)) hc

theorem PartStarts.negated {pre : List Token} {o : Token} (h : PartStarts pre)
    (ho : o.kind = .keyword .NOT) : PartStarts (pre ++ [o]) := by
  obtain ⟨lead, w, items, rfl, hw, hitems⟩ := h
  exact ⟨lead, w, items ++ [o], by simp, hw, hitems.negated ho⟩

theorem PartStarts.opened {pre : List Token} {o : Token} (h : PartStarts pre)
    (ho : o.kind = .symbol .openParen) : PartStarts (pre ++ [o]) := by
  obtain ⟨lead, w, items, rfl, hw, hitems⟩ := h
  exact ⟨lead, w, items ++ [o], by simp, hw, hitems.opened ho⟩

/-- **Where no value can be read behind a parenthesis, up to the token in common, no part of a
    condition can either**, or the token is excused. -/
theorem negation_fails {before pre : List Token} {o : Token} {cause : Cause}
    (hbefore : before = pre ++ o :: mid) (hpre : PartStarts pre) (ho : o.kind = .symbol .openParen)
    (hcause : cause.offends = true) (h : expr levels (mid ++ k.first) = .error ⟨k.first, cause⟩)
    (levels' : Nat) :
    (∃ f, negation levels' true (mid ++ k.second) = .error f) ∨ Excused before k.token cause := by
  induction levels using Nat.strongRecOn generalizing levels' mid pre o with
  | ind levels ih =>
    have hsimple : (∃ f, simple levels' (mid ++ k.second) = .error f) ∨
        Excused before k.token cause := by
      rcases (expr_local levels levels' mid).failure hcause h with ⟨f, hf⟩ | ⟨hminus, rfl⟩
      · exact .inl ⟨f, simple_of_error hf⟩
      · exact .inr (.sign hminus)
    by_cases hnot : kindOf (mid ++ k.first) = .keyword .NOT
    · rw [expr_not levels hnot] at h
      obtain ⟨hmid, rfl⟩ := Failure.mk.inj (Except.error.inj h)
      have hmid : mid = [] := by simpa using hmid
      subst hmid
      exact .inr (.negation hbefore hpre ho hnot)
    by_cases hopen : kindOf (mid ++ k.first) = .symbol .openParen
    · obtain ⟨n, o', inside, rfl, rfl, ho', hinside⟩ := group_fails hcause h hopen
      have hstarts : PartStarts (pre ++ [o]) := hpre.opened ho
      have hbefore' : before = (pre ++ [o]) ++ o' :: inside := by rw [hbefore]; simp
      cases levels' with
      | zero => exact .inl ⟨_, negation_zero_group ho' true _⟩
      | succ n' =>
        have hfailed : (∃ f, grouped (negation n' true) (inside ++ k.second) = .error f) →
            ∃ f, negation (n' + 1) true (o' :: inside ++ k.second) = .error f := by
          rintro ⟨f, hf⟩
          exact ⟨f, negation_failed ho' hf (by simp)⟩
        rcases hinside with he | ⟨y, hy, hclose, rfl⟩ | ⟨y, c, behind, hy, hc, he⟩
        · -- The value inside is not read, and so is not the attempt.
          rcases ih n (Nat.lt_succ_self n) hbefore' hstarts ho' he n' with ⟨f, hf⟩ | hexcused
          · exact .inl (hfailed ⟨f, grouped_failed (conditionOf_failed hf)⟩)
          · exact .inr hexcused
        · -- The value inside is not closed.
          cases hshows : showsCondition k.token.kind with
          | true => exact .inr (.condition hbefore' hstarts ho' ⟨n, y, _, hy⟩ hshows)
          | false =>
            have hy : expr n (inside ++ k.first) = .ok (y, [] ++ k.first) := hy
            have hpart := negation_of_value hy hshows n'
            exact .inl (hfailed (grouped_unclosed (conditionOf_reaches hpart hshows) hclose))
        · -- Behind the value an operator stands, and no factor behind that.
          have hcontinues : continuesValue (behind ++ k.second) = true := by
            by_contra hnone
            obtain ⟨hmul, hadd⟩ := no_operator (Bool.not_eq_true _ ▸ hnone)
            rw [← k.kindOf_same] at hmul hadd
            rw [exprRest_stop _ hmul hadd] at he
            cases he
          rcases grouped_of_value hy hc n' with ⟨p, hp⟩ | ⟨f, hf, -⟩
          · have hread : negation (n' + 1) true (o' :: inside ++ k.second) =
                simple (n' + 1) (o' :: inside ++ k.second) := negation_value ho' hp hcontinues
            exact hread ▸ hsimple
          · exact .inl (hfailed ⟨f, hf⟩)
    · rw [negation_simple levels' true (k.kindOf_same mid ▸ hnot) (k.kindOf_same mid ▸ hopen)]
      exact hsimple

end Attempt

end MiningQuery.Parse
