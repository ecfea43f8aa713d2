/-
  File:      MiningQuery/Proofs/Grammar/Backtracking.lean
  Subject:   Giving up the second reading of a parenthesis inside an attempt loses nothing.

  A parenthesis may open a condition or a value. The condition is attempted first, and an attempt
  that fails inside another attempt is not read again as a value. That is no loss: a value is also a
  condition, so where the attempt fails the second reading would fail, too.

  * `negation_of_value_alone` -- what is read as a value is read as a part of a condition as well,
    with the same levels of nesting and up to the same token;
  * **`grouped_of_simple`** -- where a simple condition opens with a parenthesis, the attempt does
    not fail;
  * `Covers` -- what one reader reads the other reads as well, or it ends where nothing can go on;
  * `exhaustive` -- the reader that tries both readings of every parenthesis to their end;
  * `negation_covered`, `exhaustive_covered` -- part by part, level by level, both read the same;
  * **`attempts_lose_nothing`** -- so they read the same conditions, as the same trees.
-/
import MiningQuery.Proofs.Grammar.Statement
import MiningQuery.Proofs.Offending.Value

namespace MiningQuery.Parse

/-! ## 1. A value is a condition -/

section Value

variable {n : Nat} {x : Expr} {o : Token} {ts rest : List Token} {p : Predicate} {f : Failure}

/-- **What is read as a value is read as a part of a condition as well**, up to the same token,
    unless that shows that a condition goes on. -/
theorem negation_of_value_alone (h : expr n ts = .ok (x, rest))
    (hstop : showsCondition (kindOf rest) = false) :
    ∃ p, negation n true ts = .ok (p, rest) := by
  induction n using Nat.strongRecOn generalizing ts x rest with
  | ind n ih =>
    by_cases hnot : kindOf ts = .keyword .NOT
    · cases (expr_not n hnot).symm.trans h
    by_cases hopen : kindOf ts = .symbol .openParen
    · obtain ⟨o, us, rfl, ho⟩ := eq_cons_of_kindOf hopen (by decide)
      cases n with
      | zero => cases (expr_zero_group ho us).symm.trans h
      | succ n =>
        rcases expr_group ho n us with ⟨f, -, he⟩ | ⟨y, vs, -, -, he⟩ | ⟨y, c, behind, hy, hc, he⟩
        · cases he.symm.trans h
        · cases he.symm.trans h
        · have hclose := showsCondition_closeParen hc
          obtain ⟨q, hq⟩ := ih n (Nat.lt_succ_self n) hy hclose
          have hgrouped : grouped (negation n true) us = .ok (q, behind) :=
            grouped_eq_ok.mpr ⟨c, conditionOf_part hq hclose, hc⟩
          cases hcontinues : continuesValue behind with
          | true =>
            rw [negation_value ho hgrouped hcontinues]
            exact ⟨_, simple_of_value h hstop⟩
          | false =>
            -- Nothing continues the value, so it is the parenthesis alone.
            obtain ⟨hmul, hadd⟩ := no_operator hcontinues
            rw [he, exprRest_stop _ hmul hadd] at h
            obtain rfl := (Prod.mk.inj (Except.ok.inj h)).2
            exact ⟨_, negation_group ho hgrouped hcontinues⟩
    · rw [negation_simple n true hnot hopen]
      exact ⟨_, simple_of_value h hstop⟩

/-- **Where a simple condition opens with a parenthesis, the attempt at a condition succeeds.** -/
theorem grouped_of_simple (ho : o.kind = .symbol .openParen)
    (h : simple (n + 1) (o :: ts) = .ok (p, rest)) :
    ∃ q us, grouped (negation n true) ts = .ok (q, us) := by
  obtain ⟨x, vs, hx, -⟩ := bind_eq_ok h
  rcases expr_group ho n ts with ⟨f, -, he⟩ | ⟨y, us, -, -, he⟩ | ⟨y, c, us, hy, hc, -⟩
  · cases he.symm.trans hx
  · cases he.symm.trans hx
  · have hclose := showsCondition_closeParen hc
    obtain ⟨q, hq⟩ := negation_of_value_alone hy hclose
    exact ⟨q, us, grouped_eq_ok.mpr ⟨c, conditionOf_part hq hclose, hc⟩⟩

/-- Where the attempt fails, so does the second reading. -/
theorem simple_of_failed_attempt (ho : o.kind = .symbol .openParen)
    (h : grouped (negation n true) ts = .error f) : ∃ f', simple (n + 1) (o :: ts) = .error f' := by
  cases hsimple : simple (n + 1) (o :: ts) with
  | error f' => exact ⟨f', rfl⟩
  | ok r =>
    obtain ⟨q, us, hq⟩ := grouped_of_simple ho hsimple
    cases h.symm.trans hq

end Value

/-! ## 2. Readers that cover others -/

/-- What the first reader reads the second reads as well, or it ends beyond what can go on. -/
def Covers {α : Type} (Beyond : List Token → Prop) (r r' : Parse α) : Prop :=
  ∀ ⦃ts x rest⦄, r ts = .ok (x, rest) → r' ts = .ok (x, rest) ∨ Beyond rest

section Covers

variable {α β ω : Type} {Beyond : List Token → Prop} {r r' : Parse α} {ts rest : List Token}
  {operator : TokenKind → Option ω} {combine : ω → α → α → α}

theorem Covers.map (h : Covers Beyond r r') (g : α → β) : Covers Beyond (g <$> r) (g <$> r') := by
  intro ts y rest hread
  obtain ⟨x, hx, rfl⟩ := map_eq_ok hread
  exact (h hx).imp_left map_of_ok

/-- The loop ends where nothing can go on, since no operator does. -/
theorem Covers.chainFrom (h : Covers Beyond r r')
    (hbeyond : ∀ {ts}, Beyond ts → operator (kindOf ts) = none) (n : Nat) (left : α) :
    Covers Beyond (chainFrom operator combine r n left)
      (chainFrom operator combine r' n left) := by
  induction n generalizing left with
  | zero => exact fun _ _ _ => .inl
  | succ n ih =>
    intro ts x rest hread
    cases ho : operator (kindOf ts) with
    | none =>
      rw [chainFrom_stop ho] at hread ⊢
      exact .inl hread
    | some op =>
      simp only [Parse.chainFrom, ho] at hread ⊢
      obtain ⟨right, mid, hright, hrest⟩ := except_bind_eq_ok hread
      rcases h hright with hsame | hend
      · rw [hsame]
        exact ih _ hrest
      · rw [chainFrom_stop (hbeyond hend)] at hrest
        cases hrest
        exact .inr hend

theorem Covers.chain (h : Covers Beyond r r')
    (hbeyond : ∀ {ts}, Beyond ts → operator (kindOf ts) = none) :
    Covers Beyond (chain operator combine r) (chain operator combine r') := by
  intro ts x rest hread
  obtain ⟨left, mid, hleft, hloop⟩ := except_bind_eq_ok hread
  dsimp only at hloop
  unfold Parse.chain
  rcases h hleft with hsame | hend
  · rw [hsame]
    exact h.chainFrom hbeyond _ _ hloop
  · rw [chainFrom_stop (hbeyond hend)] at hloop
    cases hloop
    exact .inr hend

/-- Behind what goes on with a value no connective stands. -/
theorem no_connective (h : continuesValue ts = true) :
    conjunctive? (kindOf ts) = none ∧ disjunctive? (kindOf ts) = none := by
  constructor <;> by_contra hsome
  · obtain ⟨op, hop⟩ := Option.ne_none_iff_exists'.mp hsome
    obtain ⟨rfl, hk⟩ := conjunctive_eq_some.mp hop
    simp [continuesValue, hk, LogicOp.keyword, comparison?, additive?, multiplicative?,
      negatable] at h
  · obtain ⟨op, hop⟩ := Option.ne_none_iff_exists'.mp hsome
    obtain ⟨rfl, hk⟩ := disjunctive_eq_some.mp hop
    simp [continuesValue, hk, LogicOp.keyword, comparison?, additive?, multiplicative?,
      negatable] at h

/-- Conditions and those in parentheses are covered if their parts are. -/
theorem Covers.conditionOf {negation negation' : Parse Predicate}
    (h : Covers Beyond negation negation') (hbeyond : ∀ {ts}, Beyond ts →
      conjunctive? (kindOf ts) = none ∧ disjunctive? (kindOf ts) = none) :
    Covers Beyond (Parse.conditionOf negation) (Parse.conditionOf negation') :=
  (h.chain fun hts => (hbeyond hts).1).chain fun hts => (hbeyond hts).2

/-- What stands before a closing parenthesis has come to its end. -/
theorem Covers.grouped {negation negation' : Parse Predicate} {p : Predicate}
    (h : Covers Beyond (Parse.conditionOf negation) (Parse.conditionOf negation'))
    (hbeyond : ∀ {c : Token} {ts}, c.kind = .symbol .closeParen → ¬ Beyond (c :: ts))
    (hread : Parse.grouped negation ts = .ok (p, rest)) :
    Parse.grouped negation' ts = .ok (p, rest) := by
  obtain ⟨c, hp, hc⟩ := grouped_eq_ok.mp hread
  rcases h hp with hsame | hend
  · exact grouped_eq_ok.mpr ⟨c, hsame, hc⟩
  · exact absurd hend (hbeyond hc)

end Covers

/-! ## 3. Both readings of a parenthesis -/

/-- Reads what opens with a parenthesis in each of two ways: as a condition, if no value goes on
    behind it, as a simple condition else, and at last as a condition for all that. -/
def eitherWay (condition simple : Parse Predicate) : Parse Predicate := fun ts =>
  match condition ts.tail with
  | .error _ => simple ts
  | .ok (p, rest) =>
    if continuesValue rest then
      match simple ts with
      | .ok r => .ok r
      | .error _ => .ok (.paren p, rest)
    else .ok (.paren p, rest)

/-- Reads a negation, or what opens with a parenthesis in either way, or a simple condition; `inner`
    reads the negations one level further inside. -/
def exhaustiveStep (inner : Option (Parse Predicate)) (simple : Parse Predicate) :
    Parse Predicate := fun ts =>
  match kindOf ts, inner with
  | .keyword .NOT, some negation => (Predicate.not <$> negation) ts.tail
  | .keyword .NOT, none => tooDeep ts.tail
  | .symbol .openParen, none => tooDeep ts
  | .symbol .openParen, some negation => eitherWay (grouped negation) simple ts
  | _, _ => simple ts

/-- Reads a negation with both readings of every parenthesis. -/
def exhaustive : Nat → Parse Predicate
  | 0, ts => exhaustiveStep none (simple 0) ts
  | n + 1, ts => exhaustiveStep (some (exhaustive n)) (simple (n + 1)) ts

section Exhaustive

variable {n : Nat} {attempting : Bool} {o : Token} {ts rest : List Token} {p : Predicate}

theorem exhaustive_simple (n : Nat) (hnot : kindOf ts ≠ .keyword .NOT)
    (hopen : kindOf ts ≠ .symbol .openParen) : exhaustive n ts = simple n ts := by
  cases n <;> unfold exhaustive exhaustiveStep <;> split <;> first | contradiction | rfl

theorem exhaustive_not (h : kindOf ts = .keyword .NOT) :
    exhaustive (n + 1) ts = (Predicate.not <$> exhaustive n) ts.tail := by
  simp only [exhaustive, exhaustiveStep, h]

theorem exhaustive_group (ho : o.kind = .symbol .openParen) :
    exhaustive (n + 1) (o :: ts) =
      eitherWay (grouped (exhaustive n)) (simple (n + 1)) (o :: ts) := by
  simp only [exhaustive, exhaustiveStep, kindOf_cons, ho]

/-- Without levels of nesting both readers are the same. -/
theorem exhaustive_zero (attempting : Bool) : exhaustive 0 = negation 0 attempting := by
  funext ts
  unfold exhaustive negation exhaustiveStep negationStep
  split <;> simp_all

/-- **A part that is read is read by trying both ways.** -/
theorem negation_covered (n : Nat) (attempting : Bool) :
    Covers (fun _ => False) (negation n attempting) (exhaustive n) := by
  induction n generalizing attempting with
  | zero =>
    rw [exhaustive_zero attempting]
    exact fun _ _ _ => .inl
  | succ n ih =>
    intro ts p rest hread
    by_cases hnot : kindOf ts = .keyword .NOT
    · rw [negation_not hnot] at hread
      rw [exhaustive_not hnot]
      exact (ih attempting).map _ hread
    by_cases hopen : kindOf ts = .symbol .openParen
    · obtain ⟨o, us, rfl, ho⟩ := eq_cons_of_kindOf hopen (by decide)
      rw [exhaustive_group ho]
      unfold eitherWay
      cases hattempt : grouped (negation n true) us with
      | error f =>
        -- The second reading fails, too, if there is one.
        obtain ⟨f', hf'⟩ := simple_of_failed_attempt ho hattempt
        cases hfatal : f.fatal || attempting with
        | true => cases (negation_failed ho hattempt hfatal).symm.trans hread
        | false =>
          obtain ⟨hnonfatal, rfl⟩ := Bool.or_eq_false_iff.mp hfatal
          rw [negation_given_up ho hattempt hnonfatal] at hread
          cases hf'.symm.trans hread
      | ok r =>
        obtain ⟨q, vs⟩ := r
        have hsame : grouped (exhaustive n) us = .ok (q, vs) :=
          ((ih true).conditionOf False.elim).grouped (fun _ => id) hattempt
        cases hcontinues : continuesValue vs with
        | true =>
          rw [negation_value ho hattempt hcontinues] at hread
          simp [hsame, hcontinues, hread]
        | false =>
          rw [negation_group ho hattempt hcontinues] at hread
          simp [hsame, hcontinues, hread]
    · rw [negation_simple _ _ hnot hopen] at hread
      rw [exhaustive_simple _ hnot hopen]
      exact .inl hread

/-- **What is read by trying both ways is read**, or what follows goes on with a value, which
    nothing that may follow does. -/
theorem exhaustive_covered (n : Nat) (attempting : Bool) :
    Covers (fun rest => continuesValue rest = true) (exhaustive n) (negation n attempting) := by
  induction n generalizing attempting with
  | zero =>
    rw [exhaustive_zero attempting]
    exact fun _ _ _ => .inl
  | succ n ih =>
    intro ts p rest hread
    by_cases hnot : kindOf ts = .keyword .NOT
    · rw [exhaustive_not hnot] at hread
      rw [negation_not hnot]
      exact (ih attempting).map _ hread
    by_cases hopen : kindOf ts = .symbol .openParen
    · obtain ⟨o, us, rfl, ho⟩ := eq_cons_of_kindOf hopen (by decide)
      rw [exhaustive_group ho] at hread
      unfold eitherWay at hread
      cases hattempt : grouped (exhaustive n) us with
      | error f =>
        -- If the second reading succeeds, so does the attempt, with both ways tried or not.
        simp only [List.tail_cons, hattempt] at hread
        obtain ⟨q, vs, hq⟩ := grouped_of_simple ho hread
        have hsame : grouped (exhaustive n) us = .ok (q, vs) :=
          ((negation_covered n true).conditionOf False.elim).grouped (fun _ => id) hq
        cases hattempt.symm.trans hsame
      | ok r =>
        obtain ⟨q, vs⟩ := r
        have hsame : grouped (negation n true) us = .ok (q, vs) :=
          ((ih true).conditionOf no_connective).grouped (fun hc h => by
            simp [continuesValue, hc, comparison?, additive?, multiplicative?, negatable] at h)
            hattempt
        simp only [List.tail_cons, hattempt] at hread
        cases hcontinues : continuesValue vs with
        | true =>
          rw [negation_value ho hsame hcontinues]
          rw [if_pos hcontinues] at hread
          cases hsimple : simple (n + 1) (o :: us) with
          | ok r =>
            rw [hsimple] at hread
            exact .inl hread
          | error f =>
            rw [hsimple] at hread
            cases hread
            exact .inr hcontinues
        | false =>
          rw [negation_group ho hsame hcontinues]
          rw [if_neg (Bool.not_eq_true _ ▸ hcontinues)] at hread
          exact .inl hread
    · rw [exhaustive_simple _ hnot hopen] at hread
      rw [negation_simple _ _ hnot hopen]
      exact .inl hread

end Exhaustive

/-! ## 4. Conditions -/

section Condition

variable {later : List Clause} {p : Predicate} {ts rest : List Token}

/-- **The same conditions are read by trying both ways**, as the same trees, unless what follows
    goes on with a value. -/
theorem condition_iff_exhaustive (n : Nat) (attempting : Bool)
    (hrest : continuesValue rest = false) :
    conditionOf (negation n attempting) ts = .ok (p, rest) ↔
      conditionOf (exhaustive n) ts = .ok (p, rest) := by
  constructor
  · intro h
    exact ((negation_covered n attempting).conditionOf False.elim h).resolve_right id
  · intro h
    refine ((exhaustive_covered n attempting).conditionOf no_connective h).resolve_right ?_
    rw [hrest]
    exact nofun

/-- Behind a clause that leaves nothing over no value goes on. -/
theorem not_continues_of_leftover (h : Clause.leftover later rest = none) :
    continuesValue rest = false := by
  have hstop : ClauseStop rest := by
    cases rest with
    | nil => exact List.mem_cons_self
    | cons t rest => exact Clause.mem_clauseEnd (Clause.leftover_cons.mp h)
  have hpart : NegationStop rest := .tail _ (.tail _ hstop.condition)
  exact hpart.not_continues

/-- A condition clause has no error if and only if its condition is read and leaves nothing over. -/
theorem ofSegment_condition_iff {limit : Nat} :
    ClauseReading.ofSegment limit .condition later ts = ⟨some (.condition p), none⟩ ↔
      ∃ rest, condition limit ts = .ok (p, rest) ∧ Clause.leftover later rest = none := by
  unfold ClauseReading.ofSegment
  constructor
  · intro h
    split at h
    · rename_i content rest hcontent
      obtain ⟨hsome, hleft⟩ := ClauseReading.mk.inj h
      obtain ⟨q, us, hq, hpure⟩ := bind_eq_ok hcontent
      obtain ⟨rfl, rfl⟩ := pure_eq_ok hpure
      cases hsome
      exact ⟨us, hq, hleft⟩
    · cases h
  · rintro ⟨rest, hread, hleft⟩
    have hcontent : Clause.content limit .condition ts = .ok (.condition p, rest) :=
      bind_of_ok hread
    simp only [hcontent, hleft]

/-- **Giving up the second reading inside an attempt loses nothing.** Where an attempt fails, the
    second reading fails; where it succeeds but a value goes on behind it, the second reading
    decides. So trying both ways at every parenthesis, on every level, reads the same conditions as
    the same trees, and finds the same clauses without an error. -/
theorem attempts_lose_nothing (n : Nat) :
    (∀ o ts f, o.kind = .symbol .openParen → grouped (negation n true) ts = .error f →
      ∃ f', simple (n + 1) (o :: ts) = .error f') ∧
    (∀ o ts p rest attempting, o.kind = .symbol .openParen →
      grouped (negation n true) ts = .ok (p, rest) → continuesValue rest = true →
      negation (n + 1) attempting (o :: ts) = simple (n + 1) (o :: ts)) ∧
    (∀ ts p rest attempting, continuesValue rest = false →
      (conditionOf (negation n attempting) ts = .ok (p, rest) ↔
        conditionOf (exhaustive n) ts = .ok (p, rest))) ∧
    ∀ later ts p, ClauseReading.ofSegment n .condition later ts = ⟨some (.condition p), none⟩ ↔
      ∃ rest, conditionOf (exhaustive n) ts = .ok (p, rest) ∧
        Clause.leftover later rest = none := by
  refine ⟨fun _ _ _ => simple_of_failed_attempt, fun _ _ _ _ _ => negation_value,
    fun _ _ _ attempting => condition_iff_exhaustive n attempting, fun later ts p => ?_⟩
  rw [ofSegment_condition_iff]
  refine exists_congr fun rest => and_congr_left fun hleft => ?_
  exact condition_iff_exhaustive n false (not_continues_of_leftover hleft)

/-- The attempt inside fails and is not read again, and nor would the one outside be read. -/
theorem attempts_lose_nothing_nested :
    let o : Token := ⟨.symbol .openParen, ascii "(", .start⟩
    let ts := (lex (ascii "(a < b) < 1)")).tokens
    ∃ f f', grouped (negation 2 true) ts = .error f ∧ simple 3 (o :: ts) = .error f' := by
  intro o ts
  have hfails : (grouped (negation 2 true) ts).isOk = false := by decide +kernel
  cases hattempt : grouped (negation 2 true) ts with
  | error f =>
    obtain ⟨f', hf'⟩ := (attempts_lose_nothing 2).1 o ts f rfl hattempt
    exact ⟨f, f', rfl, hf'⟩
  | ok r =>
    rw [hattempt] at hfails
    cases hfails

end Condition

end MiningQuery.Parse
