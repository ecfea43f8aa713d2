/-
  File:      MiningQuery/Proofs/Limit/Halting.lean
  Subject:   Where a limit of nesting halts the reading of a well-formed condition.

  A condition that nests deeper than the limit is halted at the first token that is too deep. What
  stands before this token is read as it would be without the limit, so that the failure comes up
  where the reader of the condition has arrived.

  * `Halts` -- on tokens that are too deep a reader is halted at the first that is;
  * `chain_halts`, `values_halts` -- so are chains and lists, if their items are;
  * **`factor_halts`**, **`expr_halts`** -- so are values;
  * `negation_of_halted` -- where a simple condition is halted, so is the attempt to read it as a
    condition in parentheses;
  * `not_halts`, `group_halts` -- so are the two rules that open a level;
  * **`negation_halts`**, **`condition_halts`** -- so are conditions.
-/
import MiningQuery.Proofs.Grammar.Backtracking
import MiningQuery.Proofs.Limit.Levels

namespace MiningQuery

/-- A limit that no token exceeds may stand in the place of another one. -/
theorem Expr.Written.under {m n : Nat} {e : Expr} {ts : List Token} (h : e.Written m ts)
    (hn : ¬ Exceeds n e.levels) : e.Written n ts :=
  ⟨h.canonical, h.lexical, Nat.not_lt.mp (mt (e.exceeds_iff n).mpr hn), h.spells⟩

theorem Predicate.Written.under {m n : Nat} {p : Predicate} {ts : List Token}
    (h : p.Written m ts) (hn : ¬ Exceeds n p.levels) : p.Written n ts :=
  ⟨h.canonical, h.lexical, Nat.not_lt.mp (mt (p.exceeds_iff n).mpr hn), h.spells⟩

theorem Expr.Written.length_levels {n : Nat} {e : Expr} {ts : List Token} (h : e.Written n ts) :
    e.levels.length = ts.length := by
  rw [Expr.length_levels, h.spells.length_eq]

theorem Predicate.Written.length_levels {n : Nat} {p : Predicate} {ts : List Token}
    (h : p.Written n ts) : p.levels.length = ts.length := by
  rw [Predicate.length_levels, h.spells.length_eq]

namespace Parse

variable {α ω : Type} {n N : Nat}

/-! ## 1. Readers -/

/-- Where the tokens of a value are too deep, the reader is halted at the first that is, whatever
    follows them. -/
def Halts (limit : Nat) (r : Parse α) (W : α → List Token → Prop) (levels : α → List Nat) : Prop :=
  ∀ ⦃x ts⦄, W x ts → Exceeds limit (levels x) → ∀ rest,
    r (ts ++ rest) = tooDeep (firstDeeper limit (levels x) ts ++ rest)

section Repetition

variable {operator : TokenKind → Option ω} {combine : ω → α → α → α} {item : Parse α}
  {V W : α → List Token → Prop} {Stop : List Token → Prop} {levels : α → List Nat}

/-- **A chain is halted where one of its items is.** What stands before the item is read. -/
theorem chain_halts (hitem : Halts n item V levels) (hreads : Reads item W Stop)
    (hop : ∀ o ts, (operator o.kind).isSome → Stop (o :: ts))
    (hunder : ∀ {x ts}, Chained operator combine V x ts → ¬ Exceeds n (levels x) →
      Chained operator combine W x ts)
    (hlength : ∀ {x ts}, Chained operator combine V x ts → (levels x).length = ts.length)
    (hcombine : ∀ op l r, levels (combine op l r) = levels l ++ 0 :: levels r) :
    Halts n (chain operator combine item) (Chained operator combine V) levels := by
  intro x ts h
  induction h with
  | one hx => exact fun hdeep rest => chain_of_error (hitem hx hdeep rest)
  | @more left right ts us o op hl ho hr ih =>
    intro hdeep rest
    rw [hcombine] at hdeep ⊢
    by_cases hleft : Exceeds n (levels left)
    · rw [firstDeeper_append_left hleft (hlength hl), List.append_assoc, List.append_assoc]
      exact ih hleft _
    · have hright : Exceeds n (levels right) :=
        exceeds_zero_cons.mp ((exceeds_append.mp hdeep).resolve_left hleft)
      obtain ⟨k, hk, hloop⟩ := chain_append hreads hop (hunder hl hleft) (hop o (us ++ rest)
        (by simp [ho]))
      obtain ⟨k, rfl⟩ : ∃ k', k = k' + 1 := ⟨k - 1, by simp at hk; omega⟩
      rw [firstDeeper_append_right hleft (hlength hl), firstDeeper_zero_cons, List.append_assoc,
        List.cons_append, hloop, chainFrom]
      simp only [kindOf_cons, ho, List.tail_cons, hitem hr hright rest]
      rfl

end Repetition

/-! ## 2. Values -/

/-- If the factors are halted, then so are the expressions. -/
theorem exprOf_halts {item : Parse Expr} (hreads : Reads item (FactorWritten n) FactorStop)
    (hitem : Halts n item (FactorWritten N) Expr.levels) :
    Halts n (exprOf item) (Expr.Written N) Expr.levels := by
  have hterm : Halts n (chain multiplicative? .arith item) (TermWritten N) Expr.levels := by
    intro e ts he
    refine chain_halts hitem hreads multiplicative_stop ?_ ?_ (fun _ _ _ => rfl)
      (chained_factor_iff.mpr he)
    · intro e ts h hdeep
      obtain ⟨hsum, hw⟩ := chained_factor_iff.mp h
      exact chained_factor_iff.mpr ⟨hsum, hw.under hdeep⟩
    · exact fun h => (chained_factor_iff.mp h).2.length_levels
  intro e ts he
  refine chain_halts hterm (term_reads hreads) additive_stop ?_ ?_ (fun _ _ _ => rfl)
    (chained_term_iff.mpr he)
  · exact fun h hdeep => chained_term_iff.mpr ((chained_term_iff.mp h).under hdeep)
  · exact fun h => (chained_term_iff.mp h).length_levels

section Level

variable {item : Parse Expr} {e : Expr} {us : List Token}

/-- A value in parentheses is halted where the value is. -/
theorem parenthesized_halts (hreads : Reads item (FactorWritten n) FactorStop)
    (hitem : Halts n item (FactorWritten N) Expr.levels) (he : e.Written N us)
    (hdeep : Exceeds n e.levels) (rest : List Token) :
    parenthesized item (us ++ rest) = tooDeep (firstDeeper n e.levels us ++ rest) :=
  bind_of_error (exprOf_halts hreads hitem he hdeep rest)

theorem aggregateCall_halts (function : Text) (hreads : Reads item (FactorWritten n) FactorStop)
    (hitem : Halts n item (FactorWritten N) Expr.levels) (he : e.Written N us)
    (hdeep : Exceeds n e.levels) (rest : List Token) :
    aggregateCall function item (us ++ rest) = tooDeep (firstDeeper n e.levels us ++ rest) := by
  rw [aggregateCall, bind_of_ok (accept_of_ne (ne_star_of_spells he.spells rest))]
  exact bind_of_error (exprOf_halts hreads hitem he hdeep rest)

end Level

/-- **A value that is too deep is halted at its first token that is.** -/
theorem factor_halts (n N : Nat) : Halts n (factor n) (FactorWritten N) Expr.levels := by
  induction n using Nat.strongRecOn with
  | ind n ih =>
    intro e ts h hdeep rest
    obtain ⟨harith, hc, hl, hd, hs⟩ := h
    have hlt : n < e.depth := (e.exceeds_iff n).mp hdeep
    cases e with
    | arith => cases harith
    | literal | column => exact absurd hlt (Nat.not_lt_zero n)
    | aggregateAll f =>
      obtain ⟨t, o, s, c, rfl, ⟨hk, rfl⟩, ho, -⟩ := spells_aggregateAll.mp hs
      have hagg : isAggregate t.text = true := (Bool.and_eq_true_iff.mp hl).2
      obtain rfl : n = 0 := Nat.lt_one_iff.mp hlt
      simp [factor, factorStep, hk, hagg, ho, Expr.levels, firstDeeper_cons_of_lt]
    | aggregate f e =>
      obtain ⟨t, o, us, c, rfl, ⟨hk, rfl⟩, ho, he, -⟩ := spells_aggregate.mp hs
      simp only [Expr.isLexical, Bool.and_eq_true] at hl
      cases n with
      | zero => simp [factor, factorStep, hk, hl.1.2, ho, Expr.levels, firstDeeper_cons_of_lt]
      | succ n =>
        have he : e.Written N us := ⟨hc, hl.2, Nat.le_of_succ_le hd, he⟩
        have hinner : Exceeds n e.levels := (e.exceeds_iff n).mpr (Nat.lt_of_succ_lt_succ hlt)
        rw [Expr.levels, firstDeeper_cons_of_le (by omega),
          firstDeeper_enclosed hinner he.length_levels]
        simp only [List.cons_append, List.append_assoc, List.nil_append, factor, factorStep, hk,
          hl.1.2, kindOf_cons, ho, decide_true, Bool.and_true, if_true, List.tail_cons]
        exact aggregateCall_halts t.text (factor_reads n) (ih n (Nat.lt_succ_self n)) he hinner _
    | paren e =>
      obtain ⟨o, us, c, rfl, ho, he, -⟩ := spells_paren.mp hs
      cases n with
      | zero => simp [factor, factorStep, ho, Expr.levels, firstDeeper_cons_of_lt]
      | succ n =>
        have he : e.Written N us := ⟨hc, hl, Nat.le_of_succ_le hd, he⟩
        have hinner : Exceeds n e.levels := (e.exceeds_iff n).mpr (Nat.lt_of_succ_lt_succ hlt)
        rw [Expr.levels, firstDeeper_enclosed hinner he.length_levels]
        simp only [List.cons_append, List.append_assoc, List.nil_append, factor, factorStep, ho]
        exact parenthesized_halts (factor_reads n) (ih n (Nat.lt_succ_self n)) he hinner _

theorem expr_halts (n N : Nat) : Halts n (expr n) (Expr.Written N) Expr.levels :=
  exprOf_halts (factor_reads n) (factor_halts n N)

/-! ## 3. Simple conditions -/

section Values

variable {values : List Expr} {ts : List Token}

theorem ne_nil_of_listed {W : α → List Token → Prop} {xs : List α} (h : Listed W xs ts) :
    xs ≠ [] := by
  cases h <;> exact List.cons_ne_nil _ _

/-- A value before a comma is read, if it is not too deep. -/
theorem expr_before_comma {e : Expr} {c : Token} (he : e.Written N ts)
    (hdeep : ¬ Exceeds n e.levels) (hc : c.kind = .symbol .comma) (rest : List Token) :
    expr n (ts ++ c :: rest) = .ok (e, c :: rest) :=
  (expr_reads n).complete (he.under hdeep)
    (by simp [ExprStop, FactorStop, hc, multiplicative?, additive?])

/-- A list is halted where one of its values is, if there are rounds enough for the commas. -/
theorem listing_halts (h : Listed (Expr.Written N) values ts)
    (hdeep : Exceeds n (Predicate.valueLevels values)) (rest : List Token)
    (rounds : List Token → Nat) (hrounds : ∀ us, us <:+ ts ++ rest → us.length ≤ rounds us) :
    (do let (x, mid) ← expr n (ts ++ rest)
        let (xs, last) ← commaListFrom (expr n) (rounds mid) mid
        .ok (x :: xs, last)) =
      tooDeep (firstDeeper n (Predicate.valueLevels values) ts ++ rest) := by
  induction h generalizing rounds with
  | one hx =>
    rw [expr_halts n N hx hdeep rest]
    rfl
  | @more x xs ts us c hx hc hxs ih =>
    rw [Predicate.valueLevels_cons x (ne_nil_of_listed hxs)] at hdeep ⊢
    rw [List.append_assoc, List.cons_append] at hrounds ⊢
    by_cases hfirst : Exceeds n x.levels
    · rw [firstDeeper_append_left hfirst hx.length_levels, expr_halts n N hx hfirst,
        List.append_assoc]
      rfl
    · have hbehind := hrounds (c :: (us ++ rest)) (List.suffix_append _ _)
      obtain ⟨k, hk⟩ : ∃ k, rounds (c :: (us ++ rest)) = k + 1 :=
        ⟨rounds (c :: (us ++ rest)) - 1, by rw [List.length_cons] at hbehind; omega⟩
      rw [List.length_cons] at hbehind
      have hread := ih (exceeds_zero_cons.mp ((exceeds_append.mp hdeep).resolve_left hfirst))
        (fun _ => k) fun vs hvs => Nat.le_trans hvs.length_le (by omega)
      rw [expr_before_comma hx hfirst hc, firstDeeper_append_right hfirst hx.length_levels,
        firstDeeper_zero_cons]
      simp only [bind, Except.bind, hk, commaListFrom, kindOf_cons, hc, if_true, List.tail_cons]
      simp only [bind, Except.bind] at hread
      rw [hread]
      rfl

theorem values_halts (n N : Nat) :
    Halts n (commaList (expr n)) (Listed (Expr.Written N)) Predicate.valueLevels :=
  fun _ _ h hdeep rest => listing_halts h hdeep rest _ fun _ _ => Nat.le_refl _

end Values

section Simple

variable {negated : Bool} {x : Expr} {p : Predicate} {ts : List Token}

/-- What is said of a subject is halted at its first token that is too deep, behind the subject and
    the `NOT` if there is one. -/
theorem negatableTail_halts (h : NegatableWritten N negated x p ts) :
    ∃ ls, p.levels = x.levels ++ (flatLevels (Predicate.notLexemes negated) ++ ls) ∧
      ls.length = ts.length ∧ (Exceeds n ls → ∀ rest,
        negatableTail (expr n) negated x (ts ++ rest) = tooDeep (firstDeeper n ls ts ++ rest)) := by
  cases h with
  | @between low high b a us vs hb hl ha hh =>
    refine ⟨0 :: (low.levels ++ 0 :: high.levels), rfl, ?_, fun hdeep rest => ?_⟩
    · simp [hl.length_levels, hh.length_levels]
    · rw [exceeds_zero_cons, exceeds_append, exceeds_zero_cons] at hdeep
      simp only [List.cons_append, negatableTail, kindOf_cons, hb, List.tail_cons,
        firstDeeper_zero_cons]
      by_cases hlow : Exceeds n low.levels
      · rw [firstDeeper_append_left hlow hl.length_levels, List.append_assoc, List.append_assoc]
        exact bind_of_error (expr_halts n N hl hlow _)
      · have hstop : ExprStop (a :: (vs ++ rest)) := by
          simp [ExprStop, FactorStop, ha, multiplicative?, additive?]
        rw [firstDeeper_append_right hlow hl.length_levels, firstDeeper_zero_cons,
          List.append_assoc, List.cons_append, between,
          bind_of_ok ((expr_reads n).complete (hl.under hlow) hstop), bind_of_ok (word_cons ha _)]
        exact bind_of_error (expr_halts n N hh (hdeep.resolve_left hlow) rest)
  | like => exact ⟨[0, 0], rfl, rfl, fun hdeep => absurd hdeep (by simp)⟩
  | @inList values i o c us hi ho hv hc =>
    refine ⟨0 :: 0 :: (Predicate.valueLevels values ++ [0]), rfl, ?_, fun hdeep rest => ?_⟩
    · have hlength := (listed_iff.mp hv).2.2.length_eq
      simp [hlength]
    · have hvalues : Exceeds n (Predicate.valueLevels values) := by
        simpa [exceeds_append] using hdeep
      have hlength : (Predicate.valueLevels values).length = us.length := by
        rw [Predicate.length_valueLevels, (listed_iff.mp hv).2.2.length_eq]
      simp only [List.cons_append, negatableTail, kindOf_cons, hi, List.tail_cons,
        firstDeeper_zero_cons]
      rw [firstDeeper_append_left hvalues hlength, List.append_assoc, List.append_assoc, inList,
        bind_of_ok (sign_cons ho _)]
      exact bind_of_error (values_halts n N hv hvalues _)

theorem simpleTail_halts (h : TailWritten N x p ts) :
    ∃ ls, p.levels = x.levels ++ ls ∧ ls.length = ts.length ∧ (Exceeds n ls → ∀ rest,
      simpleTail (expr n) x (ts ++ rest) = tooDeep (firstDeeper n ls ts ++ rest)) := by
  cases h with
  | @compare op r o us ho hr =>
    refine ⟨0 :: r.levels, rfl, by simp [hr.length_levels], fun hdeep rest => ?_⟩
    simp only [List.cons_append, simpleTail, kindOf_cons, ho, List.tail_cons,
      firstDeeper_zero_cons]
    exact map_of_error (expr_halts n N hr (exceeds_zero_cons.mp hdeep) rest)
  | @isNull negated i w ns hi hns hw =>
    refine ⟨_, rfl, ?_, fun hdeep => absurd hdeep (by simp [exceeds_append])⟩
    have hlength := hns.length_eq
    simp [hlength]
  | @negatable negated p ns us hns hu =>
    obtain ⟨ls, hlevels, hlength, hhalts⟩ := negatableTail_halts hu
    have hnot : (flatLevels (Predicate.notLexemes negated)).length = ns.length := by
      rw [length_flatLevels, hns.length_eq]
    refine ⟨_, hlevels, by simp [hlength, hns.length_eq], fun hdeep rest => ?_⟩
    have hdeep' := (exceeds_append.mp hdeep).resolve_left (not_exceeds_flatLevels _)
    rw [firstDeeper_append_right (not_exceeds_flatLevels _) hnot, List.append_assoc,
      simpleTail_negatable hns (hu.head rest)]
    exact hhalts hdeep' rest
  | value => exact ⟨[], (List.append_nil _).symm, rfl, fun hdeep => absurd hdeep (by simp)⟩

/-- A simple condition is halted at its first token that is too deep. -/
theorem simple_halts (n N : Nat) : Halts n (simple n) (SimpleWritten N) Predicate.levels := by
  rintro p ts ⟨x, us, vs, rfl, hx, htail⟩ hdeep rest
  obtain ⟨ls, hlevels, hlength, hhalts⟩ := simpleTail_halts htail
  rw [hlevels] at hdeep ⊢
  by_cases hsubject : Exceeds n x.levels
  · rw [firstDeeper_append_left hsubject hx.length_levels, List.append_assoc, List.append_assoc]
    exact simple_of_error (expr_halts n N hx hsubject _)
  · have hls := (exceeds_append.mp hdeep).resolve_left hsubject
    -- behind the subject stands what is too deep, so that its end does not depend on the rest
    have hstop : ExprStop (vs ++ rest) := by
      have hnil : NegationStop [] := by
        rw [NegationStop]
        decide
      have hend := htail.exprStop hnil
      cases vs with
      | nil =>
        rw [List.length_eq_zero_iff.mp hlength] at hls
        exact absurd hls not_exceeds_nil
      | cons v vs => exact hend
    rw [firstDeeper_append_right hsubject hx.length_levels, List.append_assoc, simple, simpleOf,
      bind_of_ok ((expr_reads n).complete (hx.under hsubject) hstop)]
    exact hhalts hls rest

end Simple

/-! ## 4. Conditions -/

section Attempt

variable {ts : List Token} {f : Failure}

/-- Where nothing shows that a value goes on, what is said of it is not halted. -/
theorem simpleTail_not_fatal {expr : Parse Expr} {x : Expr} (hcontinues : continuesValue ts = false)
    (h : simpleTail expr x ts = .error f) : f.fatal = false := by
  simp only [continuesValue, Bool.or_eq_false_iff, Option.isSome_eq_false_iff,
    Option.isNone_iff_eq_none, decide_eq_false_iff_not] at hcontinues
  obtain ⟨⟨⟨⟨⟨hcompare, -⟩, -⟩, his⟩, hnegatable⟩, hnot⟩ := hcontinues
  simp only [simpleTail, hcompare] at h
  split at h
  · exact absurd ‹_› his
  · rename_i hk
    rw [hk] at hnot
    simp only [decide_true, Bool.true_and] at hnot
    rw [hnot] at h
    cases h
    rfl
  · rw [negatableTail_value (by simpa using hnegatable)] at h
    cases h

/-- **Where a simple condition is halted, so is every way to read it.** An attempt that comes to its
    end is taken back, as what is too deep stands behind it, and one that does not is halted as the
    value in it is. -/
theorem negation_of_halted (h : simple n ts = .error f) (hf : f.fatal = true)
    (attempting : Bool) : negation n attempting ts = .error f := by
  induction n using Nat.strongRecOn generalizing ts attempting with
  | ind n ih =>
    have hmatched : ∀ {us names}, simple n ts ≠ .error ⟨us, .mismatched names⟩ := by
      intro us names hmismatch
      rw [Except.error.inj (h.symm.trans hmismatch)] at hf
      cases hf
    by_cases hnot : kindOf ts = .keyword .NOT
    · exact absurd (simple_of_error (expr_not n hnot)) hmatched
    by_cases hopen : kindOf ts = .symbol .openParen
    · obtain ⟨o, us, rfl, ho⟩ := eq_cons_of_kindOf hopen (by decide)
      cases n with
      | zero =>
        rw [negation_zero_group ho, ← h]
        exact (simple_of_error (expr_zero_group ho us)).symm
      | succ n =>
        rcases expr_group ho n us with
          ⟨g, hvalue, he⟩ | ⟨x, vs, -, -, he⟩ | ⟨x, c, behind, hvalue, hc, he⟩
        · obtain rfl := Except.error.inj ((simple_of_error he).symm.trans h)
          have hpart := ih n (Nat.lt_succ_self n) (simple_of_error hvalue) true
          exact negation_failed ho (grouped_failed (conditionOf_failed hpart)) (by simp [hf])
        · exact absurd (simple_of_error he) hmatched
        · have hclose := showsCondition_closeParen hc
          obtain ⟨q, hq⟩ := negation_of_value_alone hvalue hclose
          have hgrouped := grouped_eq_ok.mpr ⟨c, conditionOf_part hq hclose, hc⟩
          cases hcontinues : continuesValue behind with
          | true =>
            rw [negation_value ho hgrouped hcontinues]
            exact h
          | false =>
            -- Nothing is said of the parenthesis, so that nothing can be too deep behind it.
            obtain ⟨hmul, hadd⟩ := no_operator hcontinues
            rw [exprRest_stop _ hmul hadd] at he
            have htail := (bind_of_ok he).symm.trans h
            rw [simpleTail_not_fatal hcontinues htail] at hf
            cases hf
    · rw [negation_simple n attempting hnot hopen]
      exact h

end Attempt

/-- If the parts are halted, then so are the conditions. -/
theorem conditionOf_halts {item : Parse Predicate}
    (hreads : Reads item (NegationWritten n) NegationStop)
    (hitem : Halts n item (NegationWritten N) Predicate.levels) :
    Halts n (conditionOf item) (Predicate.Written N) Predicate.levels := by
  have hconjunction : Halts n (chain conjunctive? .logical item) (ConjunctionWritten N)
      Predicate.levels := by
    intro p ts hp
    refine chain_halts hitem hreads conjunctive_stop ?_ ?_ (fun _ _ _ => rfl)
      (chained_negation_iff.mpr hp)
    · intro p ts h hdeep
      obtain ⟨hdisjunction, hw⟩ := chained_negation_iff.mp h
      exact chained_negation_iff.mpr ⟨hdisjunction, hw.under hdeep⟩
    · exact fun h => (chained_negation_iff.mp h).2.length_levels
  intro p ts hp
  refine chain_halts hconjunction (conjunction_reads hreads) disjunctive_stop ?_ ?_
    (fun _ _ _ => rfl) (chained_conjunction_iff.mpr hp)
  · exact fun h hdeep => chained_conjunction_iff.mpr ((chained_conjunction_iff.mp h).under hdeep)
  · exact fun h => (chained_conjunction_iff.mp h).length_levels

section Level

variable {attempting : Bool} {p : Predicate} {ts : List Token}

/-- Behind a `NOT` the reading is halted where what is negated is, or at once. -/
theorem not_halts (hinner : ∀ m, n = m + 1 →
      Halts m (negation m attempting) (NegationWritten N) Predicate.levels)
    (h : (Predicate.not p).Written N ts) (hdeep : Exceeds n (Predicate.not p).levels)
    (rest : List Token) :
    negation n attempting (ts ++ rest) =
      tooDeep (firstDeeper n (Predicate.not p).levels ts ++ rest) := by
  obtain ⟨hc, hl, hd, hs⟩ := h
  simp only [Predicate.isCanonical, Bool.and_eq_true, Bool.not_eq_true'] at hc
  simp only [Predicate.lexemes, spells_cons, Lexeme.word_spells] at hs
  obtain ⟨t, us, rfl, ht, hs⟩ := hs
  rw [Predicate.levels, exceeds_zero_cons] at hdeep
  rw [Predicate.levels, firstDeeper_zero_cons, List.cons_append]
  cases n with
  | zero =>
    obtain ⟨l, ls, hlevels⟩ := List.exists_cons_of_ne_nil p.levels_ne_nil
    have hfirst : firstDeeper 0 (innerLevels p.levels) us = us := by
      rw [hlevels]
      exact firstDeeper_cons_of_lt (Nat.succ_pos l)
    rw [negation_zero_not (by rw [kindOf_cons, ht]), hfirst]
    rfl
  | succ n =>
    have hp : NegationWritten N p us := ⟨hc.2, hc.1, hl, Nat.le_of_succ_le hd, hs⟩
    rw [negation_not (by rw [kindOf_cons, ht]), firstDeeper_innerLevels]
    exact map_of_error (hinner n rfl hp (exceeds_innerLevels.mp hdeep) rest)

/-- A condition in parentheses is halted where the condition is, or at the parenthesis. -/
theorem group_halts (hinner : ∀ m, n = m + 1 →
      Halts m (negation m true) (NegationWritten N) Predicate.levels)
    (h : (Predicate.paren p).Written N ts) (hdeep : Exceeds n (Predicate.paren p).levels)
    (rest : List Token) :
    negation n attempting (ts ++ rest) =
      tooDeep (firstDeeper n (Predicate.paren p).levels ts ++ rest) := by
  obtain ⟨hc, hl, hd, hs⟩ := h
  simp only [Predicate.lexemes, spells_cons, spells_append, spells_nil,
    Lexeme.sign_spells] at hs
  obtain ⟨o, _, rfl, ho, us, _, rfl, hs, c, _, rfl, -, rfl⟩ := hs
  cases n with
  | zero => exact negation_zero_group ho attempting _
  | succ n =>
    have hp : p.Written N us := ⟨hc, hl, Nat.le_of_succ_le hd, hs⟩
    have hdeep' : Exceeds n p.levels := exceeds_enclosed.mp hdeep
    have hhalted := conditionOf_halts (negation_reads n true) (hinner n rfl) hp hdeep' (c :: rest)
    rw [Predicate.levels, firstDeeper_enclosed hdeep' hp.length_levels]
    simp only [List.cons_append, List.append_assoc, List.nil_append]
    exact negation_failed ho (grouped_failed hhalted) rfl

end Level

/-- **A part of a condition that is too deep is halted at its first token that is**, in an attempt
    or not. -/
theorem negation_halts (n N : Nat) (attempting : Bool) :
    Halts n (negation n attempting) (NegationWritten N) Predicate.levels := by
  induction n using Nat.strongRecOn generalizing attempting with
  | ind n ih =>
    rintro p ts ⟨hlogical, hw⟩ hdeep rest
    have hinner : ∀ attempting m, n = m + 1 →
        Halts m (negation m attempting) (NegationWritten N) Predicate.levels :=
      fun attempting m hm => ih m (hm ▸ Nat.lt_succ_self m) attempting
    cases p with
    | logical => cases hlogical
    | not p => exact not_halts (hinner attempting) hw hdeep rest
    | paren p => exact group_halts (hinner true) hw hdeep rest
    | _ =>
      refine negation_of_halted ?_ rfl attempting
      exact simple_halts n N (simpleWritten_of_written rfl hw) hdeep rest

/-- **A condition that is too deep is halted at its first token that is.** -/
theorem condition_halts (n N : Nat) :
    Halts n (condition n) (Predicate.Written N) Predicate.levels :=
  conditionOf_halts (negation_reads n false) (negation_halts n N false)

end Parse

end MiningQuery
