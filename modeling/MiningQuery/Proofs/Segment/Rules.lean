/-
  File:      MiningQuery/Proofs/Segment/Rules.lean
  Subject:   No rule of a clause notices where two token lists part.

  Rule by rule: a reader gives the same value, or the same cause of failure at the same place, on
  lists that are alike up to what may follow a clause. It neither looks behind the end of its clause
  nor at the places of the tokens.

  * `Steady` -- a reader that agrees with itself;
  * **`negation_steady`** -- an attempt that is taken back does not break this;
  * **`Clause.content_steady`** -- every clause is read so.
-/
import MiningQuery.Proofs.Segment.Parting

namespace MiningQuery

namespace Parse

variable {p : Parting} {t t' : Token} {ts ts' : List Token} {α β : Type} {r : Parse α}

/-- The reader reads alike lists alike. -/
abbrev Steady (p : Parting) (r : Parse α) : Prop := Agrees p Eq r r

theorem Steady.bind {f : α → Parse β} (h : Steady p r) (hf : ∀ x, Steady p (f x)) :
    Steady p (r >>= f) := Agrees.bind h fun x _ e => e ▸ hf x

/-- A steady reader goes forward. -/
theorem Forward.of_steady (h : ∀ p, Steady p r) : Forward r := .of_agrees h

theorem Steady.map {f : α → β} (h : Steady p r) : Steady p (f <$> r) :=
  Agrees.map h fun _ _ e => congrArg f e

/-! ## 1. Expressions -/

theorem numberLiteral_same (negative : Bool) (h : p.same t t') :
    numberLiteral negative t = numberLiteral negative t' := by
  unfold numberLiteral
  rw [p.same_kind h, p.same_text h]

theorem number_steady (negative : Bool) : Steady p (number negative) := by
  have hstop : ∀ {ts : List Token}, ClauseStop ts →
      number negative ts = mismatch [.int, .float] ts := by
    intro ts hts
    cases ts with
    | nil => rfl
    | cons t ts =>
      have hne : ∀ k ∈ clauseEnd, ¬(k = .int ∨ k = .float) := by decide
      exact if_neg (hne _ hts)
  intro ts ts' ha
  cases ha with
  | parted =>
    rw [hstop p.left_stop, hstop p.right_stop]
    exact .failure .parted _
  | @cons t t' us us' ht hus =>
    simp only [number, ← p.same_kind ht, ← numberLiteral_same negative ht]
    split
    · cases numberLiteral negative t with
      | ok l => exact .ok rfl (List.suffix_cons t us) (List.suffix_cons t' us') hus
      | error cause => exact .failure (.cons ht hus) cause
    · exact .failure (.cons ht hus) _

theorem columnRef_steady : Steady p columnRef := by
  refine Steady.bind name_agrees fun first => ?_
  refine Steady.bind (accept_agrees (by decide)) fun qualified => ?_
  cases qualified with
  | true => exact Steady.bind name_agrees fun second => .pure rfl
  | false => exact .pure rfl

section Factor

variable {factor : Parse Expr}

theorem exprOf_steady (h : Steady p factor) : Steady p (exprOf factor) :=
  chain_agrees (chain_agrees h (by decide)) (by decide)

theorem parenthesized_steady (h : Steady p factor) : Steady p (parenthesized factor) :=
  (exprOf_steady h).bind fun _ => .behind (by decide) (.pure rfl)

theorem aggregateCall_steady (h : Steady p factor) (function : Text) :
    Steady p (aggregateCall function factor) := by
  refine Steady.bind (accept_agrees (by decide)) fun all => ?_
  cases all with
  | true => exact .behind (by decide) (.pure rfl)
  | false => exact (exprOf_steady h).bind fun _ => .behind (by decide) (.pure rfl)

/-- No factor starts with what may follow a clause. -/
theorem factorStep_stop (inner : Option (Parse Expr)) (h : ClauseStop ts) :
    factorStep inner ts = mismatch factorStart ts := by
  have hne : ∀ {k : TokenKind}, k ∉ clauseEnd → kindOf ts ≠ k := fun hk e => hk (e ▸ h)
  unfold factorStep
  split
  · rfl
  · rw [kindOf_cons] at hne
    split
    · exact absurd ‹_› (hne (by decide))
    · exact absurd ‹_› (hne (by decide))
    · exact absurd ‹_› (hne (by decide))
    · exact absurd ‹_› (hne (by decide))
    · exact absurd ‹_› (hne (by decide))
    · exact absurd ‹_› (hne (by decide))
    · exact absurd ‹_› (hne (by decide))
    · rfl

/-- **One level of factors is steady if the level inside it is.** -/
theorem factorStep_steady {inner : Option (Parse Expr)} (h : ∀ factor ∈ inner, Steady p factor) :
    Steady p (factorStep inner) := by
  intro ts ts' ha
  cases ha with
  | parted =>
    rw [factorStep_stop inner p.left_stop, factorStep_stop inner p.right_stop]
    exact .failure .parted _
  | @cons t t' us us' ht hus =>
    have hpassed : ∀ {r : Parse Expr}, Steady p r →
        Ends p Eq (t :: us) (t' :: us') (r us) (r us') :=
      fun hr => (hr us us' hus).after (List.suffix_cons t us) (List.suffix_cons t' us')
    have hfail : Ends p (@Eq Expr) (t :: us) (t' :: us') (mismatch factorStart (t :: us))
        (mismatch factorStart (t' :: us')) := .failure (.cons ht hus) _
    have hparen : decide (kindOf us = .symbol .openParen) =
        decide (kindOf us' = .symbol .openParen) :=
      hus.look (g := fun k => decide (k = .symbol .openParen)) (by decide)
    simp only [factorStep, ← p.same_kind ht, ← p.same_text ht, ← hparen]
    cases hk : t.kind with
    | int | float => exact (number_steady false).map _ _ (.cons ht hus)
    | string => exact .ok rfl (List.suffix_cons t us) (List.suffix_cons t' us') hus
    | endOfInput => exact hfail
    | identifier =>
      dsimp only
      split
      · rename_i hcall
        have hopen : kindOf us = .symbol .openParen := by
          simpa using (Bool.and_eq_true_iff.mp hcall).2
        cases inner with
        | none => exact .failure (.cons ht hus) _
        | some factor =>
          have hinside : kindOf us ∉ clauseEnd := hopen ▸ by decide
          exact ((aggregateCall_steady (h factor rfl) t.text).tail hus hinside).after
            (List.suffix_cons t us) (List.suffix_cons t' us')
      · exact columnRef_steady.map _ _ (.cons ht hus)
    | keyword w =>
      cases w with
      | NULL => exact .ok rfl (List.suffix_cons t us) (List.suffix_cons t' us') hus
      | _ => exact hfail
    | symbol s =>
      cases s with
      | minus =>
        have hnumber : isNumber (kindOf us) = isNumber (kindOf us') := hus.look (by decide)
        simp only [← hnumber]
        split
        · exact hpassed (number_steady true).map
        · exact hfail
      | openParen =>
        cases inner with
        | none => exact .failure (.cons ht hus) _
        | some factor => exact hpassed (parenthesized_steady (h factor rfl))
      | _ => exact hfail

end Factor

theorem factor_steady (levels : Nat) : Steady p (factor levels) := by
  induction levels with
  | zero => exact factorStep_steady fun _ h => nomatch h
  | succ n ih =>
    refine factorStep_steady fun factor h => ?_
    obtain rfl := Option.some.inj h
    exact ih

theorem expr_steady (levels : Nat) : Steady p (expr levels) := exprOf_steady (factor_steady levels)

/-! ## 2. Simple conditions -/

section Simple

variable {expr : Parse Expr}

theorem between_steady (h : Steady p expr) (negated : Bool) (x : Expr) :
    Steady p (between expr negated x) :=
  h.bind fun _ => .behind (by decide) (h.bind fun _ => .pure rfl)

theorem like_steady (negated : Bool) (x : Expr) : Steady p (like negated x) :=
  (expect_agrees (by decide)).bind fun _ _ ht => .pure (by rw [p.same_text ht])

theorem inList_steady (h : Steady p expr) (negated : Bool) (x : Expr) :
    Steady p (inList expr negated x) :=
  .behind (by decide) (Steady.bind (commaList_agrees h) fun _ => .behind (by decide) (.pure rfl))

theorem isNull_steady (x : Expr) : Steady p (isNull x) :=
  Steady.bind (accept_agrees (by decide)) fun _ => .behind (by decide) (.pure rfl)

/-- What a condition says of its subject behind a `NOT`, or without one. -/
theorem negatableTail_steady (h : Steady p expr) (negated : Bool) (x : Expr) :
    Steady p (negatableTail expr negated x) := by
  have hother : ∀ {ts : List Token}, kindOf ts ≠ .keyword .BETWEEN → kindOf ts ≠ .keyword .LIKE →
      kindOf ts ≠ .keyword .IN → negatableTail expr negated x ts = .ok (.value x, ts) := by
    intro ts hb hl hi
    unfold negatableTail
    split
    · exact absurd ‹_› hb
    · exact absurd ‹_› hl
    · exact absurd ‹_› hi
    · rfl
  intro ts ts' ha
  have hiff : ∀ {k : TokenKind}, k ∉ clauseEnd → (kindOf ts = k ↔ kindOf ts' = k) := ha.kindOf_iff
  by_cases hb : kindOf ts = .keyword .BETWEEN
  · simp only [negatableTail, hb, (hiff (by decide)).mp hb]
    exact (between_steady h negated x).tail ha (hb ▸ by decide)
  by_cases hl : kindOf ts = .keyword .LIKE
  · simp only [negatableTail, hl, (hiff (by decide)).mp hl]
    exact (like_steady negated x).tail ha (hl ▸ by decide)
  by_cases hi : kindOf ts = .keyword .IN
  · simp only [negatableTail, hi, (hiff (by decide)).mp hi]
    exact (inList_steady h negated x).tail ha (hi ▸ by decide)
  rw [hother hb hl hi, hother (fun e => hb ((hiff (by decide)).mpr e))
    (fun e => hl ((hiff (by decide)).mpr e)) (fun e => hi ((hiff (by decide)).mpr e))]
  exact .value ha rfl

theorem simpleTail_steady (h : Steady p expr) (x : Expr) : Steady p (simpleTail expr x) := by
  intro ts ts' ha
  have hop : comparison? (kindOf ts) = comparison? (kindOf ts') := ha.look (by decide)
  have hiff : ∀ {k : TokenKind}, k ∉ clauseEnd → (kindOf ts = k ↔ kindOf ts' = k) := ha.kindOf_iff
  cases hc : comparison? (kindOf ts) with
  | some op =>
    have hinside : kindOf ts ∉ clauseEnd := by
      have hnone : ∀ k ∈ clauseEnd, comparison? k = none := by decide
      intro hk
      rw [hnone _ hk] at hc
      cases hc
    simp only [simpleTail, hc, ← hop]
    exact Agrees.tail h.map ha hinside
  | none =>
    by_cases his : kindOf ts = .keyword .IS
    · simp only [simpleTail, comparison?, his, (hiff (by decide)).mp his]
      exact (isNull_steady x).tail ha (his ▸ by decide)
    by_cases hnot : kindOf ts = .keyword .NOT
    · have hinside : kindOf ts ∉ clauseEnd := hnot ▸ by decide
      have hnegatable : negatable.contains (kindOf ts.tail) = negatable.contains (kindOf ts'.tail) :=
        (ha.tail hinside).look (by decide)
      simp only [simpleTail, comparison?, hnot, (hiff (by decide)).mp hnot, ← hnegatable]
      split
      · exact (negatableTail_steady h true x).tail ha hinside
      · exact Agrees.tail (mismatch_agrees negatable) ha hinside
    · have hother : ∀ {ts : List Token}, comparison? (kindOf ts) = none →
          kindOf ts ≠ .keyword .IS → kindOf ts ≠ .keyword .NOT →
          simpleTail expr x ts = negatableTail expr false x ts := by
        intro ts hc his hnot
        simp only [simpleTail, hc]
      rw [hother hc his hnot, hother (hop ▸ hc) (fun e => his ((hiff (by decide)).mpr e))
        (fun e => hnot ((hiff (by decide)).mpr e))]
      exact negatableTail_steady h false x ts ts' ha

theorem simpleOf_steady (h : Steady p expr) : Steady p (simpleOf expr) :=
  h.bind fun x => simpleTail_steady h x

end Simple

/-! ## 3. Conditions -/

theorem continuesValue_alike (ha : Alike p ts ts') : continuesValue ts = continuesValue ts' := by
  have hnone : ∀ k ∈ clauseEnd, ∀ k', ((comparison? k).isSome || (additive? k).isSome ||
      (multiplicative? k).isSome || decide (k = .keyword .IS) || negatable.contains k ||
      (decide (k = .keyword .NOT) && negatable.contains k')) = false := by
    intro k hk k'
    have hnot : k ≠ .keyword .NOT := by
      intro e
      subst e
      exact absurd hk (by decide)
    have hrest : ∀ k ∈ clauseEnd, ((comparison? k).isSome || (additive? k).isSome ||
        (multiplicative? k).isSome || decide (k = .keyword .IS) || negatable.contains k) = false := by
      decide
    rw [hrest k hk]
    simp [hnot]
  cases ha with
  | parted =>
    have hleft := hnone _ p.left_stop (kindOf p.left.tail)
    have hright := hnone _ p.right_stop (kindOf p.right.tail)
    exact hleft.trans hright.symm
  | @cons t t' us us' ht hus =>
    have hlook : negatable.contains (kindOf us) = negatable.contains (kindOf us') :=
      hus.look (by decide)
    simp only [continuesValue, kindOf_cons, List.tail_cons, ← p.same_kind ht, hlook]
    rfl

theorem conditionOf_steady {negation : Parse Predicate} (h : Steady p negation) :
    Steady p (conditionOf negation) :=
  chain_agrees (chain_agrees h (by decide)) (by decide)

theorem grouped_steady {negation : Parse Predicate} (h : Steady p negation) :
    Steady p (grouped negation) :=
  (conditionOf_steady h).bind fun _ => .behind (by decide) (.pure rfl)

/-- **One level of negations is steady if the level inside it is**, in attempts or not. -/
theorem negationStep_steady {inner : Option (Bool → Parse Predicate)} {simple : Parse Predicate}
    (h : ∀ negation ∈ inner, ∀ attempting, Steady p (negation attempting))
    (hsimple : Steady p simple) (attempting : Bool) :
    Steady p (negationStep inner simple attempting) := by
  intro ts ts' ha
  have hiff : ∀ {k : TokenKind}, k ∉ clauseEnd → (kindOf ts = k ↔ kindOf ts' = k) := ha.kindOf_iff
  by_cases hnot : kindOf ts = .keyword .NOT
  · have hinside : kindOf ts ∉ clauseEnd := hnot ▸ by decide
    cases inner with
    | none =>
      simp only [negationStep, hnot, (hiff (by decide)).mp hnot]
      exact Agrees.tail tooDeep_agrees ha hinside
    | some negation =>
      simp only [negationStep, hnot, (hiff (by decide)).mp hnot]
      exact Agrees.tail (h negation rfl attempting).map ha hinside
  by_cases hopen : kindOf ts = .symbol .openParen
  · have hopen' := (hiff (by decide)).mp hopen
    cases inner with
    | none =>
      simp only [negationStep, hopen, hopen']
      exact .failure ha _
    | some negation =>
      -- The attempt ends alike; if it is taken back, both readers start again where they were.
      have hgrouped := (grouped_steady (h negation rfl true)).tail ha (hopen ▸ by decide)
      simp only [negationStep, hopen, hopen']
      generalize grouped (negation true) ts.tail = o at hgrouped
      generalize grouped (negation true) ts'.tail = o' at hgrouped
      cases hgrouped with
      | @ok x y rest rest' hV hs hs' ha' =>
        subst hV
        dsimp only
        rw [continuesValue_alike ha']
        split
        · exact hsimple ts ts' ha
        · exact .ok rfl hs hs' ha'
      | @error rest rest' cause hs hs' ha' =>
        have hfatal : Failure.fatal ⟨rest, cause⟩ = Failure.fatal ⟨rest', cause⟩ := rfl
        dsimp only
        rw [hfatal]
        split
        · exact .error hs hs' ha'
        · exact hsimple ts ts' ha
  · rw [negationStep_simple hnot hopen, negationStep_simple
      (fun e => hnot ((hiff (by decide)).mpr e)) (fun e => hopen ((hiff (by decide)).mpr e))]
    exact hsimple ts ts' ha

theorem negation_steady (levels : Nat) (attempting : Bool) :
    Steady p (negation levels attempting) := by
  induction levels generalizing attempting with
  | zero => exact negationStep_steady (by simp) (simpleOf_steady (expr_steady 0)) _
  | succ n ih =>
    refine negationStep_steady (fun negation h => ?_) (simpleOf_steady (expr_steady (n + 1))) _
    obtain rfl := Option.some.inj h
    exact ih

theorem condition_steady (levels : Nat) : Steady p (condition levels) :=
  conditionOf_steady (negation_steady levels false)

/-! ## 4. Clauses -/

theorem attributeRef_steady : Steady p attributeRef := by
  have hother : ∀ {ts : List Token}, kindOf ts ≠ .symbol .star → kindOf ts ≠ .identifier →
      attributeRef ts = mismatch [.identifier, .symbol .star] ts := by
    intro ts hs hi
    unfold attributeRef
    split
    · exact absurd ‹_› hs
    · exact absurd ‹_› hi
    · rfl
  intro ts ts' ha
  have hiff : ∀ {k : TokenKind}, k ∉ clauseEnd → (kindOf ts = k ↔ kindOf ts' = k) := ha.kindOf_iff
  by_cases hs : kindOf ts = .symbol .star
  · simp only [attributeRef, hs, (hiff (by decide)).mp hs]
    exact .ok rfl (List.tail_suffix ts) (List.tail_suffix ts') (ha.tail (hs ▸ by decide))
  by_cases hi : kindOf ts = .identifier
  · simp only [attributeRef, hi, (hiff (by decide)).mp hi]
    exact columnRef_steady.map ts ts' ha
  rw [hother hs hi, hother (fun e => hs ((hiff (by decide)).mpr e))
    (fun e => hi ((hiff (by decide)).mpr e))]
  exact .failure ha _

theorem tableRef_steady : Steady p tableRef := by
  refine Steady.bind name_agrees fun table => ?_
  refine Steady.bind (accept_agrees (by decide)) fun renamed => ?_
  cases renamed with
  | true => exact Steady.bind name_agrees fun second => .pure rfl
  | false =>
    have hne : ∀ k ∈ clauseEnd, k ≠ .identifier := by decide
    intro ts ts' ha
    simp only [Bool.false_eq_true, if_false]
    cases ha with
    | parted =>
      have hleft : kindOf p.left ≠ .identifier := hne _ p.left_stop
      have hright : kindOf p.right ≠ .identifier := hne _ p.right_stop
      have hvalue : Ends p Eq p.left p.right (.ok ((⟨table, none⟩ : TableRef), p.left))
          (.ok (⟨table, none⟩, p.right)) := .value .parted rfl
      convert hvalue using 1
      · cases hts : p.left with
        | nil => rfl
        | cons t ts =>
          rw [hts, kindOf_cons] at hleft
          simp only [if_neg hleft]
      · cases hts : p.right with
        | nil => rfl
        | cons t ts =>
          rw [hts, kindOf_cons] at hright
          simp only [if_neg hright]
    | @cons t t' us us' ht hus =>
      simp only [← p.same_kind ht, ← p.same_text ht]
      split
      · exact .ok rfl (List.suffix_cons t us) (List.suffix_cons t' us') hus
      · exact .value (.cons ht hus) rfl

theorem orderItem_steady : Steady p orderItem := by
  refine columnRef_steady.bind fun column => ?_
  refine Steady.bind (accept_agrees (by decide)) fun descending => ?_
  cases descending with
  | true => exact .pure rfl
  | false => exact Steady.bind (accept_agrees (by decide)) fun _ => .pure rfl

theorem skipLabel_steady (label : Text) : Steady p (skipLabel label) := by
  have hstop : ∀ {ts : List Token}, ClauseStop ts → skipLabel label ts = .ok ((), ts) := by
    intro ts hts
    cases ts with
    | nil => rfl
    | cons t ts =>
      have hne : ∀ k ∈ clauseEnd, k ≠ .identifier := by decide
      exact if_neg fun h => hne _ hts h.1
  intro ts ts' ha
  cases ha with
  | parted =>
    rw [hstop p.left_stop, hstop p.right_stop]
    exact .value .parted rfl
  | @cons t t' us us' ht hus =>
    have heq : (TokenKind.symbol .eq) ∉ clauseEnd := by decide
    simp only [skipLabel, ← p.same_kind ht, ← p.same_text ht, ← hus.kindOf_iff heq]
    split
    · rename_i hlabel
      have hrest := hus.tail (hlabel.2.2 ▸ heq)
      exact .ok rfl ((List.tail_suffix us).trans (List.suffix_cons t us))
        ((List.tail_suffix us').trans (List.suffix_cons t' us')) hrest
    · exact .value (.cons ht hus) rfl

theorem clusters_steady : Steady p clusters := by
  intro ts ts' ha
  have hnumber := number_steady false ts ts' ha
  unfold clusters
  generalize number false ts = o at hnumber
  generalize number false ts' = o' at hnumber
  cases hnumber with
  | @ok l m rest rest' hV hs hs' ha' =>
    subst hV
    cases l with
    | int => exact .ok rfl hs hs' ha'
    | _ => exact .failure ha _
  | error hs hs' ha' => exact .error hs hs' ha'

theorem mineDirective_steady : Steady p mineDirective := by
  have hstop : ∀ {ts : List Token}, ClauseStop ts →
      mineDirective ts = mismatch operations ts := by
    intro ts hts
    have hnone : ∀ k, TokenKind.keyword k ∈ clauseEnd →
        k ≠ .CLUSTER ∧ k ∉ plainOperations ∧ k ∉ targetOperations := by
      intro k hk
      refine ⟨?_, fun h => ?_, fun h => ?_⟩
      · rintro rfl
        exact absurd hk (by decide)
      · exact (by decide : ∀ k ∈ plainOperations, TokenKind.keyword k ∉ clauseEnd) k h hk
      · exact (by decide : ∀ k ∈ targetOperations, TokenKind.keyword k ∉ clauseEnd) k h hk
    unfold mineDirective
    split
    · rename_i k hk
      have hk' : TokenKind.keyword k ∈ clauseEnd := hk ▸ hts
      obtain ⟨hcluster, hplain, htarget⟩ := hnone k hk'
      rw [if_neg hcluster, if_neg hplain, if_neg htarget]
    · rfl
  intro ts ts' ha
  cases ha with
  | parted =>
    rw [hstop p.left_stop, hstop p.right_stop]
    exact .failure .parted _
  | @cons t t' us us' ht hus =>
    have hpassed : ∀ {r : Parse MineDirective}, Steady p r →
        Ends p Eq (t :: us) (t' :: us') (r us) (r us') :=
      fun hr => (hr us us' hus).after (List.suffix_cons t us) (List.suffix_cons t' us')
    simp only [mineDirective, kindOf_cons, List.tail_cons, ← p.same_kind ht]
    split
    · split
      · refine hpassed (Steady.bind (skipLabel_steady _) fun _ => ?_)
        exact Steady.bind clusters_steady fun _ => .pure rfl
      · split
        · exact .ok rfl (List.suffix_cons t us) (List.suffix_cons t' us') hus
        · split
          · refine hpassed (Steady.bind (skipLabel_steady _) fun _ => ?_)
            exact Steady.bind name_agrees fun _ => .pure rfl
          · exact .failure (.cons ht hus) _
    · exact .failure (.cons ht hus) _

theorem measureName_steady : Steady p measureName := by
  have hstop : ∀ {ts : List Token}, ClauseStop ts →
      measureName ts = .error ⟨ts, .mismatched measureNames⟩ := by
    intro ts hts
    cases ts with
    | nil => rfl
    | cons t ts =>
      have hne : ∀ k ∈ clauseEnd, k ≠ .identifier := by decide
      exact if_neg fun h => hne _ hts h.1
  intro ts ts' ha
  cases ha with
  | parted =>
    rw [hstop p.left_stop, hstop p.right_stop]
    exact .failure .parted _
  | @cons t t' us us' ht hus =>
    simp only [measureName, ← p.same_kind ht, ← p.same_text ht]
    split
    · exact .ok rfl (List.suffix_cons t us) (List.suffix_cons t' us') hus
    · exact .failure (.cons ht hus) _

theorem measureSetting_steady : Steady p measureSetting := by
  refine measureName_steady.bind fun measure => .behind (by decide) ?_
  exact (number_steady false).bind fun _ => .pure rfl

end Parse

/-- **Every clause is read alike on lists that are alike up to the ends of the clause.** -/
theorem Clause.content_steady {p : Parse.Parting} (limit : Nat) (clause : Clause) :
    Parse.Steady p (clause.content limit) := by
  have hattributes : Parse.Steady p (Parse.commaList Parse.attributeRef) :=
    Parse.commaList_agrees Parse.attributeRef_steady
  cases clause with
  | database => exact .behind (by decide) (Parse.Steady.bind Parse.name_agrees fun _ => .pure rfl)
  | relevance => exact .behind (by decide) (hattributes.bind fun _ => .pure rfl)
  | tables => exact Parse.Steady.bind (Parse.commaList_agrees Parse.tableRef_steady) fun _ => .pure rfl
  | condition => exact (Parse.condition_steady limit).bind fun _ => .pure rfl
  | grouping => exact .behind (by decide) (hattributes.bind fun _ => .pure rfl)
  | ordering =>
    exact .behind (by decide)
      (Parse.Steady.bind (Parse.commaList_agrees Parse.orderItem_steady) fun _ => .pure rfl)
  | mining => exact Parse.mineDirective_steady.bind fun _ => .pure rfl
  | measures =>
    exact Parse.Steady.bind (Parse.commaList_agrees Parse.measureSetting_steady) fun _ => .pure rfl
  | display => exact .behind (by decide) (Parse.Steady.bind Parse.name_agrees fun _ => .pure rfl)

/-- What is left of a clause, and what a failure is reported at, are ends of its tokens. -/
theorem Clause.content_forward (limit : Nat) (clause : Clause) :
    Parse.Forward (clause.content limit) := .of_agrees fun _ => clause.content_steady limit

end MiningQuery
