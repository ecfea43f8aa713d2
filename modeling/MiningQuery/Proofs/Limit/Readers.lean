/-
  File:      MiningQuery/Proofs/Limit/Readers.lean
  Subject:   What a limit of nesting makes of a reading.

  Under a limit a reader does what it does under every higher one, or it is halted: it fails at a
  token that would open one level too many. It has then passed a token for each level that the limit
  allows, so that no list of tokens is halted by a limit that is as high as the list is long.

  * `OpensLevel` -- the tokens that open a level of nesting;
  * `Limited` -- what is read under a limit, against what is read under a higher one;
  * `LimitedBy` -- two readers whose readings are so, and the ways to put such readers together;
  * `factorStep_limited`, `negationStep_limited` -- one level is, if the level inside it is;
  * **`condition_limited`**, **`Clause.content_limited`** -- conditions, and so all clauses, are
    read so under every two limits.
-/
import MiningQuery.Proofs.Scan.Expr

namespace MiningQuery.Parse

variable {α β ω : Type}

/-! ## 1. Readings -/

/-- The next token opens a level of nesting: it is a parenthesis, or the name of an aggregate before
    one, or it stands behind a `NOT`. -/
def OpensLevel (passed ts : List Token) : Prop :=
  kindOf ts = .symbol .openParen ∨
    (∃ t us, ts = t :: us ∧ t.kind = .identifier ∧ isAggregate t.text = true ∧
      kindOf us = .symbol .openParen) ∨
    ∃ t, passed.getLast? = some t ∧ t.kind = .keyword .NOT

/-- What stands before the tokens that have been passed does not matter. -/
theorem OpensLevel.behind {passed ts : List Token} (h : OpensLevel passed ts)
    (before : List Token) : OpensLevel (before ++ passed) ts := by
  rcases h with hopen | hcall | ⟨t, ht, hnot⟩
  · exact .inl hopen
  · exact .inr (.inl hcall)
  · exact .inr (.inr ⟨t, by simp [ht], hnot⟩)

/-- What follows the tokens does not matter either. -/
theorem OpensLevel.append {passed ts : List Token} (h : OpensLevel passed ts)
    (rest : List Token) : OpensLevel passed (ts ++ rest) := by
  rcases h with hopen | ⟨t, us, rfl, hk, hname, hopen⟩ | hnot
  · obtain ⟨t, us, rfl, ht⟩ := eq_cons_of_kindOf hopen (by decide)
    exact .inl ht
  · obtain ⟨o, vs, rfl, ho⟩ := eq_cons_of_kindOf hopen (by decide)
    exact .inr (.inl ⟨t, o :: (vs ++ rest), rfl, hk, hname, ho⟩)
  · exact .inr (.inr hnot)

/-- What is read under a limit of some levels, against what is read under a higher one: it is the
    same, or the limit has halted the reading, and then there are more tokens than levels. -/
inductive Limited (levels : Nat) (ts : List Token) :
    Except Failure (α × List Token) → Except Failure (α × List Token) → Prop
  | read {x : α} {rest : List Token} : rest <:+ ts →
      Limited levels ts (.ok (x, rest)) (.ok (x, rest))
  | failed {f : Failure} : f.fatal = false → Limited levels ts (.error f) (.error f)
  | halted {passed rest : List Token} {o : Except Failure (α × List Token)} :
      ts = passed ++ rest → OpensLevel passed rest → levels < ts.length →
      Limited levels ts (.error ⟨rest, .nestedTooDeeply⟩) o

namespace Limited

variable {levels : Nat} {ts us : List Token} {o o' : Except Failure (α × List Token)}

/-- The same reading behind some more tokens. -/
theorem behind (h : Limited levels ts o o') (hsuffix : ts <:+ us) : Limited levels us o o' := by
  cases h with
  | read hrest => exact .read (hrest.trans hsuffix)
  | failed hf => exact .failed hf
  | @halted passed rest _ hts hopens hlevels =>
    obtain ⟨before, rfl⟩ := hsuffix
    refine .halted (by rw [hts, List.append_assoc]) (hopens.behind before) ?_
    rw [List.length_append]
    omega

/-- A reading behind a token that has opened a level. -/
theorem inside {t : Token} (h : Limited levels ts o o') (hsuffix : t :: ts <:+ us) :
    Limited (levels + 1) us o o' := by
  cases h with
  | read hrest => exact .read ((hrest.trans (List.suffix_cons t ts)).trans hsuffix)
  | failed hf => exact .failed hf
  | @halted passed rest _ hts hopens hlevels =>
    obtain ⟨before, rfl⟩ := hsuffix
    refine .halted (by rw [hts]; simp) (hopens.behind (before ++ [t])) ?_
    rw [List.length_append, List.length_cons]
    omega

/-- Where no level is left, a token that would open one halts the reading. -/
theorem stopped {t : Token} (h : OpensLevel [] (t :: ts)) :
    Limited 0 (t :: ts) (tooDeep (t :: ts)) o :=
  .halted (List.nil_append _).symm h (Nat.succ_pos _)

theorem bind {g g' : α × List Token → Except Failure (β × List Token)}
    (h : Limited levels ts o o') (hg : ∀ x rest, Limited levels rest (g (x, rest)) (g' (x, rest))) :
    Limited levels ts (o >>= g) (o' >>= g') := by
  cases h with
  | read hrest => exact (hg _ _).behind hrest
  | failed hf => exact .failed hf
  | halted hts hopens hlevels => exact .halted hts hopens hlevels

/-- Where the reading is not halted, the limit leaves it as it is. -/
theorem same_or_halted (h : Limited levels ts o o') :
    o = o' ∨ ∃ passed rest, o = .error ⟨rest, .nestedTooDeeply⟩ ∧ ts = passed ++ rest ∧
      OpensLevel passed rest := by
  cases h with
  | read | failed => exact .inl rfl
  | halted hts hopens => exact .inr ⟨_, _, rfl, hts, hopens⟩

/-- A limit as high as the list of tokens is long halts no reading. -/
theorem same (h : Limited levels ts o o') (hlevels : ts.length ≤ levels) : o = o' := by
  cases h with
  | read | failed => rfl
  | halted _ _ hlt => exact absurd hlt (Nat.not_lt.mpr hlevels)

theorem not_fatal {f : Failure} (h : Limited levels ts (.error f) o')
    (hlevels : ts.length ≤ levels) : f.fatal = false := by
  cases h with
  | failed hf => exact hf
  | halted _ _ hlt => exact absurd hlt (Nat.not_lt.mpr hlevels)

end Limited

/-! ## 2. Readers -/

/-- A reader under a limit of some levels, and the reader under a higher one. -/
def LimitedBy (levels : Nat) (r r' : Parse α) : Prop := ∀ ts, Limited levels ts (r ts) (r' ts)

section Readers

variable {levels : Nat} {r r' : Parse α}

namespace LimitedBy

theorem pure (x : α) : LimitedBy levels (pure x) (pure x) := fun _ => .read (List.suffix_refl _)

theorem bind {f f' : α → Parse β} (h : LimitedBy levels r r')
    (hf : ∀ x, LimitedBy levels (f x) (f' x)) : LimitedBy levels (r >>= f) (r' >>= f') :=
  fun ts => (h ts).bind fun x rest => hf x rest

theorem map {f : α → β} (h : LimitedBy levels r r') : LimitedBy levels (f <$> r) (f <$> r') :=
  fun ts => (h ts).bind fun _ _ => .read (List.suffix_refl _)

/-- A reader goes on behind the next token. -/
theorem tail (h : LimitedBy levels r r') (ts : List Token) :
    Limited levels ts (r ts.tail) (r' ts.tail) :=
  (h ts.tail).behind (List.tail_suffix ts)

end LimitedBy

theorem expect_limited (kind : TokenKind) : LimitedBy levels (expect kind) (expect kind) := by
  intro ts
  unfold expect
  split
  · split
    · exact .read (List.suffix_cons _ _)
    · exact .failed rfl
  · exact .failed rfl

theorem accept_limited (kind : TokenKind) : LimitedBy levels (accept kind) (accept kind) := by
  intro ts
  unfold accept
  split
  · split
    · exact .read (List.suffix_cons _ _)
    · exact .read (List.suffix_refl _)
  · exact .read (List.suffix_refl _)

theorem name_limited : LimitedBy levels name name := (expect_limited _).bind fun _ => .pure _

/-- A symbol that is passed over, where it has to stand. -/
theorem LimitedBy.behind (kind : TokenKind) (h : LimitedBy levels r r') :
    LimitedBy levels (expect kind >>= fun _ => r) (expect kind >>= fun _ => r') :=
  (expect_limited kind).bind fun _ => h

theorem LimitedBy.chainFrom {operator : TokenKind → Option ω} {combine : ω → α → α → α}
    (h : LimitedBy levels r r') (n : Nat) (left : α) :
    LimitedBy levels (chainFrom operator combine r n left)
      (chainFrom operator combine r' n left) := by
  intro ts
  induction n generalizing left ts with
  | zero => exact .read (List.suffix_refl _)
  | succ n ih =>
    unfold Parse.chainFrom
    split
    · exact .read (List.suffix_refl _)
    · exact (h.tail ts).bind fun right rest => ih _ rest

theorem LimitedBy.chain {operator : TokenKind → Option ω} {combine : ω → α → α → α}
    (h : LimitedBy levels r r') :
    LimitedBy levels (chain operator combine r) (chain operator combine r') := fun ts =>
  (h ts).bind fun left rest => h.chainFrom _ left rest

theorem LimitedBy.commaListFrom (h : LimitedBy levels r r') (n : Nat) :
    LimitedBy levels (commaListFrom r n) (commaListFrom r' n) := by
  intro ts
  induction n generalizing ts with
  | zero => exact .read (List.suffix_refl _)
  | succ n ih =>
    unfold Parse.commaListFrom
    split
    · refine (h.tail ts).bind fun x rest => ?_
      exact (ih rest).bind fun _ _ => .read (List.suffix_refl _)
    · exact .read (List.suffix_refl _)

theorem LimitedBy.commaList (h : LimitedBy levels r r') :
    LimitedBy levels (commaList r) (commaList r') := fun ts =>
  (h ts).bind fun _ rest => (h.commaListFrom _ rest).bind fun _ _ => .read (List.suffix_refl _)

/-! ## 3. Expressions -/

/-- What the rule of one level is given for the level inside it, under the two limits: nothing,
    where the lower one allows no level, or readers that may open one level less. -/
inductive Inside {R : Type} (L : Nat → R → R → Prop) : Nat → Option R → Option R → Prop
  | none {inner' : Option R} : Inside L 0 none inner'
  | some {levels : Nat} {r r' : R} : L levels r r' → Inside L (levels + 1) (some r) (some r')

theorem number_limited (negative : Bool) :
    LimitedBy levels (number negative) (number negative) := by
  intro ts
  unfold number
  split
  · split
    · split
      · exact .read (List.suffix_cons _ _)
      · rename_i cause hcause
        exact .failed (decide_eq_false (Scan.numberLiteral_cause hcause))
    · exact .failed rfl
  · exact .failed rfl

theorem columnRef_limited : LimitedBy levels columnRef columnRef := by
  refine name_limited.bind fun first => (accept_limited _).bind fun qualified => ?_
  cases qualified with
  | true => exact name_limited.bind fun _ => .pure _
  | false => exact .pure _

section Factor

variable {factor factor' : Parse Expr} {inner inner' : Option (Parse Expr)}

theorem exprOf_limited (h : LimitedBy levels factor factor') :
    LimitedBy levels (exprOf factor) (exprOf factor') := h.chain.chain

theorem parenthesized_limited (h : LimitedBy levels factor factor') :
    LimitedBy levels (parenthesized factor) (parenthesized factor') :=
  (exprOf_limited h).bind fun _ => .behind _ (.pure _)

theorem aggregateCall_limited (function : Text) (h : LimitedBy levels factor factor') :
    LimitedBy levels (aggregateCall function factor) (aggregateCall function factor') := by
  refine (accept_limited _).bind fun all => ?_
  cases all with
  | true => exact .behind _ (.pure _)
  | false => exact (exprOf_limited h).bind fun _ => .behind _ (.pure _)

/-- **One level of factors is limited so if the level inside it is.** -/
theorem factorStep_limited (h : Inside LimitedBy levels inner inner') :
    LimitedBy levels (factorStep inner) (factorStep inner') := by
  intro ts
  cases ts with
  | nil => exact .failed rfl
  | cons t us =>
    have hbehind : us <:+ t :: us := List.suffix_cons t us
    simp only [factorStep]
    cases hk : t.kind with
    | int | float => exact (number_limited false).map _
    | string => exact .read hbehind
    | endOfInput => exact .failed rfl
    | identifier =>
      dsimp only
      split
      · rename_i hcall
        simp only [Bool.and_eq_true, decide_eq_true_eq] at hcall
        obtain ⟨o, vs, rfl, ho⟩ := eq_cons_of_kindOf hcall.2 (by decide)
        cases h with
        | none => exact .stopped (.inr (.inl ⟨t, _, rfl, hk, hcall⟩))
        | some h => exact (aggregateCall_limited t.text h vs).inside hbehind
      · exact columnRef_limited.map _
    | keyword w =>
      cases w with
      | NULL => exact .read hbehind
      | _ => exact .failed rfl
    | symbol s =>
      cases s with
      | minus =>
        dsimp only
        split
        · exact ((number_limited true).map us).behind hbehind
        · exact .failed rfl
      | openParen =>
        cases h with
        | none => exact .stopped (.inl hk)
        | some h => exact (parenthesized_limited h us).inside (List.suffix_refl _)
      | _ => exact .failed rfl

end Factor

theorem factor_limited {m n : Nat} (h : m ≤ n) : LimitedBy m (factor m) (factor n) := by
  induction m generalizing n with
  | zero => cases n <;> exact factorStep_limited .none
  | succ m ih =>
    obtain ⟨n, rfl⟩ := Nat.exists_eq_add_of_lt h
    exact factorStep_limited (.some (ih (by omega)))

theorem expr_limited {m n : Nat} (h : m ≤ n) : LimitedBy m (expr m) (expr n) :=
  exprOf_limited (factor_limited h)

/-! ## 4. Conditions -/

section Simple

variable {expr expr' : Parse Expr}

theorem inList_limited (h : LimitedBy levels expr expr') (negated : Bool) (x : Expr) :
    LimitedBy levels (inList expr negated x) (inList expr' negated x) :=
  .behind _ (h.commaList.bind fun _ => .behind _ (.pure _))

theorem negatableTail_limited (h : LimitedBy levels expr expr') (negated : Bool) (x : Expr) :
    LimitedBy levels (negatableTail expr negated x) (negatableTail expr' negated x) := by
  have hbetween : LimitedBy levels (between expr negated x) (between expr' negated x) :=
    h.bind fun _ => .behind _ (h.bind fun _ => .pure _)
  have hlike : LimitedBy levels (like negated x) (like negated x) :=
    (expect_limited _).bind fun _ => .pure _
  intro ts
  unfold negatableTail
  split
  · exact hbetween.tail ts
  · exact hlike.tail ts
  · exact (inList_limited h negated x).tail ts
  · exact .read (List.suffix_refl _)

theorem simpleTail_limited (h : LimitedBy levels expr expr') (x : Expr) :
    LimitedBy levels (simpleTail expr x) (simpleTail expr' x) := by
  have hnull : LimitedBy levels (isNull x) (isNull x) :=
    (accept_limited _).bind fun _ => .behind _ (.pure _)
  intro ts
  unfold simpleTail
  split
  · exact h.map.tail ts
  · split
    · exact hnull.tail ts
    · split
      · exact (negatableTail_limited h true x).tail ts
      · exact .failed rfl
    · exact negatableTail_limited h false x ts

theorem simpleOf_limited (h : LimitedBy levels expr expr') :
    LimitedBy levels (simpleOf expr) (simpleOf expr') := h.bind fun x => simpleTail_limited h x

end Simple

section Condition

variable {negation negation' : Parse Predicate} {simple simple' : Parse Predicate}
  {inner inner' : Option (Bool → Parse Predicate)}

theorem conditionOf_limited (h : LimitedBy levels negation negation') :
    LimitedBy levels (conditionOf negation) (conditionOf negation') := h.chain.chain

theorem grouped_limited (h : LimitedBy levels negation negation') :
    LimitedBy levels (grouped negation) (grouped negation') :=
  (conditionOf_limited h).bind fun _ => .behind _ (.pure _)

/-- **One level of negations is limited so if the level inside it is.** An attempt that the limit
    halts is not taken back, so that the other reading of the parenthesis is no way around it. -/
theorem negationStep_limited
    (h : Inside (fun levels r r' => ∀ attempting, LimitedBy levels (r attempting) (r' attempting))
      levels inner inner')
    (hsimple : LimitedBy levels simple simple') (attempting : Bool) :
    LimitedBy levels (negationStep inner simple attempting)
      (negationStep inner' simple' attempting) := by
  intro ts
  by_cases hnot : kindOf ts = .keyword .NOT
  · obtain ⟨t, us, rfl, ht⟩ := eq_cons_of_kindOf hnot (by decide)
    cases h with
    | none =>
      simp only [negationStep, kindOf_cons, ht]
      exact .halted (List.singleton_append ..).symm (.inr (.inr ⟨t, rfl, ht⟩)) (Nat.succ_pos _)
    | some h =>
      simp only [negationStep, kindOf_cons, ht, List.tail_cons]
      exact ((h attempting).map us).inside (List.suffix_refl _)
  by_cases hopen : kindOf ts = .symbol .openParen
  · obtain ⟨t, us, rfl, ht⟩ := eq_cons_of_kindOf hopen (by decide)
    cases h with
    | none =>
      simp only [negationStep, kindOf_cons, ht]
      exact .stopped (.inl ht)
    | some h =>
      have hgrouped := (grouped_limited (h true) us).inside (List.suffix_refl (t :: us))
      simp only [negationStep, kindOf_cons, ht, List.tail_cons]
      generalize grouped _ us = o at hgrouped ⊢
      generalize grouped _ us = o' at hgrouped ⊢
      cases hgrouped with
      | read hrest =>
        dsimp only
        split
        · exact hsimple (t :: us)
        · exact .read hrest
      | @failed f hf =>
        simp only [hf, Bool.false_or]
        split
        · exact .failed hf
        · exact hsimple (t :: us)
      | halted hts hopens hlevels => exact .halted hts hopens hlevels
  · rw [negationStep_simple hnot hopen, negationStep_simple hnot hopen]
    exact hsimple ts

end Condition

end Readers

theorem negation_limited {m n : Nat} (h : m ≤ n) (attempting : Bool) :
    LimitedBy m (negation m attempting) (negation n attempting) := by
  induction m generalizing n attempting with
  | zero =>
    have hsimple := simpleOf_limited (expr_limited h)
    cases n <;> exact negationStep_limited .none hsimple attempting
  | succ m ih =>
    obtain ⟨n, rfl⟩ := Nat.exists_eq_add_of_lt h
    exact negationStep_limited (.some fun attempting => ih (by omega) attempting)
      (simpleOf_limited (expr_limited h)) attempting

/-- **Under a limit a condition is read as under every higher one, or the reading is halted.** -/
theorem condition_limited {m n : Nat} (h : m ≤ n) : LimitedBy m (condition m) (condition n) :=
  conditionOf_limited (negation_limited h false)

/-! ## 5. Clauses -/

section Clauses

variable {levels : Nat}

theorem attributeRef_limited : LimitedBy levels attributeRef attributeRef := by
  intro ts
  unfold attributeRef
  split
  · exact .read (List.tail_suffix ts)
  · exact columnRef_limited.map ts
  · exact .failed rfl

theorem tableRef_limited : LimitedBy levels tableRef tableRef := by
  refine name_limited.bind fun table => (accept_limited _).bind fun named => ?_
  cases named with
  | true => exact name_limited.bind fun _ => .pure _
  | false =>
    intro ts
    simp only [Bool.false_eq_true, if_false]
    cases ts with
    | nil => exact .read (List.suffix_refl _)
    | cons t rest =>
      dsimp only
      split
      · exact .read (List.suffix_cons t rest)
      · exact .read (List.suffix_refl _)

theorem orderItem_limited : LimitedBy levels orderItem orderItem := by
  refine columnRef_limited.bind fun column => (accept_limited _).bind fun descending => ?_
  cases descending with
  | true => exact .pure _
  | false => exact (accept_limited _).bind fun _ => .pure _

theorem skipLabel_limited (label : Text) :
    LimitedBy levels (skipLabel label) (skipLabel label) := by
  intro ts
  unfold skipLabel
  split
  · rename_i t rest
    split
    · exact .read ((List.tail_suffix rest).trans (List.suffix_cons t rest))
    · exact .read (List.suffix_refl _)
  · exact .read (List.suffix_refl _)

theorem clusters_limited : LimitedBy levels clusters clusters := fun ts =>
  (number_limited false ts).bind fun l rest => by
    cases l with
    | int => exact .read (List.suffix_refl rest)
    | _ => exact .failed rfl

theorem mineDirective_limited : LimitedBy levels mineDirective mineDirective := by
  have hcounted : ∀ k, LimitedBy levels (do
      skipLabel (ascii "K")
      let l ← clusters
      return (⟨.keyword k, some l, []⟩ : MineDirective)) _ := fun k =>
    (skipLabel_limited _).bind fun _ => clusters_limited.bind fun _ => .pure _
  have htargeted : ∀ k, LimitedBy levels (do
      skipLabel (ascii "TARGET")
      let target ← name
      return (⟨.keyword k, none, target⟩ : MineDirective)) _ := fun k =>
    (skipLabel_limited _).bind fun _ => name_limited.bind fun _ => .pure _
  intro ts
  unfold mineDirective
  split
  · rename_i k _
    split
    · exact (hcounted k).tail ts
    · split
      · exact .read (List.tail_suffix ts)
      · split
        · exact (htargeted k).tail ts
        · exact .failed rfl
  · exact .failed rfl

theorem measureSetting_limited : LimitedBy levels measureSetting measureSetting := by
  have hname : LimitedBy levels measureName measureName := by
    intro ts
    unfold measureName
    split
    · split
      · exact .read (List.suffix_cons _ _)
      · exact .failed rfl
    · exact .failed rfl
  exact hname.bind fun _ => .behind _ ((number_limited false).bind fun _ => .pure _)

end Clauses

end MiningQuery.Parse

namespace MiningQuery

open Parse

/-- **Under a limit every clause is read as under every higher one, or its reading is halted.** -/
theorem Clause.content_limited (clause : Clause) {m n : Nat} (h : m ≤ n) :
    LimitedBy m (clause.content m) (clause.content n) := by
  cases clause with
  | database | display => exact .behind _ (name_limited.bind fun _ => .pure _)
  | relevance | grouping =>
    exact .behind _ (attributeRef_limited.commaList.bind fun _ => .pure _)
  | tables => exact tableRef_limited.commaList.bind fun _ => .pure _
  | condition => exact (condition_limited h).bind fun _ => .pure _
  | ordering => exact .behind _ (orderItem_limited.commaList.bind fun _ => .pure _)
  | mining => exact mineDirective_limited.bind fun _ => .pure _
  | measures => exact measureSetting_limited.commaList.bind fun _ => .pure _

/-- Only conditions are read under a limit. -/
theorem Clause.content_of_ne {clause : Clause} (h : clause ≠ .condition) (m n : Nat) :
    clause.content m = clause.content n := by
  cases clause with
  | condition => exact absurd rfl h
  | _ => rfl

end MiningQuery
