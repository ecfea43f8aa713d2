/-
  File:      MiningQuery/Proofs/Scan/Condition.lean
  Subject:   Conditions are read with a cursor as they are read from token lists.

  * `simpleTail_runs` -- a `NOT` is pending only before a test that can be negated;
  * `attempt_of_ok`, `attempt_of_failed` -- an attempt takes back all that it has counted;
  * **`negation_runs`** -- level by level; a failed attempt goes back to where it started, and the
    tokens from there on are read once more as a simple condition.
-/
import MiningQuery.Proofs.Scan.Expr

namespace MiningQuery.Scan

open Parse (clauseEnd)

variable {i : ScanInput} {c : Cursor} {t : Token}

/-! ## 1. Simple conditions -/

theorem comparison_inside {k : TokenKind} {op : CompareOp} (h : Parse.comparison? k = some op) :
    k ∉ clauseEnd := by
  unfold Parse.comparison? at h
  split at h
  · exact symbol_inside _
  · exact symbol_inside _
  · exact symbol_inside _
  · exact symbol_inside _
  · exact symbol_inside _
  · exact symbol_inside _
  · cases h

section Simple

variable {m : Scan Expr} {r : Parse Expr}

/-- A test is read alike, and without one there is no `NOT` that it would need. -/
theorem negatableTail_runs (hi : i.Closed) (hm : ∀ p, Runs i (c.moved p) m r) {negated : Bool}
    (x : Expr) (ht : c.On i t) (hnegated : negated = true → t.kind ∈ Parse.negatable) :
    Matches i c (Parse.negatableTail r negated x (t :: i.tokens.drop (c.position + 1)))
      (negatableTail m negated x i c) := by
  unfold negatableTail
  by_cases hbetween : t.kind = .keyword .BETWEEN
  · simp only [Parse.negatableTail, Parse.kindOf_cons, hbetween, List.tail_cons]
    refine Runs.accept hi ht hbetween (by decide) ?_
    refine (hm _).bind fun low p _ => ?_
    refine (expect_runs hi (by decide)).bind fun _ p' _ => ?_
    exact (hm _).bind fun high p'' _ => .pure _
  rw [accept_of_ne ht hbetween, if_neg Bool.false_ne_true]
  by_cases hlike : t.kind = .keyword .LIKE
  · simp only [Parse.negatableTail, Parse.kindOf_cons, hlike, List.tail_cons]
    refine Runs.accept hi ht hlike (by decide) ?_
    exact (expect_runs hi (by decide)).bind fun _ p _ => .pure _
  rw [accept_of_ne ht hlike, if_neg Bool.false_ne_true]
  by_cases hin : t.kind = .keyword .IN
  · simp only [Parse.negatableTail, Parse.kindOf_cons, hin, List.tail_cons]
    refine Runs.accept hi ht hin (by decide) ?_
    refine (expect_runs hi (by decide)).bind fun _ p _ => ?_
    refine Runs.bind (commaList_runs hi fun p' => hm p') fun values p' _ => ?_
    exact (expect_runs hi (by decide)).bind fun _ p'' _ => .pure _
  rw [accept_of_ne ht hin, if_neg Bool.false_ne_true]
  have hnone : t.kind ∉ Parse.negatable := by simp [Parse.negatable, hbetween, hlike, hin]
  have hpositive : negated = false := by
    by_contra h
    exact hnone (hnegated (by simpa using h))
  subst hpositive
  rw [if_neg Bool.false_ne_true, Parse.negatableTail_value (by simpa using hnone), ← ht.drop]
  exact .ok (.refl ht.lt)

theorem isNull_runs (hi : i.Closed) (x : Expr) :
    Runs i c (do
      let negated ← accept (.keyword .NOT)
      let _ ← expect (.keyword .NULL)
      return .isNull negated x) (Parse.isNull x) := by
  refine (accept_runs hi (by decide)).bind fun negated p _ => ?_
  exact (expect_runs hi (by decide)).bind fun _ p' _ => .pure _

theorem pendingNot_of_ne {α : Type} (ht : c.On i t) (hk : t.kind ≠ .keyword .NOT)
    (f : Bool → Scan α) : (pendingNot >>= f) i c = f false i c := by
  have hpending : pendingNot i c = .ok false c := by
    unfold pendingNot
    rw [atKind_then ht, decide_eq_false hk, if_neg Bool.false_ne_true]
    rfl
  exact then_of_ok hpending f

/-- Behind a `NOT` a test that can be negated has to follow. -/
theorem pendingNot_of_eq (hi : i.Closed) (ht : c.On i t) (hk : t.kind = .keyword .NOT) :
    ∃ u, (c.moved (c.position + 1)).On i u ∧ ∀ {α : Type} (f : Bool → Scan α),
      (pendingNot >>= f) i c = if Parse.negatable.contains u.kind = true then
        f true i (c.moved (c.position + 1))
      else (mismatch Parse.negatable : Scan α) i (c.moved (c.position + 1)) := by
  have hne : t.kind ≠ .endOfInput := by simp [hk]
  obtain ⟨u, hpeek, hu⟩ := peek_then hi ht
  refine ⟨u, hu hne, fun f => ?_⟩
  have hfail : ∀ {β : Type}, (mismatch Parse.negatable : Scan β) i (c.moved (c.position + 1)) =
      .failed false ((c.moved (c.position + 1)).recorded
        ⟨i.tokens.drop (c.position + 1), .mismatched (Parse.negatable.map TokenKind.name)⟩) :=
    failAt_eq ⟨u, hu hne⟩ (by simp)
  show andThen pendingNot f i c = _
  unfold andThen pendingNot
  rw [atKind_then ht, decide_eq_true hk, if_pos rfl, hpeek]
  by_cases hcontains : Parse.negatable.contains u.kind = true
  · rw [if_pos hcontains, if_pos hcontains, advance_then ht hne]
    rfl
  · rw [if_neg hcontains, if_neg hcontains, advance_then ht hne, hfail, hfail]

/-- What the reader of token lists does before a test for null, and before a `NOT`. -/
theorem simpleTail_is (hk : t.kind = .keyword .IS) (x : Expr) (rest : List Token) :
    Parse.simpleTail r x (t :: rest) = Parse.isNull x rest := by
  simp [Parse.simpleTail, hk, Parse.comparison?]

theorem simpleTail_not (hk : t.kind = .keyword .NOT) (x : Expr) (rest : List Token) :
    Parse.simpleTail r x (t :: rest) =
      if Parse.negatable.contains (Parse.kindOf rest) = true then
        Parse.negatableTail r true x rest
      else Parse.mismatch Parse.negatable rest := by
  simp [Parse.simpleTail, hk, Parse.comparison?]

/-- What a condition says of its subject is read alike. -/
theorem simpleTail_runs (hi : i.Closed) (hm : ∀ p, Runs i (c.moved p) m r) (x : Expr) :
    Runs i c (simpleTail m x) (Parse.simpleTail r x) := by
  intro t ht
  unfold simpleTail
  rw [cur_then ht]
  cases hop : Parse.comparison? t.kind with
  | some op =>
    simp only [Parse.simpleTail, Parse.kindOf_cons, hop, List.tail_cons]
    refine Runs.advance (r := Predicate.compare op x <$> r) hi ht (comparison_inside hop) ?_
    exact (hm _).map
  | none =>
    show Matches i c _ ((accept (.keyword .IS) >>= fun _ => _) i c)
    by_cases his : t.kind = .keyword .IS
    · rw [simpleTail_is his]
      refine Runs.accept hi ht his (by decide) ?_
      exact isNull_runs hi x
    rw [accept_of_ne ht his, if_neg Bool.false_ne_true]
    by_cases hnot : t.kind = .keyword .NOT
    · obtain ⟨u, hon, hpending⟩ := pendingNot_of_eq hi ht hnot
      have hpassed := hi.passed ht (hnot ▸ by decide)
      have hkind : Parse.kindOf (i.tokens.drop (c.position + 1)) = u.kind := hon.kindOf_drop
      rw [simpleTail_not hnot, hkind, hpending]
      by_cases hcontains : Parse.negatable.contains u.kind = true
      · have htail : Runs i (c.moved (c.position + 1)) (negatableTail m true x)
            (Parse.negatableTail r true x) := by
          intro u' hu'
          obtain rfl : u = u' := Option.some.inj (hon.symm.trans hu')
          refine negatableTail_runs (c := c.moved (c.position + 1)) hi (fun p => hm p) x hon ?_
          intro _
          simpa using hcontains
        rw [if_pos hcontains, if_pos hcontains]
        exact htail.after hpassed
      · rw [if_neg hcontains, if_neg hcontains]
        exact (mismatch_runs Parse.negatable).after hpassed
    · have hread : Parse.simpleTail r x (t :: i.tokens.drop (c.position + 1)) =
          Parse.negatableTail r false x (t :: i.tokens.drop (c.position + 1)) := by
        simp only [Parse.simpleTail, Parse.kindOf_cons, hop]
      rw [pendingNot_of_ne ht hnot, hread]
      exact negatableTail_runs hi hm x ht (by simp)

theorem simple_runs (hi : i.Closed) (hm : ∀ p, Runs i (c.moved p) m r) :
    Runs i c (simple m) (Parse.simpleOf r) :=
  Runs.bind (hm c.position) fun x p _ => simpleTail_runs (c := c.moved p) hi (fun p' => hm p') x

end Simple

/-! ## 2. Attempts -/

theorem conjunctive_inside (k : TokenKind) (op : LogicOp) (h : Parse.conjunctive? k = some op) :
    k ∉ clauseEnd := by
  obtain ⟨-, rfl⟩ := Parse.conjunctive_eq_some.mp h
  cases op <;> decide

theorem disjunctive_inside (k : TokenKind) (op : LogicOp) (h : Parse.disjunctive? k = some op) :
    k ∉ clauseEnd := by
  obtain ⟨-, rfl⟩ := Parse.disjunctive_eq_some.mp h
  cases op <;> decide

theorem conditionOf_runs (hi : i.Closed) {m : Scan Predicate} {r : Parse Predicate}
    (hm : ∀ p, Runs i (c.moved p) m r) : Runs i c (conditionOf m) (Parse.conditionOf r) :=
  chain_runs hi disjunctive_inside fun _ => chain_runs hi conjunctive_inside hm

theorem grouped_runs (hi : i.Closed) {m : Scan Predicate} {r : Parse Predicate}
    (hm : ∀ p, Runs i (c.moved p) m r) : Runs i c (grouped m) (Parse.grouped r) := by
  refine Runs.bind (conditionOf_runs hi hm) fun p _ _ => ?_
  exact (expect_runs hi closeParen_inside).bind fun _ _ _ => .pure p

/-- Looking ahead gives what the tokens that are left show. -/
theorem continuesValue_eq (hi : i.Closed) (ht : c.On i t) :
    continuesValue i c = .ok (Parse.continuesValue (i.tokens.drop c.position)) c := by
  obtain ⟨u, hpeek, hu⟩ := peek_then hi ht
  have hcontinues : continuesValue i c = .ok (Parse.continuesValue [t, u]) c := by
    unfold continuesValue
    rw [cur_then ht, hpeek]
    rfl
  rw [hcontinues, ht.drop]
  by_cases hk : t.kind = .endOfInput
  · simp [Parse.continuesValue, hk]
  · have hon : i.tokens.drop (c.position + 1) = _ := (hu hk).drop
    rw [hon]
    rfl

section Attempts

variable {m : Scan Predicate}

/-- The attempt behind its opening parenthesis. -/
theorem attempt_eq (ht : c.On i t) (hk : t.kind = .symbol .openParen)
    (hdepth : c.depth < i.limit) :
    attempt m i c.trying = oneDeeper (do
      let x ← grouped m
      update Cursor.tried
      if ← continuesValue then return none else return some x) i
        (c.trying.moved (c.position + 1)) := by
  have hon : c.trying.deeper.On i t := ht
  unfold attempt
  rw [nested_of_lt (show c.trying.depth < i.limit from hdepth)]
  unfold oneDeeper
  rw [advance_then hon (by simp [hk])]
  rfl

/-- After an attempt that comes to its end, all counts are as before. -/
theorem attempt_of_ok (hi : i.Closed) (ht : c.On i t) (hk : t.kind = .symbol .openParen)
    (hdepth : c.depth < i.limit) {x : Predicate} {p : Nat} (hp : p < i.tokens.length)
    (h : grouped m i (c.trying.deeper.moved (c.position + 1)) =
      .ok x (c.trying.deeper.moved p)) :
    attempt m i c.trying =
      .ok (if Parse.continuesValue (i.tokens.drop p) then none else some x) (c.moved p) := by
  obtain ⟨u, hu⟩ := i.exists_on hp
  have hon : (c.deeper.moved p).On i u := hu
  have hcontinues : continuesValue i (c.deeper.moved p) =
      .ok (Parse.continuesValue (i.tokens.drop p)) (c.deeper.moved p) := continuesValue_eq hi hon
  rw [attempt_eq ht hk hdepth]
  show oneDeeper _ i _ = .ok _ (c.deeper.moved p).shallower
  refine oneDeeper_of_ok ?_
  rw [Cursor.deeper_moved, then_of_ok h]
  show (continuesValue >>= fun b => if b then Pure.pure none else Pure.pure (some x) :
    Scan (Option Predicate)) i (c.deeper.moved p) = _
  rw [then_of_ok hcontinues]
  cases Parse.continuesValue (i.tokens.drop p) <;> rfl

theorem attempt_of_failed (ht : c.On i t) (hk : t.kind = .symbol .openParen)
    (hdepth : c.depth < i.limit) {fatal : Bool} {c' : Cursor}
    (h : grouped m i (c.trying.deeper.moved (c.position + 1)) = .failed fatal c') :
    attempt m i c.trying = .failed fatal c'.shallower := by
  rw [attempt_eq ht hk hdepth]
  exact oneDeeper_of_failed (then_of_failed h _)

/-- A level too many is fatal in an attempt as well. -/
theorem attempt_tooDeep (ht : c.On i t) (hdepth : i.limit ≤ c.depth) :
    attempt m i c.trying =
      .failed true (c.trying.withError ⟨i.tokens.drop c.position, .nestedTooDeeply⟩) := by
  unfold attempt
  rw [nested_of_le (show i.limit ≤ c.trying.depth from hdepth)]
  exact then_of_ok (record_eq ⟨t, ht⟩ _) _

/-- A failed attempt ends as if nothing had been tried, if it is given up for good. -/
theorem abandon_recorded (c : Cursor) (p : Nat) (f : Failure) :
    abandon f.fatal i ((c.trying.deeper.moved p).recorded f).shallower =
      if (f.fatal || decide (c.attempts ≠ 0)) = true then
        .failed f.fatal ((c.moved p).recorded f)
      else .ok none (c.moved p) := by
  have hattempt : ((c.trying.deeper.moved p).recorded f).shallower =
      if f.fatal = true then (c.trying.moved p).withError f else c.trying.moved p := by
    simp only [Cursor.recorded, Cursor.trying, Cursor.deeper, Cursor.moved, Nat.succ_ne_zero,
      false_or]
    split <;> rfl
  show (if (f.fatal || decide (0 < _)) = true then (raise f.fatal : Scan (Option Predicate))
    else Pure.pure none) i (((c.trying.deeper.moved p).recorded f).shallower.tried) = _
  rw [hattempt]
  cases hfatal : f.fatal with
  | true =>
    simp only [Cursor.recorded, hfatal, Bool.true_or, or_true, if_true]
    rfl
  | false =>
    show (if (false || decide (0 < c.attempts)) = true then (raise false : Scan (Option Predicate))
      else Pure.pure none) i (c.moved p) = _
    by_cases hattempts : c.attempts = 0
    · simp only [Cursor.recorded, hfatal, hattempts]
      rfl
    · have hrecorded : (c.moved p).recorded f = c.moved p := if_neg (by simp [hattempts, hfatal])
      have hpositive : 0 < c.attempts := Nat.pos_of_ne_zero hattempts
      rw [hrecorded, if_pos (by simp [hpositive]), if_pos (by simp [hattempts])]
      rfl

theorem recover_of_ok {α : Type} {m : Scan α} {c' : Cursor} {x : α} (h : m i c = .ok x c')
    (f : Bool → Scan α) : recover m f i c = .ok x c' := by
  unfold recover
  rw [h]

theorem recover_of_failed {α : Type} {m : Scan α} {c' : Cursor} {fatal : Bool}
    (h : m i c = .failed fatal c') (f : Bool → Scan α) : recover m f i c = f fatal i c' := by
  unfold recover
  rw [h]

end Attempts

/-! ## 3. Negations -/

section Levels

variable {m ms : Scan Predicate} {rs : Parse Predicate}

/-- A level that may not be opened, or that is read alike further inside, in attempts or not. -/
def ReadsNegations (i : ScanInput) (c : Cursor) (m : Scan Predicate) :
    Option (Bool → Parse Predicate) → Prop
  | none => i.limit ≤ c.depth
  | some r => c.depth < i.limit ∧ ∀ c' : Cursor, c'.depth = c.depth + 1 →
      Runs i c' m (r (decide (c'.attempts ≠ 0)))

/-- An attempt one level too deep ends the reading, and its error is recorded. -/
theorem parens_tooDeep (ht : c.On i t) (hk : t.kind = .symbol .openParen)
    (hdepth : i.limit ≤ c.depth) :
    Matches i c (Parse.negationStep none rs (decide (c.attempts ≠ 0))
        (t :: i.tokens.drop (c.position + 1)))
      ((do
        match ← recover (attempt m) abandon with
        | some p => return .paren p
        | none =>
          update fun c' => c'.moved c.position
          ms : Scan Predicate) i c.trying) := by
  have habandon : recover (attempt m) abandon i c.trying =
      .failed true (c.withError ⟨i.tokens.drop c.position, .nestedTooDeeply⟩) := by
    rw [recover_of_failed (attempt_tooDeep ht hdepth)]
    rfl
  have hread : Parse.negationStep none rs (decide (c.attempts ≠ 0))
      (t :: i.tokens.drop (c.position + 1)) = Parse.tooDeep (i.tokens.drop c.position) := by
    simp [Parse.negationStep, hk, ht.drop]
  have hrecorded :=
    Cursor.recorded_of_fatal c (f := ⟨i.tokens.drop c.position, .nestedTooDeeply⟩) rfl
  rw [then_of_failed habandon, hread, ← hrecorded]
  exact .error (p := c.position) (.refl ht.lt)

/-- What the attempt at a condition in parentheses leads to. -/
theorem parens_runs (hi : i.Closed) (ht : c.On i t) (hk : t.kind = .symbol .openParen)
    {inner : Option (Bool → Parse Predicate)} (hinner : ReadsNegations i c m inner)
    (hs : Runs i c ms rs) :
    Matches i c (Parse.negationStep inner rs (decide (c.attempts ≠ 0))
        (t :: i.tokens.drop (c.position + 1)))
      ((do
        match ← recover (attempt m) abandon with
        | some p => return .paren p
        | none =>
          update fun c' => c'.moved c.position
          ms : Scan Predicate) i c.trying) := by
  cases inner with
  | none => exact parens_tooDeep ht hk hinner
  | some r =>
    obtain ⟨hdepth, hm⟩ := hinner
    have hpassed := hi.passed ht (hk ▸ symbol_inside _)
    obtain ⟨u, hu⟩ := i.exists_on hpassed.lt
    have hon : (c.trying.deeper.moved (c.position + 1)).On i u := hu
    have hgrouped : Runs i (c.trying.deeper.moved (c.position + 1)) (grouped m)
        (Parse.grouped (r true)) := by
      refine grouped_runs hi fun p => ?_
      have hinside := hm (c.trying.deeper.moved p) rfl
      rwa [decide_eq_true (show (c.trying.deeper.moved p).attempts ≠ 0 from
        Nat.succ_ne_zero c.attempts)] at hinside
    have hmatches : Matches i (c.trying.deeper.moved (c.position + 1))
        (Parse.grouped (r true) (i.tokens.drop (c.position + 1)))
        (grouped m i (c.trying.deeper.moved (c.position + 1))) := by
      have hnext : i.tokens.drop (c.position + 1) = _ := hon.drop
      rw [hnext]
      exact hgrouped u hon
    generalize hread : Parse.grouped (r true) (i.tokens.drop (c.position + 1)) = e at hmatches
    generalize hscan : grouped m i (c.trying.deeper.moved (c.position + 1)) = o at hmatches
    cases hmatches with
    | @ok x p hp =>
      have hattempt := recover_of_ok (attempt_of_ok hi ht hk hdepth hp.lt hscan) abandon
      rw [then_of_ok hattempt]
      cases hcontinues : Parse.continuesValue (i.tokens.drop p) with
      | true =>
        rw [Parse.negationStep_value hk hread hcontinues]
        exact hs t ht
      | false =>
        rw [Parse.negationStep_grouped hk hread hcontinues]
        exact .ok (hpassed.trans hp)
    | @error f p hp =>
      have hattempt := recover_of_failed (attempt_of_failed ht hk hdepth hscan) abandon
      rw [Cursor.moved_moved, abandon_recorded] at hattempt
      have hstep : Parse.negationStep (some r) rs (decide (c.attempts ≠ 0))
          (t :: i.tokens.drop (c.position + 1)) =
          if (f.fatal || decide (c.attempts ≠ 0)) = true then .error f
          else rs (t :: i.tokens.drop (c.position + 1)) := by
        simp only [Parse.negationStep, Parse.kindOf_cons, hk, List.tail_cons, hread]
      rw [hstep]
      by_cases hend : (f.fatal || decide (c.attempts ≠ 0)) = true
      · rw [if_pos hend] at hattempt ⊢
        rw [then_of_failed hattempt]
        exact .error (hpassed.trans hp)
      · rw [if_neg hend] at hattempt ⊢
        rw [then_of_ok hattempt]
        exact hs t ht

/-- **One level of negations is read alike if the level inside it is.** -/
theorem negationRule_runs (hi : i.Closed) {inner : Option (Bool → Parse Predicate)}
    (hinner : ReadsNegations i c m inner) (hs : Runs i c ms rs) :
    Runs i c (negationRule m ms) (Parse.negationStep inner rs (decide (c.attempts ≠ 0))) := by
  intro t ht
  unfold negationRule
  by_cases hnot : t.kind = .keyword .NOT
  · have hinside : t.kind ∉ clauseEnd := hnot ▸ by decide
    cases inner with
    | none =>
      simp only [Parse.negationStep, Parse.kindOf_cons, hnot, List.tail_cons]
      exact Runs.accept hi ht hnot (by decide) (nested_tooDeep hinner)
    | some r =>
      simp only [Parse.negationStep, Parse.kindOf_cons, hnot, List.tail_cons]
      refine Runs.accept (r := Predicate.not <$> r (decide (c.attempts ≠ 0))) hi ht hnot
        (by decide) ?_
      exact nested_runs hinner.1 (hinner.2 _ rfl).map
  rw [accept_of_ne ht hnot, if_neg Bool.false_ne_true, atKind_then ht]
  by_cases hparen : t.kind = .symbol .openParen
  · rw [decide_eq_true hparen, if_pos rfl]
    exact parens_runs hi ht hparen hinner hs
  · rw [decide_eq_false hparen, if_neg Bool.false_ne_true,
      Parse.negationStep_simple (by simpa using hnot) (by simpa using hparen)]
    exact hs t ht

end Levels

theorem simpleAt_runs (hi : i.Closed) {n calls : Nat} (hdepth : i.limit - c.depth = n)
    (hcalls : n < calls) : Runs i c (simple (exprOf (factor calls))) (Parse.simple n) :=
  simple_runs hi fun p => expr_runs (c := c.moved p) hi hdepth hcalls

/-- **Negations are read alike at every level, if there is a call for each of the levels left and
    one more.** -/
theorem negation_runs (hi : i.Closed) {n calls : Nat} (hdepth : i.limit - c.depth = n)
    (hcalls : n < calls) :
    Runs i c (negation calls) (Parse.negation n (decide (c.attempts ≠ 0))) := by
  induction n generalizing calls c with
  | zero =>
    obtain ⟨k, rfl⟩ := Nat.exists_eq_succ_of_ne_zero (show calls ≠ 0 by omega)
    have hlevel : ReadsNegations i c (negation k) none := show i.limit ≤ c.depth by omega
    exact negationRule_runs hi hlevel (simpleAt_runs hi hdepth hcalls)
  | succ n ih =>
    obtain ⟨k, rfl⟩ := Nat.exists_eq_succ_of_ne_zero (show calls ≠ 0 by omega)
    have hlevel : ReadsNegations i c (negation k) (some (Parse.negation n)) :=
      ⟨by omega, fun c' hc' => ih (by omega) (by omega)⟩
    exact negationRule_runs hi hlevel (simpleAt_runs hi hdepth hcalls)

/-- So are conditions. -/
theorem condition_runs (hi : i.Closed) {n calls : Nat} (hdepth : i.limit - c.depth = n)
    (hcalls : n < calls) (hattempts : c.attempts = 0) :
    Runs i c (condition calls) (Parse.condition n) := by
  refine conditionOf_runs hi fun p => ?_
  have hnegation := negation_runs (c := c.moved p) hi hdepth hcalls
  rwa [decide_eq_false (show ¬ (c.moved p).attempts ≠ 0 by simpa using hattempts)] at hnegation

end MiningQuery.Scan
