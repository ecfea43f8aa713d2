/-
  File:      MiningQuery/Proofs/Guard/Reading.lean
  Subject:   What is read with guards is what the readers of token lists read.

  * `Forgets` -- but for what the guards have done, a call is left as by a reader with a cursor;
  * **`Rule.run_forgets`** -- this holds of every rule, since guards count as levels are counted;
  * `Rule.read`, **`Rule.scan_runs`** -- the rules for token lists, which read alike;
  * **`every_exit_restores`** -- every call of a rule returns what they read or throws what they fail
    with, and leaves both counts as it found them, no guard behind, and the cursor where it was or
    further on.
-/
import MiningQuery.Proofs.Guard.Restoring
import MiningQuery.Proofs.Scan.Condition

namespace MiningQuery

/-! ## 1. Guards forgotten -/

/-- The exit without what the guards have done. -/
def Exit.plain {α : Type} : Exit α → Outcome α
  | .returned x s => .ok x s.toCursor
  | .thrown fatal s => .failed fatal s.toCursor
  | .fault e => .fault e

namespace Guarded

/-- But for what the guards have done, the one is left as the other. -/
def Forgets {α : Type} (m : Guarded α) (r : Scan α) : Prop :=
  ∀ i s, (m i s).plain = r i s.toCursor

section Forgets

variable {α β : Type} {m : Guarded α} {r : Scan α} {i : ScanInput} {s : GuardedCursor}

theorem plainly_forgets (r : Scan α) : Forgets (plainly r) r := by
  intro i s
  unfold plainly
  cases r i s.toCursor <;> rfl

theorem Forgets.pure (x : α) : Forgets (pure x) (pure x) := fun _ _ => rfl

theorem Forgets.bind {f : α → Guarded β} {g : α → Scan β} (hm : Forgets m r)
    (hf : ∀ x, Forgets (f x) (g x)) : Forgets (m >>= f) (r >>= g) := by
  intro i s
  show (andThen m f i s).plain = Scan.andThen r g i s.toCursor
  unfold andThen Scan.andThen
  rw [← hm i s]
  cases m i s with
  | returned x s' => exact hf x i s'
  | thrown fatal s' => rfl
  | fault e => rfl

theorem Forgets.ite {c : Prop} [Decidable c] {m' : Guarded α} {r' : Scan α} (h : Forgets m r)
    (h' : Forgets m' r') : Forgets (if c then m else m') (if c then r else r') := by
  split
  · exact h
  · exact h'

/-- The steps of a guard count a level as it is counted around a part. -/
theorem Forgets.guarded (h : Forgets m r) : Forgets (guarded m) (Scan.nested r) := by
  intro i s
  by_cases hlimit : s.depth + 1 ≤ i.limit
  · rw [guarded_of_le m hlimit, Scan.nested_of_lt hlimit]
    have hinner : (m i s.opened).plain = r i s.deeper := h i s.opened
    unfold leaving Scan.oneDeeper
    rw [← hinner]
    cases m i s.opened <;> rfl
  · rw [guarded_of_lt m (Nat.lt_of_not_le hlimit), Scan.nested_of_le (by omega)]
    exact (plainly_forgets _).bind (fun _ => plainly_forgets (Scan.raise true)) i s

theorem Forgets.rescue {h : Bool → Guarded α} {g : Bool → Scan α} (hm : Forgets m r)
    (hh : ∀ fatal, Forgets (h fatal) (g fatal)) : Forgets (rescue m h) (Scan.recover r g) := by
  intro i s
  unfold Guarded.rescue Scan.recover
  rw [← hm i s]
  cases m i s with
  | returned x s' => rfl
  | thrown fatal s' => exact hh fatal i s'
  | fault e => rfl

/-! ## 2. Repetition -/

section Repeat

variable {ω : Type} {operator : TokenKind → Option ω} {combine : ω → α → α → α}

theorem Forgets.chainFrom (h : Forgets m r) (rounds : Nat) (left : α) :
    Forgets (chainFrom operator combine m rounds left)
      (Scan.chainFrom operator combine r rounds left) := by
  induction rounds generalizing left with
  | zero => exact plainly_forgets (Scan.stop .endless)
  | succ rounds ih =>
    refine (plainly_forgets Scan.cur).bind fun t => ?_
    cases operator t.kind with
    | none => exact .pure left
    | some op => exact (plainly_forgets Scan.advance).bind fun _ => h.bind fun right => ih _

theorem Forgets.chain (h : Forgets m r) :
    Forgets (chain operator combine m) (Scan.chain operator combine r) :=
  h.bind fun left => (plainly_forgets Scan.input).bind fun _ => h.chainFrom _ left

theorem Forgets.commaListFrom (h : Forgets m r) (rounds : Nat) :
    Forgets (commaListFrom m rounds) (Scan.commaListFrom r rounds) := by
  induction rounds with
  | zero => exact plainly_forgets (Scan.stop .endless)
  | succ rounds ih =>
    refine (plainly_forgets (Scan.accept _)).bind fun found => Forgets.ite ?_ (.pure [])
    exact h.bind fun x => ih.bind fun xs => .pure (x :: xs)

theorem Forgets.commaList (h : Forgets m r) : Forgets (commaList m) (Scan.commaList r) :=
  h.bind fun x => (plainly_forgets Scan.input).bind fun _ =>
    (h.commaListFrom _).bind fun xs => .pure (x :: xs)

end Repeat

end Forgets

/-! ## 3. Expressions -/

section Expressions

variable {m : Guarded Expr} {r : Scan Expr}

theorem Forgets.exprOf (h : Forgets m r) : Forgets (exprOf m) (Scan.exprOf r) := h.chain.chain

theorem closeParen_forgets {α : Type} (x : α) :
    Forgets (do let _ ← Scan.expect (.symbol .closeParen); return x)
      (do let _ ← Scan.expect (.symbol .closeParen); return x) :=
  (plainly_forgets _).bind fun _ => .pure x

theorem Forgets.parenthesized (h : Forgets m r) :
    Forgets (parenthesized m) (Scan.parenthesized r) := by
  refine Forgets.guarded ((plainly_forgets Scan.advance).bind fun _ => ?_)
  exact h.bind fun e => closeParen_forgets _

theorem Forgets.aggregateCall (function : Text) (h : Forgets m r) :
    Forgets (aggregateCall function m) (Scan.aggregateCall function r) := by
  refine Forgets.guarded ((plainly_forgets Scan.advance).bind fun _ => ?_)
  refine (plainly_forgets Scan.advance).bind fun _ => (plainly_forgets (Scan.accept _)).bind fun _ =>
    Forgets.ite (closeParen_forgets _) ?_
  exact h.bind fun e => closeParen_forgets _

theorem Forgets.factorRule (h : Forgets m r) : Forgets (factorRule m) (Scan.factorRule r) := by
  refine (plainly_forgets Scan.cur).bind fun t => ?_
  have hmismatch := plainly_forgets (Scan.mismatch Parse.factorStart : Scan Expr)
  generalize t.kind = kind
  cases kind with
  | int | float => exact (plainly_forgets (Scan.number false)).bind fun l => .pure _
  | string => exact (plainly_forgets Scan.advance).bind fun _ => .pure _
  | endOfInput => exact hmismatch
  | keyword k =>
    cases k with
    | NULL => exact (plainly_forgets Scan.advance).bind fun _ => .pure _
    | _ => exact hmismatch
  | identifier =>
    refine (plainly_forgets Scan.peek).bind fun u => Forgets.ite (h.aggregateCall t.text) ?_
    exact (plainly_forgets Scan.columnRef).bind fun c => .pure _
  | symbol s =>
    cases s with
    | minus =>
      refine (plainly_forgets Scan.peek).bind fun u => Forgets.ite ?_ hmismatch
      exact (plainly_forgets Scan.advance).bind fun _ =>
        (plainly_forgets (Scan.number true)).bind fun l => .pure _
    | openParen => exact h.parenthesized
    | _ => exact hmismatch

theorem factor_forgets (calls : Nat) : Forgets (factor calls) (Scan.factor calls) := by
  induction calls with
  | zero => exact plainly_forgets (Scan.stop .endless)
  | succ calls ih => exact ih.exprOf.factorRule

/-! ## 4. Conditions -/

theorem Forgets.negatableTail (h : Forgets m r) (negated : Bool) (subject : Expr) :
    Forgets (negatableTail m negated subject) (Scan.negatableTail r negated subject) := by
  refine (plainly_forgets (Scan.accept _)).bind fun _ => Forgets.ite ?_ ?_
  · refine h.bind fun low => (plainly_forgets (Scan.expect _)).bind fun _ => ?_
    exact h.bind fun high => .pure _
  refine (plainly_forgets (Scan.accept _)).bind fun _ => Forgets.ite ?_ ?_
  · exact (plainly_forgets (Scan.expect _)).bind fun pattern => .pure _
  refine (plainly_forgets (Scan.accept _)).bind fun _ => Forgets.ite ?_ ?_
  · refine (plainly_forgets (Scan.expect _)).bind fun _ => ?_
    exact h.commaList.bind fun values => closeParen_forgets _
  exact Forgets.ite (plainly_forgets (Scan.stop .failedCheck)) (.pure _)

theorem Forgets.simpleTail (h : Forgets m r) (subject : Expr) :
    Forgets (simpleTail m subject) (Scan.simpleTail r subject) := by
  refine (plainly_forgets Scan.cur).bind fun t => ?_
  cases Parse.comparison? t.kind with
  | some op => exact (plainly_forgets Scan.advance).bind fun _ => h.bind fun e => .pure _
  | none =>
    refine (plainly_forgets (Scan.accept _)).bind fun _ => Forgets.ite ?_ ?_
    · refine (plainly_forgets (Scan.accept _)).bind fun negated => ?_
      exact (plainly_forgets (Scan.expect _)).bind fun _ => .pure _
    · exact (plainly_forgets Scan.pendingNot).bind fun negated => h.negatableTail negated subject

theorem Forgets.simple (h : Forgets m r) : Forgets (simple m) (Scan.simple r) :=
  h.bind fun subject => h.simpleTail subject

end Expressions

section Conditions

variable {m ms : Guarded Predicate} {r rs : Scan Predicate}

theorem Forgets.conditionOf (h : Forgets m r) : Forgets (conditionOf m) (Scan.conditionOf r) :=
  h.chain.chain

theorem Forgets.attempt (h : Forgets m r) : Forgets (attempt m) (Scan.attempt r) := by
  have hgrouped : Forgets (grouped m) (Scan.grouped r) :=
    h.conditionOf.bind fun p => closeParen_forgets p
  refine Forgets.guarded ((plainly_forgets Scan.advance).bind fun _ => ?_)
  exact hgrouped.bind fun p => plainly_forgets (settle p)

end Conditions

end Guarded

/-! ## 5. The eight rules for readers with a cursor -/

namespace Scan

/-- What a negation without its `NOT` is. -/
def primaryRule (negation simple : Scan Predicate) : Scan Predicate := do
  if ← atKind (.symbol .openParen) then
    let mark := (← cursor).position
    update Cursor.trying
    match ← recover (attempt negation) abandon with
    | some p => return .paren p
    | none =>
      update fun c => c.moved mark
      simple
  else simple

theorem negationRule_eq (m ms : Scan Predicate) : negationRule m ms = (do
    if ← accept (.keyword .NOT) then
      nested do return .not (← m)
    else primaryRule m ms) := rfl

/-- Reads what a negation without its `NOT` is; rules may call themselves so many times inside
    themselves. -/
def primary : Nat → Scan Predicate
  | 0 => stop .endless
  | n + 1 => primaryRule (negation n) (simple (exprOf (factor (n + 1))))

end Scan

namespace Guarded

variable {m ms : Guarded Predicate} {r rs : Scan Predicate}

theorem Forgets.primaryRule (h : Forgets m r) (hs : Forgets ms rs) :
    Forgets (primaryRule m ms) (Scan.primaryRule r rs) := by
  refine (plainly_forgets (Scan.atKind _)).bind fun _ => Forgets.ite ?_ hs
  refine (plainly_forgets Scan.cursor).bind fun c => (plainly_forgets (Scan.update _)).bind fun _ => ?_
  refine (h.attempt.rescue fun fatal => plainly_forgets (Scan.abandon fatal)).bind fun read => ?_
  cases read with
  | some p => exact .pure _
  | none => exact (plainly_forgets (Scan.update _)).bind fun _ => hs

theorem Forgets.negationRule (h : Forgets m r) (hs : Forgets ms (Scan.primaryRule r rs)) :
    Forgets (negationRule m ms) (Scan.negationRule r rs) := by
  rw [Scan.negationRule_eq]
  refine (plainly_forgets (Scan.accept _)).bind fun _ => Forgets.ite ?_ hs
  exact Forgets.guarded (h.bind fun p => .pure _)

theorem simpleAt_forgets (calls : Nat) :
    Forgets (simple (exprOf (factor calls))) (Scan.simple (Scan.exprOf (Scan.factor calls))) :=
  (factor_forgets calls).exprOf.simple

theorem negation_forgets (calls : Nat) : Forgets (negation calls) (Scan.negation calls) := by
  induction calls with
  | zero => exact plainly_forgets (Scan.stop .endless)
  | succ calls ih => exact ih.negationRule (ih.primaryRule (simpleAt_forgets (calls + 1)))

theorem primary_forgets (calls : Nat) : Forgets (primary calls) (Scan.primary calls) := by
  cases calls with
  | zero => exact plainly_forgets (Scan.stop .endless)
  | succ calls => exact (negation_forgets calls).primaryRule (simpleAt_forgets (calls + 1))

end Guarded

namespace Rule

/-- How a rule runs without guards. -/
def scan (calls : Nat) : (rule : Rule) → Scan rule.Value
  | condition => Scan.conditionOf (Scan.negation calls)
  | conjunction => Scan.chain Parse.conjunctive? .logical (Scan.negation calls)
  | negation => Scan.negation calls
  | primary => Scan.primary calls
  | simple => Scan.simple (Scan.exprOf (Scan.factor calls))
  | expr => Scan.exprOf (Scan.factor calls)
  | term => Scan.chain Parse.multiplicative? .arith (Scan.factor calls)
  | factor => Scan.factor calls

/-- **But for what the guards have done, every rule runs as it does without them.** -/
theorem run_forgets (rule : Rule) (calls : Nat) : (rule.run calls).Forgets (rule.scan calls) := by
  cases rule with
  | condition => exact (Guarded.negation_forgets calls).conditionOf
  | conjunction => exact (Guarded.negation_forgets calls).chain
  | negation => exact Guarded.negation_forgets calls
  | primary => exact Guarded.primary_forgets calls
  | simple => exact Guarded.simpleAt_forgets calls
  | expr => exact (Guarded.factor_forgets calls).exprOf
  | term => exact (Guarded.factor_forgets calls).chain
  | factor => exact Guarded.factor_forgets calls

/-! ## 6. The eight rules for readers of token lists -/

/-- How a rule reads token lists, if so many levels may be opened and in an attempt or not; outside
    attempts a condition is read by `Parse.condition`. There is no such reader of `primary` alone: a
    negation without its `NOT` is one, and a `NOT` begins no simple condition. -/
def read (levels : Nat) (attempting : Bool) : (rule : Rule) → Parse rule.Value
  | condition => Parse.conditionOf (Parse.negation levels attempting)
  | conjunction => Parse.chain Parse.conjunctive? .logical (Parse.negation levels attempting)
  | negation => Parse.negation levels attempting
  | primary => fun ts =>
    if Parse.kindOf ts = .keyword .NOT then Parse.simple levels ts
    else Parse.negation levels attempting ts
  | simple => Parse.simple levels
  | expr => Parse.expr levels
  | term => Parse.chain Parse.multiplicative? .arith (Parse.factor levels)
  | factor => Parse.factor levels

end Rule

namespace Scan

variable {i : ScanInput} {c : Cursor}

theorem Matches.of_ok {α : Type} {o : Except Failure (α × List Token)} {x : α} {c' : Cursor}
    (h : Matches i c o (.ok x c')) : o = .ok (x, i.tokens.drop c'.position) := by
  cases h
  rfl

theorem Matches.of_failed {α : Type} {o : Except Failure (α × List Token)} {fatal : Bool}
    {c' : Cursor} (h : Matches i c o (.failed fatal c')) : ∃ f, f.fatal = fatal ∧ o = .error f := by
  cases h with
  | error => exact ⟨_, rfl, rfl⟩

theorem primaryRule_runs (hi : i.Closed) {m ms : Scan Predicate} {rs : Parse Predicate}
    {inner : Option (Bool → Parse Predicate)} (hinner : ReadsNegations i c m inner)
    (hs : Runs i c ms rs) :
    Runs i c (primaryRule m ms) (fun ts =>
      if Parse.kindOf ts = .keyword .NOT then rs ts
      else Parse.negationStep inner rs (decide (c.attempts ≠ 0)) ts) := by
  intro t ht
  show Matches i c (if t.kind = .keyword .NOT then _ else _) _
  by_cases hnot : t.kind = .keyword .NOT
  · have hparen : t.kind ≠ .symbol .openParen := by simp [hnot]
    unfold primaryRule
    rw [if_pos hnot, atKind_then ht, decide_eq_false hparen, if_neg Bool.false_ne_true]
    exact hs t ht
  · have hmatches := negationRule_runs hi hinner hs t ht
    rw [negationRule_eq, accept_of_ne ht hnot, if_neg Bool.false_ne_true] at hmatches
    rw [if_neg hnot]
    exact hmatches

theorem primary_runs (hi : i.Closed) {n calls : Nat} (hdepth : i.limit - c.depth = n)
    (hcalls : n < calls) :
    Runs i c (primary calls) (Rule.primary.read n (decide (c.attempts ≠ 0))) := by
  obtain ⟨k, rfl⟩ := Nat.exists_eq_succ_of_ne_zero (show calls ≠ 0 by omega)
  have hsimple := simpleAt_runs hi hdepth hcalls
  cases n with
  | zero =>
    have hlevel : ReadsNegations i c (negation k) none := show i.limit ≤ c.depth by omega
    exact primaryRule_runs hi hlevel hsimple
  | succ n =>
    have hlevel : ReadsNegations i c (negation k) (some (Parse.negation n)) :=
      ⟨by omega, fun c' hc' => negation_runs hi (by omega) (by omega)⟩
    exact primaryRule_runs hi hlevel hsimple

end Scan

/-- **Every rule reads alike with a cursor and from token lists**, if there is a call for each of the
    levels that may still be opened and one more. -/
theorem Rule.scan_runs {i : ScanInput} {c : Cursor} (hi : i.Closed) (rule : Rule) {calls : Nat}
    (hcalls : i.limit - c.depth < calls) :
    Scan.Runs i c (rule.scan calls) (rule.read (i.limit - c.depth) (decide (c.attempts ≠ 0))) := by
  cases rule with
  | condition =>
    exact Scan.conditionOf_runs hi fun p => Scan.negation_runs (c := c.moved p) hi rfl hcalls
  | conjunction =>
    exact Scan.chain_runs hi Scan.conjunctive_inside fun p =>
      Scan.negation_runs (c := c.moved p) hi rfl hcalls
  | negation => exact Scan.negation_runs hi rfl hcalls
  | primary => exact Scan.primary_runs hi rfl hcalls
  | simple => exact Scan.simpleAt_runs hi rfl hcalls
  | expr => exact Scan.expr_runs hi rfl hcalls
  | term =>
    exact Scan.chain_runs hi Scan.multiplicative_inside fun p =>
      Scan.factor_runs (c := c.moved p) hi rfl hcalls
  | factor => exact Scan.factor_runs hi rfl hcalls

/-! ## 7. Every exit -/

/-- **Every exit of every rule restores the counts.** Tokens that end with the end of the input, a
    limit, and a cursor on one of the tokens with any counts and any guards behind it: each of the
    eight rules returns or throws, if there is a call for each level that may still be opened and one
    more. Either way both counts are what they were, and every guard that has come counted a level
    within the limit and has gone. A rule that returns has passed over a token and returns what is
    read from the tokens; one that throws has not gone back and throws what that reading fails
    with. -/
theorem every_exit_restores {i : ScanInput} (hi : i.Closed) {s : GuardedCursor}
    (hs : s.position < i.tokens.length) {calls : Nat} (hcalls : i.limit - s.depth < calls)
    (rule : Rule) :
    ∃ s' : GuardedCursor, s'.depth = s.depth ∧ s'.attempts = s.attempts ∧
      (∃ events, s'.guards = s.guards ++ events ∧ Paired i.limit s.depth events) ∧
      ((∃ x, rule.run calls i s = .returned x s' ∧ s.position < s'.position ∧
          rule.read (i.limit - s.depth) (decide (s.attempts ≠ 0)) (i.tokens.drop s.position) =
            .ok (x, i.tokens.drop s'.position)) ∨
        ∃ f : Failure, rule.run calls i s = .thrown f.fatal s' ∧ s.position ≤ s'.position ∧
          rule.read (i.limit - s.depth) (decide (s.attempts ≠ 0)) (i.tokens.drop s.position) =
            .error f) := by
  obtain ⟨t, ht⟩ := i.exists_on hs
  have hon : s.toCursor.On i t := ht
  have hmatches := rule.scan_runs (c := s.toCursor) hi hcalls t hon
  rw [← hon.drop, ← rule.run_forgets calls i s] at hmatches
  have hrestores := rule.run_restores calls i s
  generalize rule.run calls i s = e at hmatches hrestores ⊢
  generalize rule.read (i.limit - s.depth) (decide (s.attempts ≠ 0)) (i.tokens.drop s.position) = o
    at hmatches ⊢
  cases hrestores with
  | @returned x s' hs' =>
    have hread : o = .ok (x, i.tokens.drop s'.position) := hmatches.of_ok
    exact ⟨s', hs'.depth, hs'.attempts, hs'.guards, .inl ⟨x, rfl, hs'.passed, hread⟩⟩
  | @thrown fatal s' hs' =>
    obtain ⟨f, rfl, rfl⟩ := hmatches.of_failed
    exact ⟨s', hs'.depth, hs'.attempts, hs'.guards, .inr ⟨f, rfl, hs'.passed, rfl⟩⟩
  | fault => cases hmatches

/-- `((a) = 1)` opens two levels, each in an attempt. Within a limit of two the inner attempt is
    dropped and the cursor goes back, and the condition is returned all the same; with a limit of one
    the inner level is an error that passes through both attempts. -/
theorem every_exit_restores_attempts :
    let tokens := (lex (ascii "((a) = 1)")).tokens
    (ScanInput.Closed ⟨tokens, 2⟩ ∧ 0 < tokens.length ∧ 2 - 0 < 3 ∧
      ∃ x s', Rule.condition.run 3 ⟨tokens, 2⟩ {} = .returned x s' ∧ s'.depth = 0 ∧
        s'.attempts = 0 ∧ Paired 2 0 s'.guards ∧ 0 < s'.position) ∧
    ScanInput.Closed ⟨tokens, 1⟩ ∧ 1 - 0 < 2 ∧
      ∃ s', Rule.condition.run 2 ⟨tokens, 1⟩ {} = .thrown true s' ∧ s'.depth = 0 ∧
        s'.attempts = 0 ∧ Paired 1 0 s'.guards := by
  intro tokens
  have hclosed (limit : Nat) : ScanInput.Closed ⟨tokens, limit⟩ := by
    show tokens.getLast?.map (·.kind) = some .endOfInput
    decide +kernel
  have hlength : 0 < tokens.length := by decide +kernel
  refine ⟨⟨hclosed 2, hlength, by decide, ?_⟩, hclosed 1, by decide, ?_⟩
  · obtain ⟨s', hdepth, hattempts, ⟨events, rfl, hpaired⟩, hexit⟩ :=
      every_exit_restores (hclosed 2) (s := {}) hlength (show 2 - 0 < 3 by decide) .condition
    rcases hexit with ⟨x, hrun, hpassed, -⟩ | ⟨f, -, -, hread⟩
    · exact ⟨x, s', hrun, hdepth, hattempts, hpaired, hpassed⟩
    · have hok : (Rule.condition.read 2 false tokens).isOk = true := by decide +kernel
      change Rule.condition.read 2 false tokens = .error f at hread
      rw [hread] at hok
      cases hok
  · obtain ⟨s', hdepth, hattempts, ⟨events, rfl, hpaired⟩, hexit⟩ :=
      every_exit_restores (hclosed 1) (s := {}) hlength (show 1 - 0 < 2 by decide) .condition
    have hfatal : (match Rule.condition.read 1 false tokens with
      | .error f => f.fatal
      | .ok _ => false) = true := by decide +kernel
    rcases hexit with ⟨x, -, -, hread⟩ | ⟨f, hrun, -, hread⟩
    · change Rule.condition.read 1 false tokens = .ok (x, tokens.drop s'.position) at hread
      rw [hread] at hfatal
      cases hfatal
    · change Rule.condition.read 1 false tokens = .error f at hread
      rw [hread] at hfatal
      exact ⟨s', hfatal ▸ hrun, hdepth, hattempts, hpaired⟩

end MiningQuery
