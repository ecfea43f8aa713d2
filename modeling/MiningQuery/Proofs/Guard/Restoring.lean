/-
  File:      MiningQuery/Proofs/Guard/Restoring.lean
  Subject:   Every rule leaves the counts as it found them, on each way out.

  * `Restores.factorRule`, `Restores.simpleTail` -- rule by rule, from the parts;
  * `Attempted`, `attempt_exit` -- an attempt that returns has been counted back, one that throws has
    not;
  * **`Restores.primaryRule`** -- so it is counted back on both ways out, and the way back to its
    start does not go behind that;
  * **`Rule.run_restores`** -- every rule restores the cursor, whatever the tokens, the limit and the
    cursor are.
-/
import MiningQuery.Proofs.Guard.Steps

namespace MiningQuery

open GuardedCursor (Restored)

namespace Guarded

section Rules

variable {α : Type} {n : Nat} {i : ScanInput} {s : GuardedCursor}

/-! ## 1. Expressions -/

theorem closeParen_restores (x : α) : Restores 0 (do
    let _ ← Scan.expect (.symbol .closeParen)
    return x : Guarded α) :=
  (expect_restores _).weaken.bind_last fun _ => .pure x

section Expressions

variable {expr : Guarded Expr}

theorem Restores.exprOf {factor : Guarded Expr} (h : Restores n factor) :
    Restores n (exprOf factor) := h.chain.chain

theorem Restores.parenthesized (h : Restores n expr) : Restores 1 (parenthesized expr) := by
  refine Restores.guarded (advance_restores.bind_first fun _ => ?_)
  exact h.weaken.bind_last fun e => closeParen_restores _

theorem Restores.aggregateCall (function : Text) (h : Restores n expr) :
    Restores 1 (aggregateCall function expr) := by
  have harguments : Restores 0 (aggregateArguments function expr) := by
    refine (accept_restores _).bind_last fun found => ?_
    split
    · exact closeParen_restores _
    · exact h.weaken.bind_last fun e => closeParen_restores _
  refine Restores.guarded (advance_restores.bind_first fun _ => ?_)
  exact advance_restores.weaken.bind_last fun _ => harguments

/-- **A factor restores the cursor if the expressions inside it do.** -/
theorem Restores.factorRule (h : Restores n expr) : Restores 1 (factorRule expr) := by
  refine cur_looks.restores.bind_last fun t => ?_
  split
  · exact (number_restores false).bind_first fun l => .pure _
  · exact (number_restores false).bind_first fun l => .pure _
  · exact advance_restores.bind_first fun _ => .pure _
  · exact advance_restores.bind_first fun _ => .pure _
  · refine peek_looks.restores.bind_last fun u => ?_
    split
    · exact advance_restores.bind_first fun _ => (number_restores true).weaken.bind_last fun l =>
        .pure _
    · exact mismatch_restores _
  · exact h.parenthesized
  · refine peek_looks.restores.bind_last fun u => ?_
    split
    · exact h.aggregateCall t.text
    · exact columnRef_restores.bind_first fun c => .pure _
  · exact mismatch_restores _

theorem factor_restores (calls : Nat) : Restores 1 (factor calls) := by
  induction calls with
  | zero => exact stop_restores .endless
  | succ calls ih => exact ih.exprOf.factorRule

/-! ## 2. Simple conditions -/

theorem Restores.negatableTail (h : Restores n expr) (negated : Bool) (subject : Expr) :
    Restores 0 (negatableTail expr negated subject) := by
  refine (accept_restores _).bind_last fun between => ?_
  split
  · refine h.weaken.bind_last fun low => (expect_restores _).weaken.bind_last fun _ => ?_
    exact h.weaken.bind_last fun high => .pure _
  refine (accept_restores _).bind_last fun like => ?_
  split
  · exact (expect_restores _).weaken.bind_last fun pattern => .pure _
  refine (accept_restores _).bind_last fun isIn => ?_
  split
  · refine (expect_restores _).weaken.bind_last fun _ => ?_
    exact h.commaList.weaken.bind_last fun values => closeParen_restores _
  split
  · exact stop_restores .failedCheck
  · exact .pure _

theorem Restores.simpleTail (h : Restores n expr) (subject : Expr) :
    Restores 0 (simpleTail expr subject) := by
  refine cur_looks.restores.bind_last fun t => ?_
  split
  · exact advance_restores.weaken.bind_last fun _ => h.weaken.bind_last fun e => .pure _
  refine (accept_restores _).bind_last fun is => ?_
  split
  · refine (accept_restores _).bind_last fun negated => ?_
    exact (expect_restores _).weaken.bind_last fun _ => .pure _
  · exact pendingNot_restores.bind_last fun negated => h.negatableTail negated subject

theorem Restores.simple (h : Restores n expr) : Restores n (simple expr) :=
  h.bind_first fun subject => h.simpleTail subject

end Expressions

/-! ## 3. Attempts -/

section Attempts

variable {negation : Guarded Predicate}

theorem Restores.conditionOf (h : Restores n negation) : Restores n (conditionOf negation) :=
  h.chain.chain

theorem Restores.grouped (h : Restores n negation) : Restores n (grouped negation) :=
  h.conditionOf.bind_first fun p => closeParen_restores p

/-- How an attempt is left that is counted: it has been counted back if it returns, and is still
    counted if it throws. -/
inductive Attempted (i : ScanInput) (s : GuardedCursor) : Exit α → Prop
  | returned {x : α} {s' : GuardedCursor} : Restored i 1 s s' → Attempted i s (.returned x s')
  | thrown {fatal : Bool} {s' : GuardedCursor} : Restored i 0 (s.withCursor s.trying) s' →
      Attempted i s (.thrown fatal s')
  | fault {e : ScanFault} : Attempted i s (.fault e)

/-- The guard of an attempt goes before the attempt is counted back on a throw. -/
theorem leaving_attempted {m : Guarded α} (hlimit : s.depth + 1 ≤ i.limit)
    (h : Attempted i s.opened (m i (s.withCursor s.trying).opened)) :
    Attempted i s (leaving m i (s.withCursor s.trying).opened) := by
  unfold leaving
  generalize m i (s.withCursor s.trying).opened = e at h ⊢
  cases h with
  | returned hs => exact .returned (hs.closed hlimit)
  | thrown hs =>
    have htrying : (s.withCursor s.trying).depth + 1 ≤ i.limit := hlimit
    exact .thrown (Restored.closed htrying hs)
  | fault => exact .fault

/-- An attempt that has come to its end is counted back. -/
theorem settle_exit (p : Predicate) (i : ScanInput) (s : GuardedCursor) :
    (∃ x, plainly (settle p) i s = .returned x (s.withCursor s.tried)) ∨
      ∃ e, plainly (settle p) i s = .fault e := by
  have hlooks : Looks (do if ← Scan.continuesValue then return none else return some p) := by
    refine continuesValue_looks.bind fun goesOn => ?_
    split
    · exact .pure none
    · exact .pure (some p)
  have hrun : settle p i s.toCursor =
      (do if ← Scan.continuesValue then return none else return some p : Scan _) i s.tried := rfl
  unfold plainly
  rw [hrun]
  rcases hlooks i s.tried with ⟨x, hexit⟩ | ⟨e, hexit⟩
  · rw [hexit]
    exact .inl ⟨x, rfl⟩
  · rw [hexit]
    exact .inr ⟨e, rfl⟩

/-- **An attempt restores the cursor but for its count, which a throw leaves to be taken back.** -/
theorem attempt_exit (h : Restores 1 negation) (i : ScanInput) (s : GuardedCursor) :
    Attempted i s (attempt negation i (s.withCursor s.trying)) := by
  have hbody : Attempted i s.opened ((do
      let _ ← Scan.advance
      let p ← grouped negation
      settle p : Guarded (Option Predicate)) i (s.withCursor s.trying).opened) := by
    refine advance_restores.then_cases (fun _ s₁ hs₁ => ?_) (fun _ _ hs => .thrown hs) fun _ => .fault
    refine h.grouped.weaken.then_cases (fun p s₂ hs₂ => ?_)
      (fun _ _ hs => .thrown (hs₁.trans hs).weaken) fun _ => .fault
    have hs : Restored i 1 (s.opened.withCursor s.opened.trying) s₂ := hs₁.trans hs₂
    rcases settle_exit p i s₂ with ⟨x, hsettle⟩ | ⟨e, hsettle⟩
    · show Attempted i s.opened (plainly (settle p) i s₂)
      rw [hsettle]
      exact .returned hs.tried
    · show Attempted i s.opened (plainly (settle p) i s₂)
      rw [hsettle]
      exact .fault
  by_cases hlimit : s.depth + 1 ≤ i.limit
  · have hentered : (s.withCursor s.trying).depth + 1 ≤ i.limit := hlimit
    unfold attempt
    rw [guarded_of_le _ hentered]
    exact leaving_attempted hlimit hbody
  · have hrefused : i.limit < (s.withCursor s.trying).depth + 1 := Nat.lt_of_not_le hlimit
    unfold attempt
    rw [guarded_of_lt _ hrefused]
    exact (record_restores _ _).then_cases (fun _ _ hs => .thrown hs) (fun _ _ hs => .thrown hs)
      fun _ => .fault

/-- What a counted attempt leads to, once a throw has been passed on or dropped: a condition that
    was read, or nothing, with the cursor restored in either case. -/
inductive Tried (i : ScanInput) (s : GuardedCursor) : Exit (Option Predicate) → Prop
  | read {p : Predicate} {s' : GuardedCursor} : Restored i 1 s s' →
      Tried i s (.returned (some p) s')
  | unread {s' : GuardedCursor} : Restored i 0 s s' → Tried i s (.returned none s')
  | thrown {fatal : Bool} {s' : GuardedCursor} : Restored i 0 s s' → Tried i s (.thrown fatal s')
  | fault {e : ScanFault} : Tried i s (.fault e)

theorem rescue_attempt (h : Restores 1 negation) (i : ScanInput) (s : GuardedCursor) :
    Tried i s (rescue (attempt negation) (fun fatal => plainly (Scan.abandon fatal)) i
      (s.withCursor s.trying)) := by
  have hattempt := attempt_exit h i s
  unfold rescue
  generalize attempt negation i (s.withCursor s.trying) = e at hattempt ⊢
  cases hattempt with
  | @returned x s' hs =>
    cases x with
    | none => exact .unread hs.weaken
    | some p => exact .read hs
  | @thrown fatal s' hs =>
    have habandon : plainly (Scan.abandon fatal) i s' =
        plainly (if fatal || 0 < s'.tried.attempts then Scan.raise fatal else pure none) i
          (s'.withCursor s'.tried) := rfl
    show Tried i s (plainly (Scan.abandon fatal) i s')
    rw [habandon]
    split
    · exact .thrown hs.tried
    · exact .unread hs.tried
  | fault => exact .fault

/-- **A condition in parentheses restores the cursor, whichever way it is read in the end.** -/
theorem Restores.primaryRule {simple : Guarded Predicate} (h : Restores 1 negation)
    (hsimple : Restores 1 simple) : Restores 1 (primaryRule negation simple) := by
  refine (atKind_looks _).restores.bind_last fun found => ?_
  split
  · intro i s
    show ((rescue (attempt negation) (fun fatal => plainly (Scan.abandon fatal)) >>=
      fallBack s.position simple) i (s.withCursor s.trying)).Restores i 1 s
    have htried := rescue_attempt h i s
    generalize hrun : rescue (attempt negation) (fun fatal => plainly (Scan.abandon fatal)) i
      (s.withCursor s.trying) = e at htried
    cases htried with
    | read hs => exact then_of_returned hrun ▸ .returned hs
    | unread hs =>
      rw [then_of_returned hrun]
      exact (hsimple i _).after hs.moved
    | thrown hs => exact then_of_thrown hrun ▸ .thrown hs
    | fault => exact then_of_fault hrun ▸ .fault
  · exact hsimple

theorem Restores.negationRule {primary : Guarded Predicate} (h : Restores 1 negation)
    (hprimary : Restores 1 primary) : Restores 1 (negationRule negation primary) := by
  refine (accept_restores _).bind_last fun found => ?_
  split
  · exact Restores.guarded (h.bind_first fun p => .pure _)
  · exact hprimary

end Attempts

/-! ## 4. Rules -/

theorem simpleAt_restores (calls : Nat) : Restores 1 (simple (exprOf (factor calls))) :=
  (factor_restores calls).exprOf.simple

theorem negation_restores (calls : Nat) : Restores 1 (negation calls) := by
  induction calls with
  | zero => exact stop_restores .endless
  | succ calls ih => exact ih.negationRule (ih.primaryRule (simpleAt_restores (calls + 1)))

theorem primary_restores (calls : Nat) : Restores 1 (primary calls) := by
  cases calls with
  | zero => exact stop_restores .endless
  | succ calls =>
    exact (negation_restores calls).primaryRule (simpleAt_restores (calls + 1))

end Rules

end Guarded

/-- **Every rule restores the cursor on every way out, and has passed over a token if it returns**,
    whatever the tokens and the limit are and from every cursor on. -/
theorem Rule.run_restores (rule : Rule) (calls : Nat) : (rule.run calls).Restores 1 := by
  cases rule with
  | condition => exact (Guarded.negation_restores calls).conditionOf
  | conjunction => exact (Guarded.negation_restores calls).chain
  | negation => exact Guarded.negation_restores calls
  | primary => exact Guarded.primary_restores calls
  | simple => exact Guarded.simpleAt_restores calls
  | expr => exact (Guarded.factor_restores calls).exprOf
  | term => exact (Guarded.factor_restores calls).chain
  | factor => exact Guarded.factor_restores calls

end MiningQuery
