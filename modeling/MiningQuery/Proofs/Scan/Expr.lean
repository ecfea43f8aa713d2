/-
  File:      MiningQuery/Proofs/Scan/Expr.lean
  Subject:   Expressions are read with a cursor as they are read from token lists.

  * `number_runs`, `columnRef_runs`, `factorRule_runs` -- rule by rule;
  * **`factor_runs`** -- level by level, and the calls that are counted down never run out, since a
    level is opened before each of them.
-/
import MiningQuery.Proofs.Scan.Runs

namespace MiningQuery.Scan

open Parse (clauseEnd)

variable {i : ScanInput} {c : Cursor}

/-! ## 1. Numbers and columns -/

theorem number_inside {k : TokenKind} (hk : k = .int ∨ k = .float) : k ∉ clauseEnd := by
  rcases hk with rfl | rfl <;> decide

/-- The cause of a number that cannot be read is not fatal. -/
theorem numberLiteral_cause {negative : Bool} {t : Token} {cause : Cause}
    (h : Parse.numberLiteral negative t = .error cause) : cause ≠ .nestedTooDeeply := by
  simp only [Parse.numberLiteral] at h
  generalize (if negative then ascii "-" else []) ++ t.text = text at h
  intro hcause
  rw [hcause] at h
  split at h <;> split at h <;> cases h

theorem number_runs (hi : i.Closed) (negative : Bool) :
    Runs i c (number negative) (Parse.number negative) := by
  intro t ht
  unfold number
  rw [cur_then ht]
  by_cases hk : t.kind = .int ∨ t.kind = .float
  · rw [if_pos hk]
    have hinside := number_inside hk
    show Matches i c _ ((advance >>= fun _ => _) i c)
    cases hl : Parse.numberLiteral negative t with
    | ok l =>
      rw [Parse.number_cons hk hl]
      exact .advance hi ht hinside rfl
    | error cause =>
      have hread : Parse.number negative (t :: i.tokens.drop (c.position + 1)) =
          .error ⟨t :: i.tokens.drop (c.position + 1), cause⟩ := by
        simp [Parse.number, hk, hl]
      have hcause := numberLiteral_cause hl
      have hfatal : (⟨t :: i.tokens.drop (c.position + 1), cause⟩ : Failure).fatal = false := by
        simp [Failure.fatal, hcause]
      rw [hread, advance_then ht (ne_endOfInput_of_inside hinside)]
      show Matches i c _ ((failAt c.position cause : Scan Literal) i (c.moved (c.position + 1)))
      rw [failAt_eq ⟨t, ht⟩ hcause, ht.drop, ← hfatal]
      exact .error (hi.passed ht hinside)
  · rw [if_neg hk]
    have hread : Parse.number negative (t :: i.tokens.drop (c.position + 1)) =
        Parse.mismatch [.int, .float] (t :: i.tokens.drop (c.position + 1)) := by
      simp [Parse.number, hk]
    rw [hread]
    exact mismatch_runs [.int, .float] t ht

theorem columnRef_runs (hi : i.Closed) : Runs i c columnRef Parse.columnRef := by
  have hidentifier : TokenKind.identifier ∉ clauseEnd := by decide
  have hdot : TokenKind.symbol .dot ∉ clauseEnd := by decide
  have hread : Parse.columnRef = (do
      let first ← Parse.expect .identifier
      if ← Parse.accept (.symbol .dot) then
        let second ← Parse.expect .identifier
        return ⟨some first.text, second.text⟩
      else return ⟨none, first.text⟩) := by
    simp [Parse.columnRef, Parse.name]
  rw [hread]
  refine (expect_runs hi hidentifier).bind fun first p _ => ?_
  refine (accept_runs hi hdot).bind fun found p' _ => ?_
  cases found with
  | true => exact (expect_runs hi hidentifier).bind fun second p'' _ => .pure _
  | false => exact .pure _

/-! ## 2. Factors -/

theorem multiplicative_inside (k : TokenKind) (op : ArithOp) (h : Parse.multiplicative? k = some op) :
    k ∉ clauseEnd := by
  obtain ⟨-, rfl⟩ := Parse.multiplicative_eq_some.mp h
  exact symbol_inside _

theorem additive_inside (k : TokenKind) (op : ArithOp) (h : Parse.additive? k = some op) :
    k ∉ clauseEnd := by
  obtain ⟨-, rfl⟩ := Parse.additive_eq_some.mp h
  exact symbol_inside _

theorem exprOf_runs (hi : i.Closed) {m : Scan Expr} {r : Parse Expr}
    (hm : ∀ p, Runs i (c.moved p) m r) : Runs i c (exprOf m) (Parse.exprOf r) :=
  chain_runs hi additive_inside fun _ => chain_runs hi multiplicative_inside hm

section Levels

variable {t : Token} {m : Scan Expr} {r : Parse Expr}

theorem closeParen_inside : TokenKind.symbol .closeParen ∉ clauseEnd := symbol_inside _

theorem parenthesized_runs (hi : i.Closed) (ht : c.On i t) (hk : t.kind = .symbol .openParen)
    (hdepth : c.depth < i.limit) (hm : ∀ p, Runs i (c.deeper.moved p) m (Parse.exprOf r)) :
    Matches i c (Parse.parenthesized r (i.tokens.drop (c.position + 1)))
      (parenthesized m i c) := by
  refine opening_runs hi ht (hk ▸ symbol_inside _) hdepth ?_
  refine (hm _).bind fun e p _ => ?_
  exact (expect_runs hi closeParen_inside).bind fun _ p' _ => .pure _

theorem aggregateCall_runs (hi : i.Closed) {f : Text} {u : Token} (ht : c.On i t)
    (hk : t.kind = .identifier) (hu : (c.moved (c.position + 1)).On i u)
    (huk : u.kind = .symbol .openParen) (hdepth : c.depth < i.limit)
    (hm : ∀ p, Runs i (c.deeper.moved p) m (Parse.exprOf r)) :
    Matches i c (Parse.aggregateCall f r (i.tokens.drop (c.position + 1)).tail)
      (aggregateCall f m i c) := by
  have hcall : ∀ p, Runs i (c.deeper.moved p) (do
      if ← accept (.symbol .star) then
        let _ ← expect (.symbol .closeParen)
        return .aggregateAll f
      else
        let e ← m
        let _ ← expect (.symbol .closeParen)
        return .aggregate f e) (Parse.aggregateCall f r) := by
    intro p
    refine (accept_runs hi (symbol_inside _)).bind fun found p' _ => ?_
    cases found with
    | true => exact (expect_runs hi closeParen_inside).bind fun _ p'' _ => .pure _
    | false =>
      refine (hm _).bind fun e p'' _ => ?_
      exact (expect_runs hi closeParen_inside).bind fun _ _ _ => .pure _
  refine opening_runs hi ht (hk ▸ identifier_inside) hdepth
    (r := fun ts => Parse.aggregateCall f r ts.tail) ?_
  intro u' hu'
  obtain rfl : u = u' := Option.some.inj (hu.symm.trans hu')
  refine Runs.advance (r := Parse.aggregateCall f r) hi hu' (huk ▸ symbol_inside _) ?_
  exact hcall (c.position + 1 + 1)

/-- A level that may not be opened, or that is read alike further inside. -/
def ReadsLevel (i : ScanInput) (c : Cursor) (m : Scan Expr) : Option (Parse Expr) → Prop
  | none => i.limit ≤ c.depth
  | some r => c.depth < i.limit ∧ ∀ p, Runs i (c.deeper.moved p) m (Parse.exprOf r)

/-- **One level of factors is read alike if the level inside it is.** -/
theorem factorRule_runs (hi : i.Closed) {inner : Option (Parse Expr)}
    (hinner : ReadsLevel i c m inner) : Runs i c (factorRule m) (Parse.factorStep inner) := by
  intro t ht
  unfold factorRule
  rw [cur_then ht]
  have hmismatch : Matches i c
      (Parse.mismatch Parse.factorStart (t :: i.tokens.drop (c.position + 1)))
      ((mismatch Parse.factorStart : Scan Expr) i c) := mismatch_runs _ t ht
  cases hk : t.kind with
  | int | float =>
    simp only [Parse.factorStep, hk]
    exact (number_runs hi false).map t ht
  | string =>
    simp only [Parse.factorStep, hk]
    exact .advance hi ht (hk ▸ by decide) rfl
  | endOfInput =>
    simp only [Parse.factorStep, hk]
    exact hmismatch
  | keyword k =>
    cases k with
    | NULL =>
      simp only [Parse.factorStep, hk]
      exact .advance hi ht (hk ▸ by decide) rfl
    | _ =>
      simp only [Parse.factorStep, hk]
      exact hmismatch
  | identifier =>
    obtain ⟨u, hpeek, hu⟩ := peek_then hi ht
    have hon := hu (by simp [hk])
    have hkind : Parse.kindOf (i.tokens.drop (c.position + 1)) = u.kind := hon.kindOf_drop
    simp only [Parse.factorStep, hk, hkind]
    rw [hpeek]
    by_cases hcall : (Parse.isAggregate t.text && u.kind = .symbol .openParen) = true
    · rw [if_pos hcall, if_pos hcall]
      have huk : u.kind = .symbol .openParen := by simpa using (Bool.and_eq_true_iff.mp hcall).2
      cases inner with
      | none => exact nested_tooDeep hinner t ht
      | some r => exact aggregateCall_runs hi ht hk hon huk hinner.1 hinner.2
    · rw [if_neg hcall, if_neg hcall]
      exact (columnRef_runs hi).map t ht
  | symbol s =>
    cases s with
    | minus =>
      obtain ⟨u, hpeek, hu⟩ := peek_then hi ht
      have hon := hu (by simp [hk])
      have hkind : Parse.kindOf (i.tokens.drop (c.position + 1)) = u.kind := hon.kindOf_drop
      simp only [Parse.factorStep, hk, hkind]
      rw [hpeek]
      by_cases hnumber : Parse.isNumber u.kind = true
      · rw [if_pos hnumber, if_pos hnumber]
        refine Runs.advance (r := Expr.literal <$> Parse.number true) hi ht (hk ▸ by decide) ?_
        exact (number_runs hi true).map
      · rw [if_neg hnumber, if_neg hnumber]
        exact hmismatch
    | openParen =>
      simp only [Parse.factorStep, hk]
      cases inner with
      | none => exact nested_tooDeep hinner t ht
      | some r => exact parenthesized_runs hi ht hk hinner.1 hinner.2
    | _ =>
      simp only [Parse.factorStep, hk]
      exact hmismatch

end Levels

/-! ## 3. Levels -/

/-- **Factors are read alike at every level, if there is a call for each of the levels left and one
    more.** -/
theorem factor_runs (hi : i.Closed) {n calls : Nat} (hdepth : i.limit - c.depth = n)
    (hcalls : n < calls) : Runs i c (factor calls) (Parse.factor n) := by
  induction n generalizing calls c with
  | zero =>
    obtain ⟨k, rfl⟩ := Nat.exists_eq_succ_of_ne_zero (show calls ≠ 0 by omega)
    have hlevel : ReadsLevel i c (exprOf (factor k)) none := show i.limit ≤ c.depth by omega
    exact factorRule_runs hi hlevel
  | succ n ih =>
    obtain ⟨k, rfl⟩ := Nat.exists_eq_succ_of_ne_zero (show calls ≠ 0 by omega)
    have hlevel : ReadsLevel i c (exprOf (factor k)) (some (Parse.factor n)) := by
      refine ⟨by omega, fun p => exprOf_runs hi fun p' => ih ?_ (by omega)⟩
      show i.limit - (c.depth + 1) = n
      omega
    exact factorRule_runs hi hlevel

/-- So are expressions. -/
theorem expr_runs (hi : i.Closed) {n calls : Nat} (hdepth : i.limit - c.depth = n)
    (hcalls : n < calls) : Runs i c (exprOf (factor calls)) (Parse.expr n) :=
  exprOf_runs hi fun _ => factor_runs hi hdepth hcalls

end MiningQuery.Scan
