/-
  File:      MiningQuery/Proofs/Tree/Context.lean
  Subject:   Conditions inside conditions, and parentheses around them.

  * `Predicate.Context`, `fill` -- a condition with a gap, and the condition that fills it;
  * `before`, `after`, **`lexemes_fill`** -- the tokens on both sides of the gap;
  * **`fill_paren_isCanonical`**, `fill_paren_isLexical` -- a tree that groups as its tokens do does so
    with parentheses around one of its conditions too;
  * **`reduce_fill_paren`** -- and it states the same condition.
-/
import MiningQuery.Proofs.Tree.Canonical
import MiningQuery.Query.Reduction

namespace MiningQuery.Predicate

/-! ## 1. Contexts -/

/-- A condition with a gap where one of its conditions stands. -/
inductive Context
  | gap
  | left (op : LogicOp) (c : Context) (r : Predicate)
  | right (op : LogicOp) (l : Predicate) (c : Context)
  | not (c : Context)
  | paren (c : Context)
  deriving DecidableEq, Repr

namespace Context

/-- The condition with another one in the gap. -/
def fill : Context → Predicate → Predicate
  | gap, p => p
  | left op c r, p => .logical op (c.fill p) r
  | right op l c, p => .logical op l (c.fill p)
  | not c, p => .not (c.fill p)
  | paren c, p => .paren (c.fill p)

/-- The tokens before the gap. -/
def before : Context → List Lexeme
  | gap => []
  | left _ c _ => c.before
  | right op l c => l.lexemes ++ .word op.keyword :: c.before
  | not c => .word .NOT :: c.before
  | paren c => .sign .openParen :: c.before

/-- The tokens behind the gap. -/
def after : Context → List Lexeme
  | gap => []
  | left op c r => c.after ++ .word op.keyword :: r.lexemes
  | right _ _ c | not c => c.after
  | paren c => c.after ++ [.sign .closeParen]

variable (c : Context) (p : Predicate)

/-- **The tokens of a filled context** are those of the filling, between those of the context. -/
theorem lexemes_fill : (c.fill p).lexemes = c.before ++ (p.lexemes ++ c.after) := by
  induction c with
  | gap => simp [fill, before, after]
  | left op c r ih | right op l c ih => simp [fill, before, after, lexemes, ih]
  | not c ih | paren c ih => simp [fill, before, after, lexemes, ih]

/-! ## 2. Parentheses in the gap -/

/-- Parentheses around the filling come between the context and the filling. -/
theorem lexemes_fill_paren : (c.fill (.paren p)).lexemes =
    c.before ++ (.sign .openParen :: (p.lexemes ++ .sign .closeParen :: c.after)) := by
  simp [lexemes_fill, lexemes]

/-- With parentheses in the gap a condition is no connective that it was not before. -/
theorem fill_paren_bare {c : Context} {p : Predicate} :
    ((c.fill p).isLogical = false → (c.fill (.paren p)).isLogical = false) ∧
      ((c.fill p).isDisjunction = false → (c.fill (.paren p)).isDisjunction = false) := by
  cases c with
  | gap => exact ⟨fun _ => rfl, fun _ => rfl⟩
  | left op | right op => cases op <;> exact ⟨id, id⟩
  | not | paren => exact ⟨id, id⟩

/-- **Parentheses leave the grouping as it is.** -/
theorem fill_paren_isCanonical {c : Context} {p : Predicate} (h : (c.fill p).isCanonical = true) :
    (c.fill (.paren p)).isCanonical = true := by
  induction c with
  | gap => exact h
  | left op c r ih =>
    obtain ⟨-, hdisjunction⟩ := @fill_paren_bare c p
    cases op with
    | or =>
      simp only [fill, isCanonical, Bool.and_eq_true] at h ⊢
      exact ⟨⟨ih h.1.1, h.1.2⟩, h.2⟩
    | and =>
      simp only [fill, isCanonical, Bool.and_eq_true, Bool.not_eq_true'] at h ⊢
      exact ⟨⟨⟨ih h.1.1.1, h.1.1.2⟩, hdisjunction h.1.2⟩, h.2⟩
  | right op l c ih =>
    obtain ⟨hlogical, hdisjunction⟩ := @fill_paren_bare c p
    cases op with
    | or =>
      simp only [fill, isCanonical, Bool.and_eq_true, Bool.not_eq_true'] at h ⊢
      exact ⟨⟨h.1.1, ih h.1.2⟩, hdisjunction h.2⟩
    | and =>
      simp only [fill, isCanonical, Bool.and_eq_true, Bool.not_eq_true'] at h ⊢
      exact ⟨⟨⟨h.1.1.1, ih h.1.1.2⟩, h.1.2⟩, hlogical h.2⟩
  | not c ih =>
    obtain ⟨hlogical, -⟩ := @fill_paren_bare c p
    simp only [fill, isCanonical, Bool.and_eq_true, Bool.not_eq_true'] at h ⊢
    exact ⟨ih h.1, hlogical h.2⟩
  | paren c ih => exact ih h

theorem fill_paren_isLexical : (c.fill (.paren p)).isLexical = (c.fill p).isLexical := by
  induction c with
  | gap => rfl
  | left op c r ih | right op l c ih => simp only [fill, isLexical, ih]
  | not c ih | paren c ih => exact ih

/-- **Parentheses leave the condition that is stated as it is.** -/
theorem reduce_fill_paren : (c.fill (.paren p)).reduce = (c.fill p).reduce := by
  induction c with
  | gap => rfl
  | left op c r ih | right op l c ih | not c ih => simp only [fill, reduce, ih]
  | paren c ih => exact ih

end Context

end MiningQuery.Predicate
