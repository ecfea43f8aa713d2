/-
  File:      MiningQuery/Proofs/Tree/Printing.lean
  Subject:   The text of an expression is cut into the tokens of the expression.

  * **`Expr.text_printed`** -- wherever the text of an expression stands before a blank, a comma or
    a closing parenthesis, it is cut into the tokens of the expression;
  * `Attribute.text_printed`, `OrderItem.text_printed` -- so are the items of column lists.
-/
import MiningQuery.Proofs.Token.Printing
import MiningQuery.Proofs.Tree.Canonical
import MiningQuery.Query.Reduction

namespace MiningQuery

/-! ## 1. Constants and columns -/

/-- Without a minus sign in front a number is as it is. -/
theorem unsigned_of_no_sign {t : Text} (h : ¬∃ d, t = 45 :: d) : unsigned t = t := by
  unfold unsigned
  split
  · exact absurd ⟨_, rfl⟩ h
  · rfl

/-- A number is printed as its digits, behind its minus sign if it has one. -/
theorem Literal.signed_printed {kind : TokenKind} (hkind : kind ≠ .endOfInput) {t : Text}
    (ht : kind.admits (unsigned t) = true) (hdigit : ∀ b ∈ (unsigned t).head?, b ≠ 45) :
    Printed t (Literal.signedLexemes kind t) := by
  by_cases hminus : ∃ d, t = 45 :: d
  · obtain ⟨d, rfl⟩ := hminus
    cases d with
    | nil => exact absurd (TokenKind.eq_endOfInput_of_admits ht) hkind
    | cons b d =>
      have hnumber : Printed (b :: d) [.exact kind (b :: d)] := .exact ht hkind
      exact hnumber.minus rfl (hdigit b rfl)
  · have hu := unsigned_of_no_sign hminus
    have hs : Literal.signedLexemes kind t = [.exact kind t] := by
      unfold Literal.signedLexemes
      split
      · exact absurd ⟨_, rfl⟩ hminus
      · rfl
    rw [hs]
    rw [hu] at ht
    exact Printed.exact ht hkind

theorem head_ne_of_isDigits {t : Text} (h : isDigits t = true) : ∀ b ∈ t.head?, b ≠ 45 := by
  intro b hb h
  subst h
  have hmem := (isDigits_iff.mp h).2 45 (List.mem_of_mem_head? hb)
  exact absurd hmem (by decide)

theorem head_ne_of_isDecimal {t : Text} (h : isDecimal t = true) : ∀ b ∈ t.head?, b ≠ 45 := by
  obtain ⟨whole, fraction, hw, -, rfl⟩ := isDecimal_iff.mp h
  obtain ⟨hne, -⟩ := isDigits_iff.mp hw
  rw [List.head?_append_of_ne_nil _ hne]
  exact head_ne_of_isDigits hw

/-- A constant is printed as its text. -/
theorem Literal.text_printed {l : Literal} (h : l.isLexical = true) :
    Printed l.text l.lexemes := by
  cases l with
  | null t =>
    have ht : (TokenKind.keyword .NULL).admits t = true := h
    exact Printed.exact ht (by simp)
  | string t =>
    have ht : TokenKind.string.admits t = true := h
    exact Printed.exact ht (by simp)
  | int t i =>
    obtain ⟨hd, -⟩ := Bool.and_eq_true_iff.mp h
    have ht : TokenKind.int.admits (unsigned t) = true := hd
    exact Literal.signed_printed (by simp) ht (head_ne_of_isDigits hd)
  | float t x =>
    obtain ⟨hd, -⟩ := Bool.and_eq_true_iff.mp h
    have ht : TokenKind.float.admits (unsigned t) = true := hd
    exact Literal.signed_printed (by simp) ht (head_ne_of_isDecimal hd)

/-- A column is printed as its text. -/
theorem ColumnRef.text_printed {c : ColumnRef} (h : c.isLexical = true) :
    Printed c.text c.lexemes := by
  obtain ⟨q, n⟩ := c
  cases q with
  | none =>
    have hn : TokenKind.identifier.admits n = true := by
      simpa [ColumnRef.isLexical, isName] using h
    exact Printed.exact hn (by simp)
  | some q =>
    obtain ⟨hq, hn⟩ : TokenKind.identifier.admits q = true ∧
        TokenKind.identifier.admits n = true := by
      simpa [ColumnRef.isLexical, isName] using h
    refine ⟨fun {rest ms} hrest hms => ?_⟩
    have hname : Lexes (n ++ rest) (.exact .identifier n :: ms) :=
      (Printed.exact hn (by simp)).before hrest hms
    have hdot : Lexes (46 :: (n ++ rest)) (.sign .dot :: .exact .identifier n :: ms) :=
      .token (l := .sign .dot) rfl (by simp) (fun _ _ => rfl) hname
    have e : ColumnRef.text ⟨some q, n⟩ ++ rest = q ++ 46 :: (n ++ rest) := by
      simp [ColumnRef.text, ascii]
    rw [e]
    exact .token (l := .exact .identifier q) hq (by simp) (by simp [Ends, mayFollow, isWordPart,
      isLetter, isUpper, isLower, isDigit]) hdot

/-! ## 2. Expressions -/

/-- A call is printed as its name and its argument in parentheses. -/
theorem Printed.call {f t : Text} {ls : List Lexeme} (hf : isName f = true)
    (ht : Printed t ls) :
    Printed (f ++ 40 :: (t ++ [41]))
      (.exact .identifier f :: .sign .openParen :: (ls ++ [.sign .closeParen])) := by
  refine ⟨fun {rest ms} hrest h => ?_⟩
  have hargument := ht.paren.before hrest h
  rw [List.append_assoc]
  exact .token (l := .exact .identifier f) hf (by simp) (by simp [Ends, mayFollow, isWordPart,
    isLetter, isUpper, isLower, isDigit]) hargument

/-- The sign of an operation is the spelling of its symbol. -/
theorem ArithOp.spelling_eq (op : ArithOp) : op.spelling = op.symbol.spelling := by
  cases op <;> rfl

/-- **The text of an expression is cut into its tokens.** -/
theorem Expr.text_printed {e : Expr} (h : e.isLexical = true) : Printed e.text e.lexemes := by
  induction e with
  | literal l => exact Literal.text_printed h
  | column c => exact ColumnRef.text_printed h
  | aggregateAll f =>
    obtain ⟨hf, -⟩ := Bool.and_eq_true_iff.mp h
    exact Printed.call hf (Printed.sign .star)
  | aggregate f e ih =>
    simp only [Expr.isLexical, Bool.and_eq_true] at h
    have hcall := Printed.call h.1.1 (ih h.2)
    simpa [Expr.text, Expr.lexemes, ascii] using hcall
  | arith op l r ihl ihr =>
    obtain ⟨hl, hr⟩ := Bool.and_eq_true_iff.mp h
    have hsum := (ihl hl).blank ((Printed.sign op.symbol).blank (ihr hr))
    simpa [Expr.text, Expr.lexemes, ascii, op.spelling_eq] using hsum
  | paren e ih =>
    have hparen := (ih h).paren
    simpa [Expr.text, Expr.lexemes, ascii] using hparen

/-! ## 3. Attributes and columns to sort by -/

/-- The token of the star, or those of the column. -/
def Attribute.lexemes : Attribute → List Lexeme
  | all => [.sign .star]
  | column c => c.lexemes

/-- The word of a direction. -/
def SortDirection.keyword : SortDirection → Keyword
  | ascending => .ASC
  | descending => .DESC

/-- The tokens of a column and those of its direction. -/
def OrderItem.lexemes (o : OrderItem) : List Lexeme :=
  o.column.lexemes ++ [.word o.direction.keyword]

theorem Attribute.text_printed {a : Attribute} (h : a.isLexical = true) :
    Printed a.text a.lexemes := by
  cases a with
  | all => exact Printed.sign .star
  | column c => exact ColumnRef.text_printed h

theorem OrderItem.text_printed {o : OrderItem} (h : o.column.isLexical = true) :
    Printed o.reduce.text o.lexemes := by
  have hspelling : o.direction.spelling = o.direction.keyword.spelling := by
    cases o.direction <;> rfl
  have hitem := (ColumnRef.text_printed h).blank (Printed.word o.direction.keyword)
  simpa [OrderItem.reduce, QueryOrder.text, OrderItem.lexemes, ascii, hspelling] using hitem

end MiningQuery
