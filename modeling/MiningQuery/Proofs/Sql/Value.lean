/-
  File:      MiningQuery/Proofs/Sql/Value.lean
  Subject:   The values of a condition are read back from their SQL.

  * `Condition.values`, `Value.isPlain` -- the values of a condition, and those that SQL can say;
  * `Value.asExpr` -- the constant that the SQL of a value is;
  * **`Value.toValue_asExpr`** -- as a value this constant is the value again;
  * **`Expr.toValue_readable`** -- a plain value that comes from an expression has a constant such
    as tokens can write.
-/
import MiningQuery.Proofs.Number.Integer
import MiningQuery.Proofs.Tree.Printing
import MiningQuery.Query.Reduction
import MiningQuery.Sql.Condition

namespace MiningQuery

/-! ## 1. Plain values -/

/-- The values of a condition in order; a pattern counts as a text. -/
def Condition.values : Condition → List Value
  | compare _ _ r => [r]
  | logical _ l r => l.values ++ r.values
  | not c => c.values
  | between _ _ low high => [low, high]
  | like _ _ pattern => [.string pattern]
  | isNull _ _ => []
  | inList _ _ values => values

/-- Is the value no floating point number, and no text with a single quote? -/
def Value.isPlain : Value → Bool
  | float _ => false
  | string t => !t.contains singleQuote
  | integer _ | null => true

/-- Every value of the condition is plain. -/
def Condition.IsPlain (c : Condition) : Prop := ∀ v ∈ c.values, v.isPlain = true

instance Condition.decidableIsPlain (c : Condition) : Decidable c.IsPlain :=
  inferInstanceAs (Decidable (∀ v ∈ c.values, v.isPlain = true))

/-- A plain value equals itself. -/
theorem Value.equals_self {v : Value} (h : v.isPlain = true) : v.equals v = true := by
  cases v with
  | float => cases h
  | integer | string | null => simp [Value.equals]

/-- So does a plain condition. -/
theorem Condition.equals_self {c : Condition} (h : c.IsPlain) : c.equals c = true := by
  have hlist : ∀ vs : List Value, (∀ v ∈ vs, v.isPlain = true) → Value.allEqual vs vs = true := by
    intro vs hvs
    induction vs with
    | nil => rfl
    | cons v vs ih =>
      obtain ⟨hv, hvs⟩ := List.forall_mem_cons.mp hvs
      simp [Value.allEqual, Value.equals_self hv, ih hvs]
  induction c with
  | logical op l r ihl ihr =>
    obtain ⟨hl, hr⟩ := List.forall_mem_append.mp h
    simp [Condition.equals, ihl hl, ihr hr]
  | not c ih => simpa [Condition.equals] using ih h
  | compare l op r => simp [Condition.equals, Value.equals_self (h r (by simp [values]))]
  | between n x low high =>
    simp [Condition.equals, Value.equals_self (h low (by simp [values])),
      Value.equals_self (h high (by simp [values]))]
  | like | isNull => simp [Condition.equals]
  | inList n x values => simp [Condition.equals, hlist values h]

/-! ## 2. Newlines -/

/-- No token holds a newline. -/
theorem TokenKind.admits_newline {kind : TokenKind} {t : Text} (h : kind.admits t = true) :
    10 ∉ t := by
  have hword : ∀ w : Text, isWord w = true → 10 ∉ w := fun w hw hmem =>
    absurd (isWordPart_of_isWord hw 10 hmem) (by decide)
  have hdigits : ∀ d : Text, isDigits d = true → 10 ∉ d := fun d hd hmem =>
    absurd ((isDigits_iff.mp hd).2 10 hmem) (by decide)
  cases kind with
  | keyword k => exact hword t (Bool.and_eq_true_iff.mp h).1
  | identifier => exact hword t (Bool.and_eq_true_iff.mp h).1
  | int => exact hdigits t h
  | float =>
    obtain ⟨whole, fraction, hw, hf, rfl⟩ := isDecimal_iff.mp h
    simp [hdigits whole hw, hdigits fraction hf]
  | string =>
    obtain ⟨q, body, hq, hbody, rfl⟩ := isQuoted_iff.mp h
    have hne : (10 : UInt8) ≠ q := by
      intro h
      subst h
      exact absurd hq (by decide)
    have hmem : 10 ∉ body := fun hm => (hbody 10 hm).2 rfl
    simp [hne, hmem]
  | symbol s =>
    simp only [TokenKind.admits, Bool.or_eq_true, Bool.and_eq_true, beq_iff_eq] at h
    rcases h with rfl | ⟨-, rfl⟩
    · cases s <;> decide
    · decide
  | endOfInput =>
    obtain rfl := List.isEmpty_iff.mp h
    exact List.not_mem_nil

/-- A text put together from tokens and blanks is one line. -/
theorem Lexes.newline {t : Text} {ls : List Lexeme} (h : Lexes t ls) : 10 ∉ t := by
  induction h with
  | done => exact List.not_mem_nil
  | blank _ ih => simp [ih]
  | token hl _ _ _ ih => simp [TokenKind.admits_newline hl, ih]

/-! ## 3. Constants for values -/

namespace Value

/-- The constant that the SQL of the value is. -/
def asExpr : Value → Expr
  | integer i => .literal (.int (Text.ofInt i) i)
  | float x => .literal (.float x.text x)
  | string t => .literal (.string (Text.quoted t))
  | null => .literal (.null (ascii "NULL"))

/-- Is the SQL of the value a constant such as tokens can write? -/
def isReadable : Value → Bool
  | integer i => inInt64 i
  | float _ => false
  | string t => !t.contains singleQuote && !t.contains 10
  | null => true

theorem text_asExpr (v : Value) : v.asExpr.text = v.sql := by cases v <;> rfl

/-- What stands between quotes is taken out of them. -/
theorem unquoted_of_quotes {q : UInt8} (hq : isQuote q = true) (body : Text) :
    Text.unquoted (q :: (body ++ [q])) = body := by
  obtain _ | ⟨b, body⟩ := body
  · simp [Text.unquoted, Text.unquote?, hq]
  · have hlast : (b :: (body ++ [q])).getLast? = some q := by
      rw [← List.cons_append, List.getLast?_concat]
    have hdrop : (b :: (body ++ [q])).dropLast = b :: body := by
      rw [← List.cons_append, List.dropLast_concat]
    simp [Text.unquoted, Text.unquote?, hq, hlast, hdrop]

theorem unquoted_quoted (t : Text) : Text.unquoted (Text.quoted t) = t :=
  unquoted_of_quotes (q := singleQuote) rfl t

/-- **As a value the constant is the value again.** -/
@[simp] theorem toValue_asExpr (v : Value) : v.asExpr.toValue = v := by
  cases v with
  | string t => simp [asExpr, Expr.toValue, unquoted_quoted]
  | integer | float | null => rfl

theorem isCanonical_asExpr (v : Value) : v.asExpr.isCanonical = true := by cases v <;> rfl

theorem depth_asExpr (v : Value) : v.asExpr.depth = 0 := by cases v <;> rfl

/-- A text without a quote and a newline may stand in single quotes. -/
theorem isQuoted_quoted {t : Text} (hquote : singleQuote ∉ t) (hnewline : 10 ∉ t) :
    isQuoted (Text.quoted t) = true := by
  refine isQuoted_iff.mpr ⟨singleQuote, t, rfl, fun b hb => ⟨?_, ?_⟩, rfl⟩
  · intro h
    subst h
    exact hquote hb
  · intro h
    subst h
    exact hnewline hb

theorem isLexical_asExpr {v : Value} (h : v.isReadable = true) : v.asExpr.isLexical = true := by
  cases v with
  | integer i =>
    have hread : Text.int64? (Text.ofInt i) = some i := Text.int64_ofInt h
    simp [asExpr, Expr.isLexical, Literal.isLexical, unsigned_ofInt, hread]
  | float => cases h
  | string t =>
    obtain ⟨hquote, hnewline⟩ : singleQuote ∉ t ∧ 10 ∉ t := by simpa [isReadable] using h
    exact isQuoted_quoted hquote hnewline
  | null => decide

end Value

/-! ## 4. Values of expressions -/

/-- The text of an expression is one line. -/
theorem Expr.text_newline {e : Expr} (h : e.isLexical = true) : 10 ∉ e.text :=
  (Expr.text_printed h).lexes.newline

/-- A plain text without a newline is readable. -/
theorem Value.isReadable_string {t : Text} (hplain : (Value.string t).isPlain = true)
    (hnewline : 10 ∉ t) : (Value.string t).isReadable = true := by
  have hquote : singleQuote ∉ t := by simpa [Value.isPlain] using hplain
  simp [Value.isReadable, hquote, hnewline]

/-- What stands between the quotes of a string is one line. -/
theorem unquoted_newline {t : Text} (h : isQuoted t = true) : 10 ∉ Text.unquoted t := by
  obtain ⟨q, body, hq, hbody, rfl⟩ := isQuoted_iff.mp h
  rw [Value.unquoted_of_quotes hq]
  exact fun hmem => (hbody 10 hmem).2 rfl

/-- **A plain value of an expression has a constant such as tokens can write.** -/
theorem Expr.toValue_readable {e : Expr} (h : e.isLexical = true)
    (hplain : e.toValue.isPlain = true) : e.toValue.isReadable = true := by
  have htext := Expr.text_newline h
  cases e with
  | literal l =>
    cases l with
    | null => rfl
    | string t => exact Value.isReadable_string hplain (unquoted_newline h)
    | int t i =>
      obtain ⟨-, hvalue⟩ := Bool.and_eq_true_iff.mp h
      exact Text.inInt64_of_int64 (beq_iff_eq.mp hvalue)
    | float => cases hplain
  | column | aggregateAll | aggregate | arith | paren =>
    exact Value.isReadable_string hplain htext

end MiningQuery
