/-
  File:      MiningQuery/Text/Bytes.lean
  Subject:   Text as a list of bytes: ASCII literals, byte classes, letter case and the
             decimal digits of a number.

  A statement is bytes, not characters: nothing here looks beyond one byte, so every class is
  an ASCII class and a byte from 128 on belongs to none of them.

  * `isBlank`, `isDigit`, `isLetter`, `isWordStart`, `isWordPart` are the classes that the
    lexer and the readers share;
  * `Text.upper` and `Text.lower` change letters only and keep the length;
  * `Text.ofNat` and `Text.ofInt` write canonical decimal digits.
-/

namespace MiningQuery

/-- Text is a list of bytes, usually but not always valid UTF-8. -/
abbrev Text := List UInt8

/-- The bytes of an ASCII literal. -/
def ascii (s : String) : Text := s.toList.map fun c => c.toNat.toUInt8

/-! ## 1. Byte classes -/

/-- Space, tab, newline, vertical tab, form feed and carriage return. -/
def isBlank (b : UInt8) : Bool := b == 32 || (9 ≤ b && b ≤ 13)

/-- The digits `0` to `9`. -/
def isDigit (b : UInt8) : Bool := 48 ≤ b && b ≤ 57

/-- The letters `A` to `Z`. -/
def isUpper (b : UInt8) : Bool := 65 ≤ b && b ≤ 90

/-- The letters `a` to `z`. -/
def isLower (b : UInt8) : Bool := 97 ≤ b && b ≤ 122

/-- A letter of either case. -/
def isLetter (b : UInt8) : Bool := isUpper b || isLower b

/-- What a word may start with: a letter or an underscore. -/
def isWordStart (b : UInt8) : Bool := isLetter b || b == 95

/-- What a word may go on with: a letter, a digit or an underscore. -/
def isWordPart (b : UInt8) : Bool := isLetter b || isDigit b || b == 95

/-- The single quote, which also encloses every string in SQL text. -/
def singleQuote : UInt8 := 39

/-- The double quote. -/
def doubleQuote : UInt8 := 34

/-- A byte that may enclose a string. -/
def isQuote (b : UInt8) : Bool := b == singleQuote || b == doubleQuote

/-- Whatever starts a word may also stand inside one. -/
theorem isWordPart_of_isWordStart {b : UInt8} (h : isWordStart b = true) :
    isWordPart b = true := by
  simp only [isWordStart, isWordPart, Bool.or_eq_true] at *
  rcases h with h | h
  · exact .inl (.inl h)
  · exact .inr h

/-! ## 2. Letter case -/

/-- The capital of a small letter; every other byte as it is. -/
def upperByte (b : UInt8) : UInt8 := if isLower b then b - 32 else b

/-- The small form of a capital; every other byte as it is. -/
def lowerByte (b : UInt8) : UInt8 := if isUpper b then b + 32 else b

namespace Text

/-- All letters as capitals. -/
def upper (t : Text) : Text := t.map upperByte

/-- All letters small. -/
def lower (t : Text) : Text := t.map lowerByte

@[simp] theorem length_upper (t : Text) : (upper t).length = t.length := List.length_map ..

@[simp] theorem length_lower (t : Text) : (lower t).length = t.length := List.length_map ..

/-! ## 3. Numbers as text -/

/-- The decimal digits of a natural number, without leading zeros. -/
def ofNat (n : Nat) : Text := (Nat.toDigits 10 n).map fun c => c.toNat.toUInt8

/-- The decimal digits of an integer, after a minus sign if it is negative. -/
def ofInt : Int → Text
  | .ofNat n => ofNat n
  | .negSucc n => 45 :: ofNat (n + 1)

/-- The value of a run of digits. -/
def digitsValue (t : Text) : Nat := t.foldl (fun n b => 10 * n + (b.toNat - 48)) 0

end Text

end MiningQuery
