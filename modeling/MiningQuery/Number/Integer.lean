/-
  File:      MiningQuery/Number/Integer.lean
  Subject:   Reading integers of a fixed width from decimal text.

  A reader takes the whole text or nothing: an optional sign and at least one digit, and a value
  in the range of its width.

  * `Text.int64?` and `Text.int32?` refuse a value outside their signed range;
  * `Text.word64?` reads an unsigned word, and takes a negative number modulo 2^64.
-/
import MiningQuery.Text.Bytes

namespace MiningQuery

/-- The signed 64-bit range. -/
def inInt64 (i : Int) : Bool := -9223372036854775808 ≤ i && i ≤ 9223372036854775807

/-- The signed 32-bit range. -/
def inInt32 (i : Int) : Bool := -2147483648 ≤ i && i ≤ 2147483647

namespace Text

/-- A sign, if there is one, and what follows it. -/
def sign : Text → Bool × Text
  | 45 :: rest => (true, rest)
  | 43 :: rest => (false, rest)
  | t => (false, t)

/-- The value of a text that is nothing but digits, and at least one. -/
def digits? (t : Text) : Option Nat :=
  if t.isEmpty || !t.all isDigit then none else some (digitsValue t)

/-- The value of a text that is a sign, if any, and digits. -/
def integer? (t : Text) : Option Int :=
  let (negative, rest) := sign t
  (digits? rest).map fun n => if negative then -(n : Int) else n

/-- A signed 64-bit integer. -/
def int64? (t : Text) : Option Int := (integer? t).filter inInt64

/-- A signed 32-bit integer. -/
def int32? (t : Text) : Option Int := (integer? t).filter inInt32

/-- How many 64-bit words there are. -/
def wordCount : Nat := Nat.pow 2 64

/-- An unsigned 64-bit word; a minus sign counts down from 2^64. -/
def word64? (t : Text) : Option Nat :=
  let (negative, rest) := sign t
  (digits? rest).bind fun n =>
    if n < wordCount then some (if negative then (wordCount - n) % wordCount else n) else none

end Text

end MiningQuery
