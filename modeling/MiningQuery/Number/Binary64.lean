/-
  File:      MiningQuery/Number/Binary64.lean
  Subject:   Binary floating point numbers of 64 bits: their bits, their exact value, rounding
             and reading from decimal text.

  All arithmetic is exact arithmetic on natural numbers, so everything here can be computed in
  a proof. A finite magnitude is a whole number of units, a unit being 2^-1074, the smallest
  positive value of the format:

  * `Binary64.units` is the number of units of a magnitude;
  * `Binary64.nearest` is the magnitude nearest to a quotient of units, a tie going to the even
    neighbour; from `infinity` on it is too large for the format;
  * `Binary64.read?` takes a decimal text as a whole and refuses what is too large.
-/
import MiningQuery.Number.Integer

namespace MiningQuery

/-- A number given by its 64 bits: sign, eleven bits of exponent, 52 bits of fraction. -/
structure Binary64 where
  bits : UInt64
  deriving DecidableEq, Repr

namespace Binary64

/-! ## 1. The parts of a number -/

/-- The sign bit. -/
def negative (x : Binary64) : Bool := Nat.pow 2 63 ≤ x.bits.toNat

/-- The bits without the sign, which order the magnitudes. -/
def magnitude (x : Binary64) : Nat := x.bits.toNat % Nat.pow 2 63

/-- The magnitude of infinity; a larger one is no number. -/
def infinity : Nat := 2047 * Nat.pow 2 52

/-- Is it not a number? -/
def isNaN (x : Binary64) : Bool := infinity < x.magnitude

/-- Is it a finite number? -/
def isFinite (x : Binary64) : Bool := x.magnitude < infinity

/-- The number with a sign and a magnitude. -/
def ofMagnitude (negative : Bool) (m : Nat) : Binary64 :=
  ⟨((if negative then Nat.pow 2 63 else 0) + m).toUInt64⟩

/-- The comparison of numbers: what is not a number equals nothing, and the two zeros are
    equal. -/
def equals (x y : Binary64) : Bool :=
  !x.isNaN && !y.isNaN && (x == y || (x.magnitude == 0 && y.magnitude == 0))

/-- The value of a finite magnitude as a number of units. -/
def units (m : Nat) : Nat :=
  let e := m / Nat.pow 2 52
  if e = 0 then m else (Nat.pow 2 52 + m % Nat.pow 2 52) * Nat.pow 2 (e - 1)

/-- How many units make one. -/
def unitsPerOne : Nat := Nat.pow 2 1074

/-! ## 2. Rounding -/

/-- The whole number nearest to a quotient, a tie going to the even neighbour. -/
def roundHalfEven (num den : Nat) : Nat :=
  let q := num / den
  let r := num % den
  if 2 * r < den then q else if den < 2 * r then q + 1 else q + q % 2

/-- The magnitude nearest to a quotient of units. A magnitude with its exponent moved up by `k`
    counts in steps of 2^k units, and rounding up to a power of two carries into the
    exponent by itself. -/
def nearest (num den : Nat) : Nat :=
  let k := Nat.log2 (num / den) - 52
  k * Nat.pow 2 52 + roundHalfEven num (den * Nat.pow 2 k)

/-- The number nearest to a quotient, unless it is too large. -/
def ofRatio (negative : Bool) (num den : Nat) : Option Binary64 :=
  let m := nearest (num * unitsPerOne) den
  if m < infinity then some (ofMagnitude negative m) else none

/-- The number nearest to an integer of the 64-bit range. -/
def ofInt (i : Int) : Binary64 :=
  ofMagnitude (i < 0) (nearest (i.natAbs * unitsPerOne) 1)

/-! ## 3. Reading decimal text -/

/-- The number nearest to `digits` times ten to the `exponent`. Far outside the range of the format
    the power itself is not computed. -/
def ofDecimal (negative : Bool) (digits : Nat) (exponent : Int) : Option Binary64 :=
  if digits = 0 then some (ofMagnitude negative 0)
  else if 400 < exponent then none
  else if 0 ≤ exponent then ofRatio negative (digits * Nat.pow 10 exponent.toNat) 1
  else if exponent < -((Nat.toDigits 10 digits).length + 400 : Int) then
    some (ofMagnitude negative 0)
  else ofRatio negative digits (Nat.pow 10 (-exponent).toNat)

/-- The exponent part of a decimal text: nothing, or an `e` and an integer. -/
def readExponent? : Text → Option Int
  | [] => some 0
  | b :: rest => if b == 101 || b == 69 then Text.integer? rest else none

/-- Reads digits, a fraction and an exponent; the fraction and the exponent may be absent, and
    one digit has to be there. -/
def readMagnitude? (negative : Bool) (t : Text) : Option Binary64 :=
  let whole := t.takeWhile isDigit
  let afterWhole := t.dropWhile isDigit
  let (fraction, rest) := match afterWhole with
    | 46 :: r => (r.takeWhile isDigit, r.dropWhile isDigit)
    | r => ([], r)
  if whole.isEmpty && fraction.isEmpty then none
  else do
    let exponent ← readExponent? rest
    ofDecimal negative (Text.digitsValue (whole ++ fraction)) (exponent - fraction.length)

/-- Reads a whole text as a number: a sign, then a decimal number, an infinity or `nan`. -/
def read? (t : Text) : Option Binary64 :=
  let (negative, rest) := Text.sign t
  let word := Text.lower rest
  if word == ascii "inf" || word == ascii "infinity" then some (ofMagnitude negative infinity)
  else if word == ascii "nan" then some (ofMagnitude negative (infinity + Nat.pow 2 51))
  else readMagnitude? negative rest

end Binary64

end MiningQuery
