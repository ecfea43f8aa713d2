/-
  File:      MiningQuery/Number/Shortest.lean
  Subject:   The shortest decimal text of a number: the fewest significant digits that read back
             as the same number.

  * `Binary64.significant` rounds an exact quotient to a count of significant digits;
  * `Binary64.shortest` takes the first count from 1 to 17 whose digits read back;
  * `Binary64.text` writes the digits. A value whose leading digit stands at a power of ten
    below -4, or at or beyond the count of digits, is written with an exponent, any other
    positionally, and a text that could be taken for an integer gets `.0`.
-/
import MiningQuery.Number.Binary64

namespace MiningQuery.Binary64

/-! ## 1. Significant digits -/

/-- The power of ten at which the leading digit of a positive quotient stands. -/
def leadingPower (num den : Nat) : Int :=
  if den ≤ num then (Nat.toDigits 10 (num / den)).length - 1
  else -((Nat.toDigits 10 ((den - 1) / num)).length : Int)

/-- Significant digits of a number: a whole number of `count` digits, whose leading digit
    stands at `power`. -/
structure Significant where
  count : Nat
  digits : Nat
  power : Int
  deriving DecidableEq, Repr

/-- A positive quotient rounded to a count of significant digits. -/
def significant (count num den : Nat) : Significant :=
  let power := leadingPower num den
  let shift : Int := count - 1 - power
  let digits :=
    if 0 ≤ shift then roundHalfEven (num * Nat.pow 10 shift.toNat) den
    else roundHalfEven num (den * Nat.pow 10 (-shift).toNat)
  if digits = Nat.pow 10 count then ⟨count, Nat.pow 10 (count - 1), power + 1⟩
  else ⟨count, digits, power⟩

/-- The number that significant digits stand for. -/
def Significant.read? (negative : Bool) (s : Significant) : Option Binary64 :=
  ofDecimal negative s.digits (s.power - (s.count - 1))

/-- The significant digits of a finite number other than zero: the fewest that read back as it,
    and never more than 17. -/
def shortest (x : Binary64) : Significant :=
  let candidate := fun count => significant count (units x.magnitude) unitsPerOne
  let readsBack := fun count => (candidate count).read? x.negative == some x
  candidate (((List.range 16).map (· + 1)).find? readsBack |>.getD 17)

/-! ## 2. Writing -/

/-- The digits with zeros dropped at the end, all but the first. -/
def Significant.trimmed (s : Significant) : Text :=
  match Text.ofNat s.digits with
  | [] => []
  | d :: ds => d :: (ds.reverse.dropWhile (· == 48)).reverse

/-- A fraction part, with its point unless it is empty. -/
def fractionText (fraction : Text) : Text := if fraction.isEmpty then [] else 46 :: fraction

/-- The exponent part: its sign is always written and it has at least two digits. -/
def exponentText (power : Int) : Text :=
  let digits := Text.ofNat power.natAbs
  101 :: (if power < 0 then 45 else 43) :: (if digits.length < 2 then 48 :: digits else digits)

/-- Writes significant digits, with an exponent or positionally. -/
def Significant.text (s : Significant) : Text :=
  let ds := s.trimmed
  if s.power < -4 || (s.count : Int) ≤ s.power then
    ds.take 1 ++ fractionText (ds.drop 1) ++ exponentText s.power
  else if s.power < 0 then
    48 :: fractionText (List.replicate (s.power.natAbs - 1) 48 ++ ds)
  else
    let whole := s.power.toNat + 1
    ds.take whole ++ List.replicate (whole - ds.length) 48 ++ fractionText (ds.drop whole)

/-- The text with `.0` at its end if it has neither a point nor an exponent. -/
def pointed (t : Text) : Text :=
  if t.any fun b => b == 46 || b == 101 then t else t ++ ascii ".0"

/-- The shortest text that reads back as the number; it is never the text of an integer. -/
def text (x : Binary64) : Text :=
  if x.isNaN then ascii "NaN"
  else
    (if x.negative then [45] else []) ++
      (if !x.isFinite then ascii "Infinity"
       else if x.magnitude = 0 then ascii "0.0"
       else pointed x.shortest.text)

end MiningQuery.Binary64
