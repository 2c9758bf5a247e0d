import MarkovRegion.Number.Coefficient
import MarkovRegion.Number.Double

/-!
# Numbers of the data format

A numeral keeps the digits that were written.  Whole numbers are taken from it as they stand, up to
64 bits.  Its double is found in two steps: the digits that fit into 64 bits are the significand,
and the double of the significand is multiplied or divided by a power of ten.  The result can differ
from the nearest double in the last place; a result beyond the largest double is refused.
-/

namespace MarkovRegion

/-- A number as it is written. -/
structure Numeral where
  /-- Whether a minus sign stands in front. -/
  negative : Bool
  /-- The digits before the point. -/
  whole : List Char
  /-- The digits after the point; none if there is no point. -/
  places : List Char
  /-- Whether the exponent is negative, and its digits. -/
  exponent : Option (Bool × List Char)
  deriving DecidableEq

namespace Numeral

/-- The first number beyond 64 bits. -/
def wordLimit : Nat := 18446744073709551616

/-- The largest exponent that is taken at its value. -/
def exponentLimit : Nat := 2147483647

/-- The largest power of ten among the doubles. -/
def largestPower : Nat := 308

/-- The numeral of a natural number. -/
def ofNat (n : Nat) : Numeral := ⟨false, Nat.toDigits 10 n, [], none⟩

/-- The numeral of a number of thousandths. -/
def ofThousandths (n : Nat) : Numeral :=
  let digits := Nat.toDigits 10 (n % 1000)
  ⟨false, Nat.toDigits 10 (n / 1000), List.replicate (3 - digits.length) '0' ++ digits, none⟩

/-- The natural number that is written without sign, point and exponent, if it fits into 64 bits. -/
def toNat? (n : Numeral) : Option Nat :=
  if n.negative || !n.places.isEmpty || n.exponent.isSome then none
  else
    let value := Coefficient.digitsValue n.whole
    if value < wordLimit then some value else none

/-- Append digits to a significand until the next one would leave 64 bits; the digits that are left
over are returned with it. -/
def absorb (significand : Nat) : List Char → Nat × List Char
  | [] => (significand, [])
  | c :: rest =>
    let next := 10 * significand + Coefficient.digitValue c
    if next < wordLimit then absorb next rest else (significand, c :: rest)

/-- The double nearest to a power of ten. -/
def powerOfTen (n : Nat) : Float := Double.nearest (Rat.ofInt (Int.ofNat (Nat.pow 10 n)))

/-- Multiply a double by a power of ten.  A large negative power is applied in steps, and fuel
remains for as many steps as a double can take before it is zero. -/
def scale : Nat → Float → Int → Option Float
  | fuel, x, e =>
    if e.natAbs ≤ largestPower then
      if 0 ≤ e then
        let y := x * powerOfTen e.toNat
        if y.isInf then none else some y
      else some (x / powerOfTen e.natAbs)
    else if x == 0.0 then some x
    else if 0 ≤ e then none
    else
      match fuel with
      | 0 => some 0.0
      | fuel + 1 => scale fuel (x / powerOfTen largestPower) (e + Int.ofNat largestPower)

/-- The double of the magnitude of a numeral, unless it is out of range. -/
def magnitude? (n : Numeral) : Option Float :=
  let (significand, dropped) := absorb 0 n.whole
  let (significand, ignored) := absorb significand n.places
  let shift : Int :=
    Int.ofNat dropped.length - Int.ofNat (n.places.length - ignored.length)
  let x := Double.nearest (Rat.ofInt (Int.ofNat significand))
  match n.exponent with
  | none => scale 4 x shift
  | some (negative, digits) =>
    let e := Coefficient.digitsValue digits
    if exponentLimit < e then
      if significand ≠ 0 && !negative then none else some 0.0
    else scale 4 x (if negative then shift - Int.ofNat e else shift + Int.ofNat e)

/-- The double of a numeral, unless it is out of range. -/
def toDouble? (n : Numeral) : Option Float :=
  n.magnitude?.map fun x => if n.negative then -x else x

/-- The text of a numeral. -/
def write (n : Numeral) : String :=
  String.ofList
    ((if n.negative then ['-'] else []) ++ n.whole
      ++ (if n.places.isEmpty then [] else '.' :: n.places)
      ++ (match n.exponent with
        | none => []
        | some (negative, digits) => 'e' :: (if negative then ['-'] else []) ++ digits))

end Numeral

end MarkovRegion
