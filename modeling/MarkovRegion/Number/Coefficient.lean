import MarkovRegion.Error
import MarkovRegion.Text.Blank
import MarkovRegion.Text.Pieces

/-!
# Exact numbers as text

Coefficients are exact rationals.  A number is read from `3`, `-0.35` or `7/20` and written as an
integer if it is one, as a decimal if it has a finite expansion (with the fewest places), and as a
reduced fraction otherwise.
-/

namespace MarkovRegion.Coefficient

/-! ## Digits -/

/-- The ASCII digits. -/
def isDigit (c : Char) : Bool :=
  '0' ≤ c && c ≤ '9'

/-- The value of a digit. -/
def digitValue (c : Char) : Nat :=
  c.toNat - 48

/-- The value of a string of digits, read from the left. -/
def digitsValue (cs : List Char) : Nat :=
  cs.foldl (fun value c => 10 * value + digitValue c) 0

/-! ## Reading -/

/-- A natural number: digits, with underscores anywhere but in front. -/
def readNatural? : List Char → Option Nat
  | [] => none
  | '_' :: _ => none
  | cs =>
    if cs.all fun c => isDigit c || c == '_' then
      some (digitsValue (cs.filter isDigit))
    else none

/-- An integer: at most one sign, then a natural number. -/
def readInteger? : List Char → Option Int
  | '-' :: cs => (readNatural? cs).map fun n => -(Int.ofNat n)
  | '+' :: cs => (readNatural? cs).map Int.ofNat
  | cs => (readNatural? cs).map Int.ofNat

/-- A fraction of two integers, the lower one not zero; blanks may stand around both. -/
def readFraction? (upper lower : List Char) : Option Rat := do
  let n ← readInteger? (Text.trim upper)
  let d ← readInteger? (Text.trim lower)
  if d = 0 then none else some (Rat.divInt n d)

/-- An unsigned decimal: digits with at most one point, and a digit on one side of it. -/
def readDecimal? (cs : List Char) : Option Rat :=
  let (whole, places) := (Text.cutAt? ['.'] cs).getD (cs, [])
  if whole.isEmpty && places.isEmpty then none
  else if (whole ++ places).all isDigit then
    some (mkRat (digitsValue (whole ++ places)) (Nat.pow 10 places.length))
  else none

/-- A decimal with at most one sign. -/
def readSigned? : List Char → Option Rat
  | '-' :: cs => (readDecimal? cs).map fun q => -q
  | '+' :: cs => readDecimal? cs
  | cs => readDecimal? cs

/-- A number without blanks around it. -/
def readTrimmed? (cs : List Char) : Option Rat :=
  match Text.cutAt? ['/'] cs with
  | some (upper, lower) => readFraction? upper lower
  | none => readSigned? cs

/-- Read an exact number.  The error carries the text without the blanks around it. -/
def read (text : String) : Except ModelError Rat :=
  let cs := Text.trim text.toList
  match readTrimmed? cs with
  | some q => .ok q
  | none => .error (.invalidNumber (String.ofList cs))

/-! ## Writing -/

/-- How often `p` divides `n`, and what is left of `n`. -/
def divideOut (p n : Nat) : Nat × Nat :=
  if _h : 2 ≤ p ∧ 0 < n ∧ n % p = 0 then
    let (count, rest) := divideOut p (n / p)
    (count + 1, rest)
  else (0, n)
termination_by n
decreasing_by exact Nat.div_lt_self (by omega) (by omega)

/-- The number of decimal places of a fraction in lowest terms with denominator `d`, if its
expansion ends: the larger of the exponents of 2 and 5, when `d` has no other prime factor. -/
def decimalPlaces? (d : Nat) : Option Nat :=
  let (twos, odd) := divideOut 2 d
  let (fives, rest) := divideOut 5 odd
  if rest = 1 then some (Nat.max twos fives) else none

/-- Digits of `n`, with zeros in front up to the given width. -/
def padded (width n : Nat) : List Char :=
  let digits := (Nat.repr n).toList
  List.replicate (width - digits.length) '0' ++ digits

/-- A decimal with the given number of places, where `n` counts units of the last place. -/
def writeDecimal (places n : Nat) : String :=
  let digits := padded (places + 1) n
  let whole := digits.length - places
  String.ofList (digits.take whole ++ '.' :: digits.drop whole)

/-- Numerator and denominator, or the numerator alone if the denominator is one. -/
def writeFraction (q : Rat) : String :=
  if q.den = 1 then toString q.num else toString q.num ++ "/" ++ toString q.den

/-- Write an exact number. -/
def write (q : Rat) : String :=
  if q.den = 1 then toString q.num
  else
    match decimalPlaces? q.den with
    | none => writeFraction q
    | some places =>
      (if q.num < 0 then "-" else "") ++
        writeDecimal places (q.num.natAbs * Nat.pow 10 places / q.den)

end MarkovRegion.Coefficient
