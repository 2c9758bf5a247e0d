/-!
# The double nearest to a rational

`Double.nearest` rounds an exact rational to the nearest IEEE double, a tie to the even
neighbour.  Values beyond the largest double become infinite and small ones subnormal or zero.  The
bits are computed in natural numbers: with `e` the exponent of the last place, the magnitude is
`m · 2^e`, and `(e + 1074) · 2^52 + m` is the pattern of the double, for normal and subnormal `m`
alike and also when rounding carries `m` to the next power of two.
-/

namespace MarkovRegion.Double

/-- The integer nearest to `n / d`, ties to even. -/
def divNearest (n d : Nat) : Nat :=
  let q := n / d
  let r := n % d
  if d < 2 * r || (2 * r == d && q % 2 == 1) then q + 1 else q

/-- `n · 2^s` over `d`, or `n` over `d · 2^(-s)`, as numerator and denominator. -/
def scaleBits (n d : Nat) (s : Int) : Nat × Nat :=
  if 0 ≤ s then (n * Nat.pow 2 s.toNat, d) else (n, d * Nat.pow 2 (-s).toNat)

/-- The integer part of the binary logarithm of `n / d`. -/
def floorLog (n d : Nat) : Int :=
  let guess : Int := Int.ofNat n.log2 - Int.ofNat d.log2
  let (a, b) := scaleBits n d (-guess)
  if b ≤ a then guess else guess - 1

/-- The exponent of the last place of the double nearest to `n / d`. -/
def lastPlace (n d : Nat) : Int :=
  let e := floorLog n d - 52
  if e < -1074 then -1074 else e

/-- The bits of positive infinity. -/
def infinityBits : Nat := 0x7FF0000000000000

/-- The bits of the double nearest to `n / d`. -/
def magnitudeBits (n d : Nat) : Nat :=
  if n = 0 then 0
  else
    let e := lastPlace n d
    let (a, b) := scaleBits n d (-e)
    let bits := (e + 1074).toNat * Nat.pow 2 52 + divNearest a b
    if infinityBits ≤ bits then infinityBits else bits

/-- The double nearest to a rational. -/
def nearest (q : Rat) : Float :=
  let sign := if q.num < 0 then Nat.pow 2 63 else 0
  Float.ofBits (UInt64.ofNat (sign + magnitudeBits q.num.natAbs q.den))

end MarkovRegion.Double
