import MarkovRegion.Algebra.RationalFunction
import MarkovRegion.Number.Double

/-!
# Weights and scalars

`Weight` is the arithmetic that matrices and state elimination need.  Its instances are the doubles,
the exact rationals and the rational functions of the parameters.

`Scalar` adds the order that numeric analysis needs.  Numeric analysis is written once for all
scalars: with doubles it is what the program runs, and with rationals it is the same computation in
exact arithmetic.
-/

namespace MarkovRegion

/-- Arithmetic on transition weights. -/
class Weight (W : Type) where
  /-- The weight of no transition. -/
  zero : W
  /-- The weight of a certain transition. -/
  one : W
  /-- Whether a weight is zero. -/
  isZero : W → Bool
  /-- Whether a weight is one. -/
  isOne : W → Bool
  /-- Whether no parameter occurs in a weight. -/
  isConstant : W → Bool
  add : W → W → W
  sub : W → W → W
  mul : W → W → W
  /-- The quotient, unless the divisor is zero. -/
  div? : W → W → Option W
  /-- A measure of the text of a weight, to bound its growth. -/
  size : W → Nat

instance : Weight RationalFunction where
  zero := .zero
  one := .one
  isZero := RationalFunction.isZero
  isOne := RationalFunction.isOne
  isConstant := RationalFunction.isConstant
  add := RationalFunction.add
  sub := RationalFunction.sub
  mul := RationalFunction.mul
  div? := RationalFunction.div?
  size := RationalFunction.size

instance : Weight Rat where
  zero := 0
  one := 1
  isZero x := x = 0
  isOne x := x = 1
  isConstant _ := true
  add x y := x + y
  sub x y := x - y
  mul x y := x * y
  div? x y := if y = 0 then none else some (x / y)
  size _ := 1

instance : Weight Float where
  zero := 0.0
  one := 1.0
  isZero x := x == 0.0
  isOne x := x == 1.0
  isConstant _ := true
  add x y := x + y
  sub x y := x - y
  mul x y := x * y
  div? x y := if y == 0.0 then none else some (x / y)
  size _ := 1

/-- Weights with an order into which the rationals are rounded. -/
class Scalar (α : Type) extends Weight α where
  /-- The scalar nearest to a rational. -/
  ofRat : Rat → α
  lt : α → α → Bool
  le : α → α → Bool
  /-- Whether two scalars are equal as numbers. -/
  same : α → α → Bool
  /-- The larger scalar; a scalar that is no number is ignored. -/
  max : α → α → α
  /-- The smaller scalar; a scalar that is no number is ignored. -/
  min : α → α → α

instance : Scalar Rat where
  ofRat x := x
  lt x y := x < y
  le x y := x ≤ y
  same x y := x = y
  max x y := if x < y then y else x
  min x y := if y < x then y else x

instance : Scalar Float where
  ofRat := Double.nearest
  lt x y := x < y
  le x y := x ≤ y
  same x y := x == y
  max x y := if x.isNaN then y else if y.isNaN then x else if x < y then y else x
  min x y := if x.isNaN then y else if y.isNaN then x else if y < x then y else x

end MarkovRegion
