import MarkovRegion.Algebra.Polynomial

/-!
# Rational functions in a light normal form

A rational function is a quotient of two polynomials.  `normalize` brings a quotient into a light
normal form without computing greatest common divisors:

* a zero numerator has denominator one,
* a constant denominator is folded into the numerator,
* any other denominator has coefficient one at its last term,
* a numerator that is a constant multiple of the denominator collapses to that constant.

The operations are exact.  Those with checked exponents stop where a product of monomials cannot be
stored; the functions of expressions are computed by these.
-/

namespace MarkovRegion

/-- A quotient of two polynomials. -/
structure RationalFunction where
  /-- The upper polynomial. -/
  numerator : Polynomial
  /-- The lower polynomial. -/
  denominator : Polynomial
  deriving DecidableEq

namespace RationalFunction

/-- A polynomial over one. -/
def ofPolynomial (f : Polynomial) : RationalFunction := ⟨f, Polynomial.one⟩

/-- The zero function. -/
def zero : RationalFunction := ofPolynomial Polynomial.zero

/-- The constant one. -/
def one : RationalFunction := ofPolynomial Polynomial.one

/-- A constant function. -/
def constant (c : Rat) : RationalFunction := ofPolynomial (Polynomial.constant c)

/-- A parameter as a function. -/
def ofParameter (p : Parameter) : RationalFunction :=
  ofPolynomial (Polynomial.ofParameter p)

/-- The light normal form of a quotient whose denominator is not zero and not constant. -/
def normalizeNonconstant (upper lower : Polynomial) : RationalFunction :=
  let inverse := 1 / lower.lastCoefficient?.getD 1
  let f := upper.scale inverse
  let g := lower.scale inverse
  match f.lastCoefficient? with
  | some k => if g.scale k = f then constant k else ⟨f, g⟩
  | none => ⟨f, g⟩

/-- The light normal form of a quotient whose denominator is not zero. -/
def normalize (upper lower : Polynomial) : RationalFunction :=
  if upper.isZero then zero
  else
    match lower.constantValue? with
    | some c => ofPolynomial (upper.scale (1 / c))
    | none => normalizeNonconstant upper lower

/-- The quotient of two polynomials, refused if the lower one is zero. -/
def ofQuotient (upper lower : Polynomial) : Except ModelError RationalFunction :=
  if lower.isZero then .error (.divisionByZero ("(" ++ upper.text ++ ")/0"))
  else .ok (normalize upper lower)

/-! ## Shape -/

/-- Whether the function is zero. -/
def isZero (f : RationalFunction) : Bool := f.numerator.isZero

/-- Whether the function is the constant one. -/
def isOne (f : RationalFunction) : Bool := f.denominator.isOne && f.numerator.isOne

/-- Whether the denominator is one. -/
def isPolynomial (f : RationalFunction) : Bool := f.denominator.isOne

/-- Whether no parameter occurs. -/
def isConstant (f : RationalFunction) : Bool :=
  f.denominator.isOne && f.numerator.isConstant

/-- The value of a constant function. -/
def constantValue? (f : RationalFunction) : Option Rat :=
  if f.denominator.isOne then f.numerator.constantValue? else none

/-- Whether the function is a polynomial of degree at most one. -/
def isLinear (f : RationalFunction) : Except ModelError Bool := do
  if f.isPolynomial then return (← f.numerator.degree) ≤ 1
  else return false

/-- The parameters that occur, in their order. -/
def parameters (f : RationalFunction) : List Parameter :=
  orderedKeys (f.numerator.parameters ++ f.denominator.parameters)

/-- The number of terms of numerator and denominator. -/
def size (f : RationalFunction) : Nat := f.numerator.size + f.denominator.size

/-! ## Arithmetic -/

/-- The sum of two functions.  Equal denominators are shared. -/
def add (f g : RationalFunction) : RationalFunction :=
  if f.isZero then g
  else if g.isZero then f
  else if f.denominator = g.denominator then
    normalize (f.numerator.add g.numerator) f.denominator
  else
    normalize ((f.numerator.mul g.denominator).add (g.numerator.mul f.denominator))
      (f.denominator.mul g.denominator)

/-- The function with its sign changed. -/
def neg (f : RationalFunction) : RationalFunction := ⟨f.numerator.neg, f.denominator⟩

/-- The difference of two functions. -/
def sub (f g : RationalFunction) : RationalFunction := f.add g.neg

/-- The product of two functions.  A numerator equal to the other denominator cancels. -/
def mul (f g : RationalFunction) : RationalFunction :=
  if f.isZero || g.isZero then zero
  else if f.isOne then g
  else if g.isOne then f
  else if f.numerator = g.denominator then normalize g.numerator f.denominator
  else if g.numerator = f.denominator then normalize f.numerator g.denominator
  else normalize (f.numerator.mul g.numerator) (f.denominator.mul g.denominator)

/-- The quotient of two functions, unless the second is zero. -/
def div? (f g : RationalFunction) : Option RationalFunction :=
  if g.isZero then none else some (f.mul (normalize g.denominator g.numerator))

/-- A power, by repeated multiplication from one. -/
def pow (f : RationalFunction) (n : Nat) : RationalFunction :=
  Nat.repeat (fun g => g.mul f) n one

/-! ## Arithmetic with checked exponents -/

/-- The sum of two functions. -/
def addChecked (f g : RationalFunction) : Except ModelError RationalFunction :=
  if f.isZero then .ok g
  else if g.isZero then .ok f
  else if f.denominator = g.denominator then
    .ok (normalize (f.numerator.add g.numerator) f.denominator)
  else do
    let left ← f.numerator.mulChecked g.denominator
    let right ← g.numerator.mulChecked f.denominator
    let lower ← f.denominator.mulChecked g.denominator
    return normalize (left.add right) lower

/-- The difference of two functions. -/
def subChecked (f g : RationalFunction) : Except ModelError RationalFunction := f.addChecked g.neg

/-- The product of two functions. -/
def mulChecked (f g : RationalFunction) : Except ModelError RationalFunction :=
  if f.isZero || g.isZero then .ok zero
  else if f.isOne then .ok g
  else if g.isOne then .ok f
  else if f.numerator = g.denominator then .ok (normalize g.numerator f.denominator)
  else if g.numerator = f.denominator then .ok (normalize f.numerator g.denominator)
  else do
    let upper ← f.numerator.mulChecked g.numerator
    let lower ← f.denominator.mulChecked g.denominator
    return normalize upper lower

/-- The quotient of two functions, unless the second is zero. -/
def divChecked? (f g : RationalFunction) : Except ModelError (Option RationalFunction) :=
  if g.isZero then .ok none
  else do return some (← f.mulChecked (normalize g.denominator g.numerator))

/-- A power, by repeated multiplication from one. -/
def powChecked (f : RationalFunction) (n : Nat) : Except ModelError RationalFunction :=
  repeatedly (fun g => g.mulChecked f) n one

/-! ## Values and text -/

/-- The text of a function, such as `p + q` or `(p)/(q - 1)`. -/
def text (f : RationalFunction) : String :=
  if f.denominator.isOne then f.numerator.text
  else "(" ++ f.numerator.text ++ ")/(" ++ f.denominator.text ++ ")"

/-- Write a function. -/
def write (f : RationalFunction) : Except ModelError String := do
  if f.denominator.isOne then f.numerator.write
  else return "(" ++ (← f.numerator.write) ++ ")/(" ++ (← f.denominator.write) ++ ")"

/-- The value at a point.  The denominator is evaluated first. -/
def evaluate (v : Valuation) (f : RationalFunction) : Except ModelError Rat := do
  let lower ← f.denominator.evaluate v
  if lower = 0 then throw (.divisionByZero f.text)
  let upper ← f.numerator.evaluate v
  return upper / lower

/-- Replace the parameters that have a value, and keep the others. -/
def substitute (v : Valuation) (f : RationalFunction) : Except ModelError RationalFunction :=
  ofQuotient (f.numerator.substitute v) (f.denominator.substitute v)

end RationalFunction

end MarkovRegion
