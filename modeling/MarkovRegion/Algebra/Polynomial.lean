import MarkovRegion.Algebra.Monomial

/-!
# Polynomials with exact coefficients

A polynomial is a function from monomials to coefficients with finite support, so equal polynomials
are equal as data.  Sums and products add up lists of terms with `Sparse.ofList`.

`mulChecked` and `powChecked` are `mul` and `pow` with checked sums of exponents.  The degrees of
terms decide in which order they are written, so `write` fails where one of them cannot be computed;
`text` is what it writes otherwise.
-/

namespace MarkovRegion

/-- Take a step some number of times, until it fails. -/
def repeatedly {ε α : Type} (step : α → Except ε α) : Nat → α → Except ε α
  | 0, a => .ok a
  | n + 1, a => do repeatedly step n (← step a)

/-- A polynomial in the parameters with rational coefficients. -/
structure Polynomial where
  /-- The coefficient of each monomial. -/
  terms : Sparse Monomial Rat
  deriving DecidableEq

namespace Polynomial

/-- A term: a monomial and its coefficient. -/
abbrev Term := Monomial × Rat

/-- The sum of a list of terms. -/
def ofTerms (terms : List Term) : Polynomial := ⟨Sparse.ofList terms⟩

/-- The zero polynomial. -/
def zero : Polynomial := ⟨Sparse.zero⟩

/-- A constant. -/
def constant (c : Rat) : Polynomial :=
  if h : c = 0 then zero else ⟨Sparse.single Monomial.unit c h⟩

/-- The constant one. -/
def one : Polynomial := constant 1

/-- A parameter. -/
def ofParameter (p : Parameter) : Polynomial :=
  ⟨Sparse.single (Monomial.ofParameter p) 1 (by decide)⟩

/-- Whether there are no terms. -/
def isZero (f : Polynomial) : Bool := f.terms.isZero

/-- Whether no parameter occurs. -/
def isConstant (f : Polynomial) : Bool := f.terms.entries.all fun t => t.1.isUnit

/-- The value of a polynomial without parameters. -/
def constantValue? (f : Polynomial) : Option Rat :=
  if f.isConstant then some (f.terms.coefficient Monomial.unit) else none

/-- Whether the polynomial is the constant one. -/
def isOne (f : Polynomial) : Bool := f.constantValue? == some 1

/-- The number of terms. -/
def size (f : Polynomial) : Nat := f.terms.entries.length

/-- The largest degree of a term, zero if there are none. -/
def degree (f : Polynomial) : Except ModelError Nat :=
  f.terms.entries.foldlM (fun d t => do return Nat.max d (← t.1.degree)) 0

/-- The parameters that occur, in their order. -/
def parameters (f : Polynomial) : List Parameter :=
  orderedKeys (f.terms.entries.flatMap fun t => t.1.parameters)

/-- The coefficient of the last term in the order of monomials. -/
def lastCoefficient? (f : Polynomial) : Option Rat :=
  f.terms.entries.getLast?.map Prod.snd

/-! ## Arithmetic -/

/-- The sum of two polynomials. -/
def add (f g : Polynomial) : Polynomial := ⟨f.terms.add g.terms⟩

theorem neg_ne_zero {x : Rat} (h : x ≠ 0) : -x ≠ 0 := by
  intro h'
  apply h
  rw [← Rat.neg_neg x, h']
  rfl

/-- The polynomial with all signs changed. -/
def neg (f : Polynomial) : Polynomial :=
  ⟨f.terms.mapValues (fun x => -x) fun _ => neg_ne_zero⟩

/-- The difference of two polynomials. -/
def sub (f g : Polynomial) : Polynomial := f.add g.neg

/-- All products of a term of `f` and a term of `g`. -/
def products (f g : List Term) : List Term :=
  f.flatMap fun s => g.map fun t => (s.1.mul t.1, s.2 * t.2)

/-- The product of two polynomials. -/
def mul (f g : Polynomial) : Polynomial :=
  ofTerms (products f.terms.entries g.terms.entries)

/-- Multiply every coefficient by a constant. -/
def scale (f : Polynomial) (c : Rat) : Polynomial :=
  if h : c = 0 then zero
  else
    ⟨f.terms.mapValues (fun x => x * c) fun _ hx hxc =>
      (Rat.mul_eq_zero.mp hxc).elim hx h⟩

/-- A power, by repeated multiplication. -/
def pow (f : Polynomial) (n : Nat) : Polynomial := Nat.repeat (fun g => g.mul f) n one

/-- All products of a term of `f` and a term of `g`, with checked exponents. -/
def productsChecked (f g : List Term) : Except ModelError (List Term) := do
  let rows ← f.mapM fun s => g.mapM fun t => do return (← s.1.mulChecked t.1, s.2 * t.2)
  return rows.flatten

/-- The product of two polynomials, with checked exponents. -/
def mulChecked (f g : Polynomial) : Except ModelError Polynomial := do
  return ofTerms (← productsChecked f.terms.entries g.terms.entries)

/-- A power, by repeated multiplication with checked exponents. -/
def powChecked (f : Polynomial) (n : Nat) : Except ModelError Polynomial :=
  repeatedly (fun g => g.mulChecked f) n one

/-! ## Values -/

/-- The value at a point; every parameter that occurs needs a value. -/
def evaluate (v : Valuation) (f : Polynomial) : Except ModelError Rat :=
  f.terms.entries.foldlM (fun sum t => do return sum + t.2 * (← t.1.evaluate v)) 0

/-- Replace the parameters that have a value, and keep the others. -/
def substitute (v : Valuation) (f : Polynomial) : Polynomial :=
  ofTerms (f.terms.entries.map fun t => (t.1.unknownPart v, t.2 * t.1.knownFactor v))

/-! ## Text -/

/-- A term without its sign: the coefficient one is left out unless it stands alone. -/
def writeTerm (t : Term) : String :=
  let magnitude := if t.2 < 0 then -t.2 else t.2
  if t.1.isUnit then Coefficient.write magnitude
  else if magnitude = 1 then t.1.write
  else Coefficient.write magnitude ++ "*" ++ t.1.write

/-- The terms by falling degree, and within one degree in the order of monomials. -/
def printedTerms (f : Polynomial) : List Term :=
  f.terms.entries.mergeSort fun s t => t.1.totalDegree ≤ s.1.totalDegree

/-- The text of a polynomial, such as `-4*p^2 + 4*p`. -/
def text (f : Polynomial) : String :=
  match f.printedTerms with
  | [] => "0"
  | t :: rest =>
    rest.foldl (fun text s => text ++ (if s.2 < 0 then " - " else " + ") ++ writeTerm s)
      ((if t.2 < 0 then "-" else "") ++ writeTerm t)

/-- Write a polynomial.  A single term is not compared, so its degree is not computed. -/
def write (f : Polynomial) : Except ModelError String := do
  if 1 < f.size then let _ ← f.degree
  return f.text

end Polynomial

end MarkovRegion
