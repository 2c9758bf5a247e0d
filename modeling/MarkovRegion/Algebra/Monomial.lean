import MarkovRegion.Algebra.Parameter

/-!
# Monomials

A monomial is a product of powers of parameters: a function from parameters to exponents with finite
support.  Monomials are ordered by their lists of powers, lexicographically, a power by its
parameter first.  This order is not compatible with multiplication; it only fixes the order in which
terms are kept.

Exponents are stored in 32 bits.  `mul` and `totalDegree` are exact; `mulChecked` and `degree` give
the same, but stop the computation if a sum of exponents does not fit.
-/

namespace MarkovRegion

/-- Exponents are below this. -/
def exponentLimit : Nat := 4294967296

/-- A product of parameters raised to positive powers. -/
structure Monomial where
  /-- The exponent of each parameter. -/
  powers : Sparse Parameter Nat
  deriving DecidableEq

namespace Monomial

/-- Compare two powers: by parameter, then by exponent. -/
def comparePower : Parameter × Nat → Parameter × Nat → Ordering :=
  compareLex (compareOn Prod.fst) (compareOn Prod.snd)

instance : Std.TransCmp comparePower :=
  @Std.instTransCmpCompareLex _ (compareOn Prod.fst) (compareOn Prod.snd)
    Std.instTransCmpCompareOnOfTransOrd Std.instTransCmpCompareOnOfTransOrd

instance : Std.LawfulEqCmp comparePower where
  eq_of_compare {a b} h := by
    obtain ⟨h₁, h₂⟩ := compareLex_eq_eq.mp h
    exact Prod.ext (Std.LawfulEqCmp.eq_of_compare h₁) (Std.LawfulEqCmp.eq_of_compare h₂)

/-- Compare two lists of powers, the first difference deciding. -/
instance instOrdPowers : Ord (List (Parameter × Nat)) := ⟨List.compareLex comparePower⟩

instance : Std.TransOrd (List (Parameter × Nat)) :=
  inferInstanceAs (Std.TransCmp (List.compareLex comparePower))

instance : Std.LawfulEqOrd (List (Parameter × Nat)) :=
  inferInstanceAs (Std.LawfulEqCmp (List.compareLex comparePower))

instance : Ord Monomial := ⟨compareOn fun m => m.powers.entries⟩

instance : Std.TransOrd Monomial :=
  (Std.instTransCmpCompareOnOfTransOrd :
    Std.TransCmp (compareOn fun m : Monomial => m.powers.entries))

instance : Std.LawfulEqOrd Monomial where
  eq_of_compare {m n} h := by
    have h' : compare m.powers.entries n.powers.entries = .eq := h
    have h' : m.powers.entries = n.powers.entries := Std.LawfulEqCmp.eq_of_compare h'
    cases m; cases n
    exact congrArg Monomial.mk (Sparse.ext h')

/-- The empty product. -/
def unit : Monomial := ⟨Sparse.zero⟩

/-- A parameter to the first power. -/
def ofParameter (p : Parameter) : Monomial := ⟨Sparse.single p 1 (by decide)⟩

/-- Whether no parameter occurs. -/
def isUnit (m : Monomial) : Bool := m.powers.isZero

/-- The sum of the exponents. -/
def totalDegree (m : Monomial) : Nat := m.powers.entries.foldl (fun d e => d + e.2) 0

/-- The product of two monomials adds the exponents. -/
def mul (m n : Monomial) : Monomial := ⟨m.powers.add n.powers⟩

/-- All exponents can be stored. -/
def ExponentsFit (m : Monomial) : Prop := ∀ e ∈ m.powers.entries, e.2 < exponentLimit

instance (m : Monomial) : Decidable m.ExponentsFit :=
  inferInstanceAs (Decidable (∀ e ∈ m.powers.entries, e.2 < exponentLimit))

/-- The sum of the exponents, added one after the other. -/
def degree (m : Monomial) : Except ModelError Nat :=
  m.powers.entries.foldlM
    (fun d e => if d + e.2 < exponentLimit then .ok (d + e.2) else .error .overflow) 0

/-- The product of two monomials, if its exponents can be stored. -/
def mulChecked (m n : Monomial) : Except ModelError Monomial :=
  if (m.mul n).ExponentsFit then .ok (m.mul n) else .error .overflow

/-- The parameters that occur. -/
def parameters (m : Monomial) : List Parameter := m.powers.support

/-- The value of the product; every parameter that occurs needs a value. -/
def evaluate (v : Valuation) (m : Monomial) : Except ModelError Rat :=
  m.powers.entries.foldlM (fun x e => do return x * Rat.pow (← v.value e.1) e.2) 1

/-- The product of the powers whose parameters have a value. -/
def knownFactor (v : Valuation) (m : Monomial) : Rat :=
  m.powers.entries.foldl
    (fun x e =>
      match v.find? e.1 with
      | some y => x * Rat.pow y e.2
      | none => x)
    1

/-- The powers whose parameters have no value. -/
def unknownPart (v : Valuation) (m : Monomial) : Monomial :=
  ⟨m.powers.filterKeys fun p => (v.find? p).isNone⟩

/-- Write one power as `p` or `p^2`. -/
def writePower (e : Parameter × Nat) : String :=
  if e.2 = 1 then e.1.name else e.1.name ++ "^" ++ toString e.2

/-- Write a monomial as `p*q^2`. -/
def write (m : Monomial) : String :=
  Text.join "*" (m.powers.entries.map writePower)

end Monomial

end MarkovRegion
