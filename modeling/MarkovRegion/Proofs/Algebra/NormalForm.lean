import MarkovRegion.Proofs.Algebra.CheckedExponents
import MarkovRegion.Proofs.Algebra.Reading

/-!
# The light normal form is kept

Functions that are built by the operations (`RationalFunction.Built`) are in light normal form
(`RationalFunction.Normal`): they are polynomials over one, or quotients with a denominator that is
not constant, has coefficient one at its last term, and of which the numerator is no multiple by a
constant.  The order of monomials is not compatible with multiplication, so nothing is known about
the last term of a product; it is `RationalFunction.normalize` that establishes the form, whatever
it is given (`RationalFunction.normal_normalize`).
-/

namespace MarkovRegion

/-! ## Scaling -/

namespace Polynomial

variable {f : Polynomial} {c : ℚ}

theorem entries_scale (f : Polynomial) (hc : c ≠ 0) :
    (f.scale c).terms.entries = f.terms.entries.map fun t => (t.1, t.2 * c) := by
  rw [scale, dif_neg hc]
  rfl

theorem isConstant_scale (f : Polynomial) (hc : c ≠ 0) :
    (f.scale c).isConstant = f.isConstant := by
  rw [isConstant, entries_scale f hc, List.all_map]
  rfl

theorem lastCoefficient?_scale (f : Polynomial) (hc : c ≠ 0) :
    (f.scale c).lastCoefficient? = f.lastCoefficient?.map fun x => x * c := by
  rw [lastCoefficient?, entries_scale f hc, List.getLast?_map, Option.map_map, lastCoefficient?,
    Option.map_map]
  rfl

theorem lastCoefficient?_eq_none_iff : f.lastCoefficient? = none ↔ f = zero := by
  rw [lastCoefficient?, Option.map_eq_none_iff, List.getLast?_eq_none_iff, ← isZero_iff, isZero,
    Sparse.isZero, List.isEmpty_iff]

theorem scale_ne_zero (hf : f ≠ zero) (hc : c ≠ 0) : f.scale c ≠ zero := by
  rw [Ne, ← lastCoefficient?_eq_none_iff] at hf ⊢
  rwa [lastCoefficient?_scale f hc, Option.map_eq_none_iff]

theorem isConstant_eq_false_iff : f.isConstant = false ↔ f.constantValue? = none := by
  unfold constantValue?
  split
  · next h => simp [h]
  · next h => simpa using h

theorem ne_zero_of_isConstant_eq_false (h : f.isConstant = false) : f ≠ zero := by
  rintro rfl
  cases h

end Polynomial

namespace RationalFunction

/-! ## The form -/

/-- The light normal form. -/
inductive Normal : RationalFunction → Prop
  /-- A polynomial over one. -/
  | polynomial (f : Polynomial) : Normal (ofPolynomial f)
  /-- A quotient that is not constant. -/
  | quotient {upper lower : Polynomial} (hlower : lower.isConstant = false)
      (hlast : lower.lastCoefficient? = some 1) (hupper : ∀ c, upper ≠ lower.scale c) :
      Normal ⟨upper, lower⟩

theorem Normal.denominator_ne_zero {f : RationalFunction} (h : f.Normal) :
    f.denominator ≠ .zero := by
  cases h with
  | polynomial => exact (by decide : Polynomial.one ≠ .zero)
  | quotient hlower => exact Polynomial.ne_zero_of_isConstant_eq_false hlower

theorem Normal.toRing_denominator_ne_zero {f : RationalFunction} (h : f.Normal) :
    f.denominator.toRing ≠ 0 := by
  rw [Ne, Polynomial.toRing_eq_zero_iff, Polynomial.isZero_iff]
  exact h.denominator_ne_zero

theorem normal_normalizeNonconstant {upper lower : Polynomial} (hupper : upper ≠ .zero)
    (hlower : lower.isConstant = false) : (normalizeNonconstant upper lower).Normal := by
  obtain ⟨k, hk⟩ := Option.ne_none_iff_exists'.mp fun h =>
    Polynomial.ne_zero_of_isConstant_eq_false hlower (Polynomial.lastCoefficient?_eq_none_iff.mp h)
  have hk0 : k ≠ 0 := by
    have hlast := lower.lastCoefficient?_getD_ne_zero
    rwa [hk] at hlast
  have hinv : 1 / k ≠ 0 := one_div_ne_zero hk0
  have hlast : (lower.scale (1 / k)).lastCoefficient? = some 1 := by
    rw [Polynomial.lastCoefficient?_scale lower hinv, hk, Option.map_some, mul_one_div_cancel hk0]
  have hconst : (lower.scale (1 / k)).isConstant = false := by
    rwa [Polynomial.isConstant_scale lower hinv]
  have hne := Polynomial.scale_ne_zero hupper hinv
  simp only [normalizeNonconstant, hk, Option.getD_some]
  split
  · next j hj =>
      split_ifs with hcollapse
      · exact .polynomial _
      · refine .quotient hconst hlast fun c hc => hcollapse ?_
        -- the factor can only be the last coefficient of the numerator
        have hc0 : c ≠ 0 := by
          rintro rfl
          exact hne (hc.trans (dif_pos rfl))
        have hlastc := congrArg Polynomial.lastCoefficient? hc
        rw [hj, Polynomial.lastCoefficient?_scale _ hc0, hlast, Option.map_some, one_mul,
          Option.some.injEq] at hlastc
        rw [hlastc, ← hc]
  · next hnone => exact absurd (Polynomial.lastCoefficient?_eq_none_iff.mp hnone) hne

/-- Normalizing establishes the form. -/
theorem normal_normalize (upper lower : Polynomial) : (normalize upper lower).Normal := by
  unfold normalize
  split_ifs with hzero
  · exact .polynomial _
  · have hupper : upper ≠ .zero := fun h => hzero (Polynomial.isZero_iff.mpr h)
    split
    · exact .polynomial _
    · next hnone =>
        exact normal_normalizeNonconstant hupper (Polynomial.isConstant_eq_false_iff.mpr hnone)

/-! ## The operations -/

section Operations

variable {f g h : RationalFunction}

theorem normal_ofQuotient {upper lower : Polynomial} (h : ofQuotient upper lower = .ok f) :
    f.Normal := by
  unfold ofQuotient at h
  split_ifs at h
  obtain rfl := Except.ok.inj h
  exact normal_normalize _ _

theorem Normal.add (hf : f.Normal) (hg : g.Normal) : (f.add g).Normal := by
  unfold RationalFunction.add
  split_ifs
  · exact hg
  · exact hf
  · exact normal_normalize _ _
  · exact normal_normalize _ _

theorem Normal.neg (hf : f.Normal) : f.neg.Normal := by
  cases hf with
  | polynomial f => exact .polynomial f.neg
  | @quotient upper lower hlower hlast hupper =>
      refine .quotient hlower hlast fun c hc => hupper (-c) (Polynomial.toRing_injective ?_)
      have hring := congrArg Polynomial.toRing hc
      rw [Polynomial.toRing_neg, Polynomial.toRing_scale] at hring
      rw [Polynomial.toRing_scale, map_neg, mul_neg, ← hring, neg_neg]

theorem Normal.mul (hf : f.Normal) (hg : g.Normal) : (f.mul g).Normal := by
  unfold RationalFunction.mul
  split_ifs
  · exact .polynomial _
  · exact hg
  · exact hf
  · exact normal_normalize _ _
  · exact normal_normalize _ _
  · exact normal_normalize _ _

theorem Normal.div (hf : f.Normal) (h' : f.div? g = some h) : h.Normal := by
  unfold div? at h'
  split_ifs at h'
  obtain rfl := Option.some.inj h'
  exact hf.mul (normal_normalize _ _)

end Operations

/-- The functions that are built by the operations. -/
inductive Built : RationalFunction → Prop
  | ofPolynomial (f : Polynomial) : Built (ofPolynomial f)
  | ofQuotient {upper lower : Polynomial} {f : RationalFunction}
      (h : ofQuotient upper lower = .ok f) : Built f
  | neg {f : RationalFunction} (hf : Built f) : Built f.neg
  | add {f g : RationalFunction} (hf : Built f) (hg : Built g) : Built (f.add g)
  | sub {f g : RationalFunction} (hf : Built f) (hg : Built g) : Built (f.sub g)
  | mul {f g : RationalFunction} (hf : Built f) (hg : Built g) : Built (f.mul g)
  | div {f g h : RationalFunction} (hf : Built f) (hg : Built g) (h' : f.div? g = some h) : Built h
  | substitute {f g : RationalFunction} {v : Valuation} (hf : Built f)
      (h : f.substitute v = .ok g) : Built g

namespace Built

variable {f : RationalFunction}

/-- The operations stay in normal form. -/
theorem normal (hf : f.Built) : f.Normal := by
  induction hf with
  | ofPolynomial f => exact .polynomial f
  | ofQuotient h => exact normal_ofQuotient h
  | neg _ ih => exact ih.neg
  | add _ _ ihf ihg => exact ihf.add ihg
  | sub _ _ ihf ihg => exact ihf.add ihg.neg
  | mul _ _ ihf ihg => exact ihf.mul ihg
  | div _ _ h ihf => exact ihf.div h
  | substitute _ h => exact normal_ofQuotient h

theorem pow (hf : f.Built) (n : Nat) : (f.pow n).Built := by
  induction n with
  | zero => exact .ofPolynomial _
  | succ n ih => exact ih.mul hf

end Built

end RationalFunction

namespace Expression

theorem built_of_exactFunction {e : Expression} {f : RationalFunction}
    (he : e.exactFunction = .ok f) : f.Built := by
  induction e generalizing f with
  | number value =>
      rw [exactFunction, Except.ok.injEq] at he
      exact he ▸ .ofPolynomial _
  | parameter p =>
      rw [exactFunction, Except.ok.injEq] at he
      exact he ▸ .ofPolynomial _
  | neg e ih =>
      obtain ⟨g, hg, heq⟩ := bind_eq_ok_iff.mp he
      rw [pure_eq_ok_iff] at heq
      exact heq ▸ (ih hg).neg
  | add l r ihl ihr =>
      obtain ⟨g, k, hg, hk, rfl⟩ := bind₂_eq_ok_iff.mp he
      exact (ihl hg).add (ihr hk)
  | sub l r ihl ihr =>
      obtain ⟨g, k, hg, hk, rfl⟩ := bind₂_eq_ok_iff.mp he
      exact (ihl hg).sub (ihr hk)
  | mul l r ihl ihr =>
      obtain ⟨g, k, hg, hk, rfl⟩ := bind₂_eq_ok_iff.mp he
      exact (ihl hg).mul (ihr hk)
  | div l offset r ihl ihr =>
      obtain ⟨g, hg, hrest⟩ := bind_eq_ok_iff.mp he
      obtain ⟨k, hk, heq⟩ := bind_eq_ok_iff.mp hrest
      split at heq
      · next q hq =>
          rw [pure_eq_ok_iff] at heq
          exact heq ▸ (ihl hg).div (ihr hk) hq
      · cases heq
  | pow base offset exponent ih =>
      obtain ⟨g, hg, hrest⟩ := bind_eq_ok_iff.mp he
      split at hrest
      · rw [pure_eq_ok_iff] at hrest
        exact hrest ▸ (ih hg).pow exponent
      · cases hrest

/-- The function of an expression is built by the operations. -/
theorem built_of_toFunction {e : Expression} {f : RationalFunction} (he : e.toFunction = .ok f) :
    f.Built := built_of_exactFunction (exactFunction_of_toFunction he)

end Expression

end MarkovRegion
