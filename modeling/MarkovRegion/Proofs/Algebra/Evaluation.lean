import Mathlib.Algebra.CharZero.Infinite
import Mathlib.Algebra.MvPolynomial.Funext
import MarkovRegion.Proofs.Algebra.NormalForm

/-!
# Functions and their values

The values of functions at points follow the arithmetic of functions: where two functions have
values, their sum, difference and product have the sum, difference and product of the values, and
their quotient has the quotient if the divisor is not zero there (`evaluate_arithmetic`).

Conversely the values determine what a function is.  A polynomial that is not zero is not zero at
some point, so an identity that holds outside the zeros of such a polynomial holds of the
polynomials themselves (`RationalFunction.numerator_eq_scale`).  In light normal form this means
that a function whose values are all the same is a constant, as data
(`RationalFunction.isIdentically_iff`).  No greatest common divisors are needed for that: the form
has one way only to write a constant.
-/

namespace MarkovRegion

open MvPolynomial (eval)

/-! ## Points -/

section Points

variable {a : Parameter → ℚ} {parameters : List Parameter}

/-- The point that an assignment gives to some parameters. -/
def Valuation.ofAssignment (a : Parameter → ℚ) (parameters : List Parameter) : Valuation :=
  .ofList ((orderedKeys parameters).map fun p => (p, a p))

theorem Valuation.find?_ofAssignment {p : Parameter} {q : ℚ} :
    (ofAssignment a parameters).find? p = some q ↔ p ∈ parameters ∧ a p = q := by
  have hkeys : (((orderedKeys parameters).map fun p => (p, a p)).map Prod.fst).Nodup := by
    rw [List.map_map]
    exact (List.map_id' (orderedKeys parameters)).symm ▸ nodup_orderedKeys parameters
  rw [ofAssignment, OrderedMap.find?_ofList hkeys]
  simp [mem_orderedKeys]

theorem Valuation.mem_domain_ofAssignment {p : Parameter} (hp : p ∈ parameters) :
    p ∈ (ofAssignment a parameters).domain :=
  Option.isSome_iff_exists.mpr ⟨_, find?_ofAssignment.mpr ⟨hp, rfl⟩⟩

theorem Polynomial.evaluate_ofAssignment {f : Polynomial} (h : ∀ p ∈ f.parameters, p ∈ parameters) :
    f.evaluate (.ofAssignment a parameters) = .ok (eval a f.toRing) := by
  have hvars := fun p hp => h p (mem_parameters.mpr hp)
  refine evaluate_eq_ok_iff.mpr ⟨fun p hp => Valuation.mem_domain_ofAssignment (hvars p hp), ?_⟩
  refine MvPolynomial.hom_congr_vars (RingHom.ext fun q => ?_) (fun p hp _ => ?_) rfl
  · simp
  · rw [MvPolynomial.eval_X, MvPolynomial.eval_X, Valuation.assignment,
      Valuation.find?_ofAssignment.mpr ⟨hvars p hp, rfl⟩, Option.getD_some]

variable {f : RationalFunction} (h : ∀ p ∈ f.parameters, p ∈ parameters)
include h

theorem RationalFunction.evaluate_denominator_ofAssignment :
    f.denominator.evaluate (.ofAssignment a parameters) = .ok (eval a f.denominator.toRing) :=
  Polynomial.evaluate_ofAssignment fun p hp =>
    h p (mem_parameters.mpr (Or.inr (Polynomial.mem_parameters.mp hp)))

theorem RationalFunction.evaluate_ofAssignment (h0 : eval a f.denominator.toRing ≠ 0) :
    f.evaluate (.ofAssignment a parameters) =
      .ok (eval a f.numerator.toRing / eval a f.denominator.toRing) := by
  rw [evaluate, evaluate_denominator_ofAssignment h, Polynomial.evaluate_ofAssignment fun p hp =>
    h p (mem_parameters.mpr (Or.inl (Polynomial.mem_parameters.mp hp)))]
  simp [bind, Except.bind, pure, Except.pure, h0]

end Points

namespace RationalFunction

variable {f g h : RationalFunction} {v : Valuation} {x y c : ℚ}

/-! ## Arithmetic -/

section Arithmetic

theorem evaluate_neg (hf : f.evaluate v = .ok x) : f.neg.evaluate v = .ok (-x) := by
  obtain ⟨hdf, hx⟩ := evaluate_eq_ok_iff.mp hf
  obtain ⟨hdef, hval⟩ := neg_read hdf
  exact evaluate_eq_ok_iff.mpr ⟨hdef, by rw [Rat.cast_neg, hx]; exact hval.symm⟩

variable (hf : f.evaluate v = .ok x) (hg : g.evaluate v = .ok y)
include hf hg

theorem evaluate_add : (f.add g).evaluate v = .ok (x + y) := by
  obtain ⟨hdf, hx⟩ := evaluate_eq_ok_iff.mp hf
  obtain ⟨hdg, hy⟩ := evaluate_eq_ok_iff.mp hg
  obtain ⟨hdef, hval⟩ := (pointReading v).add hdf hdg
  exact evaluate_eq_ok_iff.mpr ⟨hdef, by rw [Rat.cast_add, hx, hy]; exact hval.symm⟩

theorem evaluate_sub : (f.sub g).evaluate v = .ok (x - y) :=
  sub_eq_add_neg x y ▸ evaluate_add hf (evaluate_neg hg)

theorem evaluate_mul : (f.mul g).evaluate v = .ok (x * y) := by
  obtain ⟨hdf, hx⟩ := evaluate_eq_ok_iff.mp hf
  obtain ⟨hdg, hy⟩ := evaluate_eq_ok_iff.mp hg
  obtain ⟨hdef, hval⟩ := (pointReading v).mul hdf hdg
  exact evaluate_eq_ok_iff.mpr ⟨hdef, by rw [Rat.cast_mul, hx, hy]; exact hval.symm⟩

theorem evaluate_div (h0 : y ≠ 0) : ∃ h, f.div? g = some h ∧ h.evaluate v = .ok (x / y) := by
  obtain ⟨hdf, hx⟩ := evaluate_eq_ok_iff.mp hf
  obtain ⟨hdg, hy⟩ := evaluate_eq_ok_iff.mp hg
  have hne : (pointReading v).value g ≠ 0 := hy ▸ Rat.cast_ne_zero.mpr h0
  obtain ⟨h, hdiv, hdef, hval⟩ := (pointReading v).div hdf hdg hne
  exact ⟨h, hdiv, evaluate_eq_ok_iff.mpr ⟨hdef, by rw [Rat.cast_div, hx, hy, hval]⟩⟩

end Arithmetic

/-! ## Parameters -/

section Parameters

variable {S : Set Parameter}

/-- Which parameters occur is what the field of fractions reads of a function. -/
theorem readDefined_fraction_iff :
    f.ReadDefined (algebraMap _ (FractionRing (MvPolynomial Parameter ℚ))) S ↔
      f.denominator ≠ .zero ∧ ∀ p ∈ f.parameters, p ∈ S := by
  have hinj := IsFractionRing.injective (MvPolynomial Parameter ℚ)
    (FractionRing (MvPolynomial Parameter ℚ))
  rw [ReadDefined, Ne, map_eq_zero_iff _ hinj, Polynomial.toRing_eq_zero_iff,
    Polynomial.isZero_iff, MvPolynomial.mem_supported, MvPolynomial.mem_supported]
  refine and_congr_right fun _ => ?_
  constructor
  · intro h p hp
    rcases mem_parameters.mp hp with hnum | hden
    · exact h.1 hnum
    · exact h.2 hden
  · intro hS
    exact ⟨fun p hp => hS p (mem_parameters.mpr (Or.inl hp)),
      fun p hp => hS p (mem_parameters.mpr (Or.inr hp))⟩

theorem readValue_fraction_ne_zero (hg : g.denominator ≠ .zero) (h0 : g.isZero = false) :
    g.readValue (algebraMap _ (FractionRing (MvPolynomial Parameter ℚ))) ≠ 0 := by
  have hinj := IsFractionRing.injective (MvPolynomial Parameter ℚ)
    (FractionRing (MvPolynomial Parameter ℚ))
  refine div_ne_zero ?_ ?_
  · rw [Ne, map_eq_zero_iff _ hinj, Polynomial.toRing_eq_zero_iff]
    exact Bool.eq_false_iff.mp h0
  · rwa [Ne, map_eq_zero_iff _ hinj, Polynomial.toRing_eq_zero_iff, Polynomial.isZero_iff]

/-- An operation on two functions makes no parameter occur that occurs in neither. -/
theorem mem_parameters_of_arithmetic (hf : f.denominator ≠ .zero) (hg : g.denominator ≠ .zero)
    (hmem : h ∈ f.add g :: f.sub g :: f.mul g :: (f.div? g).toList) :
    ∀ p ∈ h.parameters, p ∈ f.parameters ∨ p ∈ g.parameters := by
  have hf' := readDefined_fraction_iff (S := {p | p ∈ f.parameters ∨ p ∈ g.parameters}).mpr
    ⟨hf, fun p hp => Or.inl hp⟩
  have hg' := readDefined_fraction_iff (S := {p | p ∈ f.parameters ∨ p ∈ g.parameters}).mpr
    ⟨hg, fun p hp => Or.inr hp⟩
  refine (readDefined_fraction_iff (S := {p | p ∈ f.parameters ∨ p ∈ g.parameters}).mp ?_).2
  simp only [List.mem_cons, Option.mem_toList] at hmem
  rcases hmem with rfl | rfl | rfl | hdiv
  · exact (add_read hf' hg').1
  · exact (add_read hf' (neg_read hg').1).1
  · exact (mul_read hf' hg').1
  · have h0 : g.isZero = false := by
      rw [Bool.eq_false_iff]
      intro hzero
      rw [div?, if_pos hzero] at hdiv
      cases hdiv
    obtain ⟨q, hq, hdef, -⟩ := div_read hf' hg' (readValue_fraction_ne_zero hg h0)
    exact Option.some.inj (hdiv.symm.trans hq) ▸ hdef

theorem mem_parameters_neg {p : Parameter} (hp : p ∈ f.neg.parameters) : p ∈ f.parameters := by
  rw [mem_parameters] at hp ⊢
  simpa [neg] using hp

end Parameters

/-! ## Identities -/

/-- A numerator that is a multiple of the denominator at all points outside the zeros of some
polynomial is this multiple. -/
theorem numerator_eq_scale {P : MvPolynomial Parameter ℚ} (hP : P ≠ 0)
    (h : ∀ a, eval a P ≠ 0 → eval a f.numerator.toRing = c * eval a f.denominator.toRing) :
    f.numerator = f.denominator.scale c := by
  have hprod : (f.numerator.toRing - f.denominator.toRing * MvPolynomial.C c) * P = 0 := by
    refine MvPolynomial.funext fun a => ?_
    rw [map_mul, map_zero, map_sub, map_mul, MvPolynomial.eval_C]
    by_cases ha : eval a P = 0
    · rw [ha, mul_zero]
    · rw [h a ha, mul_comm c, sub_self, zero_mul]
  apply Polynomial.toRing_injective
  rw [Polynomial.toRing_scale]
  exact sub_eq_zero.mp ((mul_eq_zero.mp hprod).resolve_right hP)

/-- In normal form, a multiple of the denominator over the denominator is a constant. -/
theorem Normal.eq_constant (hf : f.Normal) (h : f.numerator = f.denominator.scale c) :
    f = constant c := by
  cases hf with
  | polynomial f =>
      have hconst : f = .constant c := by
        apply Polynomial.toRing_injective
        rw [show f = Polynomial.one.scale c from h]
        simp
      rw [hconst]
      rfl
  | quotient _ _ hupper => exact absurd h (hupper c)

/-- A function that has the value `c` at all points outside the zeros of some polynomial is this
constant. -/
theorem Normal.eq_constant_of_points (hf : f.Normal) {P : MvPolynomial Parameter ℚ} (hP : P ≠ 0)
    (parameters : List Parameter) (hparameters : ∀ p ∈ f.parameters, p ∈ parameters)
    (h : ∀ a, eval a P ≠ 0 → f.evaluate (.ofAssignment a parameters) = .ok c) :
    f = constant c := by
  refine hf.eq_constant (numerator_eq_scale hP fun a ha => ?_)
  have hvalue := h a ha
  by_cases h0 : eval a f.denominator.toRing = 0
  · rw [evaluate, evaluate_denominator_ofAssignment hparameters, h0] at hvalue
    cases hvalue
  · rw [evaluate_ofAssignment hparameters h0, Except.ok.injEq] at hvalue
    exact (div_eq_iff h0).mp hvalue

theorem evaluate_constant (v : Valuation) (c : ℚ) : (constant c).evaluate v = .ok c :=
  evaluate_eq_ok_iff.mpr ⟨(constant_read v c).1, (constant_read v c).2.symm⟩

theorem constantValue?_eq_some_iff : f.constantValue? = some c ↔ f = constant c := by
  constructor
  · intro h
    unfold constantValue? at h
    split_ifs at h with hden
    show mk f.numerator f.denominator = _
    rw [Polynomial.isOne_iff.mp hden, Polynomial.constantValue?_eq_some_iff.mp h]
    rfl
  · rintro rfl
    exact Polynomial.constantValue?_eq_some_iff.mpr rfl

theorem isOne_iff : f.isOne = true ↔ f = constant 1 := by
  refine ⟨eq_one_of_isOne, ?_⟩
  rintro rfl
  decide

theorem Normal.isZero_iff (hf : f.Normal) : f.isZero = true ↔ f = constant 0 := by
  constructor
  · intro h
    have hscale : f.denominator.scale 0 = .zero := dif_pos rfl
    exact hf.eq_constant ((Polynomial.isZero_iff.mp h).trans hscale.symm)
  · rintro rfl
    rfl

/-- The zero function has no other value than zero. -/
theorem Normal.isZero_iff_values (hf : f.Normal) :
    f.isZero = true ↔ ∀ v x, f.evaluate v = .ok x → x = 0 := by
  rw [hf.isZero_iff]
  constructor
  · rintro rfl v x hx
    rw [evaluate_constant, Except.ok.injEq] at hx
    exact hx.symm
  · intro h
    refine hf.eq_constant_of_points hf.toRing_denominator_ne_zero _ (fun _ hp => hp)
      fun a ha => ?_
    have hvalue := evaluate_ofAssignment (fun _ hp => hp) ha
    rw [hvalue, h _ _ hvalue]

/-- Evaluation follows the arithmetic of functions.  Where two functions have values, so do their
sum, difference, product and, unless the divisor is zero there, their quotient.  Only the zero
function cannot be divided by.  No parameter occurs in a result that does not occur in an
argument. -/
theorem evaluate_arithmetic {f g : RationalFunction} (hf : f.Built) (hg : g.Built) :
    (∀ v x y, f.evaluate v = .ok x → g.evaluate v = .ok y →
      (f.add g).evaluate v = .ok (x + y) ∧ (f.sub g).evaluate v = .ok (x - y) ∧
      (f.mul g).evaluate v = .ok (x * y) ∧ f.neg.evaluate v = .ok (-x) ∧
      (y ≠ 0 → ∃ h, f.div? g = some h ∧ h.evaluate v = .ok (x / y))) ∧
    (f.div? g = none ↔ ∀ v y, g.evaluate v = .ok y → y = 0) ∧
    (∀ h ∈ f.add g :: f.sub g :: f.mul g :: (f.div? g).toList, ∀ p ∈ h.parameters,
      p ∈ f.parameters ∨ p ∈ g.parameters) ∧
    ∀ p ∈ f.neg.parameters, p ∈ f.parameters := by
  refine ⟨fun v x y hx hy => ?_, ?_, fun h hmem => ?_, fun p hp => mem_parameters_neg hp⟩
  · exact ⟨evaluate_add hx hy, evaluate_sub hx hy, evaluate_mul hx hy, evaluate_neg hx,
      evaluate_div hx hy⟩
  · rw [← hg.normal.isZero_iff_values, div?]
    simp
  · exact mem_parameters_of_arithmetic hf.normal.denominator_ne_zero hg.normal.denominator_ne_zero
      hmem

/-- The odds of winning. -/
def odds : Parameter := ⟨"odds", by decide⟩

/-- The chance of winning, of its odds: `odds / (odds + 1)`. -/
def oddsChance : RationalFunction :=
  ⟨.ofParameter odds, (Polynomial.ofParameter odds).add .one⟩

/-- Its inverse. -/
def oddsInverse : RationalFunction := ⟨oddsChance.denominator, oddsChance.numerator⟩

theorem built_odds : oddsChance.Built ∧ oddsInverse.Built := by
  constructor
  · exact .ofQuotient
      (show ofQuotient oddsChance.numerator oddsChance.denominator = _ by decide +kernel)
  · exact .ofQuotient
      (show ofQuotient oddsInverse.numerator oddsInverse.denominator = _ by decide +kernel)

/-- At odds of one half, the chance and its inverse add up, cancel in their product without a
common divisor being computed, and have a quotient in the same parameter. -/
theorem evaluate_arithmetic_odds :
    let v : Valuation := .ofList [(odds, 1 / 2)]
    (oddsChance.Built ∧ oddsInverse.Built) ∧
    (oddsChance.evaluate v = .ok (1 / 3) ∧ oddsInverse.evaluate v = .ok 3) ∧
    (oddsChance.add oddsInverse).evaluate v = .ok (1 / 3 + 3) ∧
    (oddsChance.mul oddsInverse).evaluate v = .ok (1 / 3 * 3) ∧ oddsChance.mul oddsInverse = one ∧
    ∃ h, oddsChance.div? oddsInverse = some h ∧ h.evaluate v = .ok (1 / 3 / 3) ∧
      ∀ p ∈ h.parameters, p = odds := by
  intro v
  have hx : oddsChance.evaluate v = .ok (1 / 3) := by decide +kernel
  have hy : oddsInverse.evaluate v = .ok 3 := by decide +kernel
  obtain ⟨hvalues, -, hparameters, -⟩ := evaluate_arithmetic built_odds.1 built_odds.2
  obtain ⟨hadd, -, hmul, -, hdiv⟩ := hvalues v _ _ hx hy
  obtain ⟨h, hh, hvalue⟩ := hdiv (by norm_num)
  refine ⟨built_odds, ⟨hx, hy⟩, hadd, hmul, by decide +kernel, h, hh, hvalue,
    fun p hp => ?_⟩
  have hsame : oddsChance.parameters = [odds] ∧ oddsInverse.parameters = [odds] := by
    decide +kernel
  have hmem := hparameters h (by simp [hh]) p hp
  rw [hsame.1, hsame.2, or_self] at hmem
  exact List.mem_singleton.mp hmem

end RationalFunction

end MarkovRegion
