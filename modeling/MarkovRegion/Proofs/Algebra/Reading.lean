import Mathlib.Algebra.MvPolynomial.Supported
import Mathlib.Data.Real.Basic
import Mathlib.RingTheory.Localization.FractionRing
import MarkovRegion.Proofs.Algebra.PolynomialRing
import MarkovRegion.Weight

/-!
# Readings of weights in a field

A `Reading` says which weights are defined and which element of a field they denote.  Arithmetic on
defined weights gives defined weights, with the values that the field gives; a division is defined
where the field has a quotient.

`RationalFunction.reading φ S` reads a rational function through a ring homomorphism `φ` from the
polynomials into a field: it is defined where `φ` does not send the denominator to zero and all
parameters belong to `S`.  The light normal form is never inspected for its shape here: what matters
is that `RationalFunction.normalize` only changes numerator and denominator by a common factor that
no homomorphism sends to zero (`RationalFunction.normalize_read`).

Two homomorphisms are of interest.  `RationalFunction.pointReading v` evaluates at a point, and is
defined exactly where `RationalFunction.evaluate` succeeds (`RationalFunction.evaluate_eq_ok_iff`).
The embedding into the field of fractions is defined wherever the denominator is not zero; there a
sum of functions can be compared with a constant without regard to poles.
-/

namespace MarkovRegion

open MvPolynomial (C supported)

/-- A reading of weights as elements of a field. -/
structure Reading (W : Type) [Weight W] (F : Type*) [Field F] where
  /-- The weights that have a value. -/
  Defined : W → Prop
  /-- The value of a weight that has one. -/
  value : W → F
  zero : Defined Weight.zero ∧ value Weight.zero = 0
  one : Defined Weight.one ∧ value Weight.one = 1
  add : ∀ {a b}, Defined a → Defined b →
    Defined (Weight.add a b) ∧ value (Weight.add a b) = value a + value b
  sub : ∀ {a b}, Defined a → Defined b →
    Defined (Weight.sub a b) ∧ value (Weight.sub a b) = value a - value b
  mul : ∀ {a b}, Defined a → Defined b →
    Defined (Weight.mul a b) ∧ value (Weight.mul a b) = value a * value b
  /-- A quotient is defined where the divisor is not zero. -/
  div : ∀ {a b}, Defined a → Defined b → value b ≠ 0 →
    ∃ q, Weight.div? a b = some q ∧ Defined q ∧ value q = value a / value b
  /-- What is seen to be zero is zero. -/
  eq_zero : ∀ {a}, Weight.isZero a = true → value a = 0

namespace RationalFunction

theorem eq_one_of_isOne {f : RationalFunction} (h : f.isOne = true) : f = one := by
  obtain ⟨hd, hn⟩ := (Bool.and_eq_true _ _).mp h
  show mk f.numerator f.denominator = _
  rw [Polynomial.isOne_iff.mp hd, Polynomial.isOne_iff.mp hn]
  rfl

section reading

variable {F : Type*} [Field F] (φ : MvPolynomial Parameter ℚ →+* F) (S : Set Parameter)

/-- A function has a value under `φ` if `φ` does not send its denominator to zero, and if all its
parameters belong to `S`. -/
def ReadDefined (f : RationalFunction) : Prop :=
  φ f.denominator.toRing ≠ 0 ∧ f.numerator.toRing ∈ supported ℚ S ∧
    f.denominator.toRing ∈ supported ℚ S

/-- The quotient of the values of numerator and denominator. -/
noncomputable def readValue (f : RationalFunction) : F :=
  φ f.numerator.toRing / φ f.denominator.toRing

variable {φ S}

theorem readDefined_ofPolynomial {f : Polynomial} (h : f.toRing ∈ supported ℚ S) :
    (ofPolynomial f).ReadDefined φ S := by
  refine ⟨?_, h, ?_⟩
  · simp [ofPolynomial]
  · simp [ofPolynomial, one_mem]

theorem readValue_ofPolynomial (f : Polynomial) : (ofPolynomial f).readValue φ = φ f.toRing := by
  simp [readValue, ofPolynomial]

theorem readValue_of_isZero {f : RationalFunction} (h : f.isZero = true) : f.readValue φ = 0 := by
  have hnum : f.numerator.toRing = 0 := Polynomial.toRing_eq_zero_iff.mpr h
  simp [readValue, hnum]

theorem C_mem_supported (c : ℚ) : (C c : MvPolynomial Parameter ℚ) ∈ supported ℚ S :=
  (supported ℚ S).algebraMap_mem c

theorem map_C_ne_zero {c : ℚ} (hc : c ≠ 0) : φ (C c) ≠ 0 := by
  intro h
  have hunit : φ (C c) * φ (C c⁻¹) = 1 := by
    rw [← map_mul, ← map_mul, mul_inv_cancel₀ hc, map_one, map_one]
  rw [h, zero_mul] at hunit
  exact zero_ne_one hunit

/-- Scaling numerator and denominator by one constant, and collapsing a constant multiple of the
denominator, change no value. -/
theorem normalizeNonconstant_read {upper lower : Polynomial} (hlow : φ lower.toRing ≠ 0)
    (hu : upper.toRing ∈ supported ℚ S) (hl : lower.toRing ∈ supported ℚ S) :
    (normalizeNonconstant upper lower).ReadDefined φ S ∧
      (normalizeNonconstant upper lower).readValue φ = φ upper.toRing / φ lower.toRing := by
  have hk : (1 / lower.lastCoefficient?.getD 1 : ℚ) ≠ 0 :=
    one_div_ne_zero lower.lastCoefficient?_getD_ne_zero
  set k : ℚ := 1 / lower.lastCoefficient?.getD 1 with hkdef
  have hφk : φ (C k) ≠ 0 := map_C_ne_zero hk
  have hden : φ (lower.scale k).toRing ≠ 0 := by
    rw [Polynomial.toRing_scale, map_mul]
    exact mul_ne_zero hlow hφk
  have hquot : φ (upper.scale k).toRing / φ (lower.scale k).toRing =
      φ upper.toRing / φ lower.toRing := by
    rw [Polynomial.toRing_scale, Polynomial.toRing_scale, map_mul, map_mul,
      mul_div_mul_right _ _ hφk]
  have hplain : (⟨upper.scale k, lower.scale k⟩ : RationalFunction).ReadDefined φ S ∧
      (⟨upper.scale k, lower.scale k⟩ : RationalFunction).readValue φ =
        φ upper.toRing / φ lower.toRing := by
    refine ⟨⟨hden, ?_, ?_⟩, hquot⟩
    · simpa using mul_mem hu (C_mem_supported k)
    · simpa using mul_mem hl (C_mem_supported k)
  unfold normalizeNonconstant
  simp only [← hkdef]
  split
  · next c _ =>
      split_ifs with hc
      · -- the numerator is `c` times the denominator
        refine ⟨readDefined_ofPolynomial (by simpa using C_mem_supported c), ?_⟩
        rw [constant, readValue_ofPolynomial, Polynomial.toRing_constant, ← hquot, ← hc,
          Polynomial.toRing_scale (lower.scale k), map_mul, mul_div_cancel_left₀ _ hden]
      · exact hplain
  · exact hplain

/-- The light normal form has the value of the quotient that it was made of. -/
theorem normalize_read {upper lower : Polynomial} (hlow : φ lower.toRing ≠ 0)
    (hu : upper.toRing ∈ supported ℚ S) (hl : lower.toRing ∈ supported ℚ S) :
    (normalize upper lower).ReadDefined φ S ∧
      (normalize upper lower).readValue φ = φ upper.toRing / φ lower.toRing := by
  unfold normalize
  split_ifs with hz
  · have hup : upper.toRing = 0 := Polynomial.toRing_eq_zero_iff.mpr hz
    refine ⟨readDefined_ofPolynomial (by simp [zero_mem]), ?_⟩
    rw [zero, readValue_ofPolynomial, hup]
    simp
  · split
    · next c hc =>
        obtain rfl := Polynomial.constantValue?_eq_some_iff.mp hc
        rw [Polynomial.toRing_constant] at hlow
        have hc0 : c ≠ 0 := by
          rintro rfl
          simp at hlow
        refine ⟨readDefined_ofPolynomial ?_, ?_⟩
        · simpa using mul_mem hu (C_mem_supported c⁻¹)
        · have hinv : φ (C (1 / c)) = 1 / φ (C c) := by
            rw [eq_div_iff hlow, ← map_mul, ← map_mul, one_div_mul_cancel hc0, map_one, map_one]
          rw [readValue_ofPolynomial, Polynomial.toRing_scale, Polynomial.toRing_constant, map_mul,
            hinv, mul_one_div]
    · exact normalizeNonconstant_read hlow hu hl

theorem add_read {f g : RationalFunction} (hf : f.ReadDefined φ S) (hg : g.ReadDefined φ S) :
    (f.add g).ReadDefined φ S ∧ (f.add g).readValue φ = f.readValue φ + g.readValue φ := by
  obtain ⟨hfd, hfn, hfs⟩ := hf
  obtain ⟨hgd, hgn, hgs⟩ := hg
  unfold add
  split_ifs with hf0 hg0 hden
  · exact ⟨⟨hgd, hgn, hgs⟩, by rw [readValue_of_isZero hf0, zero_add]⟩
  · exact ⟨⟨hfd, hfn, hfs⟩, by rw [readValue_of_isZero hg0, add_zero]⟩
  · have hsum : (f.numerator.add g.numerator).toRing ∈ supported ℚ S := by
      simpa using add_mem hfn hgn
    obtain ⟨hdef, hval⟩ := normalize_read hfd hsum hfs
    refine ⟨hdef, ?_⟩
    rw [hval, Polynomial.toRing_add, map_add, add_div, readValue, readValue, ← hden]
  · have hnum : ((f.numerator.mul g.denominator).add (g.numerator.mul f.denominator)).toRing ∈
        supported ℚ S := by
      simpa using add_mem (mul_mem hfn hgs) (mul_mem hgn hfs)
    have hlow : φ (f.denominator.mul g.denominator).toRing ≠ 0 := by
      simpa using ⟨hfd, hgd⟩
    obtain ⟨hdef, hval⟩ := normalize_read hlow hnum (by simpa using mul_mem hfs hgs)
    refine ⟨hdef, ?_⟩
    rw [hval, readValue, readValue, div_add_div _ _ hfd hgd]
    simp [mul_comm]

theorem neg_read {f : RationalFunction} (hf : f.ReadDefined φ S) :
    f.neg.ReadDefined φ S ∧ f.neg.readValue φ = -f.readValue φ := by
  obtain ⟨hfd, hfn, hfs⟩ := hf
  refine ⟨⟨hfd, by simpa [neg] using hfn, hfs⟩, ?_⟩
  simp [readValue, neg, neg_div]

theorem mul_read {f g : RationalFunction} (hf : f.ReadDefined φ S) (hg : g.ReadDefined φ S) :
    (f.mul g).ReadDefined φ S ∧ (f.mul g).readValue φ = f.readValue φ * g.readValue φ := by
  have hone : ∀ h : RationalFunction, h.isOne = true → h.readValue φ = 1 := by
    intro h h1
    rw [eq_one_of_isOne h1, one, readValue_ofPolynomial]
    simp
  obtain ⟨hfd, hfn, hfs⟩ := hf
  obtain ⟨hgd, hgn, hgs⟩ := hg
  unfold mul
  split_ifs with hzero hf1 hg1 hfg hgf
  · refine ⟨readDefined_ofPolynomial (by simp [zero_mem]), ?_⟩
    rw [zero, readValue_ofPolynomial, Polynomial.toRing_zero, map_zero]
    rcases (Bool.or_eq_true _ _).mp hzero with h | h
    · rw [readValue_of_isZero h, zero_mul]
    · rw [readValue_of_isZero h, mul_zero]
  · exact ⟨⟨hgd, hgn, hgs⟩, by rw [hone f hf1, one_mul]⟩
  · exact ⟨⟨hfd, hfn, hfs⟩, by rw [hone g hg1, mul_one]⟩
  · obtain ⟨hdef, hval⟩ := normalize_read hfd hgn hfs
    refine ⟨hdef, ?_⟩
    rw [hval, readValue, readValue, hfg, mul_comm, div_mul_div_cancel₀ hgd]
  · obtain ⟨hdef, hval⟩ := normalize_read hgd hfn hgs
    refine ⟨hdef, ?_⟩
    rw [hval, readValue, readValue, hgf, div_mul_div_cancel₀ hfd]
  · have hlow : φ (f.denominator.mul g.denominator).toRing ≠ 0 := by
      simpa using ⟨hfd, hgd⟩
    have hnum : (f.numerator.mul g.numerator).toRing ∈ supported ℚ S := by
      simpa using mul_mem hfn hgn
    obtain ⟨hdef, hval⟩ := normalize_read hlow hnum (by simpa using mul_mem hfs hgs)
    refine ⟨hdef, ?_⟩
    rw [hval, readValue, readValue, div_mul_div_comm]
    simp

theorem div_read {f g : RationalFunction} (hf : f.ReadDefined φ S) (hg : g.ReadDefined φ S)
    (h0 : g.readValue φ ≠ 0) :
    ∃ q, f.div? g = some q ∧ q.ReadDefined φ S ∧
      q.readValue φ = f.readValue φ / g.readValue φ := by
  obtain ⟨hgd, hgn, hgs⟩ := hg
  have hnum : φ g.numerator.toRing ≠ 0 := by
    intro h
    exact h0 (by rw [readValue, h, zero_div])
  have hz : g.isZero = false := by
    rw [Bool.eq_false_iff]
    exact fun h => h0 (readValue_of_isZero h)
  obtain ⟨hidef, hival⟩ := normalize_read hnum hgs hgn
  obtain ⟨hdef, hval⟩ := mul_read hf hidef
  refine ⟨_, by rw [div?, hz]; rfl, hdef, ?_⟩
  rw [hval, hival, readValue, readValue, div_div_eq_mul_div, mul_div_assoc]

variable (φ S)

/-- The reading of rational functions through a homomorphism. -/
noncomputable def reading : Reading RationalFunction F where
  Defined := ReadDefined φ S
  value := readValue φ
  zero := ⟨readDefined_ofPolynomial (by simp [zero_mem]),
    (readValue_ofPolynomial _).trans (by simp)⟩
  one := ⟨readDefined_ofPolynomial (by simp [one_mem]), (readValue_ofPolynomial _).trans (by simp)⟩
  add := add_read
  sub hf hg := by
    obtain ⟨hdef, hval⟩ := add_read hf (neg_read hg).1
    exact ⟨hdef, by rw [sub_eq_add_neg, ← (neg_read hg).2]; exact hval⟩
  mul := mul_read
  div := div_read
  eq_zero := readValue_of_isZero

end reading

end RationalFunction

/-! ## Values at points -/

/-- The parameters to which a valuation gives a value. -/
def Valuation.domain (v : Valuation) : Set Parameter := {p | (v.find? p).isSome = true}

namespace RationalFunction

/-- Evaluation at a point, in the real numbers. -/
noncomputable def evalHom (v : Valuation) : MvPolynomial Parameter ℚ →+* ℝ :=
  (Rat.castHom ℝ).comp (MvPolynomial.eval v.assignment)

theorem evalHom_apply (v : Valuation) (f : MvPolynomial Parameter ℚ) :
    evalHom v f = ((MvPolynomial.eval v.assignment f : ℚ) : ℝ) := rfl

/-- The reading of rational functions at a point. -/
noncomputable def pointReading (v : Valuation) : Reading RationalFunction ℝ :=
  reading (evalHom v) v.domain

/-- Evaluation succeeds exactly where the function is defined, with its value there. -/
theorem evaluate_eq_ok_iff {v : Valuation} {f : RationalFunction} {x : ℚ} :
    f.evaluate v = .ok x ↔ (pointReading v).Defined f ∧ (x : ℝ) = (pointReading v).value f := by
  have hdef : (pointReading v).Defined f ↔
      evalHom v f.denominator.toRing ≠ 0 ∧ (∀ p ∈ f.numerator.toRing.vars, p ∈ v.domain) ∧
        ∀ p ∈ f.denominator.toRing.vars, p ∈ v.domain := by
    show ReadDefined (evalHom v) v.domain f ↔ _
    simp only [ReadDefined, MvPolynomial.mem_supported, Set.subset_def, Finset.mem_coe]
  have hval : (pointReading v).value f =
      evalHom v f.numerator.toRing / evalHom v f.denominator.toRing := rfl
  rw [hdef, hval]
  unfold evaluate
  rcases hden : f.denominator.evaluate v with e | lower
  · have hnot : ¬ ∀ p ∈ f.denominator.toRing.vars, p ∈ v.domain := by
      intro h
      have := Polynomial.evaluate_eq_ok_iff.mpr ⟨h, rfl⟩
      rw [hden] at this
      cases this
    simp [bind, Except.bind, hnot]
  · obtain ⟨hdvars, rfl⟩ := Polynomial.evaluate_eq_ok_iff.mp hden
    by_cases h0 : MvPolynomial.eval v.assignment f.denominator.toRing = 0
    · simp [bind, Except.bind, h0, evalHom_apply, throw, throwThe, MonadExceptOf.throw]
    · rcases hnum : f.numerator.evaluate v with e | upper
      · have hnot : ¬ ∀ p ∈ f.numerator.toRing.vars, p ∈ v.domain := by
          intro h
          have := Polynomial.evaluate_eq_ok_iff.mpr ⟨h, rfl⟩
          rw [hnum] at this
          cases this
        simp [bind, Except.bind, h0, hnot]
      · obtain ⟨hnvars, rfl⟩ := Polynomial.evaluate_eq_ok_iff.mp hnum
        have hne : evalHom v f.denominator.toRing ≠ 0 := by
          rw [evalHom_apply]
          exact_mod_cast h0
        rw [and_iff_right ⟨hne, hnvars, hdvars⟩, evalHom_apply, evalHom_apply, ← Rat.cast_div,
          Rat.cast_inj]
        simp [bind, Except.bind, pure, Except.pure, h0, eq_comm]

theorem mem_parameters {f : RationalFunction} {p : Parameter} :
    p ∈ f.parameters ↔ p ∈ f.numerator.toRing.vars ∨ p ∈ f.denominator.toRing.vars := by
  rw [parameters, mem_orderedKeys, List.mem_append, Polynomial.mem_parameters,
    Polynomial.mem_parameters]

theorem evalHom_congr {v w : Valuation} {f : MvPolynomial Parameter ℚ}
    (h : ∀ p ∈ f.vars, w.find? p = v.find? p) : evalHom w f = evalHom v f := by
  refine MvPolynomial.hom_congr_vars (RingHom.ext fun q => ?_) (fun p hp _ => ?_) rfl
  · rw [RingHom.comp_apply, RingHom.comp_apply, evalHom_apply, evalHom_apply,
      MvPolynomial.eval_C, MvPolynomial.eval_C]
  · rw [evalHom_apply, evalHom_apply, MvPolynomial.eval_X, MvPolynomial.eval_X,
      Valuation.assignment, Valuation.assignment, h p hp]

/-- The value of a function depends on the values of its parameters only. -/
theorem read_congr {v w : Valuation} {f : RationalFunction}
    (h : ∀ p ∈ f.parameters, w.find? p = v.find? p) (hf : (pointReading v).Defined f) :
    (pointReading w).Defined f ∧ (pointReading w).value f = (pointReading v).value f := by
  obtain ⟨hne, hnum, hden⟩ := hf
  have hn := fun p hp => h p (mem_parameters.mpr (Or.inl hp))
  have hd := fun p hp => h p (mem_parameters.mpr (Or.inr hp))
  have hcovers : ∀ g : MvPolynomial Parameter ℚ, g ∈ MvPolynomial.supported ℚ v.domain →
      (∀ p ∈ g.vars, w.find? p = v.find? p) → g ∈ MvPolynomial.supported ℚ w.domain := by
    intro g hg hvars
    rw [MvPolynomial.mem_supported] at hg ⊢
    intro p hp
    have hmem : p ∈ v.domain := hg hp
    show (w.find? p).isSome = true
    rw [hvars p hp]
    exact hmem
  refine ⟨⟨evalHom_congr hd ▸ hne, hcovers _ hnum hn, hcovers _ hden hd⟩, ?_⟩
  show evalHom w _ / evalHom w _ = evalHom v _ / evalHom v _
  rw [evalHom_congr hn, evalHom_congr hd]

/-- A function that is defined at a point evaluates there. -/
theorem exists_evaluate_eq_ok {v : Valuation} {f : RationalFunction}
    (h : (pointReading v).Defined f) :
    ∃ x : ℚ, f.evaluate v = .ok x ∧ (x : ℝ) = (pointReading v).value f := by
  have hval : (pointReading v).value f = ((MvPolynomial.eval v.assignment f.numerator.toRing /
      MvPolynomial.eval v.assignment f.denominator.toRing : ℚ) : ℝ) := by
    rw [Rat.cast_div]
    rfl
  exact ⟨_, evaluate_eq_ok_iff.mpr ⟨h, hval.symm⟩, hval.symm⟩

theorem constant_read (v : Valuation) (q : ℚ) :
    (pointReading v).Defined (constant q) ∧ (pointReading v).value (constant q) = q :=
  ⟨readDefined_ofPolynomial (by simp [C_mem_supported]),
    (readValue_ofPolynomial _).trans (by simp [evalHom_apply])⟩

theorem value_of_constantValue? {v : Valuation} {f : RationalFunction} {q : ℚ}
    (h : f.constantValue? = some q) : (pointReading v).value f = q := by
  unfold constantValue? at h
  split at h
  · next hden =>
      show evalHom v f.numerator.toRing / evalHom v f.denominator.toRing = q
      rw [Polynomial.isOne_iff.mp hden, Polynomial.constantValue?_eq_some_iff.mp h]
      simp [evalHom_apply]
  · cases h

/-! ## Values in the field of fractions -/

/-- The reading of rational functions in the field of fractions. -/
noncomputable def fractionReading :
    Reading RationalFunction (FractionRing (MvPolynomial Parameter ℚ)) :=
  reading (algebraMap _ _) Set.univ

/-- The reading in the field of fractions of the functions whose parameters belong to a set. -/
noncomputable def fractionReadingOn (S : Set Parameter) :
    Reading RationalFunction (FractionRing (MvPolynomial Parameter ℚ)) :=
  reading (algebraMap _ _) S

theorem fractionReading_defined_iff {f : RationalFunction} :
    fractionReading.Defined f ↔ f.denominator.toRing ≠ 0 := by
  show ReadDefined _ _ f ↔ _
  simp [ReadDefined]

theorem isZero_of_fraction {f : RationalFunction} (hf : fractionReading.Defined f)
    (h0 : fractionReading.value f = 0) : f.isZero = true := by
  have hinj := IsFractionRing.injective (MvPolynomial Parameter ℚ)
    (FractionRing (MvPolynomial Parameter ℚ))
  rcases div_eq_zero_iff.mp h0 with hnum | hden
  · exact Polynomial.toRing_eq_zero_iff.mp ((map_eq_zero_iff _ hinj).mp hnum)
  · exact absurd ((map_eq_zero_iff _ hinj).mp hden) (fractionReading_defined_iff.mp hf)

/-- A function that is one in the field of fractions is one wherever it is defined. -/
theorem value_eq_one_of_fraction {f : RationalFunction} (hf : fractionReading.Defined f)
    (h1 : fractionReading.value f = 1) {v : Valuation} (hv : (pointReading v).Defined f) :
    (pointReading v).value f = 1 := by
  have hd := fractionReading_defined_iff.mp hf
  have hinj := IsFractionRing.injective (MvPolynomial Parameter ℚ)
    (FractionRing (MvPolynomial Parameter ℚ))
  have hne : algebraMap (MvPolynomial Parameter ℚ) (FractionRing (MvPolynomial Parameter ℚ))
      f.denominator.toRing ≠ 0 := by
    rwa [Ne, map_eq_zero_iff _ hinj]
  have heq : f.numerator.toRing = f.denominator.toRing := hinj ((div_eq_one_iff_eq hne).mp h1)
  show evalHom v f.numerator.toRing / evalHom v f.denominator.toRing = 1
  rw [heq]
  exact div_self hv.1

end RationalFunction

end MarkovRegion
