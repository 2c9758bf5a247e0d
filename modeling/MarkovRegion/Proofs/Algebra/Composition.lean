import MarkovRegion.Proofs.Algebra.NormalForm

/-!
# Compositions of the operations divide by no zero

A `RationalFunction.Composition` says how a function is computed by the operations.  Beside its
outcome (`Composition.build`) stands a stricter run (`Composition.run`), in which each normalization
is done by a given normalizer that may fail:

* `addVia`, `mulVia`, `divVia` and `quotientVia` have the steps of the operations, with the given
  normalizer for `normalize`; they agree with them wherever the two normalizers agree on the lower
  polynomials that are met (`addVia_eq`, `mulVia_eq`, `divVia_eq`).
* `strictNormalize` fails if the lower polynomial is zero or one of its divisions is by zero.

The function of a text is computed with checked exponents; so is its stricter run, which stops where
that computation does (`Strict.guarded`).

Functions that are built have a denominator other than zero, and so has a product of two such
denominators: there are no zero divisors, though nothing is known about the last term of a product.
So every composition runs through with every normalizer that fails at most for a zero denominator
(`Composition.run_eq`).
-/

namespace MarkovRegion

namespace Polynomial

variable {f g : Polynomial}

/-- There are no zero divisors. -/
theorem mul_ne_zero (hf : f ≠ zero) (hg : g ≠ zero) : f.mul g ≠ zero := by
  simp only [Ne, ← isZero_iff, ← toRing_eq_zero_iff, toRing_mul, mul_eq_zero, not_or] at hf hg ⊢
  exact ⟨hf, hg⟩

theorem scale_one (f : Polynomial) : f.scale 1 = f := by
  apply toRing_injective
  rw [toRing_scale, map_one, mul_one]

theorem scale_zero (f : Polynomial) : f.scale 0 = zero := dif_pos rfl

end Polynomial

namespace RationalFunction

/-! ## Functions in normal form -/

namespace Normal

variable {f : RationalFunction}

theorem denominator_cases (h : f.Normal) : f.denominator = .one ∨
    f.denominator.isConstant = false ∧ f.denominator.lastCoefficient? = some 1 := by
  cases h with
  | polynomial => exact .inl rfl
  | quotient hlower hlast => exact .inr ⟨hlower, hlast⟩

theorem numerator_ne_scale (h : f.Normal) (hlower : f.denominator.isConstant = false) (c : ℚ) :
    f.numerator ≠ f.denominator.scale c := by
  cases h with
  | polynomial => cases hlower
  | quotient _ _ hupper => exact hupper c

theorem denominator_eq_one (h : f.Normal) (hzero : f.numerator = .zero) :
    f.denominator = .one := by
  rcases h.denominator_cases with hone | ⟨hlower, -⟩
  · exact hone
  · refine absurd ?_ (h.numerator_ne_scale hlower 0)
    rw [hzero, Polynomial.scale_zero]

/-- What is in normal form is not changed by normalizing it. -/
theorem normalize_eq (h : f.Normal) : normalize f.numerator f.denominator = f := by
  cases h with
  | polynomial f =>
      have hone : Polynomial.one.constantValue? = some 1 := by decide
      simp only [ofPolynomial, normalize, hone, one_div_one, Polynomial.scale_one]
      split_ifs with hzero
      · rw [Polynomial.isZero_iff.mp hzero]
        rfl
      · rfl
  | @quotient upper lower hlower hlast hupper =>
      have hzero : ¬ upper.isZero = true := by
        rw [Polynomial.isZero_iff, ← lower.scale_zero]
        exact hupper 0
      rw [normalize, if_neg hzero, Polynomial.isConstant_eq_false_iff.mp hlower]
      simp only [normalizeNonconstant, hlast, Option.getD_some, one_div_one, Polynomial.scale_one]
      split
      · next k _ => rw [if_neg (hupper k).symm]
      · rfl

end Normal

/-! ## Normalizers that may fail -/

/-- A way to normalize a quotient, which may fail. -/
abbrev Normalizer := Polynomial → Polynomial → Option RationalFunction

/-- The normalizer gives the normal form of all quotients over a polynomial. -/
def Normalizer.AgreesAt (norm : Normalizer) (lower : Polynomial) : Prop :=
  ∀ upper, norm upper lower = some (normalize upper lower)

/-- The normalizer fails at most for a zero denominator, and is right otherwise. -/
def Normalizer.Faithful (norm : Normalizer) : Prop :=
  ∀ lower ≠ Polynomial.zero, norm.AgreesAt lower

/-- The reciprocal of a number that has one. -/
def reciprocal? (c : ℚ) : Option ℚ := if c = 0 then none else some (1 / c)

/-- The light normal form, with the denominator and all divisions checked. -/
def strictNormalize : Normalizer := fun upper lower =>
  if lower.isZero then none
  else if upper.isZero then some zero
  else
    match lower.constantValue? with
    | some c => do return ofPolynomial (upper.scale (← reciprocal? c))
    | none => do
        let inverse ← reciprocal? (lower.lastCoefficient?.getD 1)
        let f := upper.scale inverse
        let g := lower.scale inverse
        match f.lastCoefficient? with
        | some k => return if g.scale k = f then constant k else ⟨f, g⟩
        | none => return ⟨f, g⟩

theorem reciprocal?_eq {c : ℚ} (hc : c ≠ 0) : reciprocal? c = some (1 / c) := if_neg hc

/-- Over a polynomial other than zero no check fails. -/
theorem faithful_strictNormalize : strictNormalize.Faithful := by
  intro lower hlower upper
  have hzero : ¬ lower.isZero = true := fun h => hlower (Polynomial.isZero_iff.mp h)
  rw [strictNormalize, if_neg hzero, normalize]
  split_ifs
  · rfl
  · cases hconstant : lower.constantValue? with
    | some c =>
        have hc : c ≠ 0 := by
          rintro rfl
          exact hlower ((Polynomial.constantValue?_eq_some_iff.mp hconstant).trans (by decide))
        simp only [reciprocal?_eq hc]
        rfl
    | none =>
        simp only [reciprocal?_eq lower.lastCoefficient?_getD_ne_zero, normalizeNonconstant,
          Option.bind_eq_bind, Option.bind_some]
        cases (upper.scale (1 / lower.lastCoefficient?.getD 1)).lastCoefficient? with
        | some k => rfl
        | none => rfl

/-! ## The operations with a given normalizer -/

/-- The sum of two functions. -/
def addVia (norm : Normalizer) (f g : RationalFunction) : Option RationalFunction :=
  if f.isZero then some g
  else if g.isZero then some f
  else if f.denominator = g.denominator then norm (f.numerator.add g.numerator) f.denominator
  else
    norm ((f.numerator.mul g.denominator).add (g.numerator.mul f.denominator))
      (f.denominator.mul g.denominator)

/-- The product of two functions. -/
def mulVia (norm : Normalizer) (f g : RationalFunction) : Option RationalFunction :=
  if f.isZero || g.isZero then some zero
  else if f.isOne then some g
  else if g.isOne then some f
  else if f.numerator = g.denominator then norm g.numerator f.denominator
  else if g.numerator = f.denominator then norm f.numerator g.denominator
  else norm (f.numerator.mul g.numerator) (f.denominator.mul g.denominator)

/-- The quotient of two functions, unless the second is zero. -/
def divVia (norm : Normalizer) (f g : RationalFunction) : Option (Option RationalFunction) :=
  if g.isZero then some none
  else do return some (← mulVia norm f (← norm g.denominator g.numerator))

/-- A power of a function. -/
def powVia (norm : Normalizer) (f : RationalFunction) : Nat → Option RationalFunction
  | 0 => some one
  | n + 1 => do mulVia norm (← powVia norm f n) f

section Operations

variable {norm : Normalizer} {f g : RationalFunction}

theorem addVia_eq (hshared : norm.AgreesAt f.denominator)
    (hproduct : norm.AgreesAt (f.denominator.mul g.denominator)) :
    addVia norm f g = some (f.add g) := by
  unfold addVia add
  split_ifs
  · rfl
  · rfl
  · exact hshared _
  · exact hproduct _

theorem mulVia_eq (hf : norm.AgreesAt f.denominator) (hg : norm.AgreesAt g.denominator)
    (hproduct : norm.AgreesAt (f.denominator.mul g.denominator)) :
    mulVia norm f g = some (f.mul g) := by
  unfold mulVia mul
  split_ifs
  · rfl
  · rfl
  · rfl
  · exact hf _
  · exact hg _
  · exact hproduct _

/-- A division normalizes the reciprocal of the second function, and then a product. -/
theorem divVia_eq (hg : g.isZero = false → norm.AgreesAt g.numerator)
    (hmul : mulVia norm f (normalize g.denominator g.numerator) =
      some (f.mul (normalize g.denominator g.numerator))) :
    divVia norm f g = some (f.div? g) := by
  unfold divVia div?
  split_ifs with hzero
  · rfl
  · rw [hg (Bool.eq_false_iff.mpr hzero), Option.bind_eq_bind, Option.bind_some, hmul]
    rfl

variable (hnorm : norm.Faithful)
include hnorm

theorem Normal.addVia_eq (hf : f.Normal) (hg : g.Normal) : addVia norm f g = some (f.add g) :=
  RationalFunction.addVia_eq (hnorm _ hf.denominator_ne_zero)
    (hnorm _ (Polynomial.mul_ne_zero hf.denominator_ne_zero hg.denominator_ne_zero))

theorem Normal.mulVia_eq (hf : f.Normal) (hg : g.Normal) : mulVia norm f g = some (f.mul g) :=
  RationalFunction.mulVia_eq (hnorm _ hf.denominator_ne_zero) (hnorm _ hg.denominator_ne_zero)
    (hnorm _ (Polynomial.mul_ne_zero hf.denominator_ne_zero hg.denominator_ne_zero))

theorem Normal.divVia_eq (hf : f.Normal) : divVia norm f g = some (f.div? g) := by
  refine RationalFunction.divVia_eq (fun hzero => hnorm _ fun h => ?_)
    (hf.mulVia_eq hnorm (normal_normalize _ _))
  rw [isZero, Polynomial.isZero_iff.mpr h] at hzero
  cases hzero

theorem Built.powVia_eq (hf : f.Built) (n : Nat) : powVia norm f n = some (f.pow n) := by
  induction n with
  | zero => rfl
  | succ n ih =>
      rw [powVia, ih]
      exact (hf.pow n).normal.mulVia_eq hnorm hf.normal

end Operations

/-! ## Refusals and failures -/

/-- Computations that stop if a normalization fails.  That an operation is refused is no failure,
but an error like any other. -/
abbrev Strict (α : Type) := ExceptT ModelError Option α

namespace Strict

variable {α β γ : Type} {x : Except ModelError α} {y : Except ModelError β}

/-- No normalization fails, and this is the outcome. -/
def outcome (x : Except ModelError α) : Strict α := ExceptT.mk (some x)

theorem bind_outcome {step : α → Strict γ} {next : α → Except ModelError γ}
    (h : ∀ a, x = .ok a → step a = outcome (next a)) :
    outcome x >>= step = outcome (x >>= next) := by
  cases x with
  | error e => rfl
  | ok a => exact h a rfl

theorem bind₂_outcome {step : α → β → Strict γ} {next : α → β → Except ModelError γ}
    (h : ∀ a b, x = .ok a → y = .ok b → step a b = outcome (next a b)) :
    (outcome x >>= fun a => outcome y >>= step a) = outcome (x >>= fun a => y >>= next a) :=
  bind_outcome fun a ha => bind_outcome fun b hb => h a b ha hb

/-- A computation that stops, or is refused, where another one is. -/
def guarded (x : Except ModelError α) (run : Strict β) : Strict β := outcome x >>= fun _ => run

/-- A checked operation guards the exact one. -/
theorem guarded_eq {a : α} (hx : Refines x (.ok a)) : guarded x (pure a) = outcome x := by
  rcases hx with rfl | rfl
  · rfl
  · rfl

end Strict

/-- The quotient of two polynomials, refused if the lower one is zero. -/
def quotientVia (norm : Normalizer) (upper lower : Polynomial) : Strict RationalFunction :=
  if lower.isZero then throw (.divisionByZero ("(" ++ upper.text ++ ")/0"))
  else norm upper lower

theorem quotientVia_eq {norm : Normalizer} (hnorm : norm.Faithful) (upper lower : Polynomial) :
    quotientVia norm upper lower = .outcome (ofQuotient upper lower) := by
  unfold quotientVia ofQuotient
  split_ifs with hzero
  · rfl
  · rw [hnorm lower (fun h => hzero (Polynomial.isZero_iff.mpr h)) upper]
    rfl

end RationalFunction

namespace Expression

open RationalFunction (Normalizer Strict addVia mulVia divVia powVia)

/-- The function of an expression, computed with a given normalizer and checked exponents. -/
def toFunctionVia (norm : Normalizer) : Expression → Strict RationalFunction
  | number value => pure (.constant value)
  | parameter p => pure (.ofParameter p)
  | neg e => do return (← e.toFunctionVia norm).neg
  | add l r => do
    let f ← l.toFunctionVia norm
    let g ← r.toFunctionVia norm
    Strict.guarded (f.addChecked g) (addVia norm f g)
  | sub l r => do
    let f ← l.toFunctionVia norm
    let g ← r.toFunctionVia norm
    Strict.guarded (f.subChecked g) (addVia norm f g.neg)
  | mul l r => do
    let f ← l.toFunctionVia norm
    let g ← r.toFunctionVia norm
    Strict.guarded (f.mulChecked g) (mulVia norm f g)
  | div l offset r => do
    let f ← l.toFunctionVia norm
    let g ← r.toFunctionVia norm
    match ← Strict.guarded (f.divChecked? g) (divVia norm f g) with
    | some h => return h
    | none => throw (.expression offset .divisionByZero)
  | pow base offset exponent => do
    let f ← base.toFunctionVia norm
    if exponent < exponentLimit then Strict.guarded (f.powChecked exponent) (powVia norm f exponent)
    else throw (.expression offset .exponentRange)

theorem toFunctionVia_eq {norm : Normalizer} (hnorm : norm.Faithful) (e : Expression) :
    e.toFunctionVia norm = .outcome e.toFunction := by
  have hnormal : ∀ {e : Expression} {f : RationalFunction}, e.toFunction = .ok f → f.Normal :=
    fun h => (built_of_toFunction h).normal
  induction e with
  | number value => rfl
  | parameter p => rfl
  | neg e ih =>
      rw [toFunctionVia, toFunction, ih]
      exact Strict.bind_outcome fun f _ => rfl
  | add l r ihl ihr =>
      rw [toFunctionVia, toFunction, ihl, ihr]
      refine Strict.bind₂_outcome fun f g hf hg => ?_
      rw [(hnormal hf).addVia_eq hnorm (hnormal hg)]
      exact Strict.guarded_eq (f.refines_addChecked g)
  | sub l r ihl ihr =>
      rw [toFunctionVia, toFunction, ihl, ihr]
      refine Strict.bind₂_outcome fun f g hf hg => ?_
      rw [(hnormal hf).addVia_eq hnorm (hnormal hg).neg]
      exact Strict.guarded_eq (f.refines_subChecked g)
  | mul l r ihl ihr =>
      rw [toFunctionVia, toFunction, ihl, ihr]
      refine Strict.bind₂_outcome fun f g hf hg => ?_
      rw [(hnormal hf).mulVia_eq hnorm (hnormal hg)]
      exact Strict.guarded_eq (f.refines_mulChecked g)
  | div l offset r ihl ihr =>
      rw [toFunctionVia, toFunction, ihl, ihr]
      refine Strict.bind₂_outcome fun f g hf _ => ?_
      rw [(hnormal hf).divVia_eq hnorm]
      have hguarded : Strict.guarded (f.divChecked? g) (pure (f.div? g)) =
          .outcome (f.divChecked? g) := Strict.guarded_eq (f.refines_divChecked? g)
      refine (congrArg (· >>= _) hguarded).trans (Strict.bind_outcome fun quotient _ => ?_)
      cases quotient with
      | none => rfl
      | some h => rfl
  | pow base offset exponent ih =>
      rw [toFunctionVia, toFunction, ih]
      refine Strict.bind_outcome fun f hf => ?_
      split_ifs
      · rw [(built_of_toFunction hf).powVia_eq hnorm]
        exact Strict.guarded_eq (f.refines_powChecked exponent)
      · rfl

end Expression

namespace RationalFunction

/-! ## Compositions -/

/-- How a function is computed by the operations. -/
inductive Composition where
  /-- A quotient of two polynomials. -/
  | quotient (upper lower : Polynomial)
  /-- A polynomial over one. -/
  | polynomial (f : Polynomial)
  /-- A constant. -/
  | constant (c : ℚ)
  /-- A parameter. -/
  | parameter (p : Parameter)
  /-- What is read from a text. -/
  | text (t : String)
  /-- A change of sign. -/
  | neg (s : Composition)
  /-- A sum. -/
  | add (s t : Composition)
  /-- A difference. -/
  | sub (s t : Composition)
  /-- A product. -/
  | mul (s t : Composition)
  /-- A quotient, refused with the given error if the second function is zero. -/
  | div (s t : Composition) (refusal : ModelError)
  /-- A partial substitution. -/
  | substitute (s : Composition) (v : Valuation)

namespace Composition

/-- The function that is computed, or the error of the first operation that is refused. -/
def build : Composition → Except ModelError RationalFunction
  | quotient upper lower => ofQuotient upper lower
  | polynomial f => .ok (ofPolynomial f)
  | constant c => .ok (.constant c)
  | parameter p => .ok (.ofParameter p)
  | text t => read t
  | neg s => do return (← s.build).neg
  | add s t => do return (← s.build).add (← t.build)
  | sub s t => do return (← s.build).sub (← t.build)
  | mul s t => do return (← s.build).mul (← t.build)
  | div s t refusal => do
    match (← s.build).div? (← t.build) with
    | some f => return f
    | none => throw refusal
  | substitute s v => do (← s.build).substitute v

/-- The same computation with a given normalizer. -/
def run (norm : Normalizer) : Composition → Strict RationalFunction
  | quotient upper lower => quotientVia norm upper lower
  | polynomial f => pure (ofPolynomial f)
  | constant c => pure (.constant c)
  | parameter p => pure (.ofParameter p)
  | text t => do (← Strict.outcome (Expression.read t)).toFunctionVia norm
  | neg s => do return (← s.run norm).neg
  | add s t => do
    let f ← s.run norm
    let g ← t.run norm
    addVia norm f g
  | sub s t => do
    let f ← s.run norm
    let g ← t.run norm
    addVia norm f g.neg
  | mul s t => do
    let f ← s.run norm
    let g ← t.run norm
    mulVia norm f g
  | div s t refusal => do
    let f ← s.run norm
    let g ← t.run norm
    match ← divVia norm f g with
    | some h => return h
    | none => throw refusal
  | substitute s v => do
    let f ← s.run norm
    quotientVia norm (f.numerator.substitute v) (f.denominator.substitute v)

theorem built_of_build {s : Composition} {f : RationalFunction} (hs : s.build = .ok f) :
    f.Built := by
  induction s generalizing f with
  | quotient upper lower => exact .ofQuotient hs
  | polynomial _ | constant _ | parameter _ => exact Except.ok.inj hs ▸ .ofPolynomial _
  | text t =>
      obtain ⟨e, -, he⟩ := bind_eq_ok_iff.mp hs
      exact Expression.built_of_toFunction he
  | neg s ih =>
      obtain ⟨g, hg, heq⟩ := bind_eq_ok_iff.mp hs
      exact pure_eq_ok_iff.mp heq ▸ (ih hg).neg
  | add s t ihs iht =>
      obtain ⟨g, k, hg, hk, rfl⟩ := bind₂_eq_ok_iff.mp hs
      exact (ihs hg).add (iht hk)
  | sub s t ihs iht =>
      obtain ⟨g, k, hg, hk, rfl⟩ := bind₂_eq_ok_iff.mp hs
      exact (ihs hg).sub (iht hk)
  | mul s t ihs iht =>
      obtain ⟨g, k, hg, hk, rfl⟩ := bind₂_eq_ok_iff.mp hs
      exact (ihs hg).mul (iht hk)
  | div s t refusal ihs iht =>
      obtain ⟨g, hg, hrest⟩ := bind_eq_ok_iff.mp hs
      obtain ⟨k, hk, heq⟩ := bind_eq_ok_iff.mp hrest
      split at heq
      · next q hq => exact pure_eq_ok_iff.mp heq ▸ (ihs hg).div (iht hk) hq
      · cases heq
  | substitute s v ih =>
      obtain ⟨g, hg, heq⟩ := bind_eq_ok_iff.mp hs
      exact (ih hg).substitute heq

/-- A normalizer that fails at most for a zero denominator does not fail, and gives the same
outcome. -/
theorem run_eq {norm : Normalizer} (hnorm : norm.Faithful) (s : Composition) :
    s.run norm = .outcome s.build := by
  have hnormal : ∀ {s : Composition} {f : RationalFunction}, s.build = .ok f → f.Normal :=
    fun h => (built_of_build h).normal
  induction s with
  | quotient upper lower => exact quotientVia_eq hnorm upper lower
  | polynomial f => rfl
  | constant c => rfl
  | parameter p => rfl
  | text t => exact Strict.bind_outcome fun e _ => e.toFunctionVia_eq hnorm
  | neg s ih =>
      rw [run, build, ih]
      exact Strict.bind_outcome fun f _ => rfl
  | add s t ihs iht =>
      rw [run, build, ihs, iht]
      refine Strict.bind₂_outcome fun f g hf hg => ?_
      rw [(hnormal hf).addVia_eq hnorm (hnormal hg)]
      rfl
  | sub s t ihs iht =>
      rw [run, build, ihs, iht]
      refine Strict.bind₂_outcome fun f g hf hg => ?_
      rw [(hnormal hf).addVia_eq hnorm (hnormal hg).neg]
      rfl
  | mul s t ihs iht =>
      rw [run, build, ihs, iht]
      refine Strict.bind₂_outcome fun f g hf hg => ?_
      rw [(hnormal hf).mulVia_eq hnorm (hnormal hg)]
      rfl
  | div s t refusal ihs iht =>
      rw [run, build, ihs, iht]
      refine Strict.bind₂_outcome fun f g hf _ => ?_
      rw [(hnormal hf).divVia_eq hnorm]
      cases f.div? g with
      | none => rfl
      | some h => rfl
  | substitute s v ih =>
      rw [run, build, ih]
      exact Strict.bind_outcome fun f _ => quotientVia_eq hnorm _ _

/-- Functions stay in normal form, and normalization never divides by zero.  A composition of the
operations runs through if each normalization refuses a zero denominator and checks its divisions.
The denominator of its function is not zero; it is one, or not constant with coefficient one at the
last term, and then the numerator is no multiple of it.  A zero numerator has the denominator one,
and normalizing the function once more does not change it. -/
theorem composition_normal (s : Composition) :
    (s.run strictNormalize).run = some s.build ∧
    ∀ f, s.build = .ok f →
      f.denominator ≠ .zero ∧
      (f.denominator = .one ∨
        f.denominator.isConstant = false ∧ f.denominator.lastCoefficient? = some 1) ∧
      (f.numerator = .zero → f.denominator = .one) ∧
      (f.denominator.isConstant = false → ∀ c, f.numerator ≠ f.denominator.scale c) ∧
      normalize f.numerator f.denominator = f := by
  refine ⟨congrArg ExceptT.run (run_eq faithful_strictNormalize s), fun f hf => ?_⟩
  have hnormal := (built_of_build hf).normal
  exact ⟨hnormal.denominator_ne_zero, hnormal.denominator_cases, hnormal.denominator_eq_one,
    hnormal.numerator_ne_scale, hnormal.normalize_eq⟩

/-- A fee. -/
def fee : Parameter := ⟨"fee", by decide⟩

/-- The rate at which a fee grows. -/
def rate : Parameter := ⟨"rate", by decide⟩

/-- The difference `1/fee - 1/(2*fee + rate)`.  The last terms of its denominators are `fee` and
`rate`, but the last term of their product is `2*fee^2`. -/
def feeGap : Composition :=
  .sub (.div (.constant 1) (.parameter fee) (.divisionByZero "1/fee")) (.text "1/(2*fee + rate)")

/-- The normal form `(fee/2 + rate/2)/(fee^2 + fee*rate/2)` of the difference. -/
def feeGapForm : RationalFunction where
  numerator := ((Polynomial.ofParameter fee).add (.ofParameter rate)).scale (1 / 2)
  denominator := ((Polynomial.ofParameter fee).pow 2).add
    (((Polynomial.ofParameter fee).mul (.ofParameter rate)).scale (1 / 2))

/-- The difference is brought to normal form, and refused for the fee zero. -/
theorem composition_normal_feeGap :
    feeGap.build = .ok feeGapForm ∧ (feeGap.run strictNormalize).run = some (.ok feeGapForm) ∧
    feeGapForm.denominator.isConstant = false ∧
    feeGapForm.denominator.lastCoefficient? = some 1 ∧
    (∀ c, feeGapForm.numerator ≠ feeGapForm.denominator.scale c) ∧
    normalize feeGapForm.numerator feeGapForm.denominator = feeGapForm ∧
    ((feeGap.substitute (.ofList [(fee, 0)])).run strictNormalize).run =
      some (.error (.divisionByZero "(0.5*rate)/0")) := by
  have hbuild : feeGap.build = .ok feeGapForm := by decide +kernel
  have hrefused : (feeGap.substitute (.ofList [(fee, 0)])).build =
      .error (.divisionByZero "(0.5*rate)/0") := by decide +kernel
  have hconstant : feeGapForm.denominator.isConstant = false := by decide +kernel
  obtain ⟨-, hcases, -, hmultiple, hagain⟩ := (composition_normal feeGap).2 _ hbuild
  have hlast : feeGapForm.denominator.lastCoefficient? = some 1 := by
    rcases hcases with hone | ⟨-, hlast⟩
    · exact absurd hone (by decide +kernel)
    · exact hlast
  refine ⟨hbuild, ?_, hconstant, hlast, hmultiple hconstant, hagain, ?_⟩
  · rw [(composition_normal feeGap).1, hbuild]
  · rw [(composition_normal (feeGap.substitute _)).1, hrefused]

end Composition

end RationalFunction

end MarkovRegion
