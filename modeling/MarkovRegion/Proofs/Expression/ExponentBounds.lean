import Mathlib
import MarkovRegion.Proofs.Algebra.NormalForm

/-!
# Bounds of exponents

A function that is computed with checked exponents has only exponents that can be stored
(`Expression.exponentsFit_of_toFunction`).  Whether the computation stops is bounded by the form of
the tree: `Expression.degrees w` bounds the degrees of numerator and denominator before anything
cancels, and `Expression.highest w` is the largest of these bounds over all parts of the tree.

Degrees are taken with respect to a weight of the parameters.  The weight that is one everywhere
gives total degrees, and the weight of a single parameter gives its exponents.  If the bounds of all
exponents are below the limit, nothing stops (`Expression.toFunction_eq`).
-/

namespace MarkovRegion

/-! ## Exponents of terms -/

namespace Monomial

theorem totalDegree_eq (m : Monomial) : m.totalDegree = m.toExponents.weight 1 := by
  have hsum : m.toExponents.weight (1 : Parameter → ℕ) = (m.powers.entries.map Prod.snd).sum := by
    simp [toExponents, Sparse.total, Sparse.listTotal, map_list_sum, Function.comp_def,
      Finsupp.weight_single]
  rw [hsum, List.sum_eq_foldl, List.foldl_map]
  rfl

theorem exponentsFit_iff {m : Monomial} :
    m.ExponentsFit ↔ ∀ p, m.toExponents p < exponentLimit := by
  constructor
  · intro hfit p
    by_cases hp : m.toExponents p = 0
    · rw [hp]
      decide
    · rw [toExponents_apply] at hp ⊢
      exact hfit (p, _) (Sparse.mem_entries_iff.mpr ⟨hp, rfl⟩)
  · intro hlimit x hx
    have hexponent : m.toExponents x.1 = x.2 := by
      rw [toExponents_apply]
      exact (Sparse.mem_entries_iff.mp hx).2
    exact hexponent ▸ hlimit x.1

end Monomial

namespace Polynomial

variable {D E : Set (Parameter →₀ ℕ)} {f g : Polynomial}

/-- The exponents of all terms lie in a set. -/
def TermsIn (D : Set (Parameter →₀ ℕ)) (f : Polynomial) : Prop :=
  ∀ t ∈ f.terms.entries, t.1.toExponents ∈ D

/-- All exponents can be stored. -/
def ExponentsFit (f : Polynomial) : Prop := ∀ t ∈ f.terms.entries, t.1.ExponentsFit

instance (f : Polynomial) : Decidable f.ExponentsFit :=
  inferInstanceAs (Decidable (∀ t ∈ f.terms.entries, t.1.ExponentsFit))

theorem exponentsFit_iff : f.ExponentsFit ↔ f.TermsIn {d | ∀ p, d p < exponentLimit} :=
  forall₂_congr fun _ _ => Monomial.exponentsFit_iff

theorem termsIn_iff : f.TermsIn D ↔ f.toRing ∈ MvPolynomial.restrictSupport ℚ D := by
  rw [MvPolynomial.mem_restrictSupport_iff]
  constructor
  · intro hterms d hd
    obtain ⟨t, ht, rfl⟩ := mem_support_toRing.mp hd
    exact hterms t ht
  · exact fun hsupport t ht => hsupport (mem_support_toRing.mpr ⟨t, ht, rfl⟩)

theorem TermsIn.mono (hf : f.TermsIn D) (h : D ⊆ E) : f.TermsIn E := fun t ht => h (hf t ht)

theorem termsIn_constant (hD : 0 ∈ D) (c : ℚ) : (constant c).TermsIn D := by
  rw [termsIn_iff, toRing_constant]
  exact (MvPolynomial.monomial_mem_restrictSupport ℚ).mpr (.inl hD)

theorem termsIn_ofParameter {p : Parameter} (hp : Finsupp.single p 1 ∈ D) :
    (ofParameter p).TermsIn D := by
  rw [termsIn_iff, toRing_ofParameter]
  exact (MvPolynomial.monomial_mem_restrictSupport ℚ).mpr (.inl hp)

theorem TermsIn.neg (hf : f.TermsIn D) : f.neg.TermsIn D := by
  rw [termsIn_iff] at hf ⊢
  rw [toRing_neg]
  exact neg_mem hf

theorem TermsIn.add (hf : f.TermsIn D) (hg : g.TermsIn D) : (f.add g).TermsIn D := by
  rw [termsIn_iff] at hf hg ⊢
  rw [toRing_add]
  exact add_mem hf hg

theorem TermsIn.scale (hf : f.TermsIn D) (c : ℚ) : (f.scale c).TermsIn D := by
  rw [termsIn_iff] at hf ⊢
  rw [toRing_scale, mul_comm, ← MvPolynomial.smul_eq_C_mul]
  exact Submodule.smul_mem _ c hf

/-- The terms of a product are products of terms. -/
theorem termsIn_mul (h : ∀ s ∈ f.terms.entries, ∀ t ∈ g.terms.entries,
    s.1.toExponents + t.1.toExponents ∈ D) : (f.mul g).TermsIn D := by
  rw [termsIn_iff, toRing_mul, MvPolynomial.mem_restrictSupport_iff]
  intro d hd
  obtain ⟨a, ha, b, hb, rfl⟩ := Finset.mem_add.mp (MvPolynomial.support_mul _ _ hd)
  obtain ⟨s, hs, rfl⟩ := mem_support_toRing.mp ha
  obtain ⟨t, ht, rfl⟩ := mem_support_toRing.mp hb
  exact h s hs t ht

theorem productFits_iff : f.ProductFits g ↔ ∀ s ∈ f.terms.entries, ∀ t ∈ g.terms.entries, ∀ p,
    (s.1.toExponents + t.1.toExponents) p < exponentLimit := by
  simp only [ProductFits, products, List.forall_mem_flatMap, List.forall_mem_map,
    Monomial.exponentsFit_iff, Monomial.toExponents_mul]

/-- A product that is computed can be stored. -/
theorem exponentsFit_of_mulChecked {h : Polynomial} (h' : f.mulChecked g = .ok h) :
    h.ExponentsFit := by
  rw [mulChecked_eq, stopUnless_eq_ok_iff] at h'
  obtain ⟨hfits, rfl⟩ := h'
  exact exponentsFit_iff.mpr (termsIn_mul (productFits_iff.mp hfits))

/-! ### Degrees by weight -/

variable {w : Parameter → ℕ} {m n : ℕ}

/-- The degrees of all terms by a weight of the parameters have a bound. -/
def Within (w : Parameter → ℕ) (f : Polynomial) (n : ℕ) : Prop :=
  f.TermsIn {d | d.weight w ≤ n}

theorem within_constant (c : ℚ) : (constant c).Within w n :=
  termsIn_constant (by simp) c

theorem within_ofParameter {p : Parameter} (hp : w p ≤ n) : (ofParameter p).Within w n :=
  termsIn_ofParameter (by simpa [Finsupp.weight_single] using hp)

namespace Within

theorem mono (hf : f.Within w m) (h : m ≤ n) : f.Within w n :=
  TermsIn.mono hf fun _ hd => le_trans hd h

theorem neg (hf : f.Within w n) : f.neg.Within w n := TermsIn.neg hf

theorem add (hf : f.Within w n) (hg : g.Within w n) : (f.add g).Within w n := TermsIn.add hf hg

theorem mul (hf : f.Within w m) (hg : g.Within w n) : (f.mul g).Within w (m + n) := by
  refine termsIn_mul fun s hs t ht => ?_
  rw [Set.mem_ofPred_eq, map_add]
  exact Nat.add_le_add (hf s hs) (hg t ht)

end Within

/-- A product is computed if the exponents of the factors have bounds with sums below the limit. -/
theorem productFits_of_within {a b : Parameter → ℕ} (hf : ∀ p, f.Within (Pi.single p 1) (a p))
    (hg : ∀ p, g.Within (Pi.single p 1) (b p)) (hlimit : ∀ p, a p + b p < exponentLimit) :
    f.ProductFits g := by
  refine productFits_iff.mpr fun s hs t ht p => ?_
  have hs' := hf p s hs
  have ht' := hg p t ht
  rw [Set.mem_ofPred_eq, Finsupp.weight_single_one_apply] at hs' ht'
  exact (Nat.add_le_add hs' ht').trans_lt (hlimit p)

end Polynomial

namespace RationalFunction

/-- All exponents of numerator and denominator can be stored. -/
def ExponentsFit (f : RationalFunction) : Prop :=
  f.numerator.ExponentsFit ∧ f.denominator.ExponentsFit

instance (f : RationalFunction) : Decidable f.ExponentsFit :=
  inferInstanceAs (Decidable (f.numerator.ExponentsFit ∧ f.denominator.ExponentsFit))

/-- The exponents of all terms of numerator and denominator lie in two sets. -/
def TermsIn (D E : Set (Parameter →₀ ℕ)) (f : RationalFunction) : Prop :=
  f.numerator.TermsIn D ∧ f.denominator.TermsIn E

section Normalize

variable {D E : Set (Parameter →₀ ℕ)} (hD : 0 ∈ D) (hE : 0 ∈ E)
include hE

theorem termsIn_ofPolynomial {f : Polynomial} (hf : f.TermsIn D) : (ofPolynomial f).TermsIn D E :=
  ⟨hf, Polynomial.termsIn_constant hE 1⟩

include hD

theorem termsIn_constant (c : ℚ) : (constant c).TermsIn D E :=
  termsIn_ofPolynomial hE (Polynomial.termsIn_constant hD c)

/-- Normalizing adds no terms other than constants. -/
theorem termsIn_normalize {upper lower : Polynomial} (hupper : upper.TermsIn D)
    (hlower : lower.TermsIn E) : (normalize upper lower).TermsIn D E := by
  unfold normalize
  split_ifs
  · exact termsIn_constant hD hE 0
  · split
    · exact termsIn_ofPolynomial hE (hupper.scale _)
    · have hquotient : ∀ c, TermsIn D E ⟨upper.scale c, lower.scale c⟩ := fun c =>
        ⟨hupper.scale c, hlower.scale c⟩
      unfold normalizeNonconstant
      dsimp only
      split
      · split_ifs
        · exact termsIn_constant hD hE _
        · exact hquotient _
      · exact hquotient _

end Normalize

/-! ## Functions that are computed -/

theorem exponentsFit_iff {f : RationalFunction} : f.ExponentsFit ↔
    f.TermsIn {d | ∀ p, d p < exponentLimit} {d | ∀ p, d p < exponentLimit} :=
  and_congr Polynomial.exponentsFit_iff Polynomial.exponentsFit_iff

theorem zero_fits : (0 : Parameter →₀ ℕ) ∈ {d | ∀ p, d p < exponentLimit} := fun _ => by
  rw [Finsupp.zero_apply]
  decide

theorem exponentsFit_constant (c : ℚ) : (constant c).ExponentsFit :=
  exponentsFit_iff.mpr (termsIn_constant zero_fits zero_fits c)

theorem exponentsFit_ofParameter (p : Parameter) : (ofParameter p).ExponentsFit := by
  refine exponentsFit_iff.mpr (termsIn_ofPolynomial zero_fits (Polynomial.termsIn_ofParameter ?_))
  intro q
  rw [Finsupp.single_apply]
  split_ifs
  · decide
  · decide

namespace ExponentsFit

variable {f g h : RationalFunction}

theorem normalize {upper lower : Polynomial} (hupper : upper.ExponentsFit)
    (hlower : lower.ExponentsFit) : (normalize upper lower).ExponentsFit :=
  exponentsFit_iff.mpr (termsIn_normalize zero_fits zero_fits
    (Polynomial.exponentsFit_iff.mp hupper) (Polynomial.exponentsFit_iff.mp hlower))

theorem neg (hf : f.ExponentsFit) : f.neg.ExponentsFit :=
  ⟨Polynomial.exponentsFit_iff.mpr (Polynomial.exponentsFit_iff.mp hf.1).neg, hf.2⟩

theorem addChecked (hf : f.ExponentsFit) (hg : g.ExponentsFit) (h' : f.addChecked g = .ok h) :
    h.ExponentsFit := by
  have hsum : ∀ {a b : Polynomial}, a.ExponentsFit → b.ExponentsFit → (a.add b).ExponentsFit :=
    fun ha hb => Polynomial.exponentsFit_iff.mpr
      ((Polynomial.exponentsFit_iff.mp ha).add (Polynomial.exponentsFit_iff.mp hb))
  unfold RationalFunction.addChecked at h'
  split_ifs at h'
  · exact Except.ok.inj h' ▸ hg
  · exact Except.ok.inj h' ▸ hf
  · exact Except.ok.inj h' ▸ normalize (hsum hf.1 hg.1) hf.2
  · obtain ⟨left, hleft, hrest⟩ := bind_eq_ok_iff.mp h'
    obtain ⟨right, hright, hrest⟩ := bind_eq_ok_iff.mp hrest
    obtain ⟨lower, hlower, hrest⟩ := bind_eq_ok_iff.mp hrest
    rw [← pure_eq_ok_iff.mp hrest]
    exact normalize (hsum (Polynomial.exponentsFit_of_mulChecked hleft)
      (Polynomial.exponentsFit_of_mulChecked hright)) (Polynomial.exponentsFit_of_mulChecked hlower)

theorem mulChecked (hf : f.ExponentsFit) (hg : g.ExponentsFit) (h' : f.mulChecked g = .ok h) :
    h.ExponentsFit := by
  unfold RationalFunction.mulChecked at h'
  split_ifs at h'
  · exact Except.ok.inj h' ▸ exponentsFit_constant 0
  · exact Except.ok.inj h' ▸ hg
  · exact Except.ok.inj h' ▸ hf
  · exact Except.ok.inj h' ▸ normalize hg.1 hf.2
  · exact Except.ok.inj h' ▸ normalize hf.1 hg.2
  · obtain ⟨upper, hupper, hrest⟩ := bind_eq_ok_iff.mp h'
    obtain ⟨lower, hlower, hrest⟩ := bind_eq_ok_iff.mp hrest
    rw [← pure_eq_ok_iff.mp hrest]
    exact normalize (Polynomial.exponentsFit_of_mulChecked hupper)
      (Polynomial.exponentsFit_of_mulChecked hlower)

theorem divChecked? (hf : f.ExponentsFit) (hg : g.ExponentsFit)
    (h' : f.divChecked? g = .ok (some h)) : h.ExponentsFit := by
  unfold RationalFunction.divChecked? at h'
  split_ifs at h'
  · cases h'
  · obtain ⟨k, hk, hrest⟩ := bind_eq_ok_iff.mp h'
    obtain rfl := Option.some.inj (pure_eq_ok_iff.mp hrest)
    exact mulChecked hf (normalize hg.2 hg.1) hk

theorem powChecked (hf : f.ExponentsFit) {n : Nat} (h' : f.powChecked n = .ok h) :
    h.ExponentsFit := by
  have hrun : ∀ (n : Nat) (g : RationalFunction), g.ExponentsFit →
      repeatedly (fun g => g.mulChecked f) n g = .ok h → h.ExponentsFit := by
    intro n
    induction n with
    | zero => exact fun g hg h' => Except.ok.inj h' ▸ hg
    | succ n ih =>
        intro g hg h'
        obtain ⟨k, hk, hrest⟩ := bind_eq_ok_iff.mp h'
        exact ih k (mulChecked hg hf hk) hrest
  exact hrun n one (exponentsFit_constant 1) h'

end ExponentsFit

end RationalFunction

/-- The exponents of a function that is computed can be stored. -/
theorem Expression.exponentsFit_of_toFunction {e : Expression} {f : RationalFunction}
    (he : e.toFunction = .ok f) : f.ExponentsFit := by
  induction e generalizing f with
  | number value =>
      obtain rfl := Except.ok.inj he
      exact RationalFunction.exponentsFit_constant value
  | parameter p =>
      obtain rfl := Except.ok.inj he
      exact RationalFunction.exponentsFit_ofParameter p
  | neg e ih =>
      obtain ⟨g, hg, heq⟩ := bind_eq_ok_iff.mp he
      exact pure_eq_ok_iff.mp heq ▸ (ih hg).neg
  | add l r ihl ihr =>
      obtain ⟨g, hg, hrest⟩ := bind_eq_ok_iff.mp he
      obtain ⟨k, hk, hsum⟩ := bind_eq_ok_iff.mp hrest
      exact (ihl hg).addChecked (ihr hk) hsum
  | sub l r ihl ihr =>
      obtain ⟨g, hg, hrest⟩ := bind_eq_ok_iff.mp he
      obtain ⟨k, hk, hsum⟩ := bind_eq_ok_iff.mp hrest
      exact (ihl hg).addChecked (ihr hk).neg hsum
  | mul l r ihl ihr =>
      obtain ⟨g, hg, hrest⟩ := bind_eq_ok_iff.mp he
      obtain ⟨k, hk, hproduct⟩ := bind_eq_ok_iff.mp hrest
      exact (ihl hg).mulChecked (ihr hk) hproduct
  | div l offset r ihl ihr =>
      obtain ⟨g, hg, hrest⟩ := bind_eq_ok_iff.mp he
      obtain ⟨k, hk, hrest⟩ := bind_eq_ok_iff.mp hrest
      obtain ⟨q, hq, heq⟩ := bind_eq_ok_iff.mp hrest
      cases q with
      | none => cases heq
      | some q => exact pure_eq_ok_iff.mp heq ▸ (ihl hg).divChecked? (ihr hk) hq
  | pow base offset exponent ih =>
      obtain ⟨g, hg, hrest⟩ := bind_eq_ok_iff.mp he
      split_ifs at hrest
      exact (ih hg).powChecked hrest

/-! ## Bounds of degrees -/

/-- Bounds of the degrees of numerator and denominator. -/
structure Degrees where
  /-- The bound of the numerator. -/
  upper : Nat
  /-- The bound of the denominator. -/
  lower : Nat

namespace Degrees

/-- The bounds of a sum over the product of the denominators. -/
def add (a b : Degrees) : Degrees where
  upper := max (a.upper + b.lower) (b.upper + a.lower)
  lower := a.lower + b.lower

/-- The bounds of a product. -/
def mul (a b : Degrees) : Degrees := ⟨a.upper + b.upper, a.lower + b.lower⟩

/-- The bounds of the reciprocal. -/
def inverse (a : Degrees) : Degrees := ⟨a.lower, a.upper⟩

/-- The bounds of a power. -/
def pow (a : Degrees) (n : Nat) : Degrees := ⟨n * a.upper, n * a.lower⟩

/-- The larger bound. -/
def largest (a : Degrees) : Nat := max a.upper a.lower

theorem pow_succ (a : Degrees) (n : Nat) : a.pow (n + 1) = (a.pow n).mul a := by
  simp only [pow, mul, Nat.add_one_mul]

theorem largest_pow_mono (a : Degrees) {m n : Nat} (h : m ≤ n) :
    (a.pow m).largest ≤ (a.pow n).largest :=
  max_le_max (Nat.mul_le_mul_right _ h) (Nat.mul_le_mul_right _ h)

/-- Both bounds are at most as large. -/
instance : LE Degrees := ⟨fun a b => a.upper ≤ b.upper ∧ a.lower ≤ b.lower⟩

section Monotone

variable {a a' b b' : Degrees} (ha : a ≤ a') (hb : b ≤ b')
include ha

theorem largest_mono : a.largest ≤ a'.largest := max_le_max ha.1 ha.2

theorem inverse_mono : a.inverse ≤ a'.inverse := ⟨ha.2, ha.1⟩

theorem pow_mono (n : Nat) : a.pow n ≤ a'.pow n :=
  ⟨Nat.mul_le_mul_left n ha.1, Nat.mul_le_mul_left n ha.2⟩

include hb

theorem mul_mono : a.mul b ≤ a'.mul b' := ⟨Nat.add_le_add ha.1 hb.1, Nat.add_le_add ha.2 hb.2⟩

theorem add_mono : a.add b ≤ a'.add b' :=
  ⟨max_le_max (Nat.add_le_add ha.1 hb.2) (Nat.add_le_add hb.1 ha.2), Nat.add_le_add ha.2 hb.2⟩

end Monotone

end Degrees

namespace RationalFunction

variable {f g h : RationalFunction} {w : Parameter → ℕ} {a b : Degrees}

/-- The degrees of numerator and denominator by a weight have the given bounds. -/
structure Bounded (w : Parameter → ℕ) (f : RationalFunction) (a : Degrees) : Prop where
  upper : f.numerator.Within w a.upper
  lower : f.denominator.Within w a.lower

theorem bounded_ofPolynomial {f : Polynomial} (hf : f.Within w a.upper) :
    (ofPolynomial f).Bounded w a :=
  ⟨hf, Polynomial.within_constant 1⟩

theorem bounded_constant (c : ℚ) : (constant c).Bounded w a :=
  bounded_ofPolynomial (Polynomial.within_constant c)

theorem bounded_normalize {upper lower : Polynomial} (hupper : upper.Within w a.upper)
    (hlower : lower.Within w a.lower) : (normalize upper lower).Bounded w a := by
  have hterms := termsIn_normalize (by simp) (by simp) hupper hlower
  exact ⟨hterms.1, hterms.2⟩

namespace Bounded

theorem mono (hf : f.Bounded w a) (hupper : a.upper ≤ b.upper) (hlower : a.lower ≤ b.lower) :
    f.Bounded w b :=
  ⟨hf.upper.mono hupper, hf.lower.mono hlower⟩

theorem neg (hf : f.Bounded w a) : f.neg.Bounded w a := ⟨hf.upper.neg, hf.lower⟩

theorem add (hf : f.Bounded w a) (hg : g.Bounded w b) : (f.add g).Bounded w (a.add b) := by
  have hf' : f.Bounded w (a.add b) :=
    hf.mono (le_max_of_le_left (Nat.le_add_right _ _)) (Nat.le_add_right _ _)
  have hg' : g.Bounded w (a.add b) :=
    hg.mono (le_max_of_le_right (Nat.le_add_right _ _)) (Nat.le_add_left _ _)
  unfold RationalFunction.add
  split_ifs
  · exact hg'
  · exact hf'
  · exact bounded_normalize (hf'.upper.add hg'.upper) hf'.lower
  · refine bounded_normalize (.add ?_ ?_) (hf.lower.mul hg.lower)
    · exact (hf.upper.mul hg.lower).mono (le_max_left _ _)
    · exact (hg.upper.mul hf.lower).mono (le_max_right _ _)

theorem mul (hf : f.Bounded w a) (hg : g.Bounded w b) : (f.mul g).Bounded w (a.mul b) := by
  have hf' : f.Bounded w (a.mul b) := hf.mono (Nat.le_add_right _ _) (Nat.le_add_right _ _)
  have hg' : g.Bounded w (a.mul b) := hg.mono (Nat.le_add_left _ _) (Nat.le_add_left _ _)
  unfold RationalFunction.mul
  split_ifs
  · exact bounded_constant 0
  · exact hg'
  · exact hf'
  · exact bounded_normalize hg'.upper hf'.lower
  · exact bounded_normalize hf'.upper hg'.lower
  · exact bounded_normalize (hf.upper.mul hg.upper) (hf.lower.mul hg.lower)

theorem inverse (hg : g.Bounded w b) : (normalize g.denominator g.numerator).Bounded w b.inverse :=
  bounded_normalize hg.lower hg.upper

theorem div (hf : f.Bounded w a) (hg : g.Bounded w b) (h' : f.div? g = some h) :
    h.Bounded w (a.mul b.inverse) := by
  unfold div? at h'
  split_ifs at h'
  obtain rfl := Option.some.inj h'
  exact hf.mul hg.inverse

theorem pow (hf : f.Bounded w a) (n : Nat) : (f.pow n).Bounded w (a.pow n) := by
  induction n with
  | zero => exact bounded_constant 1
  | succ n ih =>
      rw [Degrees.pow_succ]
      exact ih.mul hf

end Bounded

/-! ### The checks pass -/

section Checks

variable {a b : Parameter → Degrees} (hf : ∀ p, f.Bounded (Pi.single p 1) (a p))
  (hg : ∀ p, g.Bounded (Pi.single p 1) (b p))
include hf hg

theorem addChecked_eq (hlimit : ∀ p, ((a p).add (b p)).largest < exponentLimit) :
    f.addChecked g = .ok (f.add g) := by
  have hupper : ∀ p, ((a p).add (b p)).upper < exponentLimit := fun p =>
    (le_max_left _ _).trans_lt (hlimit p)
  have hleft : f.numerator.ProductFits g.denominator :=
    Polynomial.productFits_of_within (fun p => (hf p).upper) (fun p => (hg p).lower)
      fun p => (le_max_left _ _).trans_lt (hupper p)
  have hright : g.numerator.ProductFits f.denominator :=
    Polynomial.productFits_of_within (fun p => (hg p).upper) (fun p => (hf p).lower)
      fun p => (le_max_right _ _).trans_lt (hupper p)
  have hlower : f.denominator.ProductFits g.denominator :=
    Polynomial.productFits_of_within (fun p => (hf p).lower) (fun p => (hg p).lower)
      fun p => (le_max_right _ _).trans_lt (hlimit p)
  unfold addChecked add
  split_ifs
  · rfl
  · rfl
  · rfl
  · simp only [Polynomial.mulChecked_eq, stopUnless_of hleft, stopUnless_of hright,
      stopUnless_of hlower]
    rfl

theorem mulChecked_eq (hlimit : ∀ p, ((a p).mul (b p)).largest < exponentLimit) :
    f.mulChecked g = .ok (f.mul g) := by
  have hupper : f.numerator.ProductFits g.numerator :=
    Polynomial.productFits_of_within (fun p => (hf p).upper) (fun p => (hg p).upper)
      fun p => (le_max_left _ _).trans_lt (hlimit p)
  have hlower : f.denominator.ProductFits g.denominator :=
    Polynomial.productFits_of_within (fun p => (hf p).lower) (fun p => (hg p).lower)
      fun p => (le_max_right _ _).trans_lt (hlimit p)
  unfold mulChecked mul
  split_ifs
  · rfl
  · rfl
  · rfl
  · rfl
  · rfl
  · simp only [Polynomial.mulChecked_eq, stopUnless_of hupper, stopUnless_of hlower]
    rfl

theorem divChecked?_eq (hlimit : ∀ p, ((a p).mul (b p).inverse).largest < exponentLimit) :
    f.divChecked? g = .ok (f.div? g) := by
  unfold divChecked? div?
  split_ifs
  · rfl
  · rw [mulChecked_eq hf (fun p => (hg p).inverse) hlimit]
    rfl

end Checks

theorem powChecked_eq {a : Parameter → Degrees} (hf : ∀ p, f.Bounded (Pi.single p 1) (a p))
    (n : Nat) (hlimit : ∀ p, ((a p).pow n).largest < exponentLimit) :
    f.powChecked n = .ok (f.pow n) := by
  -- After `k` of the multiplications the power `k` is reached.
  have hrun : ∀ k m, m + k = n →
      repeatedly (fun g => g.mulChecked f) k (f.pow m) = .ok (f.pow n) := by
    intro k
    induction k with
    | zero =>
        rintro m rfl
        rfl
    | succ k ih =>
        intro m hm
        have hstep : (f.pow m).mulChecked f = .ok (f.pow (m + 1)) := by
          refine mulChecked_eq (fun p => (hf p).pow m) hf fun p => ?_
          rw [← Degrees.pow_succ]
          exact ((a p).largest_pow_mono (by omega)).trans_lt (hlimit p)
        rw [repeatedly, hstep]
        exact ih (m + 1) (by omega)
  exact hrun n 0 (Nat.zero_add n)

end RationalFunction

namespace Expression

open RationalFunction (Bounded)

variable {e : Expression} {w : Parameter → ℕ}

/-- Bounds of the degrees of the function of a tree, before anything cancels. -/
def degrees (w : Parameter → ℕ) : Expression → Degrees
  | number _ => ⟨0, 0⟩
  | parameter p => ⟨w p, 0⟩
  | neg e => e.degrees w
  | add l r | sub l r => (l.degrees w).add (r.degrees w)
  | mul l r => (l.degrees w).mul (r.degrees w)
  | div l _ r => (l.degrees w).mul (r.degrees w).inverse
  | pow base _ exponent => (base.degrees w).pow exponent

/-- The largest bound of a part of the tree. -/
def highest (w : Parameter → ℕ) : Expression → Nat
  | number _ => 0
  | parameter p => w p
  | neg e => e.highest w
  | add l r => max (max (l.highest w) (r.highest w)) ((l.degrees w).add (r.degrees w)).largest
  | sub l r => max (max (l.highest w) (r.highest w)) ((l.degrees w).add (r.degrees w)).largest
  | mul l r => max (max (l.highest w) (r.highest w)) ((l.degrees w).mul (r.degrees w)).largest
  | div l _ r =>
    max (max (l.highest w) (r.highest w)) ((l.degrees w).mul (r.degrees w).inverse).largest
  | pow base _ exponent => max (base.highest w) ((base.degrees w).pow exponent).largest

theorem largest_degrees_le (w : Parameter → ℕ) (e : Expression) :
    (e.degrees w).largest ≤ e.highest w := by
  induction e with
  | number _ => exact le_rfl
  | parameter p => exact (max_eq_left (w p).zero_le).le
  | neg e ih => exact ih
  | add | sub | mul | div | pow => exact le_max_right _ _

theorem bounded_of_exactFunction {f : RationalFunction} (he : e.exactFunction = .ok f) :
    f.Bounded w (e.degrees w) := by
  induction e generalizing f with
  | number value =>
      obtain rfl := Except.ok.inj he
      exact RationalFunction.bounded_constant value
  | parameter p =>
      obtain rfl := Except.ok.inj he
      exact RationalFunction.bounded_ofPolynomial (Polynomial.within_ofParameter le_rfl)
  | neg e ih =>
      obtain ⟨g, hg, heq⟩ := bind_eq_ok_iff.mp he
      exact pure_eq_ok_iff.mp heq ▸ (ih hg).neg
  | add l r ihl ihr =>
      obtain ⟨g, k, hg, hk, rfl⟩ := bind₂_eq_ok_iff.mp he
      exact (ihl hg).add (ihr hk)
  | sub l r ihl ihr =>
      obtain ⟨g, k, hg, hk, rfl⟩ := bind₂_eq_ok_iff.mp he
      exact (ihl hg).add (ihr hk).neg
  | mul l r ihl ihr =>
      obtain ⟨g, k, hg, hk, rfl⟩ := bind₂_eq_ok_iff.mp he
      exact (ihl hg).mul (ihr hk)
  | div l offset r ihl ihr =>
      obtain ⟨g, hg, hrest⟩ := bind_eq_ok_iff.mp he
      obtain ⟨k, hk, heq⟩ := bind_eq_ok_iff.mp hrest
      split at heq
      · next q hq => exact pure_eq_ok_iff.mp heq ▸ (ihl hg).div (ihr hk) hq
      · cases heq
  | pow base offset exponent ih =>
      obtain ⟨g, hg, heq⟩ := bind_eq_ok_iff.mp he
      split_ifs at heq
      exact pure_eq_ok_iff.mp heq ▸ (ih hg).pow exponent

/-! ## Nothing stops below the limit -/

/-- The bounds of the exponents of all parts are below the limit. -/
def ExponentsBounded (e : Expression) : Prop :=
  ∀ p, e.highest (Pi.single p 1) < exponentLimit

section Monotone

variable {w w' : Parameter → ℕ} (hw : ∀ p, w p ≤ w' p)
include hw

theorem degrees_mono (e : Expression) : e.degrees w ≤ e.degrees w' := by
  induction e with
  | number _ => exact ⟨le_rfl, le_rfl⟩
  | parameter p => exact ⟨hw p, le_rfl⟩
  | neg e ih => exact ih
  | add l r ihl ihr | sub l r ihl ihr => exact Degrees.add_mono ihl ihr
  | mul l r ihl ihr => exact Degrees.mul_mono ihl ihr
  | div l _ r ihl ihr => exact Degrees.mul_mono ihl (Degrees.inverse_mono ihr)
  | pow base _ exponent ih => exact Degrees.pow_mono ih exponent

theorem highest_mono (e : Expression) : e.highest w ≤ e.highest w' := by
  have hd := degrees_mono hw
  induction e with
  | number _ => exact le_rfl
  | parameter p => exact hw p
  | neg e ih => exact ih
  | add l r ihl ihr | sub l r ihl ihr =>
      exact max_le_max (max_le_max ihl ihr) (Degrees.largest_mono (Degrees.add_mono (hd l) (hd r)))
  | mul l r ihl ihr =>
      exact max_le_max (max_le_max ihl ihr) (Degrees.largest_mono (Degrees.mul_mono (hd l) (hd r)))
  | div l _ r ihl ihr =>
      exact max_le_max (max_le_max ihl ihr)
        (Degrees.largest_mono (Degrees.mul_mono (hd l) (Degrees.inverse_mono (hd r))))
  | pow base _ exponent ih =>
      exact max_le_max ih (Degrees.largest_mono (Degrees.pow_mono (hd base) exponent))

end Monotone

/-- An exponent is at most the degree. -/
theorem exponentsBounded_of_highest (h : e.highest 1 < exponentLimit) : e.ExponentsBounded := by
  have hsingle : ∀ p q : Parameter, (Pi.single p 1 : Parameter → ℕ) q ≤ 1 := by
    intro p q
    rw [Pi.single_apply]
    split_ifs
    · exact le_rfl
    · exact zero_le_one
  exact fun p => (highest_mono (hsingle p) e).trans_lt h

section Operands

variable {l r : Expression}
  {step next : RationalFunction → RationalFunction → Except ModelError RationalFunction}

/-- Two operands below the limit are computed, and then the operation does not stop on functions
with their bounds. -/
theorem operands_eq {n : Parameter → ℕ}
    (hlimit : ∀ p, max (max (l.highest (Pi.single p 1)) (r.highest (Pi.single p 1))) (n p)
      < exponentLimit)
    (ihl : l.ExponentsBounded → l.toFunction = l.exactFunction)
    (ihr : r.ExponentsBounded → r.toFunction = r.exactFunction)
    (hstep : ∀ f g, (∀ p, f.Bounded (Pi.single p 1) (l.degrees (Pi.single p 1))) →
      (∀ p, g.Bounded (Pi.single p 1) (r.degrees (Pi.single p 1))) →
      (∀ p, n p < exponentLimit) → step f g = next f g) :
    (l.toFunction >>= fun f => r.toFunction >>= step f) =
      l.exactFunction >>= fun f => r.exactFunction >>= next f := by
  have hl : l.ExponentsBounded := fun p => (max_lt_iff.mp (max_lt_iff.mp (hlimit p)).1).1
  have hr : r.ExponentsBounded := fun p => (max_lt_iff.mp (max_lt_iff.mp (hlimit p)).1).2
  rw [ihl hl, ihr hr]
  cases hf : l.exactFunction with
  | error failure => rfl
  | ok f =>
      cases hg : r.exactFunction with
      | error failure => rfl
      | ok g =>
          exact hstep f g (fun p => bounded_of_exactFunction hf)
            (fun p => bounded_of_exactFunction hg) fun p => (max_lt_iff.mp (hlimit p)).2

end Operands

/-- The function is computed if the bounds of the exponents of all parts are below the limit. -/
theorem toFunction_eq (hlimit : e.ExponentsBounded) : e.toFunction = e.exactFunction := by
  induction e with
  | number value => rfl
  | parameter p => rfl
  | neg e ih =>
      rw [toFunction, exactFunction, ih hlimit]
  | add l r ihl ihr =>
      exact operands_eq hlimit ihl ihr fun f g hf hg hn => RationalFunction.addChecked_eq hf hg hn
  | sub l r ihl ihr =>
      exact operands_eq hlimit ihl ihr fun f g hf hg hn =>
        RationalFunction.addChecked_eq hf (fun p => (hg p).neg) hn
  | mul l r ihl ihr =>
      exact operands_eq hlimit ihl ihr fun f g hf hg hn => RationalFunction.mulChecked_eq hf hg hn
  | div l offset r ihl ihr =>
      refine operands_eq hlimit ihl ihr fun f g hf hg hn => ?_
      rw [RationalFunction.divChecked?_eq hf hg hn]
      rfl
  | pow base offset exponent ih =>
      have hbase : base.ExponentsBounded := fun p => (max_lt_iff.mp (hlimit p)).1
      rw [toFunction, exactFunction, ih hbase]
      cases hf : base.exactFunction with
      | error failure => rfl
      | ok f =>
          have hpow : f.powChecked exponent = .ok (f.pow exponent) :=
            RationalFunction.powChecked_eq (fun p => bounded_of_exactFunction hf) exponent
              fun p => (max_lt_iff.mp (hlimit p)).2
          change (if exponent < exponentLimit then f.powChecked exponent else _) = _
          rw [hpow]
          rfl

end Expression

end MarkovRegion
