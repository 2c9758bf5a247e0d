import Mathlib
import MarkovRegion.Proofs.Algebra.Composition
import MarkovRegion.Proofs.Algebra.Identity
import MarkovRegion.Proofs.Expression.ExponentBounds
import MarkovRegion.Proofs.Number.Decimal

/-!
# What is written of a function is read as this function

`Spells level t P n` says that the text `t`, wherever it stands, writes a tree of the given level
that computes to the polynomial `P`, with exponents bounded by `n` in all its parts.  The text of a
polynomial spells the polynomial: its coefficients, its powers, its terms and its sum are built up
in the order of the text.  A minus sign in front of a term belongs to the first factor only, so a
term is spelled with and without one (`SpellsTerm`).

The text of a quotient is read as a division, and in normal form the division gives numerator and
denominator back (`ofPolynomial_div?_ofPolynomial`).  Together these give `Normal.read_text`.

A function is written only if its terms can be put in order.  For this the degrees of the terms are
computed, and a degree can be too large although all exponents can be stored
(`write_of_longTerm`).
-/

namespace MarkovRegion

namespace RationalFunction

/-! ## Polynomials as functions -/

section Polynomials

variable {f g : Polynomial}

theorem ofPolynomial_congr (h : f.toRing = g.toRing) : ofPolynomial f = ofPolynomial g :=
  congrArg ofPolynomial (Polynomial.toRing_injective h)

theorem normalize_one (f : Polynomial) : normalize f .one = ofPolynomial f := by
  have hone : Polynomial.one.constantValue? = some 1 := by decide
  rw [normalize, hone]
  split_ifs with hzero
  · rw [Polynomial.isZero_iff.mp hzero]
    rfl
  · exact ofPolynomial_congr (by simp)

variable (f g)

theorem ofPolynomial_add : (ofPolynomial f).add (ofPolynomial g) = ofPolynomial (f.add g) := by
  unfold add
  split_ifs with hf hg hden
  · have hzero : f.toRing = 0 := Polynomial.toRing_eq_zero_iff.mpr hf
    exact ofPolynomial_congr (by simp [hzero])
  · have hzero : g.toRing = 0 := Polynomial.toRing_eq_zero_iff.mpr hg
    exact ofPolynomial_congr (by simp [hzero])
  · exact normalize_one _
  · exact absurd rfl hden

theorem ofPolynomial_sub : (ofPolynomial f).sub (ofPolynomial g) = ofPolynomial (f.sub g) :=
  ofPolynomial_add f g.neg

theorem ofPolynomial_mul : (ofPolynomial f).mul (ofPolynomial g) = ofPolynomial (f.mul g) := by
  have hone : ∀ h : Polynomial, (ofPolynomial h).isOne = true → h.toRing = 1 := by
    intro h h1
    rw [← Polynomial.toRing_one]
    exact congrArg (fun k => k.numerator.toRing) (eq_one_of_isOne h1)
  unfold mul
  split_ifs with hzero hf hg hf' hg'
  · refine ofPolynomial_congr ?_
    rcases (Bool.or_eq_true _ _).mp hzero with hf | hg
    · have hf0 : f.toRing = 0 := Polynomial.toRing_eq_zero_iff.mpr hf
      simp [hf0]
    · have hg0 : g.toRing = 0 := Polynomial.toRing_eq_zero_iff.mpr hg
      simp [hg0]
  · exact ofPolynomial_congr (by simp [hone f hf])
  · exact ofPolynomial_congr (by simp [hone g hg])
  · have hf1 : f = .one := hf'
    exact (normalize_one g).trans (ofPolynomial_congr (by simp [hf1]))
  · have hg1 : g = .one := hg'
    exact (normalize_one f).trans (ofPolynomial_congr (by simp [hg1]))
  · have hden : Polynomial.one.mul .one = .one := Polynomial.toRing_injective (by simp)
    exact (congrArg (normalize (f.mul g)) hden).trans (normalize_one _)

theorem ofPolynomial_pow (n : Nat) : (ofPolynomial f).pow n = ofPolynomial (f.pow n) := by
  induction n with
  | zero => rfl
  | succ n ih =>
      have hstep : (ofPolynomial f).pow (n + 1) = ((ofPolynomial f).pow n).mul (ofPolynomial f) :=
        rfl
      rw [hstep, ih, ofPolynomial_mul]
      rfl

/-- A polynomial by a constant. -/
theorem ofPolynomial_div? {c : ℚ} (hc : c ≠ 0) :
    (ofPolynomial f).div? (constant c) = some (ofPolynomial (f.scale c⁻¹)) := by
  have hzero : (constant c).isZero = false := by
    rw [Bool.eq_false_iff]
    intro h
    have hring : (Polynomial.constant c).toRing = 0 := Polynomial.toRing_eq_zero_iff.mpr h
    rw [Polynomial.toRing_constant, MvPolynomial.C_eq_zero] at hring
    exact hc hring
  have hinverse : normalize .one (.constant c) = ofPolynomial (Polynomial.one.scale c⁻¹) := by
    have hone : Polynomial.one.isZero = false := by decide
    rw [← one_div, normalize, hone, Polynomial.constantValue?_eq_some_iff.mpr rfl]
    rfl
  have hdiv : (ofPolynomial f).div? (constant c)
      = some ((ofPolynomial f).mul (normalize .one (.constant c))) :=
    if_neg (by simp [hzero])
  rw [hdiv, hinverse, ofPolynomial_mul]
  exact congrArg some (ofPolynomial_congr (by simp))

end Polynomials

/-! ## Quotients -/

section Quotients

variable {upper lower : Polynomial} (hlower : lower.isConstant = false)
  (hlast : lower.lastCoefficient? = some 1) (hupper : ∀ c, upper ≠ lower.scale c)

include hupper in
theorem isZero_eq_false_of_ne_scale : upper.isZero = false := by
  have hzero : lower.scale 0 = .zero := dif_pos rfl
  rw [Bool.eq_false_iff]
  exact fun h => hupper 0 ((Polynomial.isZero_iff.mp h).trans hzero.symm)

include hlower in
theorem one_ne_scale (c : ℚ) : Polynomial.one ≠ lower.scale c := by
  intro h
  have hconst : (lower.scale c).isConstant = true := by
    rw [← h]
    decide
  by_cases hc : c = 0
  · have hzero : lower.scale c = .zero := dif_pos hc
    exact absurd (h.trans hzero) (by decide)
  · rw [Polynomial.isConstant_scale lower hc, hlower] at hconst
    cases hconst

include hlower hlast

/-- A quotient in normal form is left as it is. -/
theorem normalize_eq (hupper : ∀ c, upper ≠ lower.scale c) :
    normalize upper lower = ⟨upper, lower⟩ := by
  have hscale : ∀ f : Polynomial, f.scale (1 / (some (1 : ℚ)).getD 1) = f := fun f =>
    Polynomial.toRing_injective (by simp)
  rw [normalize, isZero_eq_false_of_ne_scale hupper,
    Polynomial.isConstant_eq_false_iff.mp hlower]
  simp only [normalizeNonconstant, hlast, hscale]
  cases upper.lastCoefficient? with
  | none => rfl
  | some k =>
      have hne : lower.scale k ≠ upper := (hupper k).symm
      exact if_neg hne

include hupper

/-- In normal form the division of numerator and denominator gives the quotient back. -/
theorem ofPolynomial_div?_ofPolynomial :
    (ofPolynomial upper).div? (ofPolynomial lower) = some ⟨upper, lower⟩ := by
  have hzero : (ofPolynomial lower).isZero = false := by
    rw [Bool.eq_false_iff]
    exact fun h => Polynomial.ne_zero_of_isConstant_eq_false hlower (Polynomial.isZero_iff.mp h)
  have hdiv : (ofPolynomial upper).div? (ofPolynomial lower)
      = some ((ofPolynomial upper).mul ⟨.one, lower⟩) := by
    rw [← normalize_eq hlower hlast (one_ne_scale hlower)]
    exact if_neg (by simp [hzero])
  rw [hdiv, mul]
  split_ifs with hzeros hf hg hcancel hcancel'
  · rcases (Bool.or_eq_true _ _).mp hzeros with h | h
    · exact absurd h (by simp [isZero, ofPolynomial, isZero_eq_false_of_ne_scale hupper])
    · exact absurd (show Polynomial.one.isZero = true from h) (by decide)
  · have hone : upper = .one := congrArg numerator (eq_one_of_isOne hf)
    rw [hone]
  · have hone : lower = .one := congrArg denominator (eq_one_of_isOne hg)
    exact absurd hlower (by rw [hone]; decide)
  · have hscale : lower.scale 1 = lower := Polynomial.toRing_injective (by simp)
    exact absurd (hcancel.trans hscale.symm) (hupper 1)
  · exact congrArg some (normalize_eq hlower hlast hupper)
  · exact absurd rfl hcancel'

end Quotients

end RationalFunction

namespace Expression

open MvPolynomial (C X)
open Text (byteLength)

/-! ## Trees of polynomials -/

/-- The tree computes to a polynomial, given in the ring, and the exponents in all its parts have
bounds. -/
structure Computes (e : Expression) (P : MvPolynomial Parameter ℚ) (n : Parameter → ℕ) : Prop where
  exactFunction_eq : ∃ f : Polynomial, e.exactFunction = .ok (.ofPolynomial f) ∧ f.toRing = P
  highest_le : ∀ p, e.highest (Pi.single p 1) ≤ n p
  lower_eq : ∀ p, (e.degrees (Pi.single p 1)).lower = 0

namespace Computes

variable {e l r : Expression} {P Q : MvPolynomial Parameter ℚ} {m n : Parameter → ℕ}

theorem upper_le (h : e.Computes P n) (p : Parameter) : (e.degrees (Pi.single p 1)).upper ≤ n p :=
  (le_max_left _ _).trans ((e.largest_degrees_le _).trans (h.highest_le p))

theorem mono (h : e.Computes P m) (hmn : m ≤ n) : e.Computes P n :=
  { h with highest_le := fun p => (h.highest_le p).trans (hmn p) }

theorem number (q : ℚ) : (Expression.number q).Computes (C q) 0 where
  exactFunction_eq := ⟨.constant q, rfl, Polynomial.toRing_constant q⟩
  highest_le _ := le_rfl
  lower_eq _ := rfl

theorem parameter (q : Parameter) :
    (Expression.parameter q).Computes (X q) (Finsupp.single q 1) where
  exactFunction_eq := ⟨.ofParameter q, rfl, Polynomial.toRing_ofParameter q⟩
  highest_le p := by
    change (Pi.single p 1 : Parameter → ℕ) q ≤ Finsupp.single q 1 p
    rw [Finsupp.single_apply, Pi.single_apply]
  lower_eq _ := rfl

theorem neg (h : e.Computes P n) : e.neg.Computes (-P) n where
  exactFunction_eq := by
    obtain ⟨f, hf, rfl⟩ := h.exactFunction_eq
    refine ⟨f.neg, ?_, Polynomial.toRing_neg f⟩
    rw [exactFunction, hf]
    rfl
  highest_le := h.highest_le
  lower_eq := h.lower_eq

theorem add (hl : l.Computes P n) (hr : r.Computes Q n) : (l.add r).Computes (P + Q) n where
  exactFunction_eq := by
    obtain ⟨f, hf, rfl⟩ := hl.exactFunction_eq
    obtain ⟨g, hg, rfl⟩ := hr.exactFunction_eq
    refine ⟨f.add g, ?_, Polynomial.toRing_add f g⟩
    rw [exactFunction, hf, hg, ← RationalFunction.ofPolynomial_add]
    rfl
  highest_le p := by
    refine max_le (max_le (hl.highest_le p) (hr.highest_le p)) ?_
    simpa [Degrees.largest, Degrees.add, hl.lower_eq p, hr.lower_eq p]
      using ⟨hl.upper_le p, hr.upper_le p⟩
  lower_eq p := by
    simp [degrees, Degrees.add, hl.lower_eq p, hr.lower_eq p]

theorem sub (hl : l.Computes P n) (hr : r.Computes Q n) : (l.sub r).Computes (P - Q) n where
  exactFunction_eq := by
    obtain ⟨f, hf, rfl⟩ := hl.exactFunction_eq
    obtain ⟨g, hg, rfl⟩ := hr.exactFunction_eq
    refine ⟨f.sub g, ?_, Polynomial.toRing_sub f g⟩
    rw [exactFunction, hf, hg, ← RationalFunction.ofPolynomial_sub]
    rfl
  highest_le := (hl.add hr).highest_le
  lower_eq := (hl.add hr).lower_eq

theorem mul (hl : l.Computes P m) (hr : r.Computes Q n) :
    (l.mul r).Computes (P * Q) (m + n) where
  exactFunction_eq := by
    obtain ⟨f, hf, rfl⟩ := hl.exactFunction_eq
    obtain ⟨g, hg, rfl⟩ := hr.exactFunction_eq
    refine ⟨f.mul g, ?_, Polynomial.toRing_mul f g⟩
    rw [exactFunction, hf, hg, ← RationalFunction.ofPolynomial_mul]
    rfl
  highest_le p := by
    have hm := hl.highest_le p
    have hn := hr.highest_le p
    refine max_le (max_le (hm.trans (Nat.le_add_right _ _)) (hn.trans (Nat.le_add_left _ _))) ?_
    simpa [Degrees.largest, Degrees.mul, hl.lower_eq p, hr.lower_eq p]
      using Nat.add_le_add (hl.upper_le p) (hr.upper_le p)
  lower_eq p := by
    simp [degrees, Degrees.mul, hl.lower_eq p, hr.lower_eq p]

theorem div {d : ℚ} (hl : l.Computes P n) (offset : Nat) (hd : d ≠ 0) :
    (l.div offset (.number d)).Computes (P * C d⁻¹) n where
  exactFunction_eq := by
    obtain ⟨f, hf, rfl⟩ := hl.exactFunction_eq
    refine ⟨f.scale d⁻¹, ?_, Polynomial.toRing_scale f d⁻¹⟩
    rw [exactFunction, hf]
    simp only [exactFunction, bind, Except.bind, RationalFunction.ofPolynomial_div? f hd]
    rfl
  highest_le p := by
    refine max_le (max_le (hl.highest_le p) (Nat.zero_le _)) ?_
    simpa [Degrees.largest, Degrees.mul, Degrees.inverse, degrees, hl.lower_eq p]
      using hl.upper_le p
  lower_eq p := by
    simp [degrees, Degrees.mul, Degrees.inverse, hl.lower_eq p]

theorem pow (h : e.Computes P n) (offset : Nat) {k : Nat} (hk : k ≠ 0) (hlimit : k < exponentLimit) :
    (e.pow offset k).Computes (P ^ k) (k • n) where
  exactFunction_eq := by
    obtain ⟨f, hf, rfl⟩ := h.exactFunction_eq
    refine ⟨f.pow k, ?_, Polynomial.toRing_pow f k⟩
    rw [exactFunction, hf, ← RationalFunction.ofPolynomial_pow]
    exact if_pos hlimit
  highest_le p := by
    have hbase : n p ≤ k * n p := Nat.le_mul_of_pos_left _ (Nat.pos_of_ne_zero hk)
    refine max_le ((h.highest_le p).trans hbase) ?_
    simpa [Degrees.largest, Degrees.pow, h.lower_eq p] using Nat.mul_le_mul_left k (h.upper_le p)
  lower_eq p := by
    simp [degrees, Degrees.pow, h.lower_eq p]

/-- A tree whose exponents fit is computed with checks. -/
theorem toFunction_eq {f : Polynomial} (h : e.Computes f.toRing n) (hn : ∀ p, n p < exponentLimit) :
    e.toFunction = .ok (.ofPolynomial f) := by
  obtain ⟨g, hg, hring⟩ := h.exactFunction_eq
  rw [Expression.toFunction_eq fun p => (h.highest_le p).trans_lt (hn p), hg,
    Polynomial.toRing_injective hring]

end Computes

/-! ## Texts of polynomials -/

/-- Wherever the text `t` stands, it writes a tree that computes to the polynomial `P`. -/
def Spells (level : Level) (t : List Char) (P : MvPolynomial Parameter ℚ) (n : Parameter → ℕ) :
    Prop :=
  ∀ start, ∃ e, Written level start e t ∧ e.Computes P n

namespace Spells

variable {t u : List Char} {P Q : MvPolynomial Parameter ℚ} {m n : Parameter → ℕ}

theorem mono (h : Spells level t P m) (hmn : m ≤ n) : Spells level t P n := fun start =>
  let ⟨e, hw, hc⟩ := h start
  ⟨e, hw, hc.mono hmn⟩

theorem number {q : ℚ} (h : Numeral t q) : Spells .atom t (C q) 0 := fun _ =>
  ⟨_, .number h, .number q⟩

theorem parameter (p : Parameter) : Spells .atom p.name.toList (X p) (Finsupp.single p 1) :=
  fun _ => ⟨_, .parameter p, .parameter p⟩

theorem ofAtom (h : Spells .atom t P n) : Spells .operand t P n := fun start =>
  let ⟨e, hw, hc⟩ := h start
  ⟨e, .ofPower (.ofAtom hw), hc⟩

theorem ofOperand (h : Spells .operand t P n) : Spells .product t P n := fun start =>
  let ⟨e, hw, hc⟩ := h start
  ⟨e, .ofOperand hw, hc⟩

theorem ofProduct (h : Spells .product t P n) : Spells .sum t P n := fun start =>
  let ⟨e, hw, hc⟩ := h start
  ⟨e, .ofProduct hw, hc⟩

theorem pow (h : Spells .atom t P n) {k : Nat} (hk : k ≠ 0) (hlimit : k < exponentLimit) :
    Spells .operand (t ++ '^' :: k.repr.toList) (P ^ k) (k • n) := by
  intro start
  obtain ⟨e, hw, hc⟩ := h start
  have hpow := Written.pow hw blanks_nil blanks_nil (Coefficient.digits_repr k)
    (by rwa [Coefficient.ofDigitChars_repr])
  rw [Coefficient.ofDigitChars_repr, List.append_nil, List.append_assoc] at hpow
  exact ⟨_, .ofPower hpow, hc.pow _ hk hlimit⟩

theorem neg (h : Spells .operand t P n) : Spells .operand ('-' :: t) (-P) n := by
  intro start
  obtain ⟨e, hw, hc⟩ := h (start + byteLength ['-'])
  exact ⟨.neg e, .neg blanks_nil hw, hc.neg⟩

theorem mul (hl : Spells .product t P m) (hr : Spells .operand u Q n) :
    Spells .product (t ++ '*' :: u) (P * Q) (m + n) := by
  intro start
  obtain ⟨l, hwl, hcl⟩ := hl start
  obtain ⟨r, hwr, hcr⟩ := hr (start + byteLength (t ++ [] ++ ['*']))
  have hw := Written.mul hwl blanks_nil blanks_nil hwr
  rw [List.append_nil, List.append_assoc] at hw
  exact ⟨.mul l r, hw, hcl.mul hcr⟩

theorem div {d : ℚ} (hl : Spells .product t P n) (hr : Numeral u d) (hd : d ≠ 0) :
    Spells .product (t ++ '/' :: u) (P * C d⁻¹) n := by
  intro start
  obtain ⟨l, hwl, hcl⟩ := hl start
  have hw := Written.div hwl blanks_nil blanks_nil (.ofPower (.ofAtom (.number hr)))
  rw [List.append_nil, List.append_assoc] at hw
  exact ⟨_, hw, hcl.div _ hd⟩

theorem add (hl : Spells .sum t P n) (hr : Spells .product u Q n) :
    Spells .sum (t ++ [' ', '+', ' '] ++ u) (P + Q) n := by
  intro start
  have hblank : Blanks [' '] := blanks_singleton (by decide)
  obtain ⟨l, hwl, hcl⟩ := hl start
  obtain ⟨r, hwr, hcr⟩ := hr (start + byteLength (t ++ [' '] ++ ['+', ' ']))
  have hw := Written.add hwl hblank hblank hwr
  rw [List.append_assoc t] at hw
  exact ⟨.add l r, hw, hcl.add hcr⟩

theorem sub (hl : Spells .sum t P n) (hr : Spells .product u Q n) :
    Spells .sum (t ++ [' ', '-', ' '] ++ u) (P - Q) n := by
  intro start
  have hblank : Blanks [' '] := blanks_singleton (by decide)
  obtain ⟨l, hwl, hcl⟩ := hl start
  obtain ⟨r, hwr, hcr⟩ := hr (start + byteLength (t ++ [' '] ++ ['-', ' ']))
  have hw := Written.sub hwl hblank hblank hwr
  rw [List.append_assoc t] at hw
  exact ⟨.sub l r, hw, hcl.sub hcr⟩

/-- A text that spells a polynomial in parentheses. -/
theorem parenthesis (h : Spells .sum t P n) : Spells .operand ('(' :: t ++ [')']) P n := by
  intro start
  obtain ⟨e, hw, hc⟩ := h (start + byteLength ['('])
  have hw' := Written.parenthesis blanks_nil hw blanks_nil
  rw [List.append_nil] at hw'
  exact ⟨e, .ofPower (.ofAtom hw'), hc⟩

end Spells

/-- A term can stand with and without a minus sign in front, which the grammar gives to its first
factor. -/
def SpellsTerm (t : List Char) (P : MvPolynomial Parameter ℚ) (d : Parameter →₀ ℕ) : Prop :=
  Spells .product t P d ∧ Spells .product ('-' :: t) (-P) d

section Terms

variable {t u : List Char} {P Q : MvPolynomial Parameter ℚ} {c d : Parameter →₀ ℕ}

theorem SpellsTerm.ofOperand (h : Spells .operand t P d) : SpellsTerm t P d :=
  ⟨h.ofOperand, h.neg.ofOperand⟩

theorem SpellsTerm.mul (hl : SpellsTerm t P c) (hr : Spells .operand u Q d) :
    SpellsTerm (t ++ '*' :: u) (P * Q) (c + d) := by
  unfold SpellsTerm
  rw [Finsupp.coe_add, ← neg_mul]
  exact ⟨hl.1.mul hr, hl.2.mul hr⟩

theorem SpellsTerm.div {x : ℚ} (hl : SpellsTerm t P d) (hr : Numeral u x) (hx : x ≠ 0) :
    SpellsTerm (t ++ '/' :: u) (P * C x⁻¹) d :=
  ⟨hl.1.div hr hx, neg_mul P (C x⁻¹) ▸ hl.2.div hr hx⟩

theorem spellsTerm_number {q : ℚ} (h : Numeral t q) : SpellsTerm t (C q) 0 :=
  .ofOperand (Spells.number h).ofAtom

theorem spellsTerm_coefficient {q : ℚ} (hq : 0 ≤ q) :
    SpellsTerm (Coefficient.write q).toList (C q) 0 := by
  rcases Coefficient.numeral_or_fraction hq with h | ⟨t, u, n, d, ht, hu, hd, rfl, htext⟩
  · exact spellsTerm_number h
  · rw [htext, div_eq_mul_inv, MvPolynomial.C_mul]
    exact (spellsTerm_number ht).div hu hd

theorem spells_power {e : Parameter × Nat} (hzero : e.2 ≠ 0) (he : e.2 < exponentLimit) :
    Spells .operand (Monomial.writePower e).toList (X e.1 ^ e.2) (Finsupp.single e.1 e.2) := by
  unfold Monomial.writePower
  split_ifs with hone
  · rw [hone, pow_one]
    exact (Spells.parameter e.1).ofAtom
  · have h := (Spells.parameter e.1).pow hzero he
    rw [← Finsupp.coe_smul, Finsupp.smul_single_one] at h
    simpa using h

/-- The powers of a monomial are multiplied one after another. -/
theorem SpellsTerm.mul_powers {e : Parameter × Nat} {es : List (Parameter × Nat)}
    (h : SpellsTerm t P d) (hfit : ∀ x ∈ e :: es, x.2 ≠ 0 ∧ x.2 < exponentLimit) :
    SpellsTerm
      (t ++ '*' :: ['*'].intercalate ((e :: es).map fun x => (Monomial.writePower x).toList))
      (P * ((e :: es).map fun x => X x.1 ^ x.2).prod)
      (d + ((e :: es).map fun x => Finsupp.single x.1 x.2).sum) := by
  induction es generalizing t P d e with
  | nil =>
      obtain ⟨hzero, hlimit⟩ := hfit e List.mem_cons_self
      simpa using h.mul (spells_power hzero hlimit)
  | cons e' es ih =>
      obtain ⟨hzero, hlimit⟩ := hfit e List.mem_cons_self
      have hrest := ih (h.mul (spells_power hzero hlimit)) fun x hx =>
        hfit x (List.mem_cons_of_mem e hx)
      simpa [List.intercalate_cons_cons, mul_assoc, add_assoc] using hrest

theorem spellsTerm_powers {e : Parameter × Nat} {es : List (Parameter × Nat)}
    (hfit : ∀ x ∈ e :: es, x.2 ≠ 0 ∧ x.2 < exponentLimit) :
    SpellsTerm (['*'].intercalate ((e :: es).map fun x => (Monomial.writePower x).toList))
      ((e :: es).map fun x => X x.1 ^ x.2).prod
      ((e :: es).map fun x => Finsupp.single x.1 x.2).sum := by
  obtain ⟨hzero, hlimit⟩ := hfit e List.mem_cons_self
  have hpower := SpellsTerm.ofOperand (spells_power hzero hlimit)
  cases es with
  | nil => simpa using hpower
  | cons e' es =>
      have hrest := hpower.mul_powers fun x hx => hfit x (List.mem_cons_of_mem e hx)
      simpa [List.intercalate_cons_cons] using hrest

/-- A term is spelled with the magnitude of its coefficient. -/
theorem spellsTerm_writeTerm {s : Polynomial.Term} (hfit : s.1.ExponentsFit) :
    SpellsTerm (Polynomial.writeTerm s).toList (MvPolynomial.monomial s.1.toExponents |s.2|)
      s.1.toExponents := by
  have hmagnitude : (if s.2 < 0 then -s.2 else s.2) = |s.2| := by
    split_ifs with h
    · exact (abs_of_neg h).symm
    · exact (abs_of_nonneg (not_lt.mp h)).symm
  have htext : s.1.write.toList
      = ['*'].intercalate (s.1.powers.entries.map fun x => (Monomial.writePower x).toList) := by
    simp [Monomial.write, Text.join, String.toList_intercalate, Function.comp_def]
  have hpositive : ∀ x ∈ s.1.powers.entries, x.2 ≠ 0 ∧ x.2 < exponentLimit := fun x hx =>
    ⟨s.1.powers.nonzero x hx, hfit x hx⟩
  have hexponents : s.1.toExponents
      = (s.1.powers.entries.map fun x => Finsupp.single x.1 x.2).sum := rfl
  have hcoefficient := spellsTerm_coefficient (abs_nonneg s.2)
  rw [MvPolynomial.monomial_eq, Monomial.prod_toExponents, Polynomial.writeTerm, hmagnitude,
    Monomial.isUnit, Sparse.isZero, hexponents]
  cases hpowers : s.1.powers.entries with
  | nil => simpa using hcoefficient
  | cons e es =>
      rw [hpowers] at hpositive htext
      rw [if_neg (by simp)]
      split_ifs with hone
      · rw [hone, MvPolynomial.C_1, one_mul, htext]
        exact spellsTerm_powers hpositive
      · have h := hcoefficient.mul_powers hpositive
        simpa [htext] using h

/-- The value of a term. -/
noncomputable def termValue (s : Polynomial.Term) : MvPolynomial Parameter ℚ :=
  MvPolynomial.monomial s.1.toExponents s.2

theorem termValue_of_neg {s : Polynomial.Term} (hs : s.2 < 0) :
    termValue s = -MvPolynomial.monomial s.1.toExponents |s.2| := by
  rw [termValue, abs_of_neg hs, ← map_neg, neg_neg]

theorem termValue_of_nonneg {s : Polynomial.Term} (hs : ¬s.2 < 0) :
    termValue s = MvPolynomial.monomial s.1.toExponents |s.2| := by
  rw [termValue, abs_of_nonneg (not_lt.mp hs)]

/-- Further terms are added or subtracted by the sign of their coefficients. -/
theorem Spells.add_terms {n : Parameter → ℕ} {terms : List Polynomial.Term} {text : String}
    (h : Spells .sum text.toList P n)
    (hfit : ∀ s ∈ terms, s.1.ExponentsFit ∧ ⇑s.1.toExponents ≤ n) :
    Spells .sum
      (terms.foldl (fun text s => text ++ (if s.2 < 0 then " - " else " + ") ++
        Polynomial.writeTerm s) text).toList
      (P + (terms.map termValue).sum) n := by
  induction terms generalizing text P with
  | nil => simpa using h
  | cons s terms ih =>
      obtain ⟨hs, hle⟩ := hfit s List.mem_cons_self
      have hterm := (spellsTerm_writeTerm hs).1.mono hle
      rw [List.foldl_cons, List.map_cons, List.sum_cons, ← add_assoc]
      refine ih ?_ fun s' hs' => hfit s' (List.mem_cons_of_mem s hs')
      by_cases hs : s.2 < 0
      · rw [if_pos hs, termValue_of_neg hs, ← sub_eq_add_neg]
        simpa using h.sub hterm
      · rw [if_neg hs, termValue_of_nonneg hs]
        simpa using h.add hterm

end Terms

/-- The text of a polynomial spells the polynomial. -/
theorem spells_text {f : Polynomial} (hfit : f.ExponentsFit) :
    Spells .sum f.text.toList f.toRing fun _ => exponentLimit - 1 := by
  have hperm : f.printedTerms.Perm f.terms.entries := List.mergeSort_perm _ _
  have hring : f.toRing = (f.printedTerms.map termValue).sum :=
    (hperm.map termValue).sum_eq.symm
  have hfit' : ∀ s ∈ f.printedTerms,
      s.1.ExponentsFit ∧ ⇑s.1.toExponents ≤ fun _ => exponentLimit - 1 := by
    intro s hs
    have hs := hfit s (hperm.subset hs)
    exact ⟨hs, fun p => Nat.le_sub_one_of_lt (Monomial.exponentsFit_iff.mp hs p)⟩
  rw [hring, Polynomial.text]
  cases hterms : f.printedTerms with
  | nil =>
      have hzero : Numeral ['0'] 0 := Numeral.whole (digits_singleton (by decide))
      have hspells := (Spells.number hzero).ofAtom.ofOperand.ofProduct
      simpa using hspells.mono fun _ => Nat.zero_le _
  | cons s terms =>
      rw [hterms] at hfit'
      obtain ⟨hfirst, hle⟩ := hfit' s List.mem_cons_self
      have hterm := spellsTerm_writeTerm hfirst
      rw [List.map_cons, List.sum_cons]
      refine Spells.add_terms ?_ fun s' hs' => hfit' s' (List.mem_cons_of_mem s hs')
      refine (Spells.ofProduct ?_).mono hle
      by_cases hs : s.2 < 0
      · rw [if_pos hs, termValue_of_neg hs]
        simpa using hterm.2
      · rw [if_neg hs, termValue_of_nonneg hs]
        simpa using hterm.1

theorem isWritten_of_written {e : Expression} {text : String}
    (h : Written .sum 0 e text.toList) : IsWritten e text :=
  ⟨[], text.toList, [], blanks_nil, h, blanks_nil, by simp⟩

/-- The quotient of two polynomials in normal form. -/
theorem toFunction_div {l r : Expression} {offset : Nat} {upper lower : Polynomial}
    {n : Parameter → ℕ} (hl : l.Computes upper.toRing n) (hr : r.Computes lower.toRing n)
    (hn : ∀ p, n p < exponentLimit) {f : RationalFunction}
    (hdiv : (RationalFunction.ofPolynomial upper).div? (.ofPolynomial lower) = some f) :
    (l.div offset r).toFunction = .ok f := by
  have hbounded : (l.div offset r).ExponentsBounded := by
    intro p
    refine max_lt (max_lt ((hl.highest_le p).trans_lt (hn p)) ((hr.highest_le p).trans_lt (hn p))) ?_
    simpa [Degrees.largest, Degrees.mul, Degrees.inverse, hl.lower_eq p, hr.lower_eq p]
      using ⟨(hl.upper_le p).trans_lt (hn p), (hr.upper_le p).trans_lt (hn p)⟩
  obtain ⟨g, hg, hgring⟩ := hl.exactFunction_eq
  obtain ⟨k, hk, hkring⟩ := hr.exactFunction_eq
  obtain rfl := Polynomial.toRing_injective hgring
  obtain rfl := Polynomial.toRing_injective hkring
  rw [toFunction_eq hbounded, exactFunction, hg, hk]
  simp only [bind, Except.bind, hdiv]
  rfl

end Expression

namespace RationalFunction

open Expression (Spells IsWritten blanks_nil)

variable {f : RationalFunction}

/-- The text of a function in normal form writes a tree of this function. -/
theorem Normal.exists_isWritten (hf : f.Normal) (hfit : f.ExponentsFit) :
    ∃ e, IsWritten e f.text ∧ e.toFunction = .ok f := by
  have hlimit : ∀ _ : Parameter, exponentLimit - 1 < exponentLimit := fun _ => by decide
  cases hf with
  | polynomial g =>
      obtain ⟨e, hw, hc⟩ := Expression.spells_text hfit.1 0
      exact ⟨e, Expression.isWritten_of_written hw, hc.toFunction_eq hlimit⟩
  | @quotient upper lower hlower hlast hupper =>
      have htext : (text ⟨upper, lower⟩).toList
          = '(' :: upper.text.toList ++ [')'] ++ ['/']
            ++ ('(' :: lower.text.toList ++ [')']) := by
        have hone : lower.isOne = false := by
          rw [Bool.eq_false_iff]
          intro h
          rw [Polynomial.isOne_iff.mp h] at hlower
          exact absurd hlower (by decide)
        simp [text, hone]
      have hupperfit : upper.ExponentsFit := hfit.1
      have hlowerfit : lower.ExponentsFit := hfit.2
      obtain ⟨l, hwl, hcl⟩ := (Expression.spells_text hupperfit).parenthesis 0
      obtain ⟨r, hwr, hcr⟩ := (Expression.spells_text hlowerfit).parenthesis _
      have hw := Expression.Written.ofProduct
        (.div (.ofOperand hwl) blanks_nil blanks_nil hwr)
      rw [List.append_nil, ← htext] at hw
      exact ⟨_, Expression.isWritten_of_written hw, Expression.toFunction_div hcl hcr hlimit
        (ofPolynomial_div?_ofPolynomial hlower hlast hupper)⟩

/-- Reading the text of a function in normal form. -/
theorem Normal.read_text (hf : f.Normal) (hfit : f.ExponentsFit) : read f.text = .ok f := by
  obtain ⟨e, hw, hfun⟩ := hf.exists_isWritten hfit
  exact (read_of_tree (Expression.read_eq_of_isWritten hw)).trans hfun

/-- What is written of a function that the operations build is read as the same function.  It is
written exactly if the terms of numerator and denominator can be put in order; otherwise writing
stops. -/
theorem read_write_of_built (hf : f.Built) (hfit : f.ExponentsFit) :
    (f.Printable → ∃ text, f.write = .ok text ∧ read text = .ok f) ∧
    (¬ f.Printable → f.write = .error .overflow) := by
  rw [write_eq]
  constructor
  · exact fun hprint => ⟨f.text, stopUnless_of hprint, hf.normal.read_text hfit⟩
  · exact stopUnless_of_not

/-- The loss rate of a channel. -/
def lossRate : Parameter := ⟨"l", by decide⟩

/-- A quotient whose coefficients are a fraction, a decimal and an integer. -/
def lossQuotient : RationalFunction :=
  ⟨(((Polynomial.ofParameter lossRate).pow 2).scale (-1 / 3)).add (.constant (1 / 4)),
    (Polynomial.ofParameter lossRate).add (.constant 7)⟩

theorem read_write_of_built_lossQuotient :
    lossQuotient.Built ∧ lossQuotient.ExponentsFit ∧ lossQuotient.Printable ∧
      lossQuotient.write = .ok "(-1/3*l^2 + 0.25)/(l + 7)" ∧
      read "(-1/3*l^2 + 0.25)/(l + 7)" = .ok lossQuotient := by
  have hbuilt : lossQuotient.Built :=
    .ofQuotient (show ofQuotient lossQuotient.numerator lossQuotient.denominator = _ by
      decide +kernel)
  have hfit : lossQuotient.ExponentsFit := by
    decide +kernel
  have hprint : lossQuotient.Printable := by
    decide +kernel
  have hwrite : lossQuotient.write = .ok "(-1/3*l^2 + 0.25)/(l + 7)" := by
    cbv
  obtain ⟨text, htext, hread⟩ := (read_write_of_built hbuilt hfit).1 hprint
  obtain rfl := Except.ok.inj (htext.symm.trans hwrite)
  exact ⟨hbuilt, hfit, hprint, hwrite, hread⟩

end RationalFunction

/-! ## A degree that is too large -/

section LongTerm

open RationalFunction.Composition (fee rate)
open MvPolynomial (X)

/-- The exponent `65536 * 65535`. -/
def longExponent : Nat := 4294901760

/-- The product of powers of two parameters.  Both exponents can be stored, their sum cannot. -/
def longMonomial : Monomial := ⟨.ofList [(fee, longExponent), (rate, longExponent)]⟩

/-- The monomial as a polynomial. -/
def longTerm : Polynomial := ⟨.ofList [(longMonomial, 1)]⟩

theorem toExponents_longMonomial : longMonomial.toExponents
    = Finsupp.single fee longExponent + Finsupp.single rate longExponent :=
  (Sparse.total_ofList Finsupp.single Finsupp.single_zero Finsupp.single_add _).trans (by simp)

theorem toRing_longTerm : longTerm.toRing = X fee ^ longExponent * X rate ^ longExponent := by
  have hterm : longTerm.toRing = MvPolynomial.monomial longMonomial.toExponents 1 :=
    Sparse.total_single _ _ _ (by decide)
  rw [hterm, toExponents_longMonomial, ← mul_one 1, ← MvPolynomial.monomial_mul,
    MvPolynomial.X_pow_eq_monomial, MvPolynomial.X_pow_eq_monomial]

/-- A power of a power of a parameter, with the exponents at the given offsets. -/
def powerOfPower (p : Parameter) (first second : Nat) : Expression :=
  .pow (.pow (.parameter p) first 65536) second 65535

theorem computes_powerOfPower (p : Parameter) (first second : Nat) :
    (powerOfPower p first second).Computes (X p ^ longExponent) (Finsupp.single p longExponent) := by
  have hpower : ∀ j k : Nat, j ≠ 0 → k ≠ 0 → j < exponentLimit → k < exponentLimit →
      (Expression.pow (.pow (.parameter p) first j) second k).Computes (X p ^ (j * k))
        (Finsupp.single p (j * k)) := by
    intro j k hj hk hj' hk'
    have h := ((Expression.Computes.parameter p).pow first hj hj').pow second hk hk'
    rwa [← pow_mul, ← Finsupp.coe_smul, ← Finsupp.coe_smul, Finsupp.smul_single,
      Finsupp.smul_single, smul_eq_mul, smul_eq_mul, mul_one, mul_comm k j] at h
  have hproduct : longExponent = 65536 * 65535 := by decide
  rw [hproduct]
  exact hpower _ _ (by decide) (by decide) (by decide) (by decide)

/-- The monomial as a product of powers of powers. -/
theorem computes_longTerm (a b c d : Nat) :
    ((powerOfPower fee a b).mul (powerOfPower rate c d)).Computes longTerm.toRing
      longMonomial.toExponents := by
  rw [toRing_longTerm, toExponents_longMonomial, Finsupp.coe_add]
  exact (computes_powerOfPower fee a b).mul (computes_powerOfPower rate c d)

theorem longMonomial_fits (p : Parameter) : longMonomial.toExponents p < exponentLimit := by
  have hfit : longMonomial.ExponentsFit := by decide +kernel
  exact Monomial.exponentsFit_iff.mp hfit p

/-- A text is read as a function that is built by the operations and whose exponents can be stored.
It cannot be written, because the degree of its first term is too large. -/
theorem RationalFunction.write_of_longTerm :
    ∃ f, read "(fee^65536)^65535*(rate^65536)^65535+1" = .ok f ∧ f.Built ∧ f.ExponentsFit ∧
      f.write = .error .overflow := by
  have htree : Expression.read "(fee^65536)^65535*(rate^65536)^65535+1"
      = .ok (.add (.mul (powerOfPower fee 5 12) (powerOfPower rate 24 31)) (.number 1)) := by
    decide +kernel
  have hcomputes := (computes_longTerm 5 12 24 31).add
    ((Expression.Computes.number 1).mono fun _ => Nat.zero_le _)
  rw [← Polynomial.toRing_constant, ← Polynomial.toRing_add] at hcomputes
  have hread : read "(fee^65536)^65535*(rate^65536)^65535+1"
      = .ok (ofPolynomial (longTerm.add (.constant 1))) :=
    (read_of_tree htree).trans (hcomputes.toFunction_eq longMonomial_fits)
  refine ⟨_, hread, .ofPolynomial _, by decide +kernel, ?_⟩
  rw [write_eq]
  exact stopUnless_of_not (by decide +kernel)

end LongTerm

end MarkovRegion
