import Mathlib
import MarkovRegion.Proofs.Expression.RoundTrip

/-!
# Exponents and degrees that reach the limit

Only the exponents that a text writes are checked where it is read.  Exponents are added where
monomials are multiplied, and their sum is the degree, so both can reach `exponentLimit` although
every exponent of the text is far below it.  Then the computation stops.

What does not stop is exact.  `degrees_below_limit` says this of every function that is obtained
from texts by the operations (`Script`), together with bounds that can be read off the tree of the
texts: below them nothing stops.  For trees without minus sign and division nothing cancels, so the
bound of a degree is the degree (`exactFunction_of_positive`), and the computation stops exactly if
the bound of an exponent reaches the limit (`toFunction_of_positive`).
-/

namespace MarkovRegion

/-! ## Trees in which nothing cancels -/

namespace Polynomial

/-- Not zero, and without negative coefficients. -/
structure Positive (f : Polynomial) : Prop where
  ne_zero : f.toRing ≠ 0
  coeff_nonneg : ∀ d, 0 ≤ f.toRing.coeff d

theorem positive_constant {c : ℚ} (hc : 0 < c) : (constant c).Positive where
  ne_zero := by
    rw [toRing_constant, Ne, MvPolynomial.C_eq_zero]
    exact hc.ne'
  coeff_nonneg d := by
    rw [toRing_constant, MvPolynomial.coeff_C]
    split_ifs
    · exact hc.le
    · exact le_rfl

theorem positive_ofParameter (p : Parameter) : (ofParameter p).Positive where
  ne_zero := by
    rw [toRing_ofParameter]
    exact MvPolynomial.X_ne_zero p
  coeff_nonneg d := by
    rw [toRing_ofParameter, MvPolynomial.coeff_X]
    split_ifs
    · exact zero_le_one
    · exact le_rfl

namespace Positive

variable {f g : Polynomial}

/-- A sum of positive polynomials has the terms of both. -/
theorem support_subset (hf : f.Positive) (hg : g.Positive) :
    f.toRing.support ⊆ (f.add g).toRing.support := by
  intro d hd
  rw [MvPolynomial.mem_support_iff] at hd ⊢
  rw [toRing_add, MvPolynomial.coeff_add]
  exact (add_pos_of_pos_of_nonneg ((hf.coeff_nonneg d).lt_of_ne' hd) (hg.coeff_nonneg d)).ne'

theorem add (hf : f.Positive) (hg : g.Positive) : (f.add g).Positive where
  ne_zero hzero := by
    have hsubset := hf.support_subset hg
    rw [hzero, MvPolynomial.support_zero, Finset.subset_empty, MvPolynomial.support_eq_empty]
      at hsubset
    exact hf.ne_zero hsubset
  coeff_nonneg d := by
    rw [toRing_add, MvPolynomial.coeff_add]
    exact add_nonneg (hf.coeff_nonneg d) (hg.coeff_nonneg d)

theorem mul (hf : f.Positive) (hg : g.Positive) : (f.mul g).Positive where
  ne_zero := by
    rw [toRing_mul]
    exact mul_ne_zero_iff.mpr ⟨hf.ne_zero, hg.ne_zero⟩
  coeff_nonneg d := by
    rw [toRing_mul, MvPolynomial.coeff_mul]
    exact Finset.sum_nonneg fun s _ => mul_nonneg (hf.coeff_nonneg s.1) (hg.coeff_nonneg s.2)

theorem pow (hf : f.Positive) (n : Nat) : (f.pow n).Positive := by
  induction n with
  | zero => exact positive_constant one_pos
  | succ n ih => exact ih.mul hf

/-- A product of positive polynomials has the products of all terms. -/
theorem add_mem_support (hf : f.Positive) (hg : g.Positive) {c d : Parameter →₀ ℕ}
    (hc : c ∈ f.toRing.support) (hd : d ∈ g.toRing.support) :
    c + d ∈ (f.mul g).toRing.support := by
  rw [MvPolynomial.mem_support_iff] at hc hd ⊢
  have hterm : 0 < f.toRing.coeff c * g.toRing.coeff d :=
    mul_pos ((hf.coeff_nonneg c).lt_of_ne' hc) ((hg.coeff_nonneg d).lt_of_ne' hd)
  have hsum : f.toRing.coeff c * g.toRing.coeff d ≤ (f.mul g).toRing.coeff (c + d) := by
    rw [toRing_mul, MvPolynomial.coeff_mul]
    have hmem : (c, d) ∈ Finset.HasAntidiagonal.antidiagonal (c + d) :=
      Finset.HasAntidiagonal.mem_antidiagonal.mpr rfl
    exact Finset.single_le_sum
      (f := fun x : (Parameter →₀ ℕ) × (Parameter →₀ ℕ) =>
        f.toRing.coeff x.1 * g.toRing.coeff x.2)
      (fun x _ => mul_nonneg (hf.coeff_nonneg x.1) (hg.coeff_nonneg x.2)) hmem
  exact (hterm.trans_le hsum).ne'

end Positive

/-- A term has the given degree by a weight of the parameters. -/
def Attains (w : Parameter → ℕ) (f : Polynomial) (n : ℕ) : Prop :=
  ∃ d ∈ f.toRing.support, d.weight w = n

section Attains

variable {f g : Polynomial} {w : Parameter → ℕ} {m n : ℕ}

theorem attains_constant {c : ℚ} (hc : c ≠ 0) : (constant c).Attains w 0 := by
  refine ⟨0, ?_, map_zero _⟩
  rw [toRing_constant, MvPolynomial.mem_support_iff, MvPolynomial.coeff_zero_C]
  exact hc

theorem attains_ofParameter (p : Parameter) : (ofParameter p).Attains w (w p) := by
  refine ⟨Finsupp.single p 1, ?_, by rw [Finsupp.weight_single, one_smul]⟩
  rw [toRing_ofParameter, MvPolynomial.support_X]
  exact Finset.mem_singleton_self _

theorem Attains.add (hf : f.Positive) (hg : g.Positive) (hm : f.Attains w m)
    (hn : g.Attains w n) : (f.add g).Attains w (max m n) := by
  rcases max_choice m n with hmax | hmax
  · obtain ⟨d, hd, rfl⟩ := hm
    exact ⟨d, hf.support_subset hg hd, hmax.symm⟩
  · obtain ⟨d, hd, rfl⟩ := hn
    have hsubset := hg.support_subset hf
    rw [toRing_add, add_comm, ← toRing_add] at hsubset
    exact ⟨d, hsubset hd, hmax.symm⟩

theorem Attains.mul (hf : f.Positive) (hg : g.Positive) (hm : f.Attains w m)
    (hn : g.Attains w n) : (f.mul g).Attains w (m + n) := by
  obtain ⟨c, hc, rfl⟩ := hm
  obtain ⟨d, hd, rfl⟩ := hn
  exact ⟨c + d, hf.add_mem_support hg hc hd, map_add _ c d⟩

theorem Attains.pow (hf : f.Positive) (hm : f.Attains w m) (k : Nat) :
    (f.pow k).Attains w (k * m) := by
  induction k with
  | zero =>
      show (constant 1).Attains w (0 * m)
      rw [Nat.zero_mul]
      exact attains_constant one_ne_zero
  | succ k ih =>
      rw [Nat.add_one_mul]
      exact ih.mul (hf.pow k) hf hm

/-- The exponents of a parameter are below the limit if they can be stored. -/
theorem ExponentsFit.lt_of_attains (hfit : f.ExponentsFit) {p : Parameter}
    (h : f.Attains (Pi.single p 1) n) : n < exponentLimit := by
  obtain ⟨d, hd, rfl⟩ := h
  obtain ⟨t, ht, rfl⟩ := mem_support_toRing.mp hd
  rw [Finsupp.weight_single_one_apply]
  exact exponentsFit_iff.mp hfit t ht p

end Attains

end Polynomial

namespace Expression

variable {e : Expression}

/-- Trees without minus sign and division, whose numbers are positive. -/
inductive Positive : Expression → Prop
  | number {q : ℚ} (hq : 0 < q) : Positive (.number q)
  | parameter (p : Parameter) : Positive (.parameter p)
  | add {l r : Expression} (hl : Positive l) (hr : Positive r) : Positive (.add l r)
  | mul {l r : Expression} (hl : Positive l) (hr : Positive r) : Positive (.mul l r)
  | pow {base : Expression} {offset exponent : Nat} (hbase : Positive base)
      (hexponent : exponent < exponentLimit) : Positive (.pow base offset exponent)

theorem lower_of_positive (he : e.Positive) (w : Parameter → ℕ) : (e.degrees w).lower = 0 := by
  induction he with
  | number _ | parameter _ => rfl
  | add _ _ ihl ihr => simp [degrees, Degrees.add, ihl, ihr]
  | mul _ _ ihl ihr => simp [degrees, Degrees.mul, ihl, ihr]
  | pow _ _ ih => simp [degrees, Degrees.pow, ih]

/-- The function of a positive tree is a polynomial of the degree that the tree shows. -/
theorem exactFunction_of_positive (he : e.Positive) :
    ∃ f : Polynomial, e.exactFunction = .ok (.ofPolynomial f) ∧ f.Positive ∧
      ∀ w, f.Attains w (e.degrees w).upper := by
  induction he with
  | @number q hq =>
      exact ⟨.constant q, rfl, Polynomial.positive_constant hq, fun w =>
        Polynomial.attains_constant hq.ne'⟩
  | parameter p =>
      exact ⟨.ofParameter p, rfl, Polynomial.positive_ofParameter p, fun w =>
        Polynomial.attains_ofParameter p⟩
  | @add l r hl hr ihl ihr =>
      obtain ⟨f, hf, hfpos, hfdeg⟩ := ihl
      obtain ⟨g, hg, hgpos, hgdeg⟩ := ihr
      refine ⟨f.add g, ?_, hfpos.add hgpos, fun w => ?_⟩
      · rw [exactFunction, hf, hg, ← RationalFunction.ofPolynomial_add]
        rfl
      · have hupper : ((l.add r).degrees w).upper
            = max (l.degrees w).upper (r.degrees w).upper := by
          simp [degrees, Degrees.add, lower_of_positive hl, lower_of_positive hr]
        exact hupper ▸ (hfdeg w).add hfpos hgpos (hgdeg w)
  | mul _ _ ihl ihr =>
      obtain ⟨f, hf, hfpos, hfdeg⟩ := ihl
      obtain ⟨g, hg, hgpos, hgdeg⟩ := ihr
      refine ⟨f.mul g, ?_, hfpos.mul hgpos, fun w => (hfdeg w).mul hfpos hgpos (hgdeg w)⟩
      rw [exactFunction, hf, hg, ← RationalFunction.ofPolynomial_mul]
      rfl
  | @pow base offset exponent _ hexponent ih =>
      obtain ⟨f, hf, hfpos, hfdeg⟩ := ih
      refine ⟨f.pow exponent, ?_, hfpos.pow exponent, fun w => (hfdeg w).pow hfpos exponent⟩
      rw [exactFunction, hf, ← RationalFunction.ofPolynomial_pow]
      exact if_pos hexponent

/-- The exponents that a positive tree shows occur in its function, so they can be stored if it is
computed. -/
theorem largest_lt_of_positive (he : e.Positive) {f : RationalFunction}
    (hf : e.toFunction = .ok f) (p : Parameter) :
    (e.degrees (Pi.single p 1)).largest < exponentLimit := by
  obtain ⟨g, hg, -, hattains⟩ := exactFunction_of_positive he
  obtain rfl := Except.ok.inj ((exactFunction_of_toFunction hf).symm.trans hg)
  have hfit := exponentsFit_of_toFunction hf
  rw [Degrees.largest, lower_of_positive he, Nat.max_zero]
  exact Polynomial.ExponentsFit.lt_of_attains hfit.1 (hattains _)

/-- The function of a positive tree is computed exactly if the bounds of the exponents of all parts
are below the limit. -/
theorem toFunction_of_positive (he : e.Positive) :
    (∃ f, e.toFunction = .ok f) ↔ e.ExponentsBounded := by
  constructor
  · rintro ⟨f, hf⟩
    have hlast := largest_lt_of_positive he hf
    induction he generalizing f with
    | number _ => exact fun _ => Nat.two_pow_pos 32
    | parameter q => exact fun p => (le_max_left _ _).trans_lt (hlast p)
    | add hl hr ihl ihr | mul hl hr ihl ihr =>
        obtain ⟨g, hg, hrest⟩ := bind_eq_ok_iff.mp hf
        obtain ⟨k, hk, -⟩ := bind_eq_ok_iff.mp hrest
        have hl' := ihl g hg (largest_lt_of_positive hl hg)
        have hr' := ihr k hk (largest_lt_of_positive hr hk)
        exact fun p => max_lt (max_lt (hl' p) (hr' p)) (hlast p)
    | pow hbase _ ih =>
        obtain ⟨g, hg, -⟩ := bind_eq_ok_iff.mp hf
        have hbase' := ih g hg (largest_lt_of_positive hbase hg)
        exact fun p => max_lt (hbase' p) (hlast p)
  · intro hbounded
    obtain ⟨f, hf, -⟩ := exactFunction_of_positive he
    exact ⟨_, (toFunction_eq hbounded).trans hf⟩

theorem toFunction_eq_overflow_iff (he : e.Positive) :
    e.toFunction = .error .overflow ↔ ¬ e.ExponentsBounded := by
  obtain ⟨f, hf, -⟩ := exactFunction_of_positive he
  have hrefines := e.refines_toFunction
  rw [hf] at hrefines
  rw [← toFunction_of_positive he]
  constructor
  · rintro hstop ⟨g, hg⟩
    rw [hstop] at hg
    cases hg
  · exact fun hnone => hrefines.resolve_left fun hok => hnone ⟨_, hok⟩

end Expression

/-! ## Functions from texts -/

namespace RationalFunction

/-- Operations on functions that are read from texts. -/
inductive Script
  | text (t : String)
  | add (l r : Script)
  | sub (l r : Script)
  | mul (l r : Script)
  | div (l r : Script)

namespace Script

/-- The tree of a script: the trees of its texts, joined by the operations. -/
def tree : Script → Except ModelError Expression
  | text t => Expression.read t
  | add l r => do return .add (← l.tree) (← r.tree)
  | sub l r => do return .sub (← l.tree) (← r.tree)
  | mul l r => do return .mul (← l.tree) (← r.tree)
  | div l r => do return .div (← l.tree) 0 (← r.tree)

/-- The function of a script.  A division by zero is refused as at the start of a text. -/
def run : Script → Except ModelError RationalFunction
  | text t => read t
  | add l r => do
    let f ← l.run
    let g ← r.run
    f.addChecked g
  | sub l r => do
    let f ← l.run
    let g ← r.run
    f.subChecked g
  | mul l r => do
    let f ← l.run
    let g ← r.run
    f.mulChecked g
  | div l r => do
    let f ← l.run
    let g ← r.run
    match ← f.divChecked? g with
    | some h => return h
    | none => throw (.expression 0 .divisionByZero)

/-- A script computes the function of its tree. -/
theorem run_eq {s : Script} {e : Expression} (h : s.tree = .ok e) : s.run = e.toFunction := by
  induction s generalizing e with
  | text t => exact read_of_tree h
  | add l r ihl ihr | sub l r ihl ihr | mul l r ihl ihr =>
      obtain ⟨a, b, ha, hb, rfl⟩ := bind₂_eq_ok_iff.mp h
      rw [run, ihl ha, ihr hb, Expression.toFunction]
  | div l r ihl ihr =>
      obtain ⟨a, b, ha, hb, rfl⟩ := bind₂_eq_ok_iff.mp h
      rw [run, ihl ha, ihr hb]
      rfl

end Script

/-- The degrees of all terms are computed, and they are the degrees of the ring. -/
def DegreesComputed (f : RationalFunction) : Prop :=
  ∀ t ∈ f.numerator.terms.entries ++ f.denominator.terms.entries,
    t.1.degree = .ok t.1.toExponents.degree

theorem degree_eq_of_ok {m : Monomial} {n : Nat} (h : m.degree = .ok n) :
    n = m.toExponents.degree := by
  rw [m.degree_eq, stopUnless_eq_ok_iff, m.totalDegree_eq] at h
  rw [Finsupp.degree_eq_weight_one]
  exact h.2.symm

theorem degree_eq_ok_iff {m : Monomial} :
    m.degree = .ok m.toExponents.degree ↔ m.toExponents.weight 1 < exponentLimit := by
  rw [m.degree_eq, stopUnless_eq_ok_iff, m.totalDegree_eq, Finsupp.degree_eq_weight_one]
  exact and_iff_left rfl

theorem degreesComputed_iff {f : RationalFunction} : f.DegreesComputed ↔
    f.TermsIn {d | d.weight 1 < exponentLimit} {d | d.weight 1 < exponentLimit} :=
  List.forall_mem_append.trans
    (and_congr (forall₂_congr fun _ _ => degree_eq_ok_iff) (forall₂_congr fun _ _ => degree_eq_ok_iff))

theorem Bounded.degreesComputed {f : RationalFunction} {a : Degrees} (hf : f.Bounded 1 a)
    (hlimit : a.largest < exponentLimit) : f.DegreesComputed := by
  obtain ⟨hupper, hlower⟩ := max_lt_iff.mp hlimit
  refine degreesComputed_iff.mpr ⟨fun t ht => ?_, fun t ht => ?_⟩
  · exact lt_of_le_of_lt (hf.upper t ht) hupper
  · exact lt_of_le_of_lt (hf.lower t ht) hlower

/-- For a positive tree the bound of the degree is the degree. -/
theorem degreesComputed_of_positive {e : Expression} (he : e.Positive) {f : RationalFunction}
    (hf : e.exactFunction = .ok f) : f.DegreesComputed ↔ (e.degrees 1).upper < exponentLimit := by
  constructor
  · intro hcomputed
    obtain ⟨g, hg, -, hattains⟩ := Expression.exactFunction_of_positive he
    obtain rfl := Except.ok.inj (hf.symm.trans hg)
    obtain ⟨d, hd, hdegree⟩ := hattains 1
    obtain ⟨t, ht, rfl⟩ := Polynomial.mem_support_toRing.mp hd
    rw [← hdegree]
    exact (degreesComputed_iff.mp hcomputed).1 t ht
  · intro hlimit
    refine (Expression.bounded_of_exactFunction hf).degreesComputed ?_
    rwa [Degrees.largest, Expression.lower_of_positive he, Nat.max_zero]

/-- When exponents and degrees are below the limit.  A function that is obtained from texts by the
operations is the exact one, its exponents can be stored, and the degrees that are computed of its
terms are exact.  Nothing stops the computation if the tree of the texts bounds the exponents of all
its parts by less than the limit, and the degrees of all terms are computed if it bounds the degrees
of all parts so.  For positive trees these bounds are necessary: the computation stops exactly if the
bound of an exponent reaches the limit, and otherwise all degrees are computed exactly if the bound
of the degree is below the limit. -/
theorem degrees_below_limit {s : Script} {e : Expression} (he : s.tree = .ok e) :
    (∀ f, s.run = .ok f → e.exactFunction = .ok f ∧ f.ExponentsFit ∧
      ∀ t ∈ f.numerator.terms.entries ++ f.denominator.terms.entries,
        ∀ n, t.1.degree = .ok n → n = t.1.toExponents.degree) ∧
    (e.ExponentsBounded → s.run = e.exactFunction) ∧
    (e.highest 1 < exponentLimit →
      s.run = e.exactFunction ∧ ∀ f, s.run = .ok f → f.DegreesComputed) ∧
    (e.Positive →
      (s.run = .error .overflow ↔ ¬ e.ExponentsBounded) ∧
      ∀ f, s.run = .ok f → (f.DegreesComputed ↔ (e.degrees 1).upper < exponentLimit)) := by
  rw [Script.run_eq he]
  refine ⟨fun f hf => ?_, Expression.toFunction_eq, fun hlimit => ⟨?_, fun f hf => ?_⟩,
    fun hpositive => ⟨Expression.toFunction_eq_overflow_iff hpositive, fun f hf => ?_⟩⟩
  · exact ⟨Expression.exactFunction_of_toFunction hf, Expression.exponentsFit_of_toFunction hf,
      fun t _ n => degree_eq_of_ok⟩
  · exact Expression.toFunction_eq (Expression.exponentsBounded_of_highest hlimit)
  · have hbounded := Expression.bounded_of_exactFunction (w := 1)
      (Expression.exactFunction_of_toFunction hf)
    exact hbounded.degreesComputed ((e.largest_degrees_le 1).trans_lt hlimit)
  · exact degreesComputed_of_positive hpositive (Expression.exactFunction_of_toFunction hf)

section Limits

open RationalFunction.Composition (fee rate)

/-- The product of the texts `fee^4294967294` and `fee`. -/
def lastFee : Script := .mul (.text "fee^4294967294") (.text "fee")

/-- The largest degree below the limit is reached without a stop. -/
theorem degrees_below_limit_fee : ∃ e f, lastFee.tree = .ok e ∧ e.highest 1 < exponentLimit ∧
    lastFee.run = .ok f ∧ f.DegreesComputed ∧ (e.degrees 1).upper = 4294967295 := by
  have htree : lastFee.tree
      = .ok (.mul (.pow (.parameter fee) 4 4294967294) (.parameter fee)) := by
    decide +kernel
  obtain ⟨f, hf, -⟩ := Expression.exactFunction_of_positive
    (.mul (.pow (.parameter fee) (by decide)) (.parameter fee) :
      Expression.Positive (.mul (.pow (.parameter fee) 4 4294967294) (.parameter fee)))
  obtain ⟨hrun, hdegrees⟩ := (degrees_below_limit htree).2.2.1 (by decide)
  exact ⟨_, _, htree, by decide, hrun.trans hf, hdegrees _ (hrun.trans hf), by decide⟩

/-- Two texts whose exponents are far below the limit.  Reading the first one stops, as an exponent
reaches the limit.  The second one is accepted, and its only term is the product of two powers whose
exponents can be stored; but its degree is above the limit, so it is not computed, and whether the
function is linear cannot be said. -/
theorem degrees_above_limit :
    read "(fee^65536)^65536" = .error .overflow ∧
    ∃ f, read "(fee^65536)^65535*(rate^65536)^65535" = .ok f ∧ f.ExponentsFit ∧
      (∃ t ∈ f.numerator.terms.entries,
        t.1.toExponents.degree = 8589803520 ∧ t.1.degree = .error .overflow) ∧
      f.isLinear = .error .overflow := by
  have hpower : Expression.read "(fee^65536)^65536"
      = .ok (.pow (.pow (.parameter fee) 5 65536) 12 65536) := by
    decide +kernel
  have hproduct : Expression.read "(fee^65536)^65535*(rate^65536)^65535"
      = .ok (.mul (powerOfPower fee 5 12) (powerOfPower rate 24 31)) := by
    decide +kernel
  constructor
  · rw [read_of_tree hpower, Expression.toFunction_eq_overflow_iff
      (.pow (.pow (.parameter fee) (by decide)) (by decide))]
    exact fun hbounded => absurd (hbounded fee) (by decide)
  · have hmem : (longMonomial, 1) ∈ (ofPolynomial longTerm).numerator.terms.entries :=
      List.mem_singleton_self _
    refine ⟨ofPolynomial longTerm, ?_, by decide +kernel, ⟨_, hmem, ?_, ?_⟩, ?_⟩
    · exact (read_of_tree hproduct).trans
        ((computes_longTerm 5 12 24 31).toFunction_eq longMonomial_fits)
    · change longMonomial.toExponents.degree = _
      rw [toExponents_longMonomial, map_add, Finsupp.degree_single, Finsupp.degree_single]
      decide
    · rw [Monomial.degree_eq]
      exact stopUnless_of_not (by decide +kernel)
    · rw [isLinear, if_pos (by decide +kernel), Polynomial.degree_eq, map_stopUnless]
      exact stopUnless_of_not (by decide +kernel)

end Limits

end RationalFunction

end MarkovRegion
