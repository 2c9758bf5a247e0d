import Mathlib.Algebra.MvPolynomial.CommRing
import Mathlib.Algebra.MvPolynomial.NoZeroDivisors
import Mathlib.Algebra.MvPolynomial.Variables
import MarkovRegion.Algebra.Polynomial
import MarkovRegion.Proofs.Algebra.OrderedMap

/-!
# Polynomials in the polynomial ring

`Polynomial.toRing` reads a polynomial as an element of the polynomial ring over the parameters with
rational coefficients.  The reading is injective (`Polynomial.toRing_injective`): equal elements of
the ring are equal as data, because a function with finite support is determined by its values
(`Sparse.ext_coefficient`).  It takes sums, products and scalings to those of the ring, and the
value of a polynomial at a point is the value of its reading there, provided that the point gives a
value to every parameter that occurs (`Polynomial.evaluate_eq_ok_iff`).

All statements about arithmetic go through `Sparse.total`, the sum of a function of keys and values
over the entries: `Sparse.total_addList` says what adding entries does to such a sum.
-/

set_option linter.unusedSectionVars false

namespace MarkovRegion

universe u v

/-! ## Sums over functions with finite support -/

namespace Sparse

variable {κ : Type u} {ν : Type v} {M : Type*} [Ord κ] [OfNat ν 0] [AddCommMonoid M]

/-- The sum of `h k v` over the entries of a list. -/
def listTotal (h : κ → ν → M) (entries : List (κ × ν)) : M := (entries.map fun e => h e.1 e.2).sum

/-- The sum of `h k v` over the entries of a function with finite support. -/
def total (h : κ → ν → M) (f : Sparse κ ν) : M := listTotal h f.entries

@[simp] theorem listTotal_nil (h : κ → ν → M) : listTotal h [] = 0 := rfl

@[simp] theorem listTotal_cons (h : κ → ν → M) (e : κ × ν) (entries : List (κ × ν)) :
    listTotal h (e :: entries) = h e.1 e.2 + listTotal h entries := by
  simp [listTotal]

@[simp] theorem total_zero (h : κ → ν → M) : (zero : Sparse κ ν).total h = 0 := rfl

@[simp] theorem total_single (h : κ → ν → M) (k : κ) (v : ν) (hv : v ≠ 0) :
    (single k v hv).total h = h k v := by
  simp [total, single]

theorem total_mapValues {μ : Type v} [OfNat μ 0] (h : κ → μ → M) (g : ν → μ)
    (hg : ∀ x, x ≠ 0 → g x ≠ 0) (f : Sparse κ ν) :
    (f.mapValues g hg).total h = f.total fun k v => h k (g v) := by
  simp [total, listTotal, mapValues, Function.comp_def]

/-- The sum at one key: all other entries are left out, so the value at the key remains. -/
theorem listTotal_ite_eq [Std.LawfulEqOrd κ] [DecidableEq κ] (φ : ν → M) (hφ : φ 0 = 0) (k : κ) :
    (entries : List (κ × ν)) → IncreasingKeys entries →
      listTotal (fun l w => if l = k then φ w else 0) entries =
        φ (match entries.find? fun e => compare e.1 k == .eq with
          | some e => e.2
          | none => 0)
  | [], _ => by simp [hφ]
  | (l, w) :: rest, hs => by
      obtain ⟨hl, hrest⟩ := List.pairwise_cons.mp hs
      rw [listTotal_cons, List.find?_cons]
      by_cases hlk : l = k
      · subst hlk
        have hnone : listTotal (fun l' w => if l' = l then φ w else 0) rest = 0 := by
          apply List.sum_eq_zero
          intro y hy
          obtain ⟨e, he, rfl⟩ := List.mem_map.mp hy
          refine if_neg ?_
          rintro rfl
          simpa using hl e he
        simp [hnone]
      · have hne : (compare l k == .eq) = false := by
          rw [beq_eq_false_iff_ne]
          exact fun h => hlk (Std.LawfulEqCmp.eq_of_compare h)
        simp only [hlk, if_false, zero_add, hne]
        exact listTotal_ite_eq φ hφ k rest hrest

/-- The sum at one key is determined by the coefficient there. -/
theorem total_ite_eq [Std.LawfulEqOrd κ] [DecidableEq κ] (φ : ν → M) (hφ : φ 0 = 0) (k : κ)
    (f : Sparse κ ν) : f.total (fun l w => if l = k then φ w else 0) = φ (f.coefficient k) :=
  listTotal_ite_eq φ hφ k f.entries f.increasing

section coefficient

variable [Std.LawfulEqOrd κ]

/-- The entries are the keys with a coefficient other than zero. -/
theorem mem_entries_iff {f : Sparse κ ν} {k : κ} {v : ν} :
    (k, v) ∈ f.entries ↔ v ≠ 0 ∧ f.coefficient k = v := by
  constructor
  · intro hmem
    refine ⟨f.nonzero _ hmem, ?_⟩
    have hs := f.increasing
    unfold coefficient
    generalize f.entries = entries at hs hmem
    induction entries with
    | nil => cases hmem
    | cons e rest ih =>
        obtain ⟨hl, hrest⟩ := List.pairwise_cons.mp hs
        rw [List.find?_cons]
        rcases List.mem_cons.mp hmem with rfl | hmem
        · simp
        · have hne : (compare e.1 k == .eq) = false := by
            rw [hl _ hmem]
            rfl
          simp only [hne]
          exact ih hrest hmem
  · rintro ⟨hv, hc⟩
    unfold coefficient at hc
    split at hc
    · next e he =>
        have hk : compare e.1 k = .eq := by simpa using List.find?_some he
        rw [← Std.LawfulEqCmp.eq_of_compare hk, ← hc]
        exact List.mem_of_find?_eq_some he
    · exact absurd hc.symm hv

variable [Std.TransOrd κ]

theorem nodup_of_increasing {entries : List (κ × ν)} (hs : IncreasingKeys entries) :
    entries.Nodup := by
  refine List.Pairwise.imp ?_ hs
  rintro a b hab rfl
  simp at hab

/-- A function with finite support is determined by its values. -/
theorem ext_coefficient {f g : Sparse κ ν} (h : ∀ k, f.coefficient k = g.coefficient k) :
    f = g := by
  apply Sparse.ext
  have hperm : f.entries.Perm g.entries := by
    rw [List.perm_ext_iff_of_nodup (nodup_of_increasing f.increasing)
      (nodup_of_increasing g.increasing)]
    rintro ⟨k, v⟩
    rw [mem_entries_iff, mem_entries_iff, h]
  refine hperm.eq_of_pairwise ?_ f.increasing g.increasing
  intro a b _ _ hab hba
  have hgt : compare a.1 b.1 = .gt := Std.OrientedCmp.gt_iff_lt.mpr hba
  rw [hab] at hgt
  cases hgt

end coefficient

section add

variable [DecidableEq ν] [Add ν] [Std.TransOrd κ] [Std.LawfulEqOrd κ] (h : κ → ν → M)

theorem listTotal_consNonzero (h0 : ∀ k, h k 0 = 0) (k : κ) (v : ν) (entries : List (κ × ν)) :
    listTotal h (consNonzero k v entries) = h k v + listTotal h entries := by
  unfold consNonzero
  split_ifs with hv
  · rw [hv, h0, zero_add]
  · rw [listTotal_cons]

theorem listTotal_insertEntry (h0 : ∀ k, h k 0 = 0)
    (hadd : ∀ k a b, h k (a + b) = h k a + h k b) (k : κ) (v : ν) (entries : List (κ × ν)) :
    listTotal h (insertEntry k v entries) = h k v + listTotal h entries := by
  induction entries with
  | nil => exact listTotal_consNonzero h h0 k v []
  | cons e rest ih =>
      obtain ⟨l, w⟩ := e
      unfold insertEntry
      split
      · exact listTotal_consNonzero h h0 k v _
      · next hk =>
          have hkl : k = l := Std.LawfulEqCmp.eq_of_compare hk
          rw [listTotal_consNonzero h h0, listTotal_cons, hkl, hadd, add_right_comm, add_comm,
            add_left_comm, ← add_assoc]
      · rw [listTotal_cons, listTotal_cons, ih, add_left_comm]

/-- Adding entries adds their sum. -/
theorem total_addList (h0 : ∀ k, h k 0 = 0) (hadd : ∀ k a b, h k (a + b) = h k a + h k b)
    (entries : List (κ × ν)) (f : Sparse κ ν) :
    (addList entries f).total h = listTotal h entries + f.total h := by
  induction entries with
  | nil => simp [addList]
  | cons e rest ih =>
      have hstep : (addList (e :: rest) f).total h = h e.1 e.2 + (addList rest f).total h :=
        listTotal_insertEntry h h0 hadd _ _ _
      rw [hstep, ih, listTotal_cons, add_assoc]

theorem total_ofList (h0 : ∀ k, h k 0 = 0) (hadd : ∀ k a b, h k (a + b) = h k a + h k b)
    (entries : List (κ × ν)) : (ofList entries).total h = listTotal h entries := by
  rw [ofList, total_addList h h0 hadd, total_zero, add_zero]

theorem total_add (h0 : ∀ k, h k 0 = 0) (hadd : ∀ k a b, h k (a + b) = h k a + h k b)
    (f g : Sparse κ ν) : (f.add g).total h = f.total h + g.total h :=
  total_addList h h0 hadd f.entries g

end add

end Sparse

/-! ## Monomials -/

namespace Monomial

/-- The exponents of a monomial. -/
noncomputable def toExponents (m : Monomial) : Parameter →₀ ℕ := m.powers.total Finsupp.single

theorem toExponents_apply (m : Monomial) (p : Parameter) :
    m.toExponents p = m.powers.coefficient p := by
  have happly : m.toExponents p = m.powers.total fun q n => if q = p then n else 0 := by
    simp only [toExponents, Sparse.total, Sparse.listTotal, ← Finsupp.applyAddHom_apply,
      map_list_sum, List.map_map]
    congr 1
    refine List.map_congr_left fun e _ => ?_
    simp [Finsupp.single_apply]
  rw [happly]
  exact Sparse.total_ite_eq (fun n => n) rfl p m.powers

theorem toExponents_injective : Function.Injective toExponents := by
  intro m n h
  have hp : m.powers = n.powers :=
    Sparse.ext_coefficient fun p => by rw [← toExponents_apply, ← toExponents_apply, h]
  cases m
  cases n
  exact congrArg Monomial.mk hp

@[simp] theorem toExponents_unit : unit.toExponents = 0 := rfl

@[simp] theorem toExponents_ofParameter (p : Parameter) :
    (ofParameter p).toExponents = Finsupp.single p 1 := by
  simp [toExponents, ofParameter]

@[simp] theorem toExponents_mul (m n : Monomial) :
    (m.mul n).toExponents = m.toExponents + n.toExponents :=
  Sparse.total_add _ (by simp) (by simp) m.powers n.powers

/-- A parameter occurs in a monomial exactly when its exponent is not zero. -/
theorem mem_support_toExponents {m : Monomial} {p : Parameter} :
    p ∈ m.toExponents.support ↔ ∃ n, (p, n) ∈ m.powers.entries := by
  rw [Finsupp.mem_support_iff, toExponents_apply]
  constructor
  · intro h
    exact ⟨_, Sparse.mem_entries_iff.mpr ⟨h, rfl⟩⟩
  · rintro ⟨n, hn⟩
    obtain ⟨h0, hc⟩ := Sparse.mem_entries_iff.mp hn
    rwa [hc]

theorem isUnit_iff {m : Monomial} : m.isUnit = true ↔ m = unit := by
  constructor
  · intro h
    obtain ⟨powers⟩ := m
    have hp : powers.entries = [] := by simpa [isUnit, Sparse.isZero] using h
    exact congrArg Monomial.mk (Sparse.ext hp)
  · rintro rfl
    rfl

end Monomial

/-! ## Polynomials -/

namespace Polynomial

open MvPolynomial in
/-- The element of the polynomial ring that a polynomial denotes. -/
noncomputable def toRing (f : Polynomial) : MvPolynomial Parameter ℚ :=
  f.terms.total fun m c => monomial m.toExponents c

theorem coeff_toRing (f : Polynomial) (m : Monomial) :
    f.toRing.coeff m.toExponents = f.terms.coefficient m := by
  have happly : f.toRing.coeff m.toExponents = f.terms.total fun n c => if n = m then c else 0 := by
    simp only [toRing, Sparse.total, Sparse.listTotal, ← MvPolynomial.coeffAddMonoidHom_apply,
      map_list_sum, List.map_map]
    congr 1
    refine List.map_congr_left fun t _ => ?_
    simp [MvPolynomial.coeff_monomial, Monomial.toExponents_injective.eq_iff]
  rw [happly]
  exact Sparse.total_ite_eq (fun c => c) rfl m f.terms

/-- Polynomials that denote the same element of the ring are equal as data. -/
theorem toRing_injective : Function.Injective toRing := by
  intro f g h
  have ht : f.terms = g.terms :=
    Sparse.ext_coefficient fun m => by rw [← coeff_toRing, ← coeff_toRing, h]
  cases f
  cases g
  exact congrArg Polynomial.mk ht

/-- The support in the ring is that of the data. -/
theorem mem_support_toRing {f : Polynomial} {d : Parameter →₀ ℕ} :
    d ∈ f.toRing.support ↔ ∃ t ∈ f.terms.entries, t.1.toExponents = d := by
  rw [MvPolynomial.mem_support_iff]
  constructor
  · intro hd
    by_contra hnot
    apply hd
    simp only [toRing, Sparse.total, Sparse.listTotal, ← MvPolynomial.coeffAddMonoidHom_apply,
      map_list_sum, List.map_map]
    apply List.sum_eq_zero
    intro y hy
    obtain ⟨t, ht, rfl⟩ := List.mem_map.mp hy
    simp only [Function.comp_apply, MvPolynomial.coeffAddMonoidHom_apply,
      MvPolynomial.coeff_monomial]
    exact if_neg fun htd => hnot ⟨t, ht, htd⟩
  · rintro ⟨⟨m, c⟩, ht, rfl⟩
    obtain ⟨hc, hcoeff⟩ := Sparse.mem_entries_iff.mp ht
    rw [coeff_toRing, hcoeff]
    exact hc

/-- A parameter occurs in the ring exactly when it occurs in a monomial of the data. -/
theorem mem_vars_toRing {f : Polynomial} {p : Parameter} :
    p ∈ f.toRing.vars ↔ ∃ t ∈ f.terms.entries, ∃ e ∈ t.1.powers.entries, e.1 = p := by
  rw [MvPolynomial.mem_vars_iff_mem_support]
  constructor
  · rintro ⟨d, hd, hp⟩
    obtain ⟨t, ht, rfl⟩ := mem_support_toRing.mp hd
    obtain ⟨n, hn⟩ := Monomial.mem_support_toExponents.mp hp
    exact ⟨t, ht, (p, n), hn, rfl⟩
  · rintro ⟨t, ht, ⟨q, n⟩, he, rfl⟩
    exact ⟨t.1.toExponents, mem_support_toRing.mpr ⟨t, ht, rfl⟩,
      Monomial.mem_support_toExponents.mpr ⟨n, he⟩⟩

/-! ### Arithmetic -/

@[simp] theorem toRing_zero : zero.toRing = 0 := rfl

@[simp] theorem toRing_constant (c : ℚ) : (constant c).toRing = MvPolynomial.C c := by
  unfold constant
  split_ifs with hc
  · simp [hc]
  · simp [toRing]

@[simp] theorem toRing_one : one.toRing = 1 := by
  simp [one]

@[simp] theorem toRing_ofParameter (p : Parameter) : (ofParameter p).toRing = MvPolynomial.X p := by
  simp [toRing, ofParameter, MvPolynomial.X]

theorem toRing_ofTerms (terms : List Term) :
    (ofTerms terms).toRing =
      (terms.map fun t => MvPolynomial.monomial t.1.toExponents t.2).sum :=
  Sparse.total_ofList _ (by simp) (by simp) terms

@[simp] theorem toRing_add (f g : Polynomial) : (f.add g).toRing = f.toRing + g.toRing :=
  Sparse.total_add _ (by simp) (by simp) f.terms g.terms

@[simp] theorem toRing_neg (f : Polynomial) : f.neg.toRing = -f.toRing := by
  simp only [toRing, neg, Sparse.total_mapValues, map_neg]
  simp [Sparse.total, Sparse.listTotal, List.sum_neg, Function.comp_def]

@[simp] theorem toRing_sub (f g : Polynomial) : (f.sub g).toRing = f.toRing - g.toRing := by
  rw [sub, toRing_add, toRing_neg, sub_eq_add_neg]

@[simp] theorem toRing_scale (f : Polynomial) (c : ℚ) :
    (f.scale c).toRing = f.toRing * MvPolynomial.C c := by
  unfold scale
  split_ifs with hc
  · simp [hc]
  · simp only [toRing, Sparse.total_mapValues]
    simp only [Sparse.total, Sparse.listTotal, ← List.sum_map_mul_right, MvPolynomial.C_apply,
      MvPolynomial.monomial_mul, add_zero]

@[simp] theorem toRing_mul (f g : Polynomial) : (f.mul g).toRing = f.toRing * g.toRing := by
  rw [mul, toRing_ofTerms]
  simp only [toRing, Sparse.total, Sparse.listTotal]
  induction f.terms.entries with
  | nil => simp [products]
  | cons s rest ih =>
      simp only [products, List.flatMap_cons, List.map_append, List.sum_append, List.map_cons,
        List.sum_cons, add_mul] at ih ⊢
      rw [ih, List.map_map]
      congr 1
      rw [← List.sum_map_mul_left]
      simp [Function.comp_def, MvPolynomial.monomial_mul]

/-! ### Shape -/

theorem isZero_iff {f : Polynomial} : f.isZero = true ↔ f = zero := by
  constructor
  · intro h
    obtain ⟨terms⟩ := f
    have ht : terms.entries = [] := by simpa [isZero, Sparse.isZero] using h
    exact congrArg Polynomial.mk (Sparse.ext ht)
  · rintro rfl
    rfl

theorem toRing_eq_zero_iff {f : Polynomial} : f.toRing = 0 ↔ f.isZero = true := by
  rw [isZero_iff, ← toRing_zero, toRing_injective.eq_iff]

/-- A polynomial without parameters is the constant that it evaluates to. -/
theorem constantValue?_eq_some_iff {f : Polynomial} {c : ℚ} :
    f.constantValue? = some c ↔ f = constant c := by
  constructor
  · intro h
    unfold constantValue? at h
    split_ifs at h with hconst
    obtain rfl := Option.some.inj h
    apply toRing_injective
    rw [toRing_constant]
    have hunit : ∀ t ∈ f.terms.entries, t.1 = Monomial.unit := by
      intro t ht
      exact Monomial.isUnit_iff.mp (by simpa using List.all_eq_true.mp hconst t ht)
    have hC : f.toRing = f.terms.total fun m c =>
        if m = Monomial.unit then MvPolynomial.C c else 0 := by
      simp only [toRing, Sparse.total, Sparse.listTotal]
      congr 1
      refine List.map_congr_left fun t ht => ?_
      simp [hunit t ht]
    rw [hC]
    exact Sparse.total_ite_eq (fun c => MvPolynomial.C c) (map_zero _) _ f.terms
  · rintro rfl
    unfold constantValue? constant
    by_cases hc : c = 0
    · subst hc
      rfl
    · simp [isConstant, Sparse.single, Sparse.coefficient, hc, Monomial.isUnit_iff]

theorem isOne_iff {f : Polynomial} : f.isOne = true ↔ f = one := by
  rw [isOne, beq_iff_eq, constantValue?_eq_some_iff, one]

/-- The last coefficient of a polynomial that has one is not zero. -/
theorem lastCoefficient?_getD_ne_zero (f : Polynomial) : f.lastCoefficient?.getD 1 ≠ 0 := by
  unfold lastCoefficient?
  rcases hlast : f.terms.entries.getLast? with _ | t
  · simp
  · simpa using f.terms.nonzero t (List.mem_of_getLast? hlast)

end Polynomial

/-! ## Values at points -/

/-- The value that a valuation gives to a parameter, and zero where it gives none. -/
def Valuation.assignment (v : Valuation) (p : Parameter) : ℚ := (v.find? p).getD 0

theorem Valuation.value_eq_ok_iff {v : Valuation} {p : Parameter} {x : ℚ} :
    v.value p = .ok x ↔ (v.find? p).isSome = true ∧ x = v.assignment p := by
  unfold value assignment
  rcases v.find? p with _ | y <;> simp [eq_comm]

/-- A fold that asks for a value at each step succeeds exactly when all values are there. -/
theorem foldlM_eq_ok_iff {α β γ ε : Type} {g : α → Except ε γ} {y : α → γ} {D : α → Prop}
    (hg : ∀ a b, g a = .ok b ↔ D a ∧ b = y a) (op : β → α → γ → β) (l : List α) (init x : β) :
    l.foldlM (fun b a => do return op b a (← g a)) init = .ok x ↔
      (∀ a ∈ l, D a) ∧ x = l.foldl (fun b a => op b a (y a)) init := by
  induction l generalizing init with
  | nil => simp [pure, Except.pure, eq_comm]
  | cons a rest ih =>
      rw [List.foldlM_cons]
      rcases ha : g a with e | b
      · have hD : ¬ D a := by
          intro hD
          have := (hg a (y a)).mpr ⟨hD, rfl⟩
          rw [ha] at this
          cases this
        simp [bind, Except.bind, hD]
      · obtain ⟨hD, rfl⟩ := (hg a b).mp ha
        have hstep := ih (op init a (y a))
        simpa [bind, Except.bind, pure, Except.pure, hD] using hstep

namespace Monomial

/-- The powers of a monomial, multiplied. -/
theorem prod_toExponents {M : Type*} [CommMonoid M] (a : Parameter → M) (m : Monomial) :
    (m.toExponents.prod fun p n => a p ^ n) = (m.powers.entries.map fun e => a e.1 ^ e.2).prod := by
  rw [toExponents, Sparse.total, Sparse.listTotal]
  induction m.powers.entries with
  | nil => simp
  | cons e rest ih =>
      rw [List.map_cons, List.sum_cons, List.map_cons, List.prod_cons, ← ih,
        Finsupp.prod_add_index']
      · simp [Finsupp.prod_single_index]
      · simp
      · exact fun p n k => pow_add _ n k

theorem evaluate_eq_ok_iff {v : Valuation} {m : Monomial} {x : ℚ} :
    m.evaluate v = .ok x ↔
      (∀ e ∈ m.powers.entries, (v.find? e.1).isSome = true) ∧
        x = (m.powers.entries.map fun e => v.assignment e.1 ^ e.2).prod := by
  unfold evaluate
  rw [foldlM_eq_ok_iff (fun e b => Valuation.value_eq_ok_iff)
    (fun b e c => b * Rat.pow c e.2) m.powers.entries 1 x, List.prod_eq_foldl, List.foldl_map]
  rfl

end Monomial

namespace Polynomial

/-- The value of a polynomial, term by term. -/
theorem eval_toRing (a : Parameter → ℚ) (f : Polynomial) :
    MvPolynomial.eval a f.toRing =
      (f.terms.entries.map fun t =>
        t.2 * (t.1.powers.entries.map fun e => a e.1 ^ e.2).prod).sum := by
  rw [toRing, Sparse.total, Sparse.listTotal, map_list_sum, List.map_map]
  refine congrArg List.sum (List.map_congr_left fun t _ => ?_)
  rw [Function.comp_apply, MvPolynomial.eval_monomial, Monomial.prod_toExponents]

theorem mem_parameters {f : Polynomial} {p : Parameter} : p ∈ f.parameters ↔ p ∈ f.toRing.vars := by
  rw [parameters, mem_orderedKeys, List.mem_flatMap, mem_vars_toRing]
  refine exists_congr fun t => and_congr_right fun _ => ?_
  rw [Monomial.parameters, Sparse.support, List.mem_map]

/-- A polynomial has a value at a point exactly when the point covers all parameters that occur, and
the value is that of the ring. -/
theorem evaluate_eq_ok_iff {v : Valuation} {f : Polynomial} {x : ℚ} :
    f.evaluate v = .ok x ↔
      (∀ p ∈ f.toRing.vars, (v.find? p).isSome = true) ∧
        x = MvPolynomial.eval v.assignment f.toRing := by
  unfold evaluate
  rw [foldlM_eq_ok_iff (fun t b => Monomial.evaluate_eq_ok_iff)
    (fun b t c => b + t.2 * c) f.terms.entries 0 x, eval_toRing, List.sum_eq_foldl, List.foldl_map]
  refine and_congr_left fun _ => ?_
  constructor
  · intro h p hp
    obtain ⟨t, ht, e, he, rfl⟩ := mem_vars_toRing.mp hp
    exact h t ht e he
  · intro h t ht e he
    exact h e.1 (mem_vars_toRing.mpr ⟨t, ht, e, he, rfl⟩)

end Polynomial

end MarkovRegion
