import MarkovRegion.Model.Row
import Mathlib.Algebra.BigOperators.Group.List.Lemmas
import Mathlib.Algebra.Order.Archimedean.Real.Basic
import Mathlib.Algebra.Order.BigOperators.Group.List
import Mathlib.Data.Finset.Max
import Mathlib.Tactic.Linarith
import Mathlib.Tactic.Ring

/-!
# Reachability equations and their least solutions

The probabilities with which the states of a chain reach a set of targets are the least non-negative
solution of the equations `x s = 1` on the targets and `x s = ∑ w * x t` elsewhere
(`IsReachability`).  Two facts about solutions carry the later developments:

* A monotone operator on non-negative vectors has a least fixed point below every vector that it
  does not raise (`exists_isLeast_fixed`).  So a vector that the equations do not raise bounds the
  probabilities from above (`IsReachability.le_of_reachStep_le`).
* A system of equations on a finite set of states has at most one solution if some positive vector
  strictly falls under it (`HasDrift`, `HasDrift.eq_of_eq`).  Such a vector exists as soon as every
  state of the set can leave it (`exists_hasDrift`), and, unlike the paths that lead out of the set,
  it survives the elimination of states unchanged.
-/

namespace MarkovRegion

/-! ## Linear forms of rows -/

namespace Row

section Semiring

variable {F : Type} [CommSemiring F]

/-- The linear form of a row: its weights times the values at its columns, added up. -/
def dot (row : Row F) (x : Nat → F) : F := (row.map fun e => e.2 * x e.1).sum

@[simp] theorem dot_nil (x : Nat → F) : dot [] x = 0 := rfl

@[simp] theorem dot_cons (e : Nat × F) (row : Row F) (x : Nat → F) :
    dot (e :: row) x = e.2 * x e.1 + dot row x := by
  simp [dot]

theorem dot_append (r s : Row F) (x : Nat → F) : dot (r ++ s) x = dot r x + dot s x := by
  simp [dot]

theorem dot_congr {row : Row F} {x y : Nat → F} (h : ∀ e ∈ row, x e.1 = y e.1) :
    dot row x = dot row y := by
  unfold dot
  congr 1
  exact List.map_congr_left fun e he => by rw [h e he]

theorem dot_eq_zero {row : Row F} {x : Nat → F} (h : ∀ e ∈ row, x e.1 = 0) : dot row x = 0 := by
  induction row with
  | nil => rfl
  | cons e rest ih =>
      rw [dot_cons, h e List.mem_cons_self, mul_zero, zero_add]
      exact ih fun d hd => h d (List.mem_cons_of_mem e hd)

theorem dot_add (row : Row F) (x y : Nat → F) : dot row (x + y) = dot row x + dot row y := by
  induction row with
  | nil => simp
  | cons e rest ih =>
      rw [dot_cons, dot_cons, dot_cons, ih, Pi.add_apply, mul_add, add_add_add_comm]

theorem dot_smul (row : Row F) (c : F) (x : Nat → F) : dot row (c • x) = c * dot row x := by
  induction row with
  | nil => simp
  | cons e rest ih =>
      rw [dot_cons, dot_cons, ih, Pi.smul_apply, smul_eq_mul, mul_add, mul_left_comm]

/-- The entries of a row at some of its columns. -/
theorem dot_filter (p : Nat → Bool) (row : Row F) (x : Nat → F) :
    dot (row.filter fun e => p e.1) x = dot row fun t => if p t then x t else 0 := by
  induction row with
  | nil => simp
  | cons e rest ih =>
      rw [dot_cons, ← ih, List.filter_cons]
      by_cases hp : p e.1 = true
      · simp [hp]
      · simp [hp]

end Semiring

section Order

/-- A weight of the row is negative nowhere. -/
def Nonneg (row : Row ℝ) : Prop := ∀ e ∈ row, 0 ≤ e.2

theorem dot_le_dot {row : Row ℝ} (h : row.Nonneg) {x y : Nat → ℝ}
    (hxy : ∀ e ∈ row, x e.1 ≤ y e.1) : dot row x ≤ dot row y :=
  List.sum_le_sum fun e he => mul_le_mul_of_nonneg_left (hxy e he) (h e he)

theorem dot_nonneg {row : Row ℝ} (h : row.Nonneg) {x : Nat → ℝ} (hx : ∀ e ∈ row, 0 ≤ x e.1) :
    0 ≤ dot row x := by
  apply List.sum_nonneg
  intro y hy
  obtain ⟨e, he, rfl⟩ := List.mem_map.mp hy
  exact mul_nonneg (h e he) (hx e he)

/-- One entry of a row is at most the whole row. -/
theorem mul_le_dot {row : Row ℝ} (h : row.Nonneg) {x : Nat → ℝ} (hx : ∀ e ∈ row, 0 ≤ x e.1)
    {e : Nat × ℝ} (he : e ∈ row) : e.2 * x e.1 ≤ dot row x := by
  apply List.single_le_sum
  · intro y hy
    obtain ⟨e', he', rfl⟩ := List.mem_map.mp hy
    exact mul_nonneg (h e' he') (hx e' he')
  · exact List.mem_map.mpr ⟨e, he, rfl⟩

end Order

end Row

/-! ## Least fixed points of monotone operators -/

/-- A monotone operator on non-negative vectors that does not raise some vector has a least fixed
point, and this is below every vector that it does not raise. -/
theorem exists_isLeast_fixed {Φ : (Nat → ℝ) → Nat → ℝ}
    (hmono : ∀ x y, 0 ≤ x → x ≤ y → Φ x ≤ Φ y) (hnonneg : ∀ x, 0 ≤ x → 0 ≤ Φ x)
    (hpre : ∃ y, 0 ≤ y ∧ Φ y ≤ y) :
    ∃ z, IsLeast {x | 0 ≤ x ∧ Φ x = x} z ∧ ∀ y, 0 ≤ y → Φ y ≤ y → z ≤ y := by
  let P : Set (Nat → ℝ) := {y | 0 ≤ y ∧ Φ y ≤ y}
  let z : Nat → ℝ := fun s => sInf ((fun y : Nat → ℝ => y s) '' P)
  obtain ⟨y₀, hy₀⟩ := hpre
  have hbdd : ∀ s, BddBelow ((fun y : Nat → ℝ => y s) '' P) := by
    intro s
    refine ⟨0, ?_⟩
    rintro _ ⟨y, hy, rfl⟩
    exact hy.1 s
  have hle : ∀ y ∈ P, z ≤ y := fun y hy s => csInf_le (hbdd s) ⟨y, hy, rfl⟩
  have hgreatest : ∀ w : Nat → ℝ, (∀ y ∈ P, w ≤ y) → w ≤ z := by
    intro w hw s
    refine le_csInf ⟨_, y₀, hy₀, rfl⟩ ?_
    rintro _ ⟨y, hy, rfl⟩
    exact hw y hy s
  have hz0 : 0 ≤ z := hgreatest 0 fun y hy => hy.1
  have hz : Φ z ≤ z := hgreatest _ fun y hy => (hmono z y hz0 (hle y hy)).trans hy.2
  have hmem : Φ z ∈ P := ⟨hnonneg z hz0, hmono _ _ (hnonneg z hz0) hz⟩
  refine ⟨z, ⟨⟨hz0, le_antisymm hz (hle _ hmem)⟩, ?_⟩, fun y hy0 hy => hle y ⟨hy0, hy⟩⟩
  rintro x ⟨hx0, hx⟩
  exact hle x ⟨hx0, hx.le⟩

/-! ## Reachability probabilities -/

/-- The rows of a chain, possibly with some mass missing. -/
structure Substochastic (rows : Nat → Row ℝ) : Prop where
  nonneg : ∀ s, (rows s).Nonneg
  mass_le : ∀ s, (rows s).dot 1 ≤ 1

open Classical in
/-- One step of the equations for reaching the states of `T`. -/
noncomputable def reachStep (rows : Nat → Row ℝ) (T : Set Nat) (x : Nat → ℝ) (s : Nat) : ℝ :=
  if s ∈ T then 1 else (rows s).dot x

/-- The probabilities of reaching `T`: the least non-negative solution of its equations. -/
def IsReachability (rows : Nat → Row ℝ) (T : Set Nat) (x : Nat → ℝ) : Prop :=
  IsLeast {x | 0 ≤ x ∧ reachStep rows T x = x} x

section Reachability

variable {rows : Nat → Row ℝ} {T : Set Nat} {x y : Nat → ℝ} {s : Nat}

theorem reachStep_of_mem (hs : s ∈ T) : reachStep rows T x s = 1 := if_pos hs

theorem reachStep_of_notMem (hs : s ∉ T) : reachStep rows T x s = (rows s).dot x := if_neg hs

theorem Substochastic.reachStep_mono (h : Substochastic rows) (hxy : x ≤ y) :
    reachStep rows T x ≤ reachStep rows T y := by
  intro s
  by_cases hs : s ∈ T
  · rw [reachStep_of_mem hs, reachStep_of_mem hs]
  · rw [reachStep_of_notMem hs, reachStep_of_notMem hs]
    exact Row.dot_le_dot (h.nonneg s) fun e _ => hxy e.1

theorem Substochastic.reachStep_nonneg (h : Substochastic rows) (hx : 0 ≤ x) :
    0 ≤ reachStep rows T x := by
  intro s
  by_cases hs : s ∈ T
  · rw [reachStep_of_mem hs]
    exact zero_le_one
  · rw [reachStep_of_notMem hs]
    exact Row.dot_nonneg (h.nonneg s) fun e _ => hx e.1

theorem Substochastic.reachStep_one_le (h : Substochastic rows) : reachStep rows T 1 ≤ 1 := by
  intro s
  by_cases hs : s ∈ T
  · rw [reachStep_of_mem hs, Pi.one_apply]
  · rw [reachStep_of_notMem hs]
    exact h.mass_le s

theorem Substochastic.exists_isReachability (h : Substochastic rows) (T : Set Nat) :
    ∃ x, IsReachability rows T x := by
  obtain ⟨x, hx, -⟩ := exists_isLeast_fixed (Φ := reachStep rows T)
    (fun _ _ _ hxy => h.reachStep_mono hxy) (fun _ hx => h.reachStep_nonneg hx)
    ⟨1, zero_le_one, h.reachStep_one_le⟩
  exact ⟨x, hx⟩

namespace IsReachability

theorem nonneg (hx : IsReachability rows T x) (s : Nat) : 0 ≤ x s := hx.1.1 s

theorem eq_one (hx : IsReachability rows T x) (hs : s ∈ T) : x s = 1 := by
  rw [← congrFun hx.1.2 s, reachStep_of_mem hs]

theorem eq_dot (hx : IsReachability rows T x) (hs : s ∉ T) : x s = (rows s).dot x := by
  conv_lhs => rw [← congrFun hx.1.2 s, reachStep_of_notMem hs]

/-- The probabilities are below every vector that the equations do not raise. -/
theorem le_of_reachStep_le (hx : IsReachability rows T x) (h : Substochastic rows) (hy : 0 ≤ y)
    (hle : reachStep rows T y ≤ y) : x ≤ y := by
  obtain ⟨z, hz, hbelow⟩ := exists_isLeast_fixed (Φ := reachStep rows T)
    (fun _ _ _ hxy => h.reachStep_mono hxy) (fun _ hx => h.reachStep_nonneg hx) ⟨y, hy, hle⟩
  rw [hx.unique hz]
  exact hbelow y hy hle

theorem le_one (hx : IsReachability rows T x) (h : Substochastic rows) : x ≤ 1 :=
  hx.le_of_reachStep_le h zero_le_one h.reachStep_one_le

end IsReachability

end Reachability

/-! ## Drift: a certificate that a system of equations has one solution -/

/-- The vector `u` is positive on `S` and strictly falls there under the rows. -/
structure HasDrift (S : Finset Nat) (rows : Nat → Row ℝ) (u : Nat → ℝ) : Prop where
  weights : ∀ s ∈ S, (rows s).Nonneg
  nonneg : ∀ s, 0 ≤ u s
  pos : ∀ s ∈ S, 0 < u s
  falls : ∀ s ∈ S, (rows s).dot u < u s

namespace HasDrift

variable {S : Finset Nat} {rows : Nat → Row ℝ} {u : Nat → ℝ}

/-- A vector that a system with drift does not lower is nowhere positive. -/
theorem nonpos_of_le (h : HasDrift S rows u) {z : Nat → ℝ} (hz : ∀ s ∈ S, z s ≤ (rows s).dot z)
    (hout : ∀ s ∈ S, ∀ e ∈ rows s, e.1 ∉ S → z e.1 ≤ 0) : ∀ s ∈ S, z s ≤ 0 := by
  intro t ht
  -- Where `z` is largest in units of `u`, it is no larger than its own row.
  obtain ⟨m, hm, hmax⟩ := S.exists_max_image (fun s => z s / u s) ⟨t, ht⟩
  have hle : ∀ s ∈ S, z s ≤ z m / u m * u s := fun s hs =>
    (div_le_iff₀ (h.pos s hs)).mp (hmax s hs)
  have hzm : z m / u m ≤ 0 := by
    by_contra hpos
    rw [not_le] at hpos
    have hentry : ∀ e ∈ rows m, z e.1 ≤ ((z m / u m) • u) e.1 := by
      intro e he
      rw [Pi.smul_apply, smul_eq_mul]
      by_cases heS : e.1 ∈ S
      · exact hle e.1 heS
      · exact (hout m hm e he heS).trans (mul_nonneg hpos.le (h.nonneg _))
    have hrow : z m ≤ z m / u m * (rows m).dot u := by
      calc z m ≤ (rows m).dot z := hz m hm
        _ ≤ (rows m).dot ((z m / u m) • u) := Row.dot_le_dot (h.weights m hm) hentry
        _ = z m / u m * (rows m).dot u := Row.dot_smul ..
    have hlt := mul_lt_mul_of_pos_left (h.falls m hm) hpos
    rw [div_mul_cancel₀ _ (h.pos m hm).ne'] at hlt
    exact absurd hrow (not_le.mpr hlt)
  exact (hle t ht).trans (mul_nonpos_of_nonpos_of_nonneg hzm (h.nonneg t))

/-- A homogeneous system with drift has no solution but zero. -/
theorem eq_zero (h : HasDrift S rows u) {z : Nat → ℝ} (hz : ∀ s ∈ S, z s = (rows s).dot z)
    (hout : ∀ s ∈ S, ∀ e ∈ rows s, e.1 ∉ S → z e.1 = 0) : ∀ s ∈ S, z s = 0 := by
  intro s hs
  have hneg := h.nonpos_of_le (z := (-1 : ℝ) • z)
    (fun t ht => by rw [Row.dot_smul, ← hz t ht, Pi.smul_apply, smul_eq_mul])
    (fun t ht e he heS => by rw [Pi.smul_apply, hout t ht e he heS, smul_zero]) s hs
  rw [Pi.smul_apply, smul_eq_mul] at hneg
  have hle := h.nonpos_of_le (fun t ht => (hz t ht).le)
    (fun t ht e he heS => (hout t ht e he heS).le) s hs
  linarith

/-- Two solutions of one system with drift agree on it. -/
theorem eq_of_eq (h : HasDrift S rows u) {x y b : Nat → ℝ}
    (hx : ∀ s ∈ S, x s = (rows s).dot x + b s) (hy : ∀ s ∈ S, y s = (rows s).dot y + b s)
    (hout : ∀ s ∈ S, ∀ e ∈ rows s, e.1 ∉ S → x e.1 = y e.1) : ∀ s ∈ S, x s = y s := by
  have hdiff : ∀ s ∈ S, (x + (-1 : ℝ) • y) s = (rows s).dot (x + (-1 : ℝ) • y) := by
    intro s hs
    rw [Row.dot_add, Row.dot_smul, Pi.add_apply, Pi.smul_apply, smul_eq_mul]
    linarith [hx s hs, hy s hs]
  have hzero := h.eq_zero hdiff fun s hs e he heS => by
    simp [hout s hs e he heS]
  intro s hs
  have hs' := hzero s hs
  rw [Pi.add_apply, Pi.smul_apply, smul_eq_mul] at hs'
  linarith

end HasDrift

/-- The probability is one on a set without loss that is left for targets only. -/
theorem IsReachability.eq_one_of_hasDrift {rows : Nat → Row ℝ} {T : Set Nat} {x : Nat → ℝ}
    (hx : IsReachability rows T x) {S : Finset Nat} {u : Nat → ℝ} (hu : HasDrift S rows u)
    (hT : ∀ s ∈ S, s ∉ T) (hmass : ∀ s ∈ S, (rows s).dot 1 = 1)
    (hclosed : ∀ s ∈ S, ∀ e ∈ rows s, e.1 ∈ S ∨ e.1 ∈ T) : ∀ s ∈ S, x s = 1 := by
  refine hu.eq_of_eq (x := x) (y := 1) (b := 0) (fun s hs => ?_) (fun s hs => ?_)
    fun s hs e he heS => ?_
  · rw [Pi.zero_apply, add_zero]
    exact hx.eq_dot (hT s hs)
  · rw [hmass s hs, Pi.one_apply, Pi.zero_apply, add_zero]
  · exact hx.eq_one ((hclosed s hs e he).resolve_left heS)

/-- Positive numbers on a finite set have a common lower bound below one. -/
theorem exists_pos_lt_of_finset (S : Finset Nat) (w : Nat → ℝ) (hw : ∀ s ∈ S, 0 < w s) :
    ∃ η, 0 < η ∧ η < 1 ∧ ∀ s ∈ S, η < w s := by
  induction S using Finset.induction_on with
  | empty => exact ⟨1 / 2, by norm_num, by norm_num, by simp⟩
  | insert s S _ ih =>
      obtain ⟨η, hη, hη1, hηS⟩ := ih fun t ht => hw t (Finset.mem_insert_of_mem ht)
      have hs := hw s (Finset.mem_insert_self s S)
      refine ⟨min η (w s / 2), lt_min hη (half_pos hs), (min_le_left _ _).trans_lt hη1, ?_⟩
      intro t ht
      rcases Finset.mem_insert.mp ht with rfl | ht
      · exact (min_le_right _ _).trans_lt (half_lt_self hs)
      · exact (min_le_left _ _).trans_lt (hηS t ht)

open Classical in
/-- One minus a power that shrinks with the rank: the lower the rank, the smaller the value. -/
noncomputable def geometricDrift (S : Finset Nat) (rank : Nat → Nat) (η : ℝ) (s : Nat) : ℝ :=
  if s ∈ S then 1 - η ^ (rank s + 1) else 0

section GeometricDrift

variable {S : Finset Nat} {rank : Nat → Nat} {η : ℝ} {s : Nat}

theorem geometricDrift_of_mem (hs : s ∈ S) :
    geometricDrift S rank η s = 1 - η ^ (rank s + 1) := if_pos hs

theorem geometricDrift_of_notMem (hs : s ∉ S) : geometricDrift S rank η s = 0 := if_neg hs

variable (hη : 0 < η)
include hη

theorem geometricDrift_le_one (s : Nat) : geometricDrift S rank η s ≤ 1 := by
  by_cases hs : s ∈ S
  · rw [geometricDrift_of_mem hs]
    linarith [pow_pos hη (rank s + 1)]
  · exact (geometricDrift_of_notMem hs).trans_le zero_le_one

variable (hη1 : η < 1)
include hη1

theorem geometricDrift_pos (hs : s ∈ S) : 0 < geometricDrift S rank η s := by
  rw [geometricDrift_of_mem hs]
  exact sub_pos.mpr (pow_lt_one₀ hη.le hη1 (Nat.succ_ne_zero _))

theorem geometricDrift_nonneg : ∀ s, 0 ≤ geometricDrift S rank η s := by
  intro s
  by_cases hs : s ∈ S
  · exact (geometricDrift_pos hη hη1 hs).le
  · exact (geometricDrift_of_notMem hs).ge

/-- A step out of the set or down the rank lowers the vector. -/
theorem geometricDrift_le {t : Nat} (ht : t ∉ S ∨ rank t < rank s) :
    geometricDrift S rank η t ≤ 1 - η ^ rank s := by
  by_cases htS : t ∈ S
  · have hlt := ht.resolve_left fun h => h htS
    rw [geometricDrift_of_mem htS]
    exact sub_le_sub_left (pow_le_pow_of_le_one hη.le hη1.le (Nat.succ_le_of_lt hlt)) 1
  · rw [geometricDrift_of_notMem htS]
    linarith [pow_le_one₀ (n := rank s) hη.le hη1.le]

end GeometricDrift

/-- Rows have drift on `S` if from each of its states some entry of positive weight leaves `S` or
goes down in rank. -/
theorem exists_hasDrift {S : Finset Nat} {rows : Nat → Row ℝ} (rank : Nat → Nat)
    (hnonneg : ∀ s ∈ S, (rows s).Nonneg) (hmass : ∀ s ∈ S, (rows s).dot 1 ≤ 1)
    (hdown : ∀ s ∈ S, ∃ e ∈ rows s, 0 < e.2 ∧ (e.1 ∉ S ∨ rank e.1 < rank s)) :
    ∃ u, HasDrift S rows u := by
  have hweight : ∀ s, ∃ w : ℝ, s ∈ S →
      0 < w ∧ ∃ e ∈ rows s, e.2 = w ∧ (e.1 ∉ S ∨ rank e.1 < rank s) := by
    intro s
    by_cases hs : s ∈ S
    · obtain ⟨e, he, hpos, hrank⟩ := hdown s hs
      exact ⟨e.2, fun _ => ⟨hpos, e, he, rfl, hrank⟩⟩
    · exact ⟨0, fun h => absurd h hs⟩
  choose w hw using hweight
  obtain ⟨η, hη, hη1, hηw⟩ := exists_pos_lt_of_finset S w fun s hs => (hw s hs).1
  let u := geometricDrift S rank η
  have hu : ∀ s ∈ S, u s = 1 - η ^ (rank s + 1) := fun _ hs => geometricDrift_of_mem hs
  refine ⟨u, hnonneg, geometricDrift_nonneg hη hη1, fun _ => geometricDrift_pos hη hη1,
    fun s hs => ?_⟩
  obtain ⟨-, e, he, hew, hrank⟩ := hw s hs
  have hlower : u e.1 ≤ 1 - η ^ rank s := geometricDrift_le hη hη1 hrank
  have hgap := Row.mul_le_dot (hnonneg s hs) (x := 1 + (-1 : ℝ) • u)
    (fun e _ => by simpa using geometricDrift_le_one hη e.1) he
  have hstep : η * η ^ rank s < e.2 * (1 + (-1 : ℝ) • u) e.1 := by
    have hdrop : η ^ rank s ≤ (1 + (-1 : ℝ) • u) e.1 := by
      simp only [Pi.add_apply, Pi.one_apply, Pi.smul_apply, smul_eq_mul]
      linarith
    rw [hew]
    exact (mul_lt_mul_of_pos_right (hηw s hs) (pow_pos hη _)).trans_le
      (mul_le_mul_of_nonneg_left hdrop (hw s hs).1.le)
  rw [Row.dot_add, Row.dot_smul] at hgap
  rw [hu s hs, pow_succ']
  linarith [hmass s hs]

end MarkovRegion
