import Mathlib.Algebra.Order.Group.Indicator
import MarkovRegion.Analysis.Reachability
import MarkovRegion.Proofs.Probability.LeastSolution

/-!
# Optimal reachability probabilities

The minimal and maximal probabilities with which the states of a decision process reach a set of
targets are least fixed points of the Bellman operators (`IsOptimal`).  A chain is a process with
one choice for each state (`isReachability_iff_isOptimal`).

A process encloses another one if it has, for every choice of the other and every vector of values,
a choice that is not better and one that is not worse (`Encloses`).  Then its Bellman operators
bound those of the other, and so do their least fixed points (`Encloses.optimal_le`).  Convex
combinations of choices are the case of interest: which combination it is does not matter.
-/

namespace MarkovRegion

/-! ## The best of some values -/

/-- The least or the greatest of some values; zero if there are none. -/
noncomputable def Direction.best : Direction → List ℝ → ℝ
  | minimize, values => values.min?.getD 0
  | maximize, values => values.max?.getD 0

namespace Direction

variable {direction : Direction} {values : List ℝ} {x : ℝ}

theorem best_mem (h : values ≠ []) : direction.best values ∈ values := by
  cases direction with
  | minimize =>
      obtain ⟨m, hm⟩ := Option.isSome_iff_exists.mp (List.isSome_min?_iff.mpr h)
      rw [best, hm]
      exact (List.min?_eq_some_iff.mp hm).1
  | maximize =>
      obtain ⟨m, hm⟩ := Option.isSome_iff_exists.mp (List.isSome_max?_iff.mpr h)
      rw [best, hm]
      exact (List.max?_eq_some_iff.mp hm).1

theorem best_minimize_le (h : x ∈ values) : best .minimize values ≤ x := by
  obtain ⟨m, hm⟩ := Option.isSome_iff_exists.mp (List.isSome_min?_of_mem h)
  rw [best, hm]
  exact (List.min?_eq_some_iff.mp hm).2 x h

theorem le_best_maximize (h : x ∈ values) : x ≤ best .maximize values := by
  obtain ⟨m, hm⟩ := Option.isSome_iff_exists.mp (List.isSome_max?_of_mem h)
  rw [best, hm]
  exact (List.max?_eq_some_iff.mp hm).2 x h

/-- Some choice has the best value. -/
theorem exists_eq_best (direction : Direction) {α : Type} {choices : List α} (f : α → ℝ)
    (h : choices ≠ []) : ∃ a ∈ choices, f a = direction.best (choices.map f) :=
  List.mem_map.mp (best_mem (by simpa using h))

theorem best_induction {P : ℝ → Prop} {α : Type} {choices : List α} {f : α → ℝ} (hzero : P 0)
    (h : ∀ a ∈ choices, P (f a)) : P (direction.best (choices.map f)) := by
  by_cases hne : choices = []
  · rw [hne]
    cases direction with
    | minimize => exact hzero
    | maximize => exact hzero
  · obtain ⟨a, ha, hbest⟩ := direction.exists_eq_best f hne
    exact hbest ▸ h a ha

theorem best_map_le_best_map (direction : Direction) {α : Type} {choices : List α} {f g : α → ℝ}
    (h : ∀ a ∈ choices, f a ≤ g a) :
    direction.best (choices.map f) ≤ direction.best (choices.map g) := by
  by_cases hne : choices = []
  · rw [hne, List.map_nil, List.map_nil]
  · cases direction with
    | minimize =>
        obtain ⟨a, ha, hbest⟩ := exists_eq_best .minimize g hne
        rw [← hbest]
        exact (best_minimize_le (List.mem_map_of_mem ha)).trans (h a ha)
    | maximize =>
        obtain ⟨a, ha, hbest⟩ := exists_eq_best .maximize f hne
        rw [← hbest]
        exact (h a ha).trans (le_best_maximize (List.mem_map_of_mem ha))

end Direction

/-! ## Optimal probabilities -/

open Classical in
/-- One step of the Bellman equations for reaching the states of `T`. -/
noncomputable def optimalStep (direction : Direction) (choices : Nat → List (Row ℝ)) (T : Set Nat)
    (x : Nat → ℝ) (s : Nat) : ℝ :=
  if s ∈ T then 1 else direction.best ((choices s).map fun row => row.dot x)

/-- The optimal probabilities of reaching `T`: the least non-negative solution of the Bellman
equations. -/
def IsOptimal (direction : Direction) (choices : Nat → List (Row ℝ)) (T : Set Nat) (x : Nat → ℝ) :
    Prop :=
  IsLeast {x | 0 ≤ x ∧ optimalStep direction choices T x = x} x

/-- The choices of a process, possibly with some mass missing. -/
structure SubstochasticChoices (choices : Nat → List (Row ℝ)) : Prop where
  nonneg : ∀ s, ∀ row ∈ choices s, row.Nonneg
  mass_le : ∀ s, ∀ row ∈ choices s, row.dot 1 ≤ 1

section Optimal

variable {direction : Direction} {choices : Nat → List (Row ℝ)} {T : Set Nat} {x y : Nat → ℝ}
  {s : Nat}

theorem optimalStep_of_mem (hs : s ∈ T) : optimalStep direction choices T x s = 1 := if_pos hs

theorem optimalStep_of_notMem (hs : s ∉ T) : optimalStep direction choices T x s =
    direction.best ((choices s).map fun row => row.dot x) := if_neg hs

namespace SubstochasticChoices

theorem optimalStep_mono (h : SubstochasticChoices choices) (hxy : x ≤ y) :
    optimalStep direction choices T x ≤ optimalStep direction choices T y := by
  intro s
  by_cases hs : s ∈ T
  · rw [optimalStep_of_mem hs, optimalStep_of_mem hs]
  · rw [optimalStep_of_notMem hs, optimalStep_of_notMem hs]
    exact direction.best_map_le_best_map fun row hrow =>
      Row.dot_le_dot (h.nonneg s row hrow) fun e _ => hxy e.1

theorem optimalStep_nonneg (h : SubstochasticChoices choices) (hx : 0 ≤ x) :
    0 ≤ optimalStep direction choices T x := by
  intro s
  by_cases hs : s ∈ T
  · rw [optimalStep_of_mem hs]
    exact zero_le_one
  · rw [optimalStep_of_notMem hs]
    refine Direction.best_induction le_rfl fun row hrow => ?_
    exact Row.dot_nonneg (h.nonneg s row hrow) fun e _ => hx e.1

theorem optimalStep_one_le (h : SubstochasticChoices choices) :
    optimalStep direction choices T 1 ≤ 1 := by
  intro s
  by_cases hs : s ∈ T
  · rw [optimalStep_of_mem hs, Pi.one_apply]
  · rw [optimalStep_of_notMem hs]
    exact Direction.best_induction (P := fun value => value ≤ 1) zero_le_one (h.mass_le s)

theorem exists_isOptimal (h : SubstochasticChoices choices) (direction : Direction) (T : Set Nat) :
    ∃ x, IsOptimal direction choices T x := by
  obtain ⟨x, hx, -⟩ := exists_isLeast_fixed (Φ := optimalStep direction choices T)
    (fun _ _ _ hxy => h.optimalStep_mono hxy) (fun _ hx => h.optimalStep_nonneg hx)
    ⟨1, zero_le_one, h.optimalStep_one_le⟩
  exact ⟨x, hx⟩

end SubstochasticChoices

namespace IsOptimal

theorem nonneg (hx : IsOptimal direction choices T x) : 0 ≤ x := hx.1.1

theorem optimalStep_eq (hx : IsOptimal direction choices T x) :
    optimalStep direction choices T x = x := hx.1.2

/-- Optimal probabilities are below every vector that the Bellman operator does not raise. -/
theorem le_of_optimalStep_le (hx : IsOptimal direction choices T x)
    (h : SubstochasticChoices choices) (hy : 0 ≤ y) (hle : optimalStep direction choices T y ≤ y) :
    x ≤ y := by
  obtain ⟨z, hz, hbelow⟩ := exists_isLeast_fixed (Φ := optimalStep direction choices T)
    (fun _ _ _ hxy => h.optimalStep_mono hxy) (fun _ hx => h.optimalStep_nonneg hx) ⟨y, hy, hle⟩
  rw [hx.unique hz]
  exact hbelow y hy hle

theorem le_one (hx : IsOptimal direction choices T x) (h : SubstochasticChoices choices) : x ≤ 1 :=
  hx.le_of_optimalStep_le h zero_le_one h.optimalStep_one_le

/-- Optimal probabilities are zero on a set of states without targets whose values stay zero if all
values of the set are. -/
theorem eq_zero_of_step (hx : IsOptimal direction choices T x) (h : SubstochasticChoices choices)
    {S : Set Nat} (hS : ∀ s ∈ S, ∀ y : Nat → ℝ, (∀ t ∈ S, y t = 0) →
      optimalStep direction choices T y s ≤ 0) : ∀ s ∈ S, x s = 0 := by
  -- The vector that is zero on `S` and `x` elsewhere is not raised either.
  have hin : ∀ s ∈ S, Set.indicator Sᶜ x s = 0 :=
    fun s hs => Set.indicator_of_notMem (Set.notMem_compl_iff.mpr hs) x
  have hout : ∀ s ∉ S, Set.indicator Sᶜ x s = x s := fun s hs => Set.indicator_of_mem hs x
  have hstep : optimalStep direction choices T (Set.indicator Sᶜ x) ≤ Set.indicator Sᶜ x := by
    intro s
    by_cases hs : s ∈ S
    · rw [hin s hs]
      exact hS s hs _ hin
    · calc optimalStep direction choices T (Set.indicator Sᶜ x) s
          ≤ optimalStep direction choices T x s :=
            h.optimalStep_mono (Set.indicator_le_self' fun s _ => hx.nonneg s) s
        _ = Set.indicator Sᶜ x s := (congrFun hx.optimalStep_eq s).trans (hout s hs).symm
  intro s hs
  have hle := hx.le_of_optimalStep_le h (Set.indicator_nonneg fun s _ => hx.nonneg s) hstep s
  rw [hin s hs] at hle
  exact le_antisymm hle (hx.nonneg s)

/-- Where no choice leads to a target, the maximal probability is zero. -/
theorem eq_zero_of_closed (hx : IsOptimal .maximize choices T x) (h : SubstochasticChoices choices)
    {S : Set Nat} (htarget : ∀ s ∈ S, s ∉ T)
    (hclosed : ∀ s ∈ S, ∀ row ∈ choices s, ∀ e ∈ row, e.1 ∈ S) : ∀ s ∈ S, x s = 0 := by
  refine hx.eq_zero_of_step h fun s hs y hy => ?_
  rw [optimalStep_of_notMem (htarget s hs)]
  refine Direction.best_induction (P := fun value => value ≤ 0) le_rfl fun row hrow => ?_
  rw [Row.dot_eq_zero fun e he => hy e.1 (hclosed s hs row hrow e he)]

/-- Where some choice avoids the targets for ever, the minimal probability is zero. -/
theorem eq_zero_of_avoiding (hx : IsOptimal .minimize choices T x)
    (h : SubstochasticChoices choices) {S : Set Nat} (htarget : ∀ s ∈ S, s ∉ T)
    (havoid : ∀ s ∈ S, ∃ row ∈ choices s, ∀ e ∈ row, e.1 ∈ S) : ∀ s ∈ S, x s = 0 := by
  refine hx.eq_zero_of_step h fun s hs y hy => ?_
  obtain ⟨row, hrow, hstay⟩ := havoid s hs
  rw [optimalStep_of_notMem (htarget s hs), ← Row.dot_eq_zero fun e he => hy e.1 (hstay e he)]
  exact Direction.best_minimize_le (List.mem_map_of_mem hrow)

end IsOptimal

/-- The Bellman operators of a process in which there is nothing to choose. -/
theorem optimalStep_eq_reachStep {rows : Nat → Row ℝ} (direction : Direction)
    (h : ∀ s, choices s = [rows s] ∨ choices s = [] ∧ rows s = []) (y : Nat → ℝ) :
    optimalStep direction choices T y = reachStep rows T y := by
  funext s
  by_cases hs : s ∈ T
  · rw [optimalStep_of_mem hs, reachStep_of_mem hs]
  · rw [optimalStep_of_notMem hs, reachStep_of_notMem hs]
    rcases h s with hone | ⟨hnone, hrow⟩
    · rw [hone]
      cases direction with
      | minimize => rfl
      | maximize => rfl
    · rw [hnone, hrow]
      cases direction with
      | minimize => rfl
      | maximize => rfl

/-- A chain is a process in which there is nothing to choose. -/
theorem isReachability_iff_isOptimal {rows : Nat → Row ℝ} (direction : Direction)
    (h : ∀ s, choices s = [rows s] ∨ choices s = [] ∧ rows s = []) :
    IsReachability rows T x ↔ IsOptimal direction choices T x := by
  unfold IsReachability IsOptimal
  simp only [optimalStep_eq_reachStep direction h]

/-- Where no step leads to a target, the probability is zero. -/
theorem IsReachability.eq_zero_of_closed {rows : Nat → Row ℝ} (hx : IsReachability rows T x)
    (h : Substochastic rows) {S : Set Nat} (htarget : ∀ s ∈ S, s ∉ T)
    (hclosed : ∀ s ∈ S, ∀ e ∈ rows s, e.1 ∈ S) : ∀ s ∈ S, x s = 0 := by
  have hoptimal : IsOptimal .maximize (fun s => [rows s]) T x :=
    (isReachability_iff_isOptimal .maximize fun _ => Or.inl rfl).mp hx
  refine hoptimal.eq_zero_of_closed ⟨?_, ?_⟩ htarget ?_
  · exact fun s row hrow => List.mem_singleton.mp hrow ▸ h.nonneg s
  · exact fun s row hrow => List.mem_singleton.mp hrow ▸ h.mass_le s
  · exact fun s hs row hrow => List.mem_singleton.mp hrow ▸ hclosed s hs

/-! ## Enclosing processes -/

/-- For every choice of the second process the first has one that is not better and one that is not
worse, whatever the values of the states are. -/
structure Encloses (choices inner : Nat → List (Row ℝ)) : Prop where
  exists_le : ∀ s, ∀ row ∈ inner s, ∀ x : Nat → ℝ, ∃ outer ∈ choices s, outer.dot x ≤ row.dot x
  exists_ge : ∀ s, ∀ row ∈ inner s, ∀ x : Nat → ℝ, ∃ outer ∈ choices s, row.dot x ≤ outer.dot x
  nil_of_nil : ∀ s, inner s = [] → choices s = []

namespace Encloses

variable {inner : Nat → List (Row ℝ)}

theorem refl (choices : Nat → List (Row ℝ)) : Encloses choices choices :=
  ⟨fun _ row hrow _ => ⟨row, hrow, le_rfl⟩, fun _ row hrow _ => ⟨row, hrow, le_rfl⟩, fun _ h => h⟩

theorem minimize_le (h : Encloses choices inner) (direction : Direction) (x : Nat → ℝ) :
    optimalStep .minimize choices T x ≤ optimalStep direction inner T x := by
  intro s
  by_cases hs : s ∈ T
  · rw [optimalStep_of_mem hs, optimalStep_of_mem hs]
  · rw [optimalStep_of_notMem hs, optimalStep_of_notMem hs]
    by_cases hnil : inner s = []
    · rw [hnil, h.nil_of_nil s hnil]
      cases direction <;> exact le_rfl
    · obtain ⟨row, hrow, hbest⟩ := direction.exists_eq_best (fun row : Row ℝ => row.dot x) hnil
      obtain ⟨outer, houter, hle⟩ := h.exists_le s row hrow x
      rw [← hbest]
      exact (Direction.best_minimize_le (List.mem_map_of_mem houter)).trans hle

theorem le_maximize (h : Encloses choices inner) (direction : Direction) (x : Nat → ℝ) :
    optimalStep direction inner T x ≤ optimalStep .maximize choices T x := by
  intro s
  by_cases hs : s ∈ T
  · rw [optimalStep_of_mem hs, optimalStep_of_mem hs]
  · rw [optimalStep_of_notMem hs, optimalStep_of_notMem hs]
    by_cases hnil : inner s = []
    · rw [hnil, h.nil_of_nil s hnil]
      cases direction <;> exact le_rfl
    · obtain ⟨row, hrow, hbest⟩ := direction.exists_eq_best (fun row : Row ℝ => row.dot x) hnil
      obtain ⟨outer, houter, hle⟩ := h.exists_ge s row hrow x
      rw [← hbest]
      exact hle.trans (Direction.le_best_maximize (List.mem_map_of_mem houter))

/-- The optimal probabilities of an enclosing process lie outside those of the other one. -/
theorem optimal_le (h : Encloses choices inner) (hchoices : SubstochasticChoices choices)
    (hinner : SubstochasticChoices inner) {lower upper : Nat → ℝ}
    (hlower : IsOptimal .minimize choices T lower) (hx : IsOptimal direction inner T x)
    (hupper : IsOptimal .maximize choices T upper) : lower ≤ x ∧ x ≤ upper := by
  constructor
  · refine hlower.le_of_optimalStep_le hchoices hx.nonneg ?_
    calc optimalStep .minimize choices T x ≤ optimalStep direction inner T x :=
          h.minimize_le direction x
      _ = x := hx.optimalStep_eq
  · refine hx.le_of_optimalStep_le hinner hupper.nonneg ?_
    calc optimalStep direction inner T upper ≤ optimalStep .maximize choices T upper :=
          h.le_maximize direction upper
      _ = upper := hupper.optimalStep_eq

end Encloses

end Optimal

end MarkovRegion
