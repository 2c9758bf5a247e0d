import MarkovRegion.Proofs.Analysis.IntervalIteration

/-!
# Probabilities zero and one

The graph of the steps decides where the probability of reaching a target is zero and where it is
one.  That the states found by the qualitative analysis have these probabilities needs that
probabilities are the least solution of their equations (`Classes.eq_zero_of_never`,
`Classes.eq_one_of_sure`); that no other state has them needs only that weights are positive, and
follows by induction backwards along the steps:

* from where a target can be reached, it is reached with positive probability, and if there are
  choices, then with positive maximal probability (`pos_of_mem_canReach`);
* from where the states that never reach a target can be reached past the targets, it is reached
  with a probability below one (`lt_one_of_mem_canReach`).
-/

namespace MarkovRegion

open Qualitative

namespace Row

variable {row : Row ℝ} {x : Nat → ℝ} {e : Nat × ℝ}

/-- A row of positive weights on values that are not all zero. -/
theorem dot_pos (hrow : ∀ e ∈ row, 0 < e.2) (hx : ∀ e ∈ row, 0 ≤ x e.1) (he : e ∈ row)
    (hpos : 0 < x e.1) : 0 < dot row x :=
  (mul_pos (hrow e he) hpos).trans_le (mul_le_dot (fun d hd => (hrow d hd).le) hx he)

/-- A distribution on values up to one that are not all one. -/
theorem dot_lt_one (hrow : ∀ e ∈ row, 0 < e.2) (hmass : dot row 1 = 1) (hx : ∀ e ∈ row, x e.1 ≤ 1)
    (he : e ∈ row) (hlt : x e.1 < 1) : dot row x < 1 := by
  -- what is missing to one has a positive mean
  have hgap : 0 < dot row (1 + (-1 : ℝ) • x) :=
    dot_pos hrow (fun d hd => by simpa using hx d hd) he (by simpa using hlt)
  rw [dot_add, dot_smul, hmass] at hgap
  linarith

end Row

namespace Reachability

variable {m : TransitionMatrix ℚ} {targets : List Nat} {x : Nat → ℝ} {s : Nat}

/-- Where a target can be reached, the maximal probability is positive. -/
theorem pos_of_mem_canReach (hm : m.Stochastic)
    (hx : IsOptimal .maximize m.realChoices {s | s ∈ targets} x)
    (hs : s ∈ canReach m targets fun _ => true) : 0 < x s := by
  have htarget : ∀ s ∈ targets, 0 < x s := by
    intro s hs
    rw [← hx.optimalStep_eq, optimalStep_of_mem (show s ∈ {s | s ∈ targets} from hs)]
    exact one_pos
  refine canReach_induction (P := fun s => 0 < x s) htarget (fun s t _ hst ht => ?_) hs
  by_cases hs : s ∈ targets
  · exact htarget s hs
  · obtain ⟨row, hrow, hcolumn⟩ := List.mem_flatMap.mp hst
    obtain ⟨e, he, rfl⟩ := Row.mem_columns.mp hcolumn
    calc 0 < (Row.read realReading row).dot x :=
          Row.dot_pos (hm.pos_read hrow) (fun d _ => hx.nonneg d.1)
            (Row.mem_read.mpr ⟨e, he, rfl⟩) ht
      _ ≤ Direction.maximize.best ((m.realChoices s).map fun row => row.dot x) :=
          Direction.le_best_maximize (List.mem_map_of_mem (List.mem_map_of_mem hrow))
      _ = optimalStep .maximize m.realChoices {s | s ∈ targets} x s :=
          (optimalStep_of_notMem (T := {s | s ∈ targets}) hs).symm
      _ = x s := congrFun hx.optimalStep_eq s

/-- The states that never reach a target are those of maximal probability zero. -/
theorem mem_neverReach_iff (hm : m.Stochastic) (htargets : ∀ t ∈ targets, t < m.states)
    (hx : IsOptimal .maximize m.realChoices {s | s ∈ targets} x) :
    s ∈ neverReach m targets ↔ s < m.states ∧ x s = 0 := by
  rw [neverReach, mem_complement]
  refine and_congr_right fun _ => ⟨fun hnot => ?_, fun hzero hmem => ?_⟩
  · exact eq_zero_of_notMem_canReach hm.proper.substochastic htargets hx hnot
  · exact (pos_of_mem_canReach hm hx hmem).ne' hzero

section Chain

variable {rows : Nat → Row ℝ} (hrows : Weighs m rows)
  (hx : IsReachability rows {s | s ∈ targets} x)
include hrows hx

/-- Where states of probability zero can be reached past the targets, the probability is below
one. -/
theorem lt_one_of_mem_canReach {zero : List Nat} (hzero : ∀ s ∈ zero, x s = 0)
    (hs : s ∈ canReach m zero fun s => !targets.contains s) : x s < 1 := by
  refine canReach_induction (P := fun s => x s < 1) (fun s hs => ?_) (fun s t hpass hst ht => ?_) hs
  · rw [hzero s hs]
    exact one_pos
  · have hnot : s ∉ targets := by simpa using hpass
    obtain ⟨e, he, rfl⟩ := (hrows.mem_successors s t).mp hst
    have hlt : s < m.states := by
      by_contra hle
      rw [successors_eq_nil (not_lt.mp hle)] at hst
      cases hst
    rw [hx.eq_dot hnot]
    exact Row.dot_lt_one (hrows.pos s) (hrows.mass s hlt)
      (fun d _ => hx.le_one hrows.substochastic d.1) he ht

end Chain

/-- The qualitative analysis of a chain is exact: it finds the states that reach a target with
probability zero, and from these the states that reach one with probability one. -/
theorem qualitative_analysis_exact {m : TransitionMatrix ℚ} (hm : m.Stochastic)
    (hchain : m.IsChain) {targets : List Nat} (htargets : ∀ t ∈ targets, t < m.states) :
    ∃ x, IsReachability m.realRow {s | s ∈ targets} x ∧
      (∀ s, s ∈ neverReach m targets ↔ s < m.states ∧ x s = 0) ∧
      ∀ s, s ∈ surelyReach m targets (neverReach m targets) ↔ s < m.states ∧ x s = 1 := by
  have hrows := hm.weighs_realRow hchain
  obtain ⟨x, hx⟩ := hrows.substochastic.exists_isReachability {s | s ∈ targets}
  have hoptimal := (isReachability_iff_isOptimal .maximize hchain.realChoices_cases).mp hx
  have hnever := fun s => mem_neverReach_iff (s := s) hm htargets hoptimal
  refine ⟨x, hx, hnever, fun s => ⟨fun hs => ?_, fun ⟨hs, hone⟩ => ?_⟩⟩
  · have hclasses := classes_of_matrix hm.successors_lt htargets
    exact ⟨hclasses.sure_lt s hs, hclasses.eq_one_of_sure hrows hx hs⟩
  · refine mem_complement.mpr ⟨hs, fun hmem => ?_⟩
    exact (lt_one_of_mem_canReach hrows hx (fun t ht => ((hnever t).mp ht).2) hmem).ne hone

/-- A game against the bank: from state 0 a fair coin wins or ruins, from state 3 it is tossed until
it wins, and from state 4 it decides which of these two is played. -/
def gameMatrix : TransitionMatrix ℚ where
  columns := 5
  groups := #[[[(1, 1 / 2), (2, 1 / 2)]], [[(1, 1)]], [[(2, 1)]], [[(1, 1 / 2), (3, 1 / 2)]],
    [[(0, 1 / 2), (3, 1 / 2)]]]

/-- Ruin never wins, and repeated tosses win for sure, though they may go on for ever. -/
theorem qualitative_analysis_game :
    neverReach gameMatrix [1] = [2] ∧ surelyReach gameMatrix [1] [2] = [1, 3] ∧
    ∃ x, IsReachability gameMatrix.realRow {s | s ∈ [1]} x ∧ x 2 = 0 ∧ x 3 = 1 ∧
      x 4 ≠ 0 ∧ x 4 ≠ 1 := by
  have hgame : gameMatrix.Stochastic :=
    ⟨by decide, by decide, by decide +kernel, by decide +kernel⟩
  have hchain : gameMatrix.IsChain := by
    intro s hs
    match s, hs with
    | 0, _ => exact ⟨_, rfl⟩
    | 1, _ => exact ⟨_, rfl⟩
    | 2, _ => exact ⟨_, rfl⟩
    | 3, _ => exact ⟨_, rfl⟩
    | 4, _ => exact ⟨_, rfl⟩
  have hnever : neverReach gameMatrix [1] = [2] := by decide +kernel
  have hsure : surelyReach gameMatrix [1] [2] = [1, 3] := by decide +kernel
  have htargets : ∀ t ∈ [1], t < gameMatrix.states := by decide
  obtain ⟨x, hx, hzero, hone⟩ := qualitative_analysis_exact hgame hchain htargets
  rw [hnever] at hzero hone
  rw [hsure] at hone
  refine ⟨hnever, hsure, x, hx, ((hzero 2).mp (by decide)).2, ((hone 3).mp (by decide)).2,
    fun h => ?_, fun h => ?_⟩
  · exact absurd ((hzero 4).mpr ⟨by decide, h⟩) (by decide)
  · exact absurd ((hone 4).mpr ⟨by decide, h⟩) (by decide)

end Reachability

end MarkovRegion
