import MarkovRegion.Proofs.Analysis.ZeroOne

/-!
# Minimal probability zero

The states of a decision process with minimal probability zero are those from which some choices
avoid the targets for ever.  They are found by removing candidates in rounds (`candidates`): a
candidate stays if one of its choices leads to candidates only.

* Every round but the last removes a candidate, so the rounds come to an end, and what is left then
  are the states that can avoid the targets (`exists_rounds_canAvoid`).
* A state that is removed has positive minimal probability: each of its choices has a step to a
  state that was removed before, or to a target (`pos_of_notMem_candidates`).  The induction is on
  the round; the number of choices is finite, so that the least of their values is one of them.
* A state that is left has minimal probability zero, because minimal probabilities are the least
  solution of the Bellman equations (`eq_zero_of_mem_canAvoid`).
-/

namespace MarkovRegion

namespace Qualitative

/-! ## Rounds -/

variable {W : Type}

/-- The states that are left after some rounds.  At first these are the states that are no targets;
in a round those are kept that have a choice which only leads to states that are left. -/
def candidates (m : TransitionMatrix W) (targets : List Nat) : Nat → List Nat
  | 0 => complement m.states targets
  | round + 1 => (candidates m targets round).filter fun s =>
      (m.choices s).any fun row => row.all fun e => (candidates m targets round).contains e.1

section Rounds

variable {m : TransitionMatrix W} {targets : List Nat} {s : Nat}

theorem mem_candidates_succ {round : Nat} :
    s ∈ candidates m targets (round + 1) ↔ s ∈ candidates m targets round ∧
      ∃ row ∈ m.choices s, ∀ e ∈ row, e.1 ∈ candidates m targets round := by
  simp [candidates]

theorem contains_members (marks : Array Bool) (s : Nat) :
    (members marks).contains s = marked marks s := by
  rw [Bool.eq_iff_iff, List.contains_iff_mem, mem_members]

theorem members_injective {a b : Array Bool} (hsize : a.size = b.size)
    (h : members a = members b) : a = b := by
  refine marks_ext hsize fun s => ?_
  rw [← contains_members, ← contains_members, h]

/-- A step on marks is a round. -/
theorem members_avoidStep {marks : Array Bool} (hsize : marks.size = m.states) :
    members (avoidStep m marks) = (members marks).filter fun s =>
      (m.choices s).any fun row => row.all fun e => (members marks).contains e.1 := by
  have hsize' : (avoidStep m marks).size = m.states :=
    (deflationary_avoidStep m).size_eq marks hsize
  simp only [contains_members]
  rw [members, members, hsize, hsize', List.filter_filter]
  refine List.filter_congr fun s hs => ?_
  rw [avoidStep, marked_map_range, decide_eq_true (List.mem_range.mp hs), Bool.true_and,
    Bool.and_comm]

theorem size_iterate_avoidStep (m : TransitionMatrix W) (targets : List Nat) (round : Nat) :
    ((avoidStep m)^[round] (marksOf m.states (complement m.states targets))).size = m.states := by
  induction round with
  | zero => exact size_marksOf _ _
  | succ round ih =>
      rw [Function.iterate_succ_apply']
      exact (deflationary_avoidStep m).size_eq _ ih

theorem members_iterate_avoidStep (m : TransitionMatrix W) (targets : List Nat) (round : Nat) :
    members ((avoidStep m)^[round] (marksOf m.states (complement m.states targets))) =
      candidates m targets round := by
  induction round with
  | zero =>
      rw [Function.iterate_zero_apply, members, size_marksOf, candidates, complement]
      refine List.filter_congr fun s hs => ?_
      rw [← Bool.coe_iff_coe, marked_marksOf, List.mem_filter]
      exact ⟨fun h => h.2.2, fun h => ⟨List.mem_range.mp hs, hs, h⟩⟩
  | succ round ih =>
      rw [Function.iterate_succ_apply', members_avoidStep (size_iterate_avoidStep m targets round),
        ih, candidates]

/-- A step is repeated as long as it changes something. -/
theorem exists_iterate_stabilize (step : Array Bool → Array Bool) (fuel : Nat)
    (marks : Array Bool) : ∃ k ≤ fuel, stabilize step fuel marks = step^[k] marks ∧
      ∀ j < k, step^[j + 1] marks ≠ step^[j] marks := by
  induction fuel generalizing marks with
  | zero => exact ⟨0, le_rfl, rfl, fun j hj => absurd hj (Nat.not_lt_zero j)⟩
  | succ fuel ih =>
      rw [stabilize]
      split
      · exact ⟨0, Nat.zero_le _, rfl, fun j hj => absurd hj (Nat.not_lt_zero j)⟩
      · next hchange =>
          obtain ⟨k, hk, hresult, hsteps⟩ := ih (step marks)
          refine ⟨k + 1, Nat.succ_le_succ hk, hresult, fun j hj => ?_⟩
          cases j with
          | zero => exact hchange
          | succ j => exact hsteps j (Nat.lt_of_succ_lt_succ hj)

/-- The rounds come to an end: each removes a state, up to one that removes none.  What is left then
are the states that can avoid the targets. -/
theorem exists_rounds_canAvoid (m : TransitionMatrix W) (targets : List Nat) :
    ∃ k ≤ m.states,
      (∀ j < k, (candidates m targets (j + 1)).length < (candidates m targets j).length) ∧
      candidates m targets (k + 1) = candidates m targets k ∧
      canAvoid m targets = candidates m targets k := by
  obtain ⟨k, hk, hresult, hchanges⟩ := exists_iterate_stabilize (avoidStep m) m.states
    (marksOf m.states (complement m.states targets))
  have hfixed := (deflationary_avoidStep m).step_stabilize
    (size_marksOf m.states (complement m.states targets))
  rw [hresult, ← Function.iterate_succ_apply' (avoidStep m)] at hfixed
  refine ⟨k, hk, fun j hj => ?_, ?_, ?_⟩
  · have hsub : (candidates m targets (j + 1)).Sublist (candidates m targets j) :=
      List.filter_sublist
    refine lt_of_le_of_ne hsub.length_le fun hlength => hchanges j hj ?_
    refine members_injective ?_ ?_
    · rw [size_iterate_avoidStep, size_iterate_avoidStep]
    · rw [members_iterate_avoidStep, members_iterate_avoidStep, hsub.eq_of_length hlength]
  · rw [← members_iterate_avoidStep, ← members_iterate_avoidStep, hfixed]
  · rw [canAvoid, hresult, members_iterate_avoidStep]

end Rounds

end Qualitative

/-! ## Removed states -/

/-- If each choice has a positive value, then so has the best. -/
theorem IsOptimal.pos_of_choices {direction : Direction} {choices : Nat → List (Row ℝ)}
    {T : Set Nat} {x : Nat → ℝ} (hx : IsOptimal direction choices T x) {s : Nat}
    (hne : choices s ≠ []) (h : s ∉ T → ∀ row ∈ choices s, 0 < row.dot x) : 0 < x s := by
  rw [← hx.optimalStep_eq]
  by_cases hs : s ∈ T
  · rw [optimalStep_of_mem hs]
    exact one_pos
  · rw [optimalStep_of_notMem hs]
    obtain ⟨row, hrow, hbest⟩ := direction.exists_eq_best (fun row : Row ℝ => row.dot x) hne
    rw [← hbest]
    exact h hs row hrow

theorem TransitionMatrix.Stochastic.realChoices_ne_nil {m : TransitionMatrix ℚ} (hm : m.Stochastic)
    {s : Nat} (hs : s < m.states) : m.realChoices s ≠ [] := by
  rw [realChoices, Ne, List.map_eq_nil_iff]
  exact hm.nonempty s hs

namespace Reachability

open Qualitative

variable {m : TransitionMatrix ℚ} {targets : List Nat} {x : Nat → ℝ} {s : Nat}

/-- A state all of whose choices may leave a set outside which minimal probabilities are positive
has positive minimal probability. -/
theorem pos_of_leaves (hm : m.Stochastic)
    (hx : IsOptimal .minimize m.realChoices {s | s ∈ targets} x) {set : List Nat}
    (hset : ∀ t < m.states, t ∉ set → 0 < x t) (hs : s < m.states)
    (hleaves : s ∉ targets → ∀ row ∈ m.choices s, ∃ e ∈ row, e.1 ∉ set) : 0 < x s := by
  refine hx.pos_of_choices (hm.realChoices_ne_nil hs) fun htarget choice hchoice => ?_
  obtain ⟨row, hrow, rfl⟩ := List.mem_map.mp hchoice
  obtain ⟨e, he, hout⟩ := hleaves htarget row hrow
  exact Row.dot_pos (hm.pos_read hrow) (fun d _ => hx.nonneg d.1)
    (Row.mem_read.mpr ⟨e, he, rfl⟩) (hset e.1 (hm.column_lt s hs row hrow e he) hout)

/-- A state that is removed in some round has positive minimal probability. -/
theorem pos_of_notMem_candidates (hm : m.Stochastic)
    (hx : IsOptimal .minimize m.realChoices {s | s ∈ targets} x) (round : Nat) (hs : s < m.states)
    (hout : s ∉ candidates m targets round) : 0 < x s := by
  induction round generalizing s with
  | zero =>
      have htarget : s ∈ targets := by
        by_contra hnot
        exact hout (mem_complement.mpr ⟨hs, hnot⟩)
      exact hx.pos_of_choices (hm.realChoices_ne_nil hs) fun hnot => absurd htarget hnot
  | succ round ih =>
      by_cases hmem : s ∈ candidates m targets round
      · -- removed in this round: no choice keeps to the candidates
        refine pos_of_leaves hm hx (fun t ht => ih ht) hs fun _ row hrow => ?_
        by_contra hstays
        push Not at hstays
        exact hout (mem_candidates_succ.mpr ⟨hmem, row, hrow, hstays⟩)
      · exact ih hs hmem

/-- The states that can avoid the targets are those of minimal probability zero. -/
theorem mem_canAvoid_iff (hm : m.Stochastic)
    (hx : IsOptimal .minimize m.realChoices {s | s ∈ targets} x) :
    s ∈ canAvoid m targets ↔ s < m.states ∧ x s = 0 := by
  constructor
  · intro hs
    obtain ⟨row, hrow, -⟩ := (canAvoid_stays hs).2
    exact ⟨TransitionMatrix.lt_states_of_mem_choices hrow,
      eq_zero_of_mem_canAvoid hm.proper.substochastic hx hs⟩
  · rintro ⟨hs, hzero⟩
    obtain ⟨k, -, -, -, hresult⟩ := exists_rounds_canAvoid m targets
    by_contra hout
    rw [hresult] at hout
    exact (pos_of_notMem_candidates hm hx k hs hout).ne' hzero

/-- The qualitative analysis of a decision process is exact.  The rounds in which states are removed
that cannot avoid the targets end when a round removes none, and leave the states of minimal
probability zero; the states from which no run reaches a target are those of maximal probability
zero. -/
theorem avoidance_exact {m : TransitionMatrix ℚ} (hm : m.Stochastic) {targets : List Nat}
    (htargets : ∀ t ∈ targets, t < m.states) :
    (∃ k ≤ m.states,
      (∀ j < k, (candidates m targets (j + 1)).length < (candidates m targets j).length) ∧
      candidates m targets (k + 1) = candidates m targets k ∧
      canAvoid m targets = candidates m targets k) ∧
    (∃ x, IsOptimal .minimize m.realChoices {s | s ∈ targets} x ∧
      ∀ s, s ∈ canAvoid m targets ↔ s < m.states ∧ x s = 0) ∧
    ∃ x, IsOptimal .maximize m.realChoices {s | s ∈ targets} x ∧
      ∀ s, s ∈ neverReach m targets ↔ s < m.states ∧ x s = 0 := by
  have hsub := hm.proper.substochastic
  refine ⟨exists_rounds_canAvoid m targets, ?_, ?_⟩
  · obtain ⟨x, hx⟩ := hsub.exists_isOptimal .minimize {s | s ∈ targets}
    exact ⟨x, hx, fun s => mem_canAvoid_iff hm hx⟩
  · obtain ⟨x, hx⟩ := hsub.exists_isOptimal .maximize {s | s ∈ targets}
    exact ⟨x, hx, fun s => mem_neverReach_iff hm htargets hx⟩

/-- A game with bets.  From state 0 one may pass, or bet on a coin between a win, state 1, and ruin,
state 2.  From state 3 one goes to state 4, or lets a coin choose between 0 and 4; from state 4 the
bank always pays. -/
def betMatrix : TransitionMatrix ℚ where
  columns := 5
  groups := #[[[(0, 1)], [(1, 1 / 2), (2, 1 / 2)]], [[(1, 1)]], [[(2, 1)]],
    [[(4, 1)], [(0, 1 / 2), (4, 1 / 2)]], [[(1, 1)]]]

/-- The first round removes state 4, which must win, the second state 3, which may have to go there.
Passing avoids the win, though it is possible. -/
theorem avoidance_exact_bets :
    (betMatrix.Stochastic ∧ ∀ t ∈ [1], t < betMatrix.states) ∧
    candidates betMatrix [1] 0 = [0, 2, 3, 4] ∧ candidates betMatrix [1] 1 = [0, 2, 3] ∧
    canAvoid betMatrix [1] = [0, 2] ∧ neverReach betMatrix [1] = [2] ∧
    (∃ x, IsOptimal .minimize betMatrix.realChoices {s | s ∈ [1]} x ∧ x 0 = 0 ∧ x 3 ≠ 0) ∧
    ∃ x, IsOptimal .maximize betMatrix.realChoices {s | s ∈ [1]} x ∧ x 2 = 0 ∧ x 0 ≠ 0 := by
  have hbets : betMatrix.Stochastic :=
    ⟨by decide, by decide, by decide +kernel, by decide +kernel⟩
  have htargets : ∀ t ∈ [1], t < betMatrix.states := by decide
  have havoid : canAvoid betMatrix [1] = [0, 2] := by decide +kernel
  have hnever : neverReach betMatrix [1] = [2] := by decide +kernel
  obtain ⟨-, ⟨x, hx, hmin⟩, y, hy, hmax⟩ := avoidance_exact hbets htargets
  rw [havoid] at hmin
  rw [hnever] at hmax
  refine ⟨⟨hbets, htargets⟩, by decide +kernel, by decide +kernel, havoid, hnever,
    ⟨x, hx, ((hmin 0).mp (by decide)).2, fun h => ?_⟩, y, hy, ((hmax 2).mp (by decide)).2,
    fun h => ?_⟩
  · exact absurd ((hmin 3).mpr ⟨by decide, h⟩) (by decide)
  · exact absurd ((hmax 0).mpr ⟨by decide, h⟩) (by decide)

end Reachability

end MarkovRegion
