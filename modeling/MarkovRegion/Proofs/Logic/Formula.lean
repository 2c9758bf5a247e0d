import Mathlib.Data.Rat.Cast.Order
import Mathlib.Data.Real.Basic
import MarkovRegion.Logic.Formula
import MarkovRegion.Proofs.Algebra.OrderedMap
import MarkovRegion.Proofs.Basic

/-!
# The meaning of formulas

A propositional formula holds in a state by its labels (`StateFormula.HoldsIn`), and
`StateFormula.satisfying` lists the states in which it holds, provided that its labels are declared
(`StateFormula.exists_satisfying`).  A bound holds of a real number (`Bound.Holds`); on rationals
`Bound.holds` decides it.
-/

namespace MarkovRegion

namespace StateFormula

/-- Whether a formula without probability operators holds in a state. -/
def HoldsIn (labeling : Labeling) (s : Nat) : StateFormula → Prop
  | always => True
  | label name => ∃ found, labeling.states? name = some found ∧ s ∈ found
  | neg inner => ¬ inner.HoldsIn labeling s
  | conj left right => left.HoldsIn labeling s ∧ right.HoldsIn labeling s
  | disj left right => left.HoldsIn labeling s ∨ right.HoldsIn labeling s
  | probability .. => False

/-- The states that satisfy a propositional formula with declared labels are found. -/
theorem exists_satisfying {labeling : Labeling} {n : Nat}
    (hlabels : ∀ name found, labeling.states? name = some found → ∀ s ∈ found, s < n) :
    (φ : StateFormula) → φ.isPropositional = true →
      (∀ name ∈ φ.labels, (labeling.states? name).isSome = true) →
      ∃ found, φ.satisfying labeling n = .ok found ∧
        ∀ s, s ∈ found ↔ s < n ∧ φ.HoldsIn labeling s
  | always, _, _ => ⟨List.range n, rfl, by simp [HoldsIn]⟩
  | label name, _, hdeclared => by
      obtain ⟨found, hfound⟩ := Option.isSome_iff_exists.mp (hdeclared name (by simp [labels]))
      refine ⟨found, by rw [satisfying, hfound], fun s => ?_⟩
      simp only [HoldsIn, hfound, Option.some.injEq, exists_eq_left']
      exact (and_iff_right_of_imp (hlabels name found hfound s)).symm
  | neg inner, hprop, hdeclared => by
      obtain ⟨found, hok, hiff⟩ := exists_satisfying hlabels inner hprop hdeclared
      refine ⟨_, by rw [satisfying, hok]; rfl, fun s => ?_⟩
      simp only [List.mem_filter, List.mem_range, Bool.not_eq_true', List.contains_eq_mem,
        decide_eq_false_iff_not, hiff, HoldsIn]
      tauto
  | conj left right, hprop, hdeclared => by
      obtain ⟨hl, hr⟩ := (Bool.and_eq_true _ _).mp hprop
      obtain ⟨l, hlok, hliff⟩ := exists_satisfying hlabels left hl
        fun name h => hdeclared name (List.mem_append_left _ h)
      obtain ⟨r, hrok, hriff⟩ := exists_satisfying hlabels right hr
        fun name h => hdeclared name (List.mem_append_right _ h)
      refine ⟨_, by rw [satisfying, hlok, hrok]; rfl, fun s => ?_⟩
      simp only [List.mem_filter, List.contains_eq_mem, decide_eq_true_eq, hliff, hriff, HoldsIn]
      tauto
  | disj left right, hprop, hdeclared => by
      obtain ⟨hl, hr⟩ := (Bool.and_eq_true _ _).mp hprop
      obtain ⟨l, hlok, hliff⟩ := exists_satisfying hlabels left hl
        fun name h => hdeclared name (List.mem_append_left _ h)
      obtain ⟨r, hrok, hriff⟩ := exists_satisfying hlabels right hr
        fun name h => hdeclared name (List.mem_append_right _ h)
      refine ⟨_, by rw [satisfying, hlok, hrok]; rfl, fun s => ?_⟩
      simp only [stateSet, mem_orderedKeys, List.mem_append, hliff, hriff, HoldsIn]
      tauto

theorem isPropositional_of_reachability? {φ target : StateFormula} {bound : Bound}
    (h : φ.reachability? = some (bound, target)) : target.isPropositional = true := by
  unfold reachability? at h
  split at h
  all_goals
    first
    | split at h
      · next hprop => exact (Prod.mk.inj (Option.some.inj h)).2 ▸ hprop
      · cases h
    | cases h

end StateFormula

namespace Bound

/-- Whether a real number satisfies the bound. -/
def Holds (b : Bound) (x : ℝ) : Prop :=
  match b.comparison with
  | .less => x < b.threshold
  | .lessEqual => x ≤ b.threshold
  | .greater => b.threshold < x
  | .greaterEqual => b.threshold ≤ x
  | .equal => x = b.threshold

theorem holds_eq_true_iff {b : Bound} {q : ℚ} : b.holds q = true ↔ b.Holds q := by
  obtain ⟨comparison, threshold⟩ := b
  cases comparison <;> simp [holds, Holds]

end Bound

end MarkovRegion
