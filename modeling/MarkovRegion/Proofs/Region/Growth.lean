import Mathlib.Data.Fintype.Basic
import MarkovRegion.Analysis.Sampling
import MarkovRegion.Smt.Session

/-!
# Regions grow

Verdicts are ordered by what they tell.  A region grows if its verdict rises in this order, its
recorded points stay, and its box does not change (`Region.Grows`).

As long as nothing was concluded about all points, the verdict of a region just says which points
are known (`Region.Undecided`).  From there recording a point and concluding a verdict let the
region grow (`Region.Undecided.record`, `Region.Undecided.conclude`), and so do sampling, which only
records, and bounding processes, which conclude at most once (`Region.Undecided.sample`,
`Approximator.pursue_cases`).  Whether points were decided rightly and verdicts are true does not
matter for this.

From a verdict about all points a region would not grow: a point that is recorded then may
contradict it.  So it matters that nothing is recorded after a conclusion.
-/

namespace MarkovRegion

/-! ## The order of verdicts -/

namespace Verdict

/-- The verdicts that tell at least as much. -/
def above : Verdict → List Verdict
  | unknown => all
  | existsSat => [existsSat, existsBoth, allSat]
  | existsViolated => [existsViolated, existsBoth, allViolated]
  | final => [final]

instance : LE Verdict := ⟨fun a b => b ∈ a.above⟩

instance : DecidableLE Verdict := fun a b => inferInstanceAs (Decidable (b ∈ a.above))

instance : Fintype Verdict := ⟨⟨all, by decide⟩, fun v => by cases v <;> decide⟩

instance : PartialOrder Verdict where
  le_refl := by decide
  le_trans := by decide
  le_antisymm := by decide

/-- Whether something is said about all points. -/
def isUniversal : Verdict → Bool
  | allSat | allViolated => true
  | _ => false

/-- The verdict that says which points are known. -/
def ofPoints : Bool → Bool → Verdict
  | false, false => unknown
  | true, false => existsSat
  | false, true => existsViolated
  | true, true => existsBoth

theorem withSat_ofPoints (violated : Bool) :
    (ofPoints false violated).withSat = ofPoints true violated := by
  cases violated <;> rfl

theorem withViolated_ofPoints (sat : Bool) :
    (ofPoints sat false).withViolated = ofPoints sat true := by
  cases sat <;> rfl

theorem le_withSat : ∀ v : Verdict, v ≤ v.withSat := by decide

theorem le_withViolated : ∀ v : Verdict, v ≤ v.withViolated := by decide

theorem isUniversal_ofPoints : ∀ sat violated, (ofPoints sat violated).isUniversal = false := by
  decide

theorem isUniversal_eq_false_of_not_terminal :
    ∀ v : Verdict, v.isTerminal = false → v.isUniversal = false := by
  decide

/-- Nothing is above a verdict on all points. -/
theorem isUniversal_of_le : ∀ a b : Verdict, a ≤ b → a.isUniversal = true →
    b.isUniversal = true := by
  decide

theorem ofPoints_eq_iff : ∀ sat violated sat' violated', ofPoints sat violated =
    ofPoints sat' violated' ↔ sat = sat' ∧ violated = violated' := by
  decide

end Verdict

/-! ## Regions -/

namespace Region

variable {r s t : Region}

theorem box_record (r : Region) (found : Bool) (q : Valuation) :
    (r.record found q).box = r.box := by
  unfold record recordSat recordViolated
  split <;> split <;> rfl

theorem box_sample (r : Region) (holds : Valuation → Except CheckError Bool)
    (points : List Valuation) : (r.sample holds points).1.box = r.box := by
  induction points generalizing r with
  | nil => rfl
  | cons q rest ih =>
      rw [sample]
      split
      · rfl
      · dsimp only
        split
        · exact box_record r _ q
        · exact (ih _).trans (box_record r _ q)

theorem box_conclude {verdict : Verdict} (h : r.conclude verdict = .ok s) : s.box = r.box := by
  unfold conclude at h
  split_ifs at h
  rw [← Except.ok.inj h]

/-- The second region knows at least what the first does. -/
structure Grows (r s : Region) : Prop where
  box_eq : s.box = r.box
  verdict_le : r.verdict ≤ s.verdict
  sat_kept : ∀ q, r.satPoint = some q → s.satPoint = some q
  violated_kept : ∀ q, r.violatedPoint = some q → s.violatedPoint = some q

theorem Grows.refl (r : Region) : r.Grows r := ⟨rfl, le_rfl, fun _ h => h, fun _ h => h⟩

theorem Grows.trans (hrs : r.Grows s) (hst : s.Grows t) : r.Grows t :=
  ⟨hst.box_eq.trans hrs.box_eq, hrs.verdict_le.trans hst.verdict_le,
    fun q hq => hst.sat_kept q (hrs.sat_kept q hq),
    fun q hq => hst.violated_kept q (hrs.violated_kept q hq)⟩

/-- The verdict says which points are known, and nothing else. -/
def Undecided (r : Region) : Prop :=
  r.verdict = .ofPoints r.satPoint.isSome r.violatedPoint.isSome

/-- The verdict fits the points. -/
inductive Coherent (r : Region) : Prop
  | undecided (h : r.Undecided)
  | allSat (h : r.verdict = .allSat) (hpoint : r.violatedPoint = none)
  | allViolated (h : r.verdict = .allViolated) (hpoint : r.satPoint = none)

theorem undecided_fresh (b : Box) : (fresh b).Undecided := rfl

theorem Undecided.isUniversal_eq_false (h : r.Undecided) : r.verdict.isUniversal = false := by
  rw [h]
  exact Verdict.isUniversal_ofPoints _ _

/-- If nothing is said about all points, then the verdict says which points are known. -/
theorem Coherent.undecided_of (h : r.Coherent) (hopen : r.verdict.isUniversal = false) :
    r.Undecided := by
  cases h with
  | undecided h => exact h
  | allSat h _ =>
      rw [h] at hopen
      cases hopen
  | allViolated h _ =>
      rw [h] at hopen
      cases hopen

theorem Coherent.verdict_eq_ofPoints_iff (h : r.Coherent) (sat violated : Bool) :
    r.verdict = .ofPoints sat violated ↔
      (r.satPoint.isSome = sat ∧ r.violatedPoint.isSome = violated) ∧
        r.verdict.isUniversal = false := by
  constructor
  · intro hverdict
    have hopen : r.verdict.isUniversal = false :=
      hverdict ▸ Verdict.isUniversal_ofPoints sat violated
    have hpoints := h.undecided_of hopen
    exact ⟨(Verdict.ofPoints_eq_iff _ _ _ _).mp (hpoints.symm.trans hverdict), hopen⟩
  · rintro ⟨⟨rfl, rfl⟩, hopen⟩
    exact h.undecided_of hopen

theorem Coherent.violatedPoint_eq_none (h : r.Coherent) (hall : r.verdict = .allSat) :
    r.violatedPoint = none := by
  cases h with
  | undecided h =>
      have hopen := h.isUniversal_eq_false
      rw [hall] at hopen
      cases hopen
  | allSat _ hpoint => exact hpoint
  | allViolated h _ =>
      rw [h] at hall
      cases hall

theorem Coherent.satPoint_eq_none (h : r.Coherent) (hall : r.verdict = .allViolated) :
    r.satPoint = none := by
  cases h with
  | undecided h =>
      have hopen := h.isUniversal_eq_false
      rw [hall] at hopen
      cases hopen
  | allSat h _ =>
      rw [h] at hall
      cases hall
  | allViolated _ hpoint => exact hpoint

/-! ### Recording and concluding -/

namespace Undecided

variable (h : r.Undecided)
include h

theorem recordSat (q : Valuation) : (r.recordSat q).Undecided ∧ r.Grows (r.recordSat q) := by
  unfold Region.recordSat
  split
  · exact ⟨h, .refl r⟩
  · next hnone =>
      refine ⟨?_, rfl, r.verdict.le_withSat, ?_, fun _ hq => hq⟩
      · have hverdict : r.verdict = .ofPoints false r.violatedPoint.isSome := by
          rw [h, hnone]
          rfl
        show r.verdict.withSat = _
        rw [hverdict, Verdict.withSat_ofPoints]
        rfl
      · rw [hnone]
        nofun

theorem recordViolated (q : Valuation) :
    (r.recordViolated q).Undecided ∧ r.Grows (r.recordViolated q) := by
  unfold Region.recordViolated
  split
  · exact ⟨h, .refl r⟩
  · next hnone =>
      refine ⟨?_, rfl, r.verdict.le_withViolated, fun _ hq => hq, ?_⟩
      · have hverdict : r.verdict = .ofPoints r.satPoint.isSome false := by
          rw [h, hnone]
          rfl
        show r.verdict.withViolated = _
        rw [hverdict, Verdict.withViolated_ofPoints]
        rfl
      · rw [hnone]
        nofun

theorem record (found : Bool) (q : Valuation) :
    (r.record found q).Undecided ∧ r.Grows (r.record found q) := by
  cases found with
  | true => exact h.recordSat q
  | false => exact h.recordViolated q

/-- Sampling only records points, also if it fails. -/
theorem sample (holds : Valuation → Except CheckError Bool) (points : List Valuation) :
    (r.sample holds points).1.Undecided ∧ r.Grows (r.sample holds points).1 := by
  induction points generalizing r with
  | nil => exact ⟨h, .refl r⟩
  | cons q rest ih =>
      rw [Region.sample]
      split
      · exact ⟨h, .refl r⟩
      · next found _ =>
          obtain ⟨hrecord, hgrows⟩ := h.record found q
          dsimp only
          split
          · exact ⟨hrecord, hgrows⟩
          · obtain ⟨hsample, hrest⟩ := ih hrecord
            exact ⟨hsample, hgrows.trans hrest⟩

/-- A verdict on all points that no known point contradicts is above the verdict so far. -/
theorem conclude {goal : Goal} (hs : r.conclude goal.verdict = .ok s) :
    r.Grows s ∧ s.Coherent := by
  unfold Region.conclude at hs
  split_ifs at hs with hcontradicts
  obtain rfl := Except.ok.inj hs
  cases goal with
  | allSat =>
      have hnone : r.violatedPoint = none := by simpa [contradicts, Goal.verdict] using hcontradicts
      refine ⟨⟨rfl, ?_, fun _ hq => hq, fun _ hq => hq⟩, .allSat rfl hnone⟩
      show r.verdict ≤ .allSat
      rw [h, hnone]
      cases r.satPoint.isSome <;> decide
  | allViolated =>
      have hnone : r.satPoint = none := by simpa [contradicts, Goal.verdict] using hcontradicts
      refine ⟨⟨rfl, ?_, fun _ hq => hq, fun _ hq => hq⟩, .allViolated rfl hnone⟩
      show r.verdict ≤ .allViolated
      rw [h, hnone]
      cases r.violatedPoint.isSome <;> decide

end Undecided

end Region

/-! ## Bounding processes -/

namespace Approximator

theorem settle_cases {α : Type} (o : ApproximationOutcome α) (r : Region) (goal : Goal) :
    (settle o r goal.verdict).2 = r ∨ (settle o r goal.verdict).1.proven = true ∧
      r.conclude goal.verdict = .ok (settle o r goal.verdict).2 := by
  unfold settle
  split
  · next s hs => exact Or.inr ⟨rfl, hs⟩
  · exact Or.inl rfl

/-- Goals are pursued until one is concluded. -/
theorem pursue_cases {α : Type} [Scalar α] (bound : Bound) (value : Direction → α)
    (goals : List Goal) (o : ApproximationOutcome α) (r : Region) :
    (pursue bound value goals o r).2 = r ∨ (pursue bound value goals o r).1.proven = true ∧
      ∃ goal : Goal, r.conclude goal.verdict = .ok (pursue bound value goals o r).2 := by
  induction goals generalizing o with
  | nil => exact Or.inl rfl
  | cons goal rest ih =>
      rw [pursue]
      split
      · exact (settle_cases _ r .allSat).imp_right fun h => ⟨h.1, .allSat, h.2⟩
      · exact (settle_cases _ r .allViolated).imp_right fun h => ⟨h.1, .allViolated, h.2⟩
      · exact ih _

end Approximator

end MarkovRegion
