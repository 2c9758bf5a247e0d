import MarkovRegion.Proofs.Region.Growth

/-!
# What is told again

A region is unsettled while its check can go on (`Region.Unsettled`).  If an unsettled region grows
to another one, then what was asked of the first tells nothing about the second.  For the points of a
box this is so because their kinds are known (`Region.sample_again`).  For bounding processes a goal
that is dropped is not pursued, and one that is left and proven now would have been proven before
(`Approximator.decideWith_again`).
-/

namespace MarkovRegion

/-! ## Points that are known -/

namespace Region

variable {r s t : Region} {holds : Valuation → Except CheckError Bool}

/-- A region whose check can go on. -/
structure Unsettled (r : Region) : Prop where
  undecided : r.Undecided
  not_terminal : r.verdict.isTerminal = false

/-- The known point of a kind. -/
def witness (r : Region) (found : Bool) : Option Valuation :=
  if found then r.satPoint else r.violatedPoint

theorem record_eq_self {found : Bool} (h : (r.witness found).isSome) (q : Valuation) :
    r.record found q = r := by
  cases found with
  | true =>
      obtain ⟨point, hpoint⟩ := Option.isSome_iff_exists.mp h
      have hsat : r.satPoint = some point := hpoint
      simp [record, recordSat, hsat]
  | false =>
      obtain ⟨point, hpoint⟩ := Option.isSome_iff_exists.mp h
      have hviolated : r.violatedPoint = some point := hpoint
      simp [record, recordViolated, hviolated]

theorem isSome_witness_record (r : Region) (found : Bool) (q : Valuation) :
    ((r.record found q).witness found).isSome := by
  cases found with
  | true =>
      cases h : r.satPoint <;> simp [witness, record, recordSat, h]
  | false =>
      cases h : r.violatedPoint <;> simp [witness, record, recordViolated, h]

theorem Grows.isSome_witness (h : r.Grows s) {found : Bool} (hr : (r.witness found).isSome) :
    (s.witness found).isSome := by
  obtain ⟨q, hq⟩ := Option.isSome_iff_exists.mp hr
  refine Option.isSome_iff_exists.mpr ⟨q, ?_⟩
  cases found with
  | true => exact h.sat_kept q hq
  | false => exact h.violated_kept q hq

theorem Undecided.isTerminal_eq (h : r.Undecided) : r.verdict.isTerminal = r.hasBoth := by
  rw [hasBoth, h]
  cases r.satPoint.isSome <;> cases r.violatedPoint.isSome <;> rfl

theorem Unsettled.hasBoth_eq_false (h : r.Unsettled) : r.hasBoth = false :=
  h.undecided.isTerminal_eq.symm.trans h.not_terminal

/-- Only points of both kinds settle an undecided region. -/
theorem Undecided.unsettled (h : r.Undecided) (hboth : r.hasBoth = false) : r.Unsettled :=
  ⟨h, h.isTerminal_eq.trans hboth⟩

theorem Coherent.unsettled (h : r.Coherent) (hopen : r.verdict.isTerminal = false) : r.Unsettled :=
  ⟨h.undecided_of (Verdict.isUniversal_eq_false_of_not_terminal _ hopen), hopen⟩

/-- An unsettled region that grows to an unsettled one keeps its verdict once a point is known. -/
theorem Unsettled.verdict_eq (hr : r.Unsettled) (hs : s.Unsettled) (h : r.Grows s)
    (hknown : r.verdict ≠ .unknown) : s.verdict = r.verdict := by
  have hall : ∀ v w : Verdict, v ≤ w → v ≠ .unknown → v.isTerminal = false →
      w.isTerminal = false → w = v := by decide
  exact hall _ _ h.verdict_le hknown hr.not_terminal hs.not_terminal

theorem Undecided.points_eq (hr : r.Undecided) (hs : s.Undecided) (h : s.verdict = r.verdict) :
    s.satPoint.isSome = r.satPoint.isSome ∧ s.violatedPoint.isSome = r.violatedPoint.isSome :=
  (Verdict.ofPoints_eq_iff _ _ _ _).mp (hs.symm.trans (h.trans hr))

/-- The verdict of an undecided region tells what is contradicted. -/
theorem Undecided.contradicts_eq (hr : r.Undecided) (hs : s.Undecided) (h : s.verdict = r.verdict)
    (verdict : Verdict) : s.contradicts verdict = r.contradicts verdict := by
  obtain ⟨hsat, hviolated⟩ := hr.points_eq hs h
  cases verdict <;> simp only [contradicts, ← Option.not_isSome, hsat, hviolated]

/-- What a known point contradicts, it contradicts later. -/
theorem Grows.contradicts (h : r.Grows s) {goal : Goal}
    (hr : r.contradicts goal.verdict = true) : s.contradicts goal.verdict = true := by
  cases goal with
  | allSat => exact h.isSome_witness (show (r.witness false).isSome from hr)
  | allViolated => exact h.isSome_witness (show (r.witness true).isSome from hr)

/-- An unsettled region with a known point is open for one goal. -/
theorem Unsettled.verdict_cases (h : r.Unsettled) (hknown : r.verdict ≠ .unknown) :
    r.verdict = .existsSat ∨ r.verdict = .existsViolated := by
  have hopen := h.not_terminal
  revert hknown hopen
  cases r.verdict <;> decide

/-- The goal that is left once a point is known. -/
theorem Unsettled.exists_goal (h : r.Unsettled) (hknown : r.verdict ≠ .unknown) :
    ∃ goal, r.verdict.goals = [goal] := by
  rcases h.verdict_cases hknown with hverdict | hverdict
  · exact ⟨.allSat, hverdict ▸ rfl⟩
  · exact ⟨.allViolated, hverdict ▸ rfl⟩

/-- Nothing is known of an undecided region without a verdict. -/
theorem Undecided.eq_fresh (h : r.Undecided) (hunknown : r.verdict = .unknown) :
    r = fresh r.box := by
  obtain ⟨hsat, hviolated⟩ := (undecided_fresh r.box).points_eq h hunknown
  obtain ⟨box, verdict, satPoint, violatedPoint⟩ := r
  simp only [fresh, Option.isSome_none, Option.isSome_eq_false_iff, Option.isNone_iff_eq_none]
    at hsat hviolated hunknown
  rw [hsat, hviolated, hunknown]
  rfl

/-- The first point leaves a goal. -/
theorem Undecided.record_of_unknown (h : r.Undecided) (hunknown : r.verdict = .unknown)
    (found : Bool) (q : Valuation) :
    (r.record found q).Unsettled ∧ ∃ goal, (r.record found q).verdict.goals = [goal] := by
  rw [h.eq_fresh hunknown]
  cases found with
  | true => exact ⟨⟨rfl, rfl⟩, .allSat, rfl⟩
  | false => exact ⟨⟨rfl, rfl⟩, .allViolated, rfl⟩

/-! ### Sampling -/

/-- What becomes of an unsettled region by a tier that says whether it has settled it. -/
def Tried : Bool → Region → Prop
  | true => fun s => s.verdict.isTerminal = true
  | false => Unsettled

/-- Sampling says whether points of both kinds are known, and does not fail once they are. -/
theorem Unsettled.tried_sample (h : r.Unsettled) (holds : Valuation → Except CheckError Bool)
    (points : List Valuation) :
    (∀ both, (r.sample holds points).2 = .ok both → Tried both (r.sample holds points).1) ∧
      ∀ e, (r.sample holds points).2 = .error e → (r.sample holds points).1.Unsettled := by
  induction points generalizing r with
  | nil => exact ⟨fun both hboth => Except.ok.inj hboth ▸ h, fun _ he => by cases he⟩
  | cons q rest ih =>
      rw [Region.sample]
      cases holds q with
      | error e => exact ⟨fun _ hok => (by cases hok), fun _ _ => h⟩
      | ok found =>
          have hrecord := (h.undecided.record found q).1
          dsimp only
          cases hboth : (r.record found q).hasBoth with
          | true =>
              have hterminal := hrecord.isTerminal_eq.trans hboth
              exact ⟨fun both hok => Except.ok.inj hok ▸ hterminal, fun _ he => by cases he⟩
          | false => exact ih (hrecord.unsettled hboth)

theorem Unsettled.sample (hs : s.Unsettled) {points : List Valuation}
    (h : s.sample holds points = (t, .ok false)) : t.Unsettled ∧ s.Grows t := by
  have hsample := hs.undecided.sample holds points
  have htried := (hs.tried_sample holds points).1 false
  rw [h] at hsample htried
  exact ⟨htried rfl, hsample.2⟩

/-- The first point that is decided tells what is left to prove. -/
theorem Unsettled.sample_of_unknown (h : r.Unsettled) (hunknown : r.verdict = .unknown)
    (holds : Valuation → Except CheckError Bool) (point : Valuation) {both : Bool}
    (hok : (r.sample holds [point]).2 = .ok both) :
    (r.sample holds [point]).1.Unsettled ∧ (r.sample holds [point]).1.verdict ≠ .unknown := by
  rw [Region.sample] at hok ⊢
  cases hfound : holds point with
  | error e =>
      rw [hfound] at hok
      cases hok
  | ok found =>
      obtain ⟨hrecord, goal, hgoal⟩ := h.undecided.record_of_unknown hunknown found point
      simp only [hrecord.hasBoth_eq_false, Region.sample, Bool.false_eq_true, if_false]
      refine ⟨hrecord, fun hverdict => ?_⟩
      rw [hverdict] at hgoal
      cases hgoal

/-- Points whose kinds are known teach nothing. -/
theorem sample_again (hs : s.Undecided) {points : List Valuation}
    (h : s.sample holds points = (t, .ok false)) (hgrows : t.Grows r) (hr : r.Unsettled) :
    r.sample holds points = (r, .ok false) := by
  induction points generalizing s with
  | nil => rfl
  | cons q rest ih =>
      rw [sample] at h ⊢
      split at h
      · cases (Prod.mk.inj h).2
      · next found _ =>
          dsimp only at h
          split at h
          · cases (Prod.mk.inj h).2
          · have hrecord := (hs.record found q).1
            have hrest := (hrecord.sample holds rest).2
            rw [h] at hrest
            have hknown := (hrest.trans hgrows).isSome_witness (s.isSome_witness_record found q)
            simp only [record_eq_self hknown, hr.hasBoth_eq_false]
            exact ih hrecord h

end Region

/-! ## Bounding processes -/

theorem Bound.classify_eq_allViolate_iff {α : Type} [Scalar α] {b : Bound} {lower upper : α} :
    b.classify lower upper = .allViolate ↔
      b.allSatisfy lower upper = false ∧ b.allViolate lower upper = true := by
  unfold classify
  split_ifs <;> simp_all

theorem Bound.classify_eq_inconclusive_iff {α : Type} [Scalar α] {b : Bound} {lower upper : α} :
    b.classify lower upper = .inconclusive ↔
      b.allSatisfy lower upper = false ∧ b.allViolate lower upper = false := by
  unfold classify
  split_ifs <;> simp_all

namespace Approximator

variable {α : Type} [Scalar α] {bound : Bound} {value : Direction → α} {r s : Region}

/-- What is proven depends on which points are known. -/
theorem pursue_congr (h : ∀ verdict, s.contradicts verdict = r.contradicts verdict)
    (goals : List Goal) (o : ApproximationOutcome α) :
    (pursue bound value goals o s).1 = (pursue bound value goals o r).1 := by
  have hsettle : ∀ (o : ApproximationOutcome α) verdict,
      (settle o s verdict).1 = (settle o r verdict).1 := by
    intro o verdict
    unfold settle Region.conclude
    rw [h]
    cases r.contradicts verdict <;> rfl
  induction goals generalizing o with
  | nil => rfl
  | cons goal rest ih =>
      rw [pursue, pursue]
      split
      · exact hsettle _ _
      · exact hsettle _ _
      · exact ih _

/-- The values that a goal needs. -/
def valuesFor (bound : Bound) (value : Direction → α) (goal : Goal) (o : ApproximationOutcome α) :
    ApproximationOutcome α :=
  (goal.directions bound.comparison).foldl (fill value) o

theorem pursue_cons (goal : Goal) (goals : List Goal) (o : ApproximationOutcome α) :
    pursue bound value (goal :: goals) o r =
      let o := valuesFor bound value goal o
      match bound.classify (o.lower.getD Weight.zero) (o.upper.getD Weight.one) with
      | .allSatisfy => settle o r .allSat
      | .allViolate => settle o r .allViolated
      | .inconclusive => pursue bound value goals o r := rfl

omit [Scalar α] in
theorem proven_valuesFor (goal : Goal) (o : ApproximationOutcome α) :
    (valuesFor bound value goal o).proven = o.proven := by
  obtain ⟨comparison, threshold⟩ := bound
  cases comparison <;> cases goal <;> rfl

/-- Whether all points violate the bound is told by the values for that goal. -/
theorem allViolate_valuesFor (bound : Bound) (value : Direction → α) :
    let o : ApproximationOutcome α := valuesFor bound value .allViolated ⟨none, none, false⟩
    let o' := valuesFor bound value .allViolated (valuesFor bound value .allSat ⟨none, none, false⟩)
    bound.allViolate (o.lower.getD Weight.zero) (o.upper.getD Weight.one) =
      bound.allViolate (o'.lower.getD Weight.zero) (o'.upper.getD Weight.one) := by
  obtain ⟨comparison, threshold⟩ := bound
  cases comparison <;> rfl

/-- Nothing contradicts a conclusion on a region without points, so what is not proven was
inconclusive. -/
theorem pursue_of_unknown (hs : s.Undecided) (hunknown : s.verdict = .unknown) {goal : Goal}
    {goals : List Goal} {o : ApproximationOutcome α}
    (h : (pursue bound value (goal :: goals) o s).1.proven = false) :
    let o' := valuesFor bound value goal o
    bound.classify (o'.lower.getD Weight.zero) (o'.upper.getD Weight.one) = .inconclusive ∧
      (pursue bound value goals o' s).1.proven = false := by
  have hfresh := (Region.undecided_fresh s.box).contradicts_eq hs hunknown
  have hsettle : ∀ (o : ApproximationOutcome α) (goal : Goal),
      (settle o s goal.verdict).1.proven = true := by
    intro o goal
    unfold settle Region.conclude
    rw [hfresh]
    cases goal <;> rfl
  rw [pursue_cons] at h
  dsimp only at h
  split at h
  · exact absurd (hsettle _ .allSat) (Bool.eq_false_iff.mp h)
  · exact absurd (hsettle _ .allViolated) (Bool.eq_false_iff.mp h)
  · next hinconclusive => exact ⟨hinconclusive, h⟩

/-- What is proven is concluded. -/
theorem conclude_of_proven {goals : List Goal} {o : ApproximationOutcome α}
    (ho : o.proven = false) (h : (pursue bound value goals o r).1.proven = true) :
    ∃ goal : Goal, r.conclude goal.verdict = .ok (pursue bound value goals o r).2 := by
  have hsettle : ∀ (o : ApproximationOutcome α) (goal : Goal), o.proven = false →
      (settle o r goal.verdict).1.proven = true →
        r.conclude goal.verdict = .ok (settle o r goal.verdict).2 := by
    intro o goal ho h
    unfold settle at h ⊢
    rcases hconclude : r.conclude goal.verdict with e | s
    · rw [hconclude] at h
      exact absurd h (Bool.eq_false_iff.mp ho)
    · rfl
  induction goals generalizing o with
  | nil => exact absurd h (Bool.eq_false_iff.mp ho)
  | cons goal rest ih =>
      have hvalues : (valuesFor bound value goal o).proven = false :=
        (proven_valuesFor goal o).trans ho
      rw [pursue_cons] at h ⊢
      dsimp only at h ⊢
      split at h
      · exact ⟨.allSat, hsettle _ .allSat hvalues h⟩
      · exact ⟨.allViolated, hsettle _ .allViolated hvalues h⟩
      · exact ih hvalues h

/-- A goal that was open before and has not been proven is not proven now. -/
theorem decideWith_again (hs : s.Unsettled) (hproven : (decideWith bound value s).1.proven = false)
    (hgrows : s.Grows r) (hr : r.Unsettled) : (decideWith bound value r).1.proven = false := by
  by_cases hsame : s.verdict = r.verdict
  · rw [decideWith, ← hsame,
      ← pursue_congr (hr.undecided.contradicts_eq hs.undecided hsame)]
    exact hproven
  · -- The first region has no points, so its goals were inconclusive one after the other.
    have hunknown : s.verdict = .unknown := by
      by_contra hknown
      exact hsame (hs.verdict_eq hr hgrows hknown).symm
    rw [decideWith, hunknown] at hproven
    obtain ⟨hfirst, hrest⟩ := pursue_of_unknown hs.undecided hunknown hproven
    obtain ⟨hsecond, -⟩ := pursue_of_unknown hs.undecided hunknown hrest
    have hopen : r.verdict = .existsSat ∨ r.verdict = .existsViolated := by
      have hall : ∀ v : Verdict, .unknown ≠ v → v.isTerminal = false →
          v = .existsSat ∨ v = .existsViolated := by decide
      exact hall _ (hunknown ▸ hsame) hr.not_terminal
    rcases hopen with hverdict | hverdict
    · -- The goal that is left is the first one, whose values are the same.
      rw [decideWith, hverdict, Verdict.goals, pursue_cons]
      dsimp only
      rw [hfirst]
      exact proven_valuesFor _ _
    · -- The goal that is left is the second one, for which fewer values are known now.
      rw [decideWith, hverdict, Verdict.goals, pursue_cons]
      dsimp only
      split
      · have hpoint : r.contradicts .allSat = true := by
          have hviolated := (Verdict.ofPoints_eq_iff _ _ false true).mp
            (hr.undecided.symm.trans hverdict)
          exact hviolated.2
        rw [settle, Region.conclude, if_pos hpoint]
        exact proven_valuesFor _ _
      · next hviolate =>
          rw [Bound.classify_eq_allViolate_iff, allViolate_valuesFor] at hviolate
          exact absurd hviolate.2 (Bool.eq_false_iff.mp (Bound.classify_eq_inconclusive_iff.mp hsecond).2)
      · exact proven_valuesFor _ _

end Approximator

end MarkovRegion
