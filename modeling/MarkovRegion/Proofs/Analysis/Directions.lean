import MarkovRegion.Proofs.Logic.Interval
import MarkovRegion.Proofs.Region.Growth

/-!
# Leaving out a direction changes nothing

`Approximator.decideWith` computes the minimal or the maximal probability of a bounding process
only if a goal that is still open needs it, and puts zero or one for a side that it has not
computed.  The plain procedure computes both, classifies the interval between them and concludes
what it proves (`Approximator.decidePlainly`).  Both end with the same region and agree on whether
something was proven (`Approximator.decideWith_eq_plain`).

Two facts carry this.  An interval with a side left open is wider than the one between the two
probabilities, and what a wider interval proves is what the narrower one proves
(`Bound.classify_of_wider`).  And the directions of a goal suffice for it: if both sides prove the
goal, so do the sides of its directions, whatever stands on the other one
(`Bound.classify_of_directions`).  So only a goal that was not tried can be missed, and it was not
tried because a known point speaks against it.
-/

namespace MarkovRegion

open Double (nearest place)

/-! ## Goals and intervals -/

/-- What an interval says that proves a goal. -/
def Goal.interval : Goal → IntervalVerdict
  | allSat => .allSatisfy
  | allViolated => .allViolate

theorem Verdict.goals_eq_nil : ∀ v : Verdict, v.isTerminal = true → v.goals = [] := by decide

theorem Verdict.allSat_mem_goals : ∀ v : Verdict, ¬ v.isTerminal = true →
    Goal.allSat ∈ v.goals ∨ v = .existsViolated := by decide

theorem Verdict.allViolated_mem_goals : ∀ v : Verdict, ¬ v.isTerminal = true →
    Goal.allViolated ∈ v.goals ∨ v = .existsSat := by decide

theorem IntervalVerdict.inconclusive_or_goal (v : IntervalVerdict) :
    v = .inconclusive ∨ ∃ goal : Goal, v = goal.interval := by
  cases v with
  | allSatisfy => exact Or.inr ⟨.allSat, rfl⟩
  | allViolate => exact Or.inr ⟨.allViolated, rfl⟩
  | inconclusive => exact Or.inl rfl

/-- A goal is proven by the values from place `a` to place `c` with the threshold at `p`. -/
def Goal.Proven : Goal → Comparison → Int → Int → Int → Prop
  | allSat, comparison => comparison.Satisfied
  | allViolated, comparison => comparison.Violated

namespace Comparison

variable {comparison : Comparison} {a p c : Int}

theorem Violated.not_satisfied (h : comparison.Violated a p c) (hac : a ≤ c) :
    ¬ comparison.Satisfied a p c := by
  cases comparison <;> simp only [Satisfied, Violated] at h ⊢ <;> omega

/-- What is proven of an interval is proven of the intervals in it. -/
theorem proven_of_wider {goal : Goal} {a' c' : Int} (h : goal.Proven comparison a' p c')
    (ha : a' ≤ a) (hac : a ≤ c) (hc : c ≤ c') : goal.Proven comparison a p c := by
  cases goal <;> cases comparison <;>
    simp only [Goal.Proven, Satisfied, Violated] at h ⊢ <;> omega

/-- The sides that the directions of a goal compute suffice to prove it. -/
theorem proven_of_directions {goal : Goal} {a' c' : Int} (h : goal.Proven comparison a p c)
    (hlower : .minimize ∈ goal.directions comparison → a' = a)
    (hupper : .maximize ∈ goal.directions comparison → c' = c) :
    goal.Proven comparison a' p c' := by
  cases goal <;> cases comparison <;>
    simp_all [Goal.directions, Goal.Proven, Satisfied, Violated, isLower]

end Comparison

namespace Bound

variable {b : Bound} {lower upper : Float}

theorem classify_eq_iff {a p c : Int} (hlower : place lower = some a)
    (hrounded : place (nearest b.threshold) = some p) (hupper : place upper = some c)
    (hac : a ≤ c) (goal : Goal) :
    b.classify lower upper = goal.interval ↔ goal.Proven b.comparison a p c := by
  have hsatisfy := allSatisfy_iff hlower hrounded hupper
  have hviolate := allViolate_iff hlower hrounded hupper
  unfold classify
  cases goal with
  | allSat =>
      split_ifs with h h'
      · exact iff_of_true rfl (hsatisfy.mp h)
      · exact iff_of_false nofun (mt hsatisfy.mpr h)
      · exact iff_of_false nofun (mt hsatisfy.mpr h)
  | allViolated =>
      split_ifs with h h'
      · refine iff_of_false nofun fun hviolated => ?_
        exact Comparison.Violated.not_satisfied hviolated hac (hsatisfy.mp h)
      · exact iff_of_true rfl (hviolate.mp h')
      · exact iff_of_false nofun (mt hviolate.mpr h')

/-- What a wider interval proves is what the narrower one proves. -/
theorem classify_of_wider {lower' upper' : Float} {goal : Goal}
    (h : b.classify lower' upper' = goal.interval) (hlower : Scalar.le lower' lower = true)
    (hle : Scalar.le lower upper = true) (hupper : Scalar.le upper upper' = true) :
    b.classify lower upper = goal.interval := by
  obtain ⟨a', a, ha', ha, haa⟩ := Double.le_iff.mp hlower
  obtain ⟨c, c', hc, hc', hcc⟩ := Double.le_iff.mp hupper
  rw [Double.le_eq_decide ha hc, decide_eq_true_iff] at hle
  have hrounded := Double.place_nearest b.threshold
  rw [classify_eq_iff ha' hrounded hc' (haa.trans (hle.trans hcc))] at h
  exact (classify_eq_iff ha hrounded hc hle goal).mpr (Comparison.proven_of_wider h haa hle hcc)

/-- If an interval proves a goal, so does one with the same ends in the directions of the goal. -/
theorem classify_of_directions {lower' upper' : Float} {goal : Goal}
    (h : b.classify lower upper = goal.interval) (hle : Scalar.le lower upper = true)
    (hle' : Scalar.le lower' upper' = true)
    (hlower : .minimize ∈ goal.directions b.comparison → lower' = lower)
    (hupper : .maximize ∈ goal.directions b.comparison → upper' = upper) :
    b.classify lower' upper' = goal.interval := by
  obtain ⟨a, c, ha, hc, hac⟩ := Double.le_iff.mp hle
  obtain ⟨a', c', ha', hc', hac'⟩ := Double.le_iff.mp hle'
  have hrounded := Double.place_nearest b.threshold
  rw [classify_eq_iff ha hrounded hc hac] at h
  refine (classify_eq_iff ha' hrounded hc' hac' goal).mpr
    (Comparison.proven_of_directions h (fun hmem => ?_) fun hmem => ?_)
  · rw [hlower hmem, ha] at ha'
    exact (Option.some.inj ha').symm
  · rw [hupper hmem, hc] at hc'
    exact (Option.some.inj hc').symm

end Bound

namespace Approximator

/-! ## The plain procedure -/

/-- Conclude what an interval proves, unless a known point contradicts it. -/
def concludeFrom (r : Region) (verdict : Verdict) : Bool × Region :=
  match r.conclude verdict with
  | .ok s => (true, s)
  | .error _ => (false, r)

/-- Decide a region by both values of a bounding process. -/
def decidePlainly (bound : Bound) (lower upper : Float) (r : Region) : Bool × Region :=
  if r.verdict.isTerminal then (false, r)
  else
    match bound.classify lower upper with
    | .allSatisfy => concludeFrom r .allSat
    | .allViolate => concludeFrom r .allViolated
    | .inconclusive => (false, r)

/-- Whether something was proven, and the region. -/
def result (x : ApproximationOutcome Float × Region) : Bool × Region := (x.1.proven, x.2)

theorem result_settle (o : ApproximationOutcome Float) (ho : o.proven = false) (r : Region)
    (verdict : Verdict) : result (settle o r verdict) = concludeFrom r verdict := by
  unfold settle concludeFrom result
  cases r.conclude verdict with
  | ok s => rfl
  | error e => exact Prod.ext ho rfl

/-! ## Sides that are filled when needed -/

/-- The side of an outcome that a direction computes. -/
def side (o : ApproximationOutcome Float) : Direction → Option Float
  | .minimize => o.lower
  | .maximize => o.upper

/-- The sides of an outcome are open or have the values of their directions. -/
structure Partial (value : Direction → Float) (o : ApproximationOutcome Float) : Prop where
  side_cases : ∀ direction, side o direction = none ∨ side o direction = some (value direction)
  unproven : o.proven = false

section

variable {value : Direction → Float} {o : ApproximationOutcome Float}

theorem partial_fill (h : Partial value o) (direction : Direction) :
    Partial value (fill value o direction) ∧
      side (fill value o direction) direction = some (value direction) ∧
      ∀ other, side o other = some (value other) →
        side (fill value o direction) other = some (value other) := by
  have hside := h.side_cases direction
  cases direction with
  | minimize =>
      have hfilled : side (fill value o .minimize) .minimize = some (value .minimize) := by
        simp only [side] at hside
        rcases hside with hside | hside <;> simp [side, fill, hside]
      refine ⟨⟨fun other => ?_, h.unproven⟩, hfilled, fun other hother => ?_⟩
      · cases other with
        | minimize => exact Or.inr hfilled
        | maximize => exact h.side_cases .maximize
      · cases other with
        | minimize => exact hfilled
        | maximize => exact hother
  | maximize =>
      have hfilled : side (fill value o .maximize) .maximize = some (value .maximize) := by
        simp only [side] at hside
        rcases hside with hside | hside <;> simp [side, fill, hside]
      refine ⟨⟨fun other => ?_, h.unproven⟩, hfilled, fun other hother => ?_⟩
      · cases other with
        | minimize => exact h.side_cases .minimize
        | maximize => exact Or.inr hfilled
      · cases other with
        | minimize => exact hother
        | maximize => exact hfilled

/-- After the directions of a goal their sides are known. -/
theorem partial_foldl_fill (directions : List Direction) (h : Partial value o) :
    Partial value (directions.foldl (fill value) o) ∧
      ∀ direction, direction ∈ directions ∨ side o direction = some (value direction) →
        side (directions.foldl (fill value) o) direction = some (value direction) := by
  induction directions generalizing o with
  | nil => exact ⟨h, fun _ hside => hside.resolve_left List.not_mem_nil⟩
  | cons first rest ih =>
      obtain ⟨hpartial, hfirst, hkept⟩ := partial_fill h first
      obtain ⟨hrest, hfilled⟩ := ih hpartial
      refine ⟨hrest, fun direction hdirection => hfilled direction ?_⟩
      rcases hdirection with hmem | hside
      · rcases List.mem_cons.mp hmem with rfl | hmem
        · exact Or.inr hfirst
        · exact Or.inl hmem
      · exact Or.inr (hkept direction hside)

end

section

variable (bound : Bound) {value : Direction → Float}
  (hzero : Scalar.le (Weight.zero : Float) (value .minimize) = true)
  (hle : Scalar.le (value .minimize) (value .maximize) = true)
  (hone : Scalar.le (value .maximize) (Weight.one : Float) = true)

include hzero hle hone

/-- With the sides of its directions a goal is proven if both values prove it, and what is proven is
what both values prove. -/
theorem classify_partial {o : ApproximationOutcome Float} (ho : Partial value o) {goal : Goal}
    (hsides : ∀ direction ∈ goal.directions bound.comparison,
      side o direction = some (value direction)) :
    (∃ proven : Goal,
      bound.classify (o.lower.getD Weight.zero) (o.upper.getD Weight.one) = proven.interval ∧
        bound.classify (value .minimize) (value .maximize) = proven.interval) ∨
    bound.classify (o.lower.getD Weight.zero) (o.upper.getD Weight.one) = .inconclusive ∧
      bound.classify (value .minimize) (value .maximize) ≠ goal.interval := by
  obtain ⟨hlower_self, hupper_self⟩ := Double.le_self_of_le hle
  -- Open sides are taken as zero and one, so the interval contains the one of both values.
  have hlower : Scalar.le (o.lower.getD Weight.zero) (value .minimize) = true := by
    rcases ho.side_cases .minimize with hside | hside
    · rwa [show o.lower = none from hside]
    · rwa [show o.lower = some _ from hside]
  have hupper : Scalar.le (value .maximize) (o.upper.getD Weight.one) = true := by
    rcases ho.side_cases .maximize with hside | hside
    · rwa [show o.upper = none from hside]
    · rwa [show o.upper = some _ from hside]
  rcases (bound.classify (o.lower.getD Weight.zero)
    (o.upper.getD Weight.one)).inconclusive_or_goal with hopen | ⟨proven, hproven⟩
  · refine Or.inr ⟨hopen, fun hplain => ?_⟩
    have hgoal := Bound.classify_of_directions hplain hle
      (Double.le_trans hlower (Double.le_trans hle hupper))
      (fun hmem => by rw [show o.lower = some _ from hsides _ hmem]; rfl)
      (fun hmem => by rw [show o.upper = some _ from hsides _ hmem]; rfl)
    rw [hopen] at hgoal
    cases goal <;> cases hgoal
  · exact Or.inl ⟨proven, hproven, Bound.classify_of_wider hproven hlower hle hupper⟩

/-- Pursuing goals ends as the plain procedure does, unless that proves none of them. -/
theorem result_pursue_cases (goals : List Goal) {o : ApproximationOutcome Float}
    (ho : Partial value o) {r : Region} (hopen : r.verdict.isTerminal = false) :
    result (pursue bound value goals o r) =
        decidePlainly bound (value .minimize) (value .maximize) r ∨
      result (pursue bound value goals o r) = (false, r) ∧
        ∀ goal ∈ goals, bound.classify (value .minimize) (value .maximize) ≠ goal.interval := by
  -- The sides of earlier goals stay, so all that is known of the outcome is that it is partial.
  induction goals generalizing o with
  | nil => exact Or.inr ⟨Prod.ext ho.unproven rfl, fun _ h => absurd h List.not_mem_nil⟩
  | cons goal rest ih =>
      obtain ⟨hfilled, hsides⟩ :=
        partial_foldl_fill (goal.directions bound.comparison) ho
      have hclassify := classify_partial bound hzero hle hone hfilled
        fun direction hmem => hsides direction (Or.inl hmem)
      rw [pursue]
      rcases hclassify with ⟨proven, hproven, hplain⟩ | ⟨hinconclusive, hmissed⟩
      · rw [hproven, decidePlainly, hopen, hplain]
        cases proven with
        | allSat => exact Or.inl (result_settle _ hfilled.unproven r .allSat)
        | allViolated => exact Or.inl (result_settle _ hfilled.unproven r .allViolated)
      · rw [hinconclusive]
        refine (ih hfilled).imp_right fun hrest => ⟨hrest.1, ?_⟩
        exact List.forall_mem_cons.mpr ⟨hmissed, hrest.2⟩

end

theorem concludeFrom_of_contradicts {r : Region} {verdict : Verdict}
    (h : r.contradicts verdict = true) : concludeFrom r verdict = (false, r) := by
  rw [concludeFrom, Region.conclude, if_pos h]

/-- The plain procedure proves no goal that is not open: a known point speaks against it. -/
theorem decidePlainly_of_missed {bound : Bound} {lower upper : Float} {r : Region}
    (hsat : r.verdict = .existsSat → r.satPoint.isSome = true)
    (hviolated : r.verdict = .existsViolated → r.violatedPoint.isSome = true)
    (hmissed : ∀ goal ∈ r.verdict.goals, bound.classify lower upper ≠ goal.interval) :
    decidePlainly bound lower upper r = (false, r) := by
  unfold decidePlainly
  split_ifs with hterminal
  · rfl
  cases hplain : bound.classify lower upper with
  | inconclusive => rfl
  | allSatisfy =>
      rcases r.verdict.allSat_mem_goals hterminal with hopen | hverdict
      · exact absurd hplain (hmissed .allSat hopen)
      · exact concludeFrom_of_contradicts (hviolated hverdict)
  | allViolate =>
      rcases r.verdict.allViolated_mem_goals hterminal with hopen | hverdict
      · exact absurd hplain (hmissed .allViolated hopen)
      · exact concludeFrom_of_contradicts (hsat hverdict)

/-- Computing the values that open goals need ends with the same region, and the same answer to
whether something was proven, as computing both values. -/
theorem decideWith_eq_plain (a : Approximator Float) (p : DecisionProcess Float) (bound : Bound)
    (r : Region) (hzero : Scalar.le (0 : Float) (a.solve p .minimize) = true)
    (hle : Scalar.le (a.solve p .minimize) (a.solve p .maximize) = true)
    (hone : Scalar.le (a.solve p .maximize) (1 : Float) = true)
    (hsat : r.verdict = .existsSat → r.satPoint.isSome = true)
    (hviolated : r.verdict = .existsViolated → r.violatedPoint.isSome = true) :
    ((decideWith bound (a.solve p) r).1.proven, (decideWith bound (a.solve p) r).2) =
      decidePlainly bound (a.solve p .minimize) (a.solve p .maximize) r := by
  cases hterminal : r.verdict.isTerminal with
  | true =>
      rw [decideWith, Verdict.goals_eq_nil _ hterminal, decidePlainly, if_pos hterminal]
      rfl
  | false =>
      have hstart : Partial (a.solve p) ⟨none, none, false⟩ :=
        ⟨fun direction => Or.inl (by cases direction <;> rfl), rfl⟩
      rcases result_pursue_cases bound hzero hle hone r.verdict.goals hstart hterminal with
        hsame | ⟨hnothing, hmissed⟩
      · exact hsame
      · exact hnothing.trans (decidePlainly_of_missed hsat hviolated hmissed).symm

/-- A biased coin or a fair one is tossed. -/
def coinChoice : DecisionProcess Float where
  transitions := ⟨3, #[[[(1, 0.25), (2, 0.75)], [(1, 0.5), (2, 0.5)]], [[(1, 1)]], [[(2, 1)]]]⟩
  initial := 0

/-- Bounding processes with one state besides the target and the sink. -/
def tossing : Approximator Float := ⟨⟨[], #[[]], 0⟩, ⟨0.001, 10⟩⟩

/-- How far a coin is tilted. -/
def tilt : Parameter := ⟨"tilt", by decide⟩

/-- Tilts with a point that satisfies a bound. -/
def someTilt : Region :=
  (Region.fresh ⟨.ofList [(tilt, ⟨0, 2, by decide⟩)], by decide⟩).recordSat (.ofList [(tilt, 2)])

/-- The minimal probability alone proves that all points satisfy `>= 1/5`; the maximal one is not
computed.  It proves nothing about `>= 3/4`: both together prove that no point satisfies that, which
the known point refutes. -/
theorem decideWith_coinChoice :
    Scalar.le (tossing.solve coinChoice .minimize) (tossing.solve coinChoice .maximize) = true ∧
    ((decideWith ⟨.greaterEqual, 1 / 5⟩ (tossing.solve coinChoice) someTilt).1.upper = none ∧
      decidePlainly ⟨.greaterEqual, 1 / 5⟩ (tossing.solve coinChoice .minimize)
        (tossing.solve coinChoice .maximize) someTilt =
        (true, { someTilt with verdict := .allSat })) ∧
    Bound.classify ⟨.greaterEqual, 3 / 4⟩ (tossing.solve coinChoice .minimize)
      (tossing.solve coinChoice .maximize) = .allViolate ∧
    ∀ threshold ∈ [1 / 5, 3 / 4],
      ((decideWith ⟨.greaterEqual, threshold⟩ (tossing.solve coinChoice) someTilt).1.proven,
        (decideWith ⟨.greaterEqual, threshold⟩ (tossing.solve coinChoice) someTilt).2) =
        decidePlainly ⟨.greaterEqual, threshold⟩ (tossing.solve coinChoice .minimize)
          (tossing.solve coinChoice .maximize) someTilt := by
  have hle : Scalar.le (tossing.solve coinChoice .minimize) (tossing.solve coinChoice .maximize) =
      true := by decide +kernel
  refine ⟨hle, ⟨by decide +kernel, by decide +kernel⟩, by decide +kernel, fun threshold _ =>
    decideWith_eq_plain tossing coinChoice _ _ ?_ hle ?_ ?_ ?_⟩
  · decide +kernel
  · decide +kernel
  · intro _
    rfl
  · intro h
    cases h

end Approximator

end MarkovRegion
