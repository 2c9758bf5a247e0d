import Mathlib
import MarkovRegion.Proofs.Checker.Leftovers

/-!
# What a parallel check counts

A worker counts the regions that it completes, and gives its counts back only if it succeeds.  The
counts are merged in the order of the workers up to the first one that failed.  So a parallel check
counts what the workers before the first failure have completed, and nothing else: what this worker
completed before it failed, and what all later workers completed, is lost
(`Checker.parallel_counts_up_to_failure`).  A check in turn counts all regions that it completes,
also if it fails.

`inTurn.completed` are the elements of a list that are completed, and `Statistics.Grows` says that
counts grow by those of given regions: one check adds its region if it succeeds and nothing if it
fails, and by induction over the regions a run adds the completed ones (`inTurn_grows`).
-/

namespace MarkovRegion

open Attempt

/-! ## Counts by verdict -/

namespace Statistics

/-- The counts grow by some regions, each of which is counted under its verdict. -/
structure Grows (s t : Statistics) (regions : List Region) : Prop where
  checked : t.checked = s.checked + regions.length
  existsBoth : t.existsBoth = s.existsBoth + regions.countP fun r => r.verdict = .existsBoth
  allSat : t.allSat = s.allSat + regions.countP fun r => r.verdict = .allSat
  allViolated : t.allViolated = s.allViolated + regions.countP fun r => r.verdict = .allViolated
  unresolved : t.unresolved = s.unresolved + regions.countP fun r => !r.verdict.isTerminal

variable {s t u : Statistics} {regions others : List Region}

theorem Grows.refl (s : Statistics) : s.Grows s [] := ⟨rfl, rfl, rfl, rfl, rfl⟩

theorem Grows.append (h : s.Grows t regions) (h' : t.Grows u others) :
    s.Grows u (regions ++ others) := by
  constructor
  · rw [h'.checked, h.checked, List.length_append, Nat.add_assoc]
  · rw [h'.existsBoth, h.existsBoth, List.countP_append, Nat.add_assoc]
  · rw [h'.allSat, h.allSat, List.countP_append, Nat.add_assoc]
  · rw [h'.allViolated, h.allViolated, List.countP_append, Nat.add_assoc]
  · rw [h'.unresolved, h.unresolved, List.countP_append, Nat.add_assoc]

/-- A region that is recorded is counted under its verdict. -/
theorem grows_record (s : Statistics) (tier : Option Tier) (r : Region) :
    s.Grows (s.record tier r.verdict) [r] := by
  have htier : ∀ v : Verdict, (s.record tier v).checked = s.checked + 1 ∧
      (s.record tier v).existsBoth = s.existsBoth + (if v = .existsBoth then 1 else 0) ∧
      (s.record tier v).allSat = s.allSat + (if v = .allSat then 1 else 0) ∧
      (s.record tier v).allViolated = s.allViolated + (if v = .allViolated then 1 else 0) ∧
      (s.record tier v).unresolved = s.unresolved + (if v.isTerminal = false then 1 else 0) := by
    intro v
    rcases tier with _ | tier
    · cases v <;> simp [record, countTier, countVerdict, Verdict.isTerminal]
    · cases tier <;> cases v <;> simp [record, countTier, countVerdict, Verdict.isTerminal]
  obtain ⟨hchecked, hboth, hsat, hviolated, hunresolved⟩ := htier r.verdict
  refine ⟨hchecked, ?_, ?_, ?_, ?_⟩
  · simp [hboth, List.countP_singleton]
  · simp [hsat, List.countP_singleton]
  · simp [hviolated, List.countP_singleton]
  · simp [hunresolved, List.countP_singleton]

/-- The counts of a worker are added to those of the checker. -/
theorem Grows.merge (h : zero.Grows t regions) (s : Statistics) : s.Grows (s.merge t) regions := by
  obtain ⟨hchecked, hboth, hsat, hviolated, hunresolved⟩ := h
  simp only [zero, Nat.zero_add] at hchecked hboth hsat hviolated hunresolved
  constructor
  · rw [← hchecked]
    rfl
  · rw [← hboth]
    rfl
  · rw [← hsat]
    rfl
  · rw [← hviolated]
    rfl
  · rw [← hunresolved]
    rfl

/-- The number of regions by which counts grow is known. -/
theorem Grows.length_eq (h : s.Grows t regions) (h' : s.Grows t others) :
    regions.length = others.length :=
  Nat.add_left_cancel (h.checked.symm.trans h'.checked)

end Statistics

open Statistics

/-! ## Completed regions -/

/-- The elements whose attempts succeed before one fails, as they are after them. -/
def inTurn.completed {ε α S : Type} (attempt : Attempt ε (α × S) Unit) : List α → S → List α
  | [], _ => []
  | x :: xs, s =>
    match attempt.run (x, s) with
    | (.error _, _) => []
    | (.ok (), x, s) => x :: completed attempt xs s

/-- An attempt adds its region to the counts if it succeeds, and nothing if it fails. -/
def CountsRegion {S : Type} (counts : S → Statistics)
    (attempt : Attempt CheckError (Region × S) Unit) : Prop :=
  ∀ s, Meets (fun t => t.2 = s) attempt (fun _ t => (counts s).Grows (counts t.2) [t.1])
    fun _ t => counts t.2 = counts s

/-- A run adds the completed regions to the counts, whether it succeeds or fails. -/
theorem CountsRegion.inTurn_grows {S : Type} {counts : S → Statistics}
    {attempt : Attempt CheckError (Region × S) Unit} (h : CountsRegion counts attempt)
    (regions : List Region) (s : S) :
    (counts s).Grows (counts ((inTurn attempt).run (regions, s)).2.2)
      (inTurn.completed attempt regions s) := by
  rw [run_inTurn]
  induction regions generalizing s with
  | nil => exact .refl (counts s)
  | cons r rest ih =>
      have hfirst := h s (r, s) rfl
      rw [inTurn.go, inTurn.completed]
      rcases hrun : attempt.run (r, s) with ⟨e | u, r', s'⟩
      · rw [hrun] at hfirst
        rw [show counts s' = counts s from hfirst]
        exact .refl (counts s)
      · rw [hrun] at hfirst
        exact hfirst.append (ih s')

variable {σ ω : Type}

/-! ## Workers -/

namespace Workplace

variable (options : Options) (p : Prepared) (f : Smt.SolverFactory σ ω)

theorem countsRegion_checkRegion (worker : Nat) :
    CountsRegion Workplace.statistics (checkRegion options p f worker) := by
  rintro _ ⟨r, w⟩ rfl
  unfold checkRegion
  simp only [ExceptT.run_mk]
  rcases (Inspection.escalate options p f worker).run ⟨r, w.sessions, w.world⟩ with ⟨e | tier, i⟩
  · rfl
  · exact grows_record w.statistics tier i.region

/-- What one worker did. -/
structure Shift where
  /-- Whether all its regions could be checked. -/
  succeeded : Bool
  /-- The regions that it completed, as they are after their checks. -/
  completed : List Region

/-- What a worker does. -/
def shift (worker : Nat) (part : List Region) (world : ω) : Shift where
  succeeded := (work options p f worker part world).1.isOk
  completed := inTurn.completed (checkRegion options p f worker) part (fresh world)

/-- What all workers do, who are numbered from the given number on. -/
def shifts : Nat → List (List Region) → ω → List Shift
  | _, [], _ => []
  | worker, part :: parts, world =>
    shift options p f worker part world ::
      shifts (worker + 1) parts (work options p f worker part world).2.2

/-- The counts that a worker gives back are those of the regions that it has completed. -/
theorem work_grows (worker : Nat) (part : List Region) (world : ω) {t : Statistics}
    (ht : (work options p f worker part world).1 = .ok t) :
    zero.Grows t (shift options p f worker part world).completed := by
  have hturn := (countsRegion_checkRegion options p f worker).inTurn_grows part (fresh world)
  unfold work at ht
  rcases hrun : (inTurn (checkRegion options p f worker)).run (part, fresh world) with
    ⟨e | u, regions, w⟩
  · rw [hrun] at ht
    cases ht
  · rw [hrun] at ht hturn
    obtain rfl := Except.ok.inj ht
    exact hturn

/-- Merging succeeds if all workers do, and adds the regions of the workers before the first
failure. -/
theorem mergeAll_grows (worker : Nat) (parts : List (List Region)) (world : ω) (s : Statistics) :
    let merged := s.mergeAll (workAll options p f worker parts world).1
    let done := shifts options p f worker parts world
    (merged.1 = .ok () ↔ ∀ shift ∈ done, shift.succeeded = true) ∧
      s.Grows merged.2 ((done.takeWhile Shift.succeeded).flatMap Shift.completed) := by
  induction parts generalizing worker world s with
  | nil => exact ⟨by simp [workAll, mergeAll, shifts], .refl s⟩
  | cons part parts ih =>
      simp only [shifts, workAll, List.forall_mem_cons, List.takeWhile_cons]
      cases hwork : (work options p f worker part world).1 with
      | error e =>
          have hfailed : (shift options p f worker part world).succeeded = false := by
            simp [shift, hwork, Except.isOk, Except.toBool]
          simp only [hfailed, mergeAll]
          exact ⟨by simp, .refl s⟩
      | ok t =>
          have hdone : (shift options p f worker part world).succeeded = true := by
            simp [shift, hwork, Except.isOk, Except.toBool]
          have hfirst := (work_grows options p f worker part world hwork).merge s
          obtain ⟨hok, hrest⟩ := ih (worker + 1) (work options p f worker part world).2.2 (s.merge t)
          simp only [hdone, mergeAll, true_and, if_true, List.flatMap_cons]
          exact ⟨hok, hfirst.append hrest⟩

end Workplace

/-! ## Checkers -/

namespace Checker

variable (f : Smt.SolverFactory σ ω)

theorem countsRegion_checkRegion :
    CountsRegion (fun s : Checker σ × ω => s.1.statistics) (checkRegion f) := by
  rintro _ ⟨r, k, world⟩ rfl
  rcases hp : (do let p ← k.specified; k.checkParameters p r; return p) with e | p
  · rw [run_checkRegion_of_refused hp]
  · have hworker := Workplace.countsRegion_checkRegion k.options p f 0
      ⟨k.sessions, k.statistics, world⟩ (r, ⟨k.sessions, k.statistics, world⟩) rfl
    unfold checkRegion
    simp only [ExceptT.run_mk, hp]
    rcases hrun : (Workplace.checkRegion k.options p f 0).run
      (r, ⟨k.sessions, k.statistics, world⟩) with ⟨e | u, r', w⟩
    · rw [hrun] at hworker
      exact hworker
    · rw [hrun] at hworker
      exact hworker

/-- What is counted of a parallel check that succeeds or fails in any way.  It succeeds if all
workers do.  The counts grow by the regions that the workers before the first failure have
completed.  So they grow by all regions that were completed exactly if the first worker who fails,
and all workers after it, have completed none.  A check in turn counts all regions that it
completes. -/
theorem parallel_counts_up_to_failure {k : Checker σ} {p : Prepared} (hp : k.prepared = some p)
    {regions : List Region} (haccepted : ∀ r ∈ regions, k.checkParameters p r = .ok ())
    {workers : Nat} (hworkers : 1 < workers) (hregions : 1 < regions.length) (world : ω) :
    let parts := partsOf ((regions.length - 1) / workers) regions
    let shifts := Workplace.shifts k.options p f 0 parts world
    let parallel := (checkParallel f workers).run (regions, k, world)
    let turn := (checkRegions f).run (regions, k, world)
    (parallel.1 = .ok () ↔ ∀ shift ∈ shifts, shift.succeeded = true) ∧
    k.statistics.Grows parallel.2.2.1.statistics
      ((shifts.takeWhile Workplace.Shift.succeeded).flatMap Workplace.Shift.completed) ∧
    (k.statistics.Grows parallel.2.2.1.statistics (shifts.flatMap Workplace.Shift.completed) ↔
      ∀ shift ∈ shifts.dropWhile Workplace.Shift.succeeded, shift.completed = []) ∧
    k.statistics.Grows turn.2.2.1.statistics
      (inTurn.completed (checkRegion f) regions (k, world)) := by
  intro parts shifts parallel turn
  obtain ⟨hok, hgrows⟩ := Workplace.mergeAll_grows k.options p f 0 parts world k.statistics
  have hparallel : parallel = (checkParts f p workers).run (regions, k, world) := by
    rw [show parallel = _ from run_checkParallel hp haccepted workers world]
    simp [hworkers, hregions]
  have hcounted : k.statistics.Grows parallel.2.2.1.statistics
      ((shifts.takeWhile Workplace.Shift.succeeded).flatMap Workplace.Shift.completed) := by
    rw [hparallel]
    exact hgrows
  refine ⟨?_, hcounted, ?_, ?_⟩
  · rw [hparallel]
    exact hok
  · have hsplit : shifts.flatMap Workplace.Shift.completed =
        (shifts.takeWhile Workplace.Shift.succeeded).flatMap Workplace.Shift.completed ++
          (shifts.dropWhile Workplace.Shift.succeeded).flatMap Workplace.Shift.completed := by
      rw [← List.flatMap_append, List.takeWhile_append_dropWhile]
    rw [hsplit, ← List.flatMap_eq_nil_iff]
    constructor
    · intro hall
      have hlength := hcounted.length_eq hall
      rw [List.length_append, left_eq_add, List.length_eq_zero_iff] at hlength
      exact hlength
    · intro hlost
      rw [hlost, List.append_nil]
      exact hcounted
  · exact (countsRegion_checkRegion f).inTurn_grows regions (k, world)

/-! ## Counts that are lost -/

/-- The biases up to two fifths. -/
def tailsBias : Interval := ⟨0, mkRat 2 5, by decide⟩

/-- The biases from seven tenths to four fifths. -/
def narrowBias : Interval := ⟨mkRat 7 10, mkRat 4 5, by decide⟩

/-- Only the second frame cannot be closed, and no check has a solution. -/
def secondPopFails : Smt.Temper Nat where
  refuses _ _ pops := (none, pops)
  fails
    | .pop, _, pops => (if pops = 1 then some "pop" else none, pops + 1)
    | _, _, pops => (none, pops)
  answers _ _ pops := ((.unsat, none), pops)

/-- Three regions of coins, of which the first worker has two. -/
def coinRegions : List Region :=
  [.fresh (coinBox highBias), .fresh (coinBox tailsBias), .fresh (coinBox narrowBias)]

/-- The checker of the coins. -/
def coinChecker (o : Options) (c : ParametricChain) (p : Prepared) : Checker Smt.Stack :=
  ⟨c, fullOnly o, some p, .empty, .zero⟩

/-- What two workers do on the regions of coins. -/
def coinShifts (o : Options) (p : Prepared) : List Workplace.Shift :=
  Workplace.shifts (fullOnly o) p secondPopFails.factory 0
    (partsOf ((coinRegions.length - 1) / 2) coinRegions) ⟨0, []⟩

/-- The first worker completes a region and fails at the next, the second worker completes its only
region.  In turn the region before the failure is completed. -/
theorem exists_coin_shifts (o : Options) : ∃ c p, coinFile.toChain = .ok c ∧
    Prepared.build (fullOnly o) c coinFormula = .ok p ∧
    let k := coinChecker o c p
    let parallel := (checkParallel secondPopFails.factory 2).run (coinRegions, k, ⟨0, []⟩)
    let turn := (checkRegions secondPopFails.factory).run (coinRegions, k, ⟨0, []⟩)
    (∀ r ∈ coinRegions, k.checkParameters p r = .ok ()) ∧
    ((coinShifts o p).map fun shift => (shift.succeeded, shift.completed.map Region.verdict)) =
      [(false, [.allSat]), (true, [.allSat])] ∧
    parallel.1 = .error (.solver "pop") ∧ parallel.2.2.1.statistics = .zero ∧
    turn.1 = .error (.solver "pop") ∧ turn.2.2.1.statistics.checked = 1 := by
  have hseen : coinFile.toChain.toOption.map (fun c =>
      (Prepared.build (fullOnly o) c coinFormula).toOption.map fun p =>
        let k := coinChecker o c p
        let parallel := (checkParallel secondPopFails.factory 2).run (coinRegions, k, ⟨0, []⟩)
        let turn := (checkRegions secondPopFails.factory).run (coinRegions, k, ⟨0, []⟩)
        (coinRegions.all fun r => (k.checkParameters p r).isOk,
          (coinShifts o p).map (fun shift => (shift.succeeded, shift.completed.map Region.verdict)),
          parallel.1, parallel.2.2.1.statistics, turn.1, turn.2.2.1.statistics.checked)) =
      some (some (true, [(false, [.allSat]), (true, [.allSat])], .error (.solver "pop"), .zero,
        .error (.solver "pop"), 1)) := by
    cbv
  obtain ⟨c, hc, hseen⟩ := exists_ok_of_map_eq hseen
  obtain ⟨p, hp, hseen⟩ := exists_ok_of_map_eq hseen
  simp only [Prod.mk.injEq] at hseen
  obtain ⟨haccepted, hrest⟩ := hseen
  refine ⟨c, p, hc, hp, fun r hr => ?_, hrest⟩
  have hok := List.all_eq_true.mp haccepted r hr
  cases hr : (coinChecker o c p).checkParameters p r with
  | ok u => rfl
  | error e =>
      rw [hr] at hok
      cases hok

/-- Two workers check three regions of coins and complete two of them before one worker fails.
Nothing is counted, where in turn the region before the failure is. -/
theorem parallel_counts_lost : ∃ c p, coinFile.toChain = .ok c ∧
    Prepared.build (fullOnly .usual) c coinFormula = .ok p ∧
    let k := coinChecker .usual c p
    let parallel := (checkParallel secondPopFails.factory 2).run (coinRegions, k, ⟨0, []⟩)
    let turn := (checkRegions secondPopFails.factory).run (coinRegions, k, ⟨0, []⟩)
    let completed := (coinShifts .usual p).flatMap Workplace.Shift.completed
    (∀ r ∈ coinRegions, k.checkParameters p r = .ok ()) ∧
    completed.map Region.verdict = [.allSat, .allSat] ∧
    parallel.2.2.1.statistics = .zero ∧ turn.2.2.1.statistics.checked = 1 ∧
    ¬ k.statistics.Grows parallel.2.2.1.statistics completed := by
  obtain ⟨c, p, hc, hp, haccepted, hshifts, -, hnothing, -, hturn⟩ := exists_coin_shifts .usual
  have hverdicts : ((coinShifts .usual p).flatMap Workplace.Shift.completed).map Region.verdict =
      [.allSat, .allSat] := by
    have hlists := congrArg (List.flatMap Prod.snd) hshifts
    rw [List.flatMap_map] at hlists
    rw [List.map_flatMap]
    exact hlists
  refine ⟨c, p, hc, hp, haccepted, hverdicts, hnothing, hturn, fun hgrows => ?_⟩
  have hchecked := hgrows.checked
  rw [hnothing, ← List.length_map Region.verdict, hverdicts] at hchecked
  cases hchecked

/-- The first worker fails on the regions of coins, so what it has completed is not counted, and
neither is what the worker after it has. -/
theorem parallel_counts_coins : ∃ c p, coinFile.toChain = .ok c ∧
    Prepared.build (fullOnly .usual) c coinFormula = .ok p ∧
    let k := coinChecker .usual c p
    let parallel := (checkParallel secondPopFails.factory 2).run (coinRegions, k, ⟨0, []⟩)
    let turn := (checkRegions secondPopFails.factory).run (coinRegions, k, ⟨0, []⟩)
    k.prepared = some p ∧ (∀ r ∈ coinRegions, k.checkParameters p r = .ok ()) ∧
    1 < coinRegions.length ∧ parallel.1 ≠ .ok () ∧
    k.statistics.Grows parallel.2.2.1.statistics [] ∧
    k.statistics.Grows turn.2.2.1.statistics
      (inTurn.completed (checkRegion secondPopFails.factory) coinRegions (k, ⟨0, []⟩)) := by
  obtain ⟨c, p, hc, hp, haccepted, hshifts, hfails, -⟩ := exists_coin_shifts .usual
  have hregions : 1 < coinRegions.length := by decide
  obtain ⟨-, hcounted, -, hturn⟩ := parallel_counts_up_to_failure secondPopFails.factory
    (k := coinChecker .usual c p) rfl haccepted Nat.one_lt_two hregions ⟨0, []⟩
  have hnone : (coinShifts .usual p).takeWhile Workplace.Shift.succeeded = [] := by
    obtain ⟨first, rest, hlist, hfirst, -⟩ := List.map_eq_cons_iff.mp hshifts
    have hfailed : first.succeeded = false := congrArg Prod.fst hfirst
    rw [hlist, List.takeWhile_cons_of_neg (by simp [hfailed])]
  refine ⟨c, p, hc, hp, rfl, haccepted, hregions, ?_, ?_, hturn⟩
  · rw [hfails]
    intro hok
    cases hok
  · change Statistics.Grows _ _
      (((coinShifts .usual p).takeWhile Workplace.Shift.succeeded).flatMap _) at hcounted
    rw [hnone] at hcounted
    exact hcounted

end Checker

end MarkovRegion
