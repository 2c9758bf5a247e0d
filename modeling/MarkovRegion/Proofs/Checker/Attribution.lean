import MarkovRegion.Proofs.Checker.History
import MarkovRegion.Proofs.Checker.Leftovers
import MarkovRegion.Proofs.Region.Repetition

/-!
# Counts are exact

A tier tells by a flag whether it has settled the region, and the flag is computed apart from the
verdict.  The two agree (`Inspection.Decides`): a tier that starts with an open region
(`Region.Unsettled`) says that it has settled it exactly if the verdict is terminal afterwards, and a
tier that fails leaves the region open.  So a check counts a tier exactly if it takes the region
from an open verdict to a terminal one (`Workplace.checkRegion_attributes`), whatever solvers
answer.

What is counted adds up.  `Statistics.Tallies` says that the counts between two moments are those of
the regions that were settled; it holds for one check, is kept by checking regions in turn and by
merging the counts of workers, and so holds for all that a checker is asked
(`Checker.statistics_exact`).
-/

namespace MarkovRegion

open Attempt

/-- A check took a region from an open verdict to a terminal one. -/
def Region.settledBy (r s : Region) : Bool := !r.verdict.isTerminal && s.verdict.isTerminal

/-! ## Tiers -/

namespace Inspection

variable {σ ω ε α : Type} {options : Options} {p : Prepared} {f : Smt.SolverFactory σ ω}

/-- A tier settles an open region exactly if it says so, and leaves it open if it fails. -/
def Decides (x : Attempt CheckError (Inspection σ ω) Bool) : Prop :=
  Treats Region.Unsettled x Region.Tried Region.Unsettled

theorem decides_return_false :
    Decides (return false : Attempt CheckError (Inspection σ ω) Bool) :=
  fun _ hi => hi

theorem decides_decidePoint (point : Valuation) :
    Decides (decidePoint options p point : Attempt CheckError (Inspection σ ω) Bool) :=
  treats_onRegion (fun _ both hs => (hs.tried_sample _ _).1 both) fun _ e hs => (hs.tried_sample _ _).2 e

theorem decides_bySampling :
    Decides (bySampling options p : Attempt CheckError (Inspection σ ω) Bool) := by
  unfold bySampling
  split
  · refine treats_onRegion (fun s both hs hok => ?_) fun s e hs herror => ?_
    · unfold Sampler.samplePoints at hok ⊢
      split at hok
      · cases hok
      · exact (hs.tried_sample _ _).1 both hok
    · unfold Sampler.samplePoints at herror ⊢
      split at herror
      · exact hs
      · exact (hs.tried_sample _ _).2 e herror
  · exact decides_return_false

theorem concludes_settles (goal : Goal) :
    Treats Region.Unsettled (concludes goal.verdict : Attempt RegionError (Inspection σ ω) Unit)
      (fun _ => Region.Tried true) Region.Unsettled := by
  refine Meets.bind_get fun i hi => ?_
  refine Meets.bind (Q := fun s _ => i.region.conclude goal.verdict = .ok s)
    (Meets.ofExcept (fun s hs _ _ => hs) fun _ _ j hj => hj ▸ hi) fun s => ?_
  refine Meets.set fun _ hs => ?_
  unfold Region.conclude at hs
  split_ifs at hs
  obtain rfl := Except.ok.inj hs
  cases goal <;> rfl

theorem decides_byConstantResult :
    Decides (byConstantResult p : Attempt CheckError (Inspection σ ω) Bool) := by
  unfold byConstantResult
  split
  · exact decides_return_false
  · next value _ =>
      have hconcludes : Treats Region.Unsettled
          (concludes (if p.property.bound.holds value then .allSat else .allViolated) :
            Attempt RegionError (Inspection σ ω) Unit) (fun _ => Region.Tried true)
          Region.Unsettled := by
        split
        · exact concludes_settles .allSat
        · exact concludes_settles .allViolated
      refine Meets.bind (hconcludes.mapError fun _ _ hi => hi) fun _ => ?_
      exact Meets.pure fun _ hi => hi

theorem tried_settle {o : ApproximationOutcome Float} (ho : o.proven = false) {r : Region}
    (hr : r.Unsettled) (goal : Goal) :
    Region.Tried (Approximator.settle o r goal.verdict).1.proven
      (Approximator.settle o r goal.verdict).2 := by
  unfold Approximator.settle Region.conclude
  split_ifs
  · exact ho.symm ▸ hr
  · cases goal <;> rfl

theorem proven_foldl_fill (value : Direction → Float) (directions : List Direction)
    (o : ApproximationOutcome Float) :
    (directions.foldl (Approximator.fill value) o).proven = o.proven := by
  induction directions generalizing o with
  | nil => rfl
  | cons direction rest ih =>
      rw [List.foldl_cons, ih]
      cases direction <;> rfl

/-- A bounding process proves something exactly if it concludes a verdict. -/
theorem tried_pursue (bound : Bound) (value : Direction → Float) (goals : List Goal)
    {o : ApproximationOutcome Float} (ho : o.proven = false) {r : Region} (hr : r.Unsettled) :
    Region.Tried (Approximator.pursue bound value goals o r).1.proven
      (Approximator.pursue bound value goals o r).2 := by
  induction goals generalizing o with
  | nil => exact ho.symm ▸ hr
  | cons goal rest ih =>
      have hfill : ((goal.directions bound.comparison).foldl (Approximator.fill value) o).proven =
          false := (proven_foldl_fill ..).trans ho
      rw [Approximator.pursue]
      split
      · exact tried_settle hfill hr .allSat
      · exact tried_settle hfill hr .allViolated
      · exact ih hfill

theorem decides_byApproximation :
    Decides (byApproximation options p : Attempt CheckError (Inspection σ ω) Bool) := by
  unfold byApproximation
  split
  · exact decides_return_false
  · next a _ =>
      refine treats_onRegion (fun s settled hs hok => ?_) fun s e hs herror => ?_
      · rcases hcheck : a.check p.property.bound s with e | ⟨o, s'⟩
        · rw [hcheck] at hok
          cases hok
        · rw [hcheck] at hok
          obtain rfl := Except.ok.inj hok
          obtain ⟨process, -, hdecide⟩ := bind_eq_ok_iff.mp hcheck
          have htried := tried_pursue p.property.bound (a.solve process) s.verdict.goals
            (o := ⟨none, none, false⟩) rfl hs
          rw [← Approximator.decideWith, Except.ok.inj hdecide] at htried
          exact htried
      · rcases hcheck : a.check p.property.bound s with e | ⟨o, s'⟩
        · exact hs
        · rw [hcheck] at herror
          cases herror

/-! ### Solvers -/

theorem decides_settle (goal : Goal) (answer : Smt.QueryAnswer) :
    Decides (settle options p goal answer : Attempt CheckError (Inspection σ ω) Bool) := by
  cases answer with
  | proven =>
      refine Meets.bind (concludes_settles goal).outcome fun outcome => ?_
      rcases outcome with e | u
      · exact Meets.pure fun _ hi => hi
      · exact Meets.pure fun _ hi => hi
  | counterexample point =>
      refine Meets.bind (decides_decidePoint point).outcome fun outcome => ?_
      rcases outcome with e | both
      · dsimp only
        split
        · next heq => cases heq
        · exact decides_return_false
        · exact Meets.throw fun _ hi => hi
      · exact Meets.pure fun _ hi => hi
  | inconclusive reason => exact decides_return_false

variable (options p f) in
theorem decides_askByVerdict (kind : Smt.SessionKind) (session : Smt.Session σ) :
    Treats (fun s => s.Unsettled ∧ s.verdict ≠ .unknown)
      (do match (← get).region.verdict with
        | .existsSat => settle options p .allSat (← query p f kind session .allSat)
        | .existsViolated => settle options p .allViolated (← query p f kind session .allViolated)
        | _ => return true) Region.Tried Region.Unsettled := by
  have hask : ∀ goal, Decides (do settle options p goal (← query p f kind session goal)) :=
    fun goal => Meets.bind (query_treats Region.Unsettled kind session goal) fun answer =>
      decides_settle goal answer
  refine Meets.bind_get fun i ⟨hi, hknown⟩ => ?_
  rcases hi.verdict_cases hknown with hverdict | hverdict
  · rw [hverdict]
    exact (hask .allSat).startingAt hi
  · rw [hverdict]
    exact (hask .allViolated).startingAt hi

theorem decides_bySolver (worker : Nat) (kind : Smt.SessionKind) :
    Decides (bySolver options p f worker kind) := by
  refine Meets.bind (session_treats Region.Unsettled worker kind) fun session => ?_
  refine Meets.bind_get fun i hi => ?_
  have hquery := decides_askByVerdict options p f kind session
  dsimp only
  split
  · next hunknown =>
      -- the midpoint leaves one goal, so the solver is asked
      have hmidpoint : Treats (fun s => s = i.region)
          (decidePoint options p i.region.box.midpoint : Attempt CheckError (Inspection σ ω) Bool)
          (fun _ s => s.Unsettled ∧ s.verdict ≠ .unknown) Region.Unsettled := by
        refine treats_onRegion ?_ ?_
        · rintro _ both rfl hok
          exact hi.sample_of_unknown hunknown _ _ hok
        · rintro _ e rfl herror
          exact (hi.tried_sample _ _).2 e herror
      exact Meets.bind (hmidpoint.weaken (fun _ hj => hj ▸ rfl) (fun _ _ h => h) fun _ _ h => h)
        fun _ => hquery
  · next hknown => exact hquery.startingAt ⟨hi, hknown⟩

/-! ### All tiers -/

theorem firstSettled_attributes
    {attempts : List (Tier × Attempt CheckError (Inspection σ ω) Bool)}
    (h : ∀ attempt ∈ attempts, Decides attempt.2) :
    Treats Region.Unsettled (firstSettled attempts) (fun tier => Region.Tried tier.isSome)
      Region.Unsettled := by
  induction attempts with
  | nil => exact Meets.pure fun _ hi => hi
  | cons attempt rest ih =>
      refine Meets.bind (h attempt List.mem_cons_self) fun settled => ?_
      cases settled with
      | true => exact Meets.pure fun _ hi => hi
      | false => exact ih fun attempt' ha => h attempt' (List.mem_cons_of_mem _ ha)

variable (options p f) in
theorem decides_tiers (worker : Nat) :
    ∀ attempt ∈ tiers options p f worker, Decides attempt.2 := by
  have hsolver : ∀ (wanted : Bool) kind, Decides
      (if wanted then bySolver options p f worker kind else return false) := by
    intro wanted kind
    cases wanted with
    | true => exact decides_bySolver worker kind
    | false => exact decides_return_false
  simp only [tiers, List.forall_mem_cons, List.not_mem_nil, false_imp_iff, implies_true, and_true]
  exact ⟨decides_byConstantResult, decides_bySampling, decides_byApproximation,
    hsolver options.subsystemSmt .subsystem, hsolver options.fullSmt .full⟩

variable (options p f) in
/-- A check names a tier exactly if it takes the region from an open verdict to a terminal one. -/
theorem escalate_attributes {r : Region} (hr : r.Coherent) (worker : Nat) :
    Treats (fun s => s = r) (escalate options p f worker)
      (fun tier s => tier.isSome = r.settledBy s) fun s => r.settledBy s = false := by
  have hsettled : ∀ (h : r.verdict.isTerminal = false) (settled : Bool) (s : Region),
      Region.Tried settled s → settled = r.settledBy s := by
    intro h settled s hs
    rw [Region.settledBy, h]
    cases settled with
    | true => exact (congrArg (!false && ·) hs).symm
    | false => exact (congrArg (!false && ·) hs.not_terminal).symm
  refine Meets.bind_get fun i hi => ?_
  split
  · next hterminal =>
      rw [hi] at hterminal
      refine Meets.pure fun j hj => ?_
      simp [Region.settledBy, hterminal]
  · next hopen =>
      rw [hi, Bool.not_eq_true] at hopen
      exact ((firstSettled_attributes (decides_tiers options p f worker)).startingAt
        (hi ▸ hr.unsettled hopen)).weaken (fun _ hj => hj)
        (fun tier j hj => hsettled hopen _ _ hj) fun _ j hj => (hsettled hopen false _ hj).symm

end Inspection

/-! ## Counts -/

namespace Statistics

/-- The count of a tier. -/
def solvedBy (s : Statistics) : Tier → Nat
  | .constantResult => s.byConstantResult
  | .sampling => s.bySampling
  | .approximation => s.byApproximation
  | .subsystemSmt => s.bySubsystemSmt
  | .fullSmt => s.byFullSmt

/-- The counts of all tiers together. -/
def solved (s : Statistics) : Nat :=
  s.byConstantResult + s.bySampling + s.byApproximation + s.bySubsystemSmt + s.byFullSmt

/-- Every region that was checked is counted under one verdict. -/
def Balanced (s : Statistics) : Prop :=
  s.checked = s.existsBoth + s.allSat + s.allViolated + s.unresolved

/-- What the check of a region does to the counts, if it succeeds and if it fails. -/
def Recorded (before after : Region) (s t : Statistics) : Except CheckError Unit → Prop
  | .ok () => ∃ tier, t = s.record tier after.verdict ∧ tier.isSome = before.settledBy after
  | .error _ => t = s ∧ before.settledBy after = false

/-- A check that succeeds counts one tier if it settles the region and none otherwise; a check that
fails counts nothing. -/
def Attributes (before after : Region) (s t : Statistics) : Except CheckError Unit → Prop
  | .ok () =>
    (before.settledBy after = true →
      ∃ tier, ∀ other, t.solvedBy other = s.solvedBy other + if other = tier then 1 else 0) ∧
    (before.settledBy after = false → ∀ tier, t.solvedBy tier = s.solvedBy tier)
  | .error _ => t = s

theorem solvedBy_record (s : Statistics) (tier : Option Tier) (verdict : Verdict) (other : Tier) :
    (s.record tier verdict).solvedBy other =
      s.solvedBy other + if tier = some other then 1 else 0 := by
  rcases tier with _ | tier
  · cases verdict <;> cases other <;> rfl
  · cases tier <;> cases verdict <;> cases other <;> rfl

theorem Recorded.attributes {before after : Region} {s t : Statistics}
    {outcome : Except CheckError Unit} (h : Recorded before after s t outcome) :
    Attributes before after s t outcome := by
  cases outcome with
  | ok u =>
      obtain ⟨tier, rfl, htier⟩ := h
      rw [Attributes, ← htier]
      rcases tier with _ | tier
      · exact ⟨nofun, fun _ other => solvedBy_record ..⟩
      · refine ⟨fun _ => ⟨tier, fun other => ?_⟩, nofun⟩
        rw [solvedBy_record]
        simp only [Option.some.injEq, eq_comm]
  | error e => exact h.1

theorem solved_record (tier : Option Tier) (verdict : Verdict) :
    (zero.record tier verdict).solved = if tier.isSome then 1 else 0 := by
  rcases tier with _ | tier
  · cases verdict <;> rfl
  · cases tier <;> cases verdict <;> rfl

theorem balanced_record (tier : Option Tier) (verdict : Verdict) :
    (zero.record tier verdict).Balanced := by
  rcases tier with _ | tier
  · cases verdict <;> rfl
  · cases tier <;> cases verdict <;> rfl

theorem solved_merge (s t : Statistics) : (s.merge t).solved = s.solved + t.solved := by
  simp only [solved, merge]
  omega

theorem Balanced.merge {s t : Statistics} (hs : s.Balanced) (ht : t.Balanced) :
    (s.merge t).Balanced := by
  simp only [Balanced, Statistics.merge] at *
  omega

/-- How many regions were settled between two moments. -/
def settledCount (before after : List Region) : Nat :=
  (List.zipWith Region.settledBy before after).count true

theorem settledCount_singleton (r s : Region) :
    settledCount [r] [s] = if r.settledBy s then 1 else 0 := by
  cases h : r.settledBy s <;> simp [settledCount, h]

theorem settledCount_append {before after before' after' : List Region}
    (h : after.length = before.length) : settledCount (before ++ before') (after ++ after') =
      settledCount before after + settledCount before' after' := by
  simp only [settledCount, List.zipWith_append h.symm, List.count_append]

theorem settledCount_self (regions : List Region) : settledCount regions regions = 0 := by
  simp [settledCount, Region.settledBy, List.count_replicate]

/-- The counts between two moments are those of the regions that were settled. -/
structure Tallies (before after : List Region) (s t : Statistics) : Prop where
  length_eq : after.length = before.length
  counted : ∃ d, t = s.merge d ∧ d.Balanced ∧ d.solved = settledCount before after

theorem Tallies.refl (regions : List Region) (s : Statistics) : Tallies regions regions s s := by
  refine ⟨rfl, zero, ?_, rfl, ?_⟩
  · simp only [merge, zero, Nat.add_zero]
  · exact (settledCount_self regions).symm

theorem Tallies.append {before after before' after' : List Region} {s t u : Statistics}
    (h : Tallies before after s t) (h' : Tallies before' after' t u) :
    Tallies (before ++ before') (after ++ after') s u := by
  obtain ⟨hlength, d, rfl, hbalanced, hsolved⟩ := h
  obtain ⟨hlength', d', rfl, hbalanced', hsolved'⟩ := h'
  refine ⟨by simp [hlength, hlength'], d.merge d', merge_assoc .., hbalanced.merge hbalanced', ?_⟩
  rw [solved_merge, hsolved, hsolved', settledCount_append hlength]

theorem Recorded.tallies {before after : Region} {s t : Statistics}
    {outcome : Except CheckError Unit} (h : Recorded before after s t outcome) :
    Tallies [before] [after] s t := by
  cases outcome with
  | ok u =>
      obtain ⟨tier, rfl, htier⟩ := h
      refine ⟨rfl, zero.record tier after.verdict, record_eq_merge .., balanced_record .., ?_⟩
      rw [solved_record, htier, settledCount_singleton]
  | error e =>
      obtain ⟨rfl, hsettled⟩ := h
      refine ⟨rfl, zero, ?_, rfl, ?_⟩
      · simp only [merge, zero, Nat.add_zero]
      · rw [settledCount_singleton, hsettled]
        rfl

end Statistics

/-! ## Checks -/

open Statistics

variable {σ ω : Type} {f : Smt.SolverFactory σ ω}

/-- The check of a region by a worker counts what it did. -/
theorem Workplace.checkRegion_recorded (options : Options) (p : Prepared) (worker : Nat)
    (w : Workplace σ ω) {r : Region} (hr : r.Coherent) :
    let x := (checkRegion options p f worker).run (r, w)
    Recorded r x.2.1 w.statistics x.2.2.statistics x.1 := by
  have hescalate := Inspection.escalate_attributes options p f hr worker
    ⟨r, w.sessions, w.world⟩ rfl
  unfold checkRegion
  simp only [ExceptT.run_mk]
  rcases hrun : (Inspection.escalate options p f worker).run ⟨r, w.sessions, w.world⟩ with
    ⟨e | tier, i⟩
  · rw [hrun] at hescalate
    exact ⟨rfl, hescalate⟩
  · rw [hrun] at hescalate
    exact ⟨tier, rfl, hescalate⟩

/-- Checking regions in turn counts what it did. -/
theorem inTurn_tallies {S : Type} {attempt : Attempt CheckError (Region × S) Unit}
    (counts : S → Statistics)
    (hstep : ∀ r s, r.Coherent →
      Tallies [r] [(attempt.run (r, s)).2.1] (counts s) (counts (attempt.run (r, s)).2.2))
    (regions : List Region) (hregions : ∀ r ∈ regions, r.Coherent) (s : S) :
    Tallies regions ((inTurn attempt).run (regions, s)).2.1 (counts s)
      (counts ((inTurn attempt).run (regions, s)).2.2) := by
  rw [run_inTurn]
  induction regions generalizing s with
  | nil => exact .refl [] (counts s)
  | cons r rest ih =>
      have hfirst := hstep r s (hregions r List.mem_cons_self)
      rw [inTurn.go]
      rcases hrun : attempt.run (r, s) with ⟨e | u, r', s'⟩
      · rw [hrun] at hfirst
        exact hfirst.append (.refl rest (counts s'))
      · rw [hrun] at hfirst
        exact hfirst.append (ih (fun q hq => hregions q (List.mem_cons_of_mem r hq)) s')

namespace Workplace

variable (options : Options) (p : Prepared)

/-- The counts of a worker who succeeds are added to those of the checker. -/
theorem work_tallies (worker : Nat) {part : List Region} (hpart : ∀ r ∈ part, r.Coherent)
    (world : ω) {t : Statistics} (ht : (work options p f worker part world).1 = .ok t)
    (s : Statistics) :
    Tallies part (work options p f worker part world).2.1 s (s.merge t) := by
  have hturn := inTurn_tallies Workplace.statistics
    (fun r w hr => (checkRegion_recorded (f := f) options p worker w hr).tallies) part hpart
    (fresh world)
  unfold work at ht ⊢
  rcases hrun : (inTurn (checkRegion options p f worker)).run (part, fresh world) with
    ⟨e | u, regions, w⟩
  · rw [hrun] at ht
    cases ht
  · rw [hrun] at ht hturn
    obtain rfl := Except.ok.inj ht
    obtain ⟨hlength, d, hd, hbalanced, hsolved⟩ := hturn
    rw [show (fresh world : Workplace σ ω).statistics = zero from rfl, zero_merge] at hd
    exact ⟨hlength, d, congrArg s.merge hd, hbalanced, hsolved⟩

/-- If all workers succeed, then all that they did is counted. -/
theorem workAll_tallies (parts : List (List Region)) (hparts : ∀ r ∈ parts.flatten, r.Coherent)
    (worker : Nat) (world : ω) {s : Statistics}
    (hok : (s.mergeAll (workAll options p f worker parts world).1).1 = .ok ()) :
    Tallies parts.flatten (workAll options p f worker parts world).2.1 s
      (s.mergeAll (workAll options p f worker parts world).1).2 := by
  induction parts generalizing worker world s with
  | nil => exact .refl [] s
  | cons part rest ih =>
      rw [List.flatten_cons, List.forall_mem_append] at hparts
      rw [workAll] at hok ⊢
      rcases hwork : work options p f worker part world with ⟨e | t, regions, world'⟩
      · rw [hwork] at hok
        cases hok
      · have hpart := work_tallies options p worker hparts.1 world (congrArg Prod.fst hwork) s
        rw [hwork] at hok hpart
        exact hpart.append (ih hparts.2 (worker + 1) world' hok)

end Workplace

namespace Checker

theorem checkRegion_recorded (k : Checker σ) (world : ω) {r : Region} (hr : r.Coherent) :
    let x := (checkRegion f).run (r, k, world)
    Recorded r x.2.1 k.statistics x.2.2.1.statistics x.1 := by
  rcases hp : (do let p ← k.specified; k.checkParameters p r; return p) with e | p
  · rw [run_checkRegion_of_refused hp]
    exact ⟨rfl, by cases h : r.verdict.isTerminal <;> simp [Region.settledBy, h]⟩
  · have hworker := Workplace.checkRegion_recorded (f := f) k.options p 0
      ⟨k.sessions, k.statistics, world⟩ hr
    unfold checkRegion
    simp only [ExceptT.run_mk]
    rw [hp]
    exact hworker

theorem checkRegions_tallies {regions : List Region} (hregions : ∀ r ∈ regions, r.Coherent)
    (k : Checker σ) (world : ω) :
    let x := (checkRegions f).run (regions, k, world)
    Tallies regions x.2.1 k.statistics x.2.2.1.statistics := by
  intro x
  exact inTurn_tallies (fun s : Checker σ × ω => s.1.statistics)
    (fun _ s hr => (checkRegion_recorded s.1 s.2 hr).tallies) regions hregions (k, world)

/-- If a parallel check succeeds, then all that it did is counted. -/
theorem checkParallel_tallies {regions : List Region} (hregions : ∀ r ∈ regions, r.Coherent)
    (workers : Nat) (k : Checker σ) (world : ω) :
    Meets (fun s => s = (regions, k, world)) (checkParallel f workers)
      (fun _ s => Tallies regions s.1 k.statistics s.2.1.statistics) fun _ _ => True := by
  refine Meets.bind_get fun s hs => ?_
  subst hs
  dsimp only
  split
  · rintro _ rfl
    have hturn := checkRegions_tallies (f := f) hregions k world
    rcases hrun : (checkRegions f).run (regions, k, world) with ⟨e | u, s⟩
    · trivial
    · rw [hrun] at hturn
      exact hturn
  · refine Meets.bind (Q := fun _ s => s = (regions, k, world))
      (Meets.ofExcept (fun _ _ _ hs => hs) fun _ _ _ _ => trivial) fun p => ?_
    refine Meets.bind (Q := fun _ s => s = (regions, k, world))
      (Meets.ofExcept (fun _ _ _ hs => hs) fun _ _ _ _ => trivial) fun _ => ?_
    rintro _ rfl
    have hflatten := flatten_partsOf ((regions.length - 1) / workers) regions
    have hparts := Workplace.workAll_tallies (f := f) k.options p
      (partsOf ((regions.length - 1) / workers) regions) (hflatten.symm ▸ hregions) 0 world
      (s := k.statistics)
    rw [hflatten] at hparts
    unfold checkParts
    simp only [ExceptT.run_mk]
    rcases hmerge : k.statistics.mergeAll _ with ⟨e | u, statistics⟩
    · trivial
    · rw [hmerge] at hparts
      exact hparts rfl

/-! ## Histories -/

/-- The regions of a request. -/
def Request.regions : Request → List Region
  | .specify _ => []
  | .check region => [region]
  | .checkAll regions => regions
  | .checkParallel regions _ => regions

namespace Service

variable (f) in
/-- The regions of a request after it. -/
def regionsAfter (s : Service σ ω) : Request → List Region
  | .specify _ => []
  | .check region => [((checkRegion f).run (region, s.checker, s.world)).2.1]
  | .checkAll regions => ((checkRegions f).run (regions, s.checker, s.world)).2.1
  | .checkParallel regions workers =>
    ((Checker.checkParallel f workers).run (regions, s.checker, s.world)).2.1

variable (f) in
/-- The regions of requests are coherent, and parallel checks succeed. -/
def Admits : Service σ ω → List Request → Prop
  | _, [] => True
  | s, request :: requests =>
    (∀ r ∈ request.regions, r.Coherent) ∧
      (∀ regions workers, request = .checkParallel regions workers →
        ((Checker.checkParallel f workers).run (regions, s.checker, s.world)).1 = .ok ()) ∧
      Admits (s.serve f request) requests

variable (f) in
/-- The number of checks that took a region from an open verdict to a terminal one. -/
def settled : Service σ ω → List Request → Nat
  | _, [] => 0
  | s, request :: requests =>
    settledCount request.regions (s.regionsAfter f request) + settled (s.serve f request) requests

theorem serve_tallies (s : Service σ ω) {request : Request}
    (hregions : ∀ r ∈ request.regions, r.Coherent)
    (hparallel : ∀ regions workers, request = .checkParallel regions workers →
      ((Checker.checkParallel f workers).run (regions, s.checker, s.world)).1 = .ok ()) :
    Tallies request.regions (s.regionsAfter f request) s.checker.statistics
      (s.serve f request).checker.statistics := by
  cases request with
  | specify φ =>
      rw [serve, run_specify]
      cases Prepared.build s.checker.options s.checker.chain φ <;> exact .refl [] _
  | check region =>
      exact (checkRegion_recorded s.checker s.world (hregions region List.mem_cons_self)).tallies
  | checkAll regions => exact checkRegions_tallies hregions s.checker s.world
  | checkParallel regions workers =>
      change ∀ r ∈ regions, r.Coherent at hregions
      have hok := hparallel regions workers rfl
      have htallies := checkParallel_tallies (f := f) hregions workers s.checker s.world _ rfl
      rw [regionsAfter, serve]
      rcases hrun : (Checker.checkParallel f workers).run (regions, s.checker, s.world) with
        ⟨e | u, t⟩
      · rw [hrun] at hok
        cases hok
      · rw [hrun] at htallies
        exact htallies

theorem serveAll_tallies (s : Service σ ω) {requests : List Request} (h : s.Admits f requests) :
    ∃ d, (s.serveAll f requests).checker.statistics = s.checker.statistics.merge d ∧
      d.Balanced ∧ d.solved = s.settled f requests := by
  induction requests generalizing s with
  | nil => exact ⟨zero, by simp [serveAll, merge, zero], rfl, rfl⟩
  | cons request requests ih =>
      obtain ⟨hregions, hparallel, hrest⟩ := h
      obtain ⟨-, d, hd, hbalanced, hsolved⟩ := serve_tallies s hregions hparallel
      obtain ⟨d', hd', hbalanced', hsolved'⟩ := ih (s.serve f request) hrest
      refine ⟨d.merge d', ?_, hbalanced.merge hbalanced', ?_⟩
      · rw [← merge_assoc, ← hd, ← hd']
        rfl
      · rw [solved_merge, hsolved, hsolved']
        rfl

end Service

/-- The counts of a checker are exact, whatever solvers answer and whatever fails.  A check counts
one tier if it takes its region from an open verdict to a terminal one, and otherwise none; if it
fails, it counts nothing.  After any requests with coherent regions whose parallel checks succeed,
every region that was checked is counted under one verdict, and the tiers together have settled as
many regions as became terminal. -/
theorem statistics_exact (f : Smt.SolverFactory σ ω) :
    (∀ (k : Checker σ) (world : ω) (r : Region), r.Coherent →
      let x := (checkRegion f).run (r, k, world)
      Attributes r x.2.1 k.statistics x.2.2.1.statistics x.1) ∧
    (∀ options p worker (w : Workplace σ ω) (r : Region), r.Coherent →
      let x := (Workplace.checkRegion options p f worker).run (r, w)
      Attributes r x.2.1 w.statistics x.2.2.statistics x.1) ∧
    ∀ (c : ParametricChain) (options : Options) (k : Checker σ) (world : ω)
      (requests : List Request), build c options = .ok k →
      Service.Admits f ⟨k, world, none⟩ requests →
      let t := (Service.serveAll f ⟨k, world, none⟩ requests).checker.statistics
      t.checked = t.existsBoth + t.allSat + t.allViolated + t.unresolved ∧
      t.byConstantResult + t.bySampling + t.byApproximation + t.bySubsystemSmt + t.byFullSmt =
        Service.settled f ⟨k, world, none⟩ requests := by
  refine ⟨fun k world r hr => (checkRegion_recorded k world hr).attributes,
    fun options p worker w r hr =>
      (Workplace.checkRegion_recorded options p worker w hr).attributes,
    fun c options k world requests hk hadmits => ?_⟩
  obtain ⟨d, hd, hbalanced, hsolved⟩ := Service.serveAll_tallies _ hadmits
  obtain ⟨-, -, hbuild⟩ := bind_eq_ok_iff.mp hk
  obtain rfl := pure_eq_ok_iff.mp hbuild
  rw [zero_merge] at hd
  intro t
  rw [show t = d from hd]
  exact ⟨hbalanced, hsolved⟩

/-- Two regions of coins are checked by a solver that fails once. -/
def coinRequests : List Request :=
  [.specify coinFormula, .check (.fresh (coinBox highBias)), .check (.fresh (coinBox lowBias))]

theorem statistics_exact_coin : ∃ (c : ParametricChain) (k : Checker Smt.Stack),
    coinFile.toChain = .ok c ∧ build c (fullOnly .usual) = .ok k ∧
    let s : Service Smt.Stack (Smt.Bench Bool) := ⟨k, ⟨false, []⟩, none⟩
    let t := (s.serveAll stubborn.factory coinRequests).checker.statistics
    s.Admits stubborn.factory coinRequests ∧ t.checked = 1 ∧ t.byFullSmt = 1 ∧
    t.checked = t.existsBoth + t.allSat + t.allViolated + t.unresolved ∧
    t.byConstantResult + t.bySampling + t.byApproximation + t.bySubsystemSmt + t.byFullSmt =
      s.settled stubborn.factory coinRequests := by
  generalize Options.usual = o
  have hseen : coinFile.toChain.toOption.map (fun c =>
      (build c (fullOnly o) : Except CheckError (Checker Smt.Stack)).toOption.map fun k =>
        let t := (Service.serveAll stubborn.factory ⟨k, ⟨false, []⟩, none⟩
          coinRequests).checker.statistics
        (t.checked, t.byFullSmt)) = some (some (1, 1)) := by
    cbv
  obtain ⟨c, hc, hseen⟩ := exists_ok_of_map_eq hseen
  obtain ⟨k, hk, hseen⟩ := exists_ok_of_map_eq hseen
  have hcoherent : ∀ b, (Region.fresh b).Coherent := fun b => .undecided (Region.undecided_fresh b)
  have hadmits : Service.Admits stubborn.factory ⟨k, ⟨false, []⟩, none⟩ coinRequests := by
    refine ⟨fun r hr => absurd hr List.not_mem_nil, fun _ _ h => Request.noConfusion h, ?_,
      fun _ _ h => Request.noConfusion h, ?_, fun _ _ h => Request.noConfusion h, trivial⟩
    · exact fun r hr => List.mem_singleton.mp hr ▸ hcoherent _
    · exact fun r hr => List.mem_singleton.mp hr ▸ hcoherent _
  exact ⟨c, k, hc, hk, hadmits, congrArg Prod.fst hseen, congrArg Prod.snd hseen,
    (statistics_exact stubborn.factory).2.2 c (fullOnly o) k ⟨false, []⟩ coinRequests hk hadmits⟩

end Checker

end MarkovRegion
