import MarkovRegion.Checker.Basic
import MarkovRegion.Proofs.Attempt
import MarkovRegion.Proofs.Basic
import MarkovRegion.Proofs.Region.Growth

/-!
# What becomes of a region

Nothing is assumed of solvers here: they may fail and they may lie.  Still the verdict of a region
always fits its points, and a region only grows.

A tier starts with an undecided region (`Region.Explored`) and leaves one, unless it settles the
region or fails (`Inspection.Explores`).  So a point is never recorded after a verdict on all
points.  By induction over the tiers this holds for a check (`Inspection.grows_escalate`), and by
induction over the calls for the whole history of a region (`Checker.verdict_fits_history`).
-/

namespace MarkovRegion

open Attempt

namespace Region

variable {r s : Region}

/-- What becomes of a region whose check is over. -/
structure Grown (r s : Region) : Prop where
  grows : r.Grows s
  coherent : s.Coherent

/-- What becomes of a region whose check can go on. -/
structure Explored (r s : Region) : Prop where
  grows : r.Grows s
  undecided : s.Undecided

/-- What becomes of a region by a tier that settles it or does not. -/
def Reached (r : Region) : Bool → Region → Prop
  | true => r.Grown
  | false => r.Explored

theorem Explored.grown (h : r.Explored s) : r.Grown s := ⟨h.grows, .undecided h.undecided⟩

theorem Explored.reached (h : r.Explored s) (settled : Bool) : r.Reached settled s := by
  cases settled with
  | true => exact h.grown
  | false => exact h

end Region

/-! ## Tiers -/

namespace Inspection

variable {σ ω ε α : Type} {options : Options} {p : Prepared} {f : Smt.SolverFactory σ ω}
  {r : Region}

/-- A triple about the region alone. -/
def Treats (P : Region → Prop) (x : Attempt ε (Inspection σ ω) α) (Q : α → Region → Prop)
    (E : Region → Prop) : Prop :=
  Meets (fun i => P i.region) x (fun a i => Q a i.region) fun _ i => E i.region

/-- A tier that does not settle an undecided region leaves it undecided. -/
def Explores (r : Region) (x : Attempt CheckError (Inspection σ ω) Bool) : Prop :=
  Treats r.Explored x r.Reached r.Grown

theorem explores_return_false :
    Explores r (return false : Attempt CheckError (Inspection σ ω) Bool) :=
  fun _ hi => hi

/-- A step that keeps the region undecided may fail. -/
theorem Treats.grown {x : Attempt ε (Inspection σ ω) α} {Q : α → Region → Prop}
    (h : Treats r.Explored x Q r.Explored) : Treats r.Explored x Q r.Grown :=
  h.weaken (fun _ hi => hi) (fun _ _ hi => hi) fun _ _ hi => hi.grown

theorem treats_onRegion {P : Region → Prop} {Q : α → Region → Prop} {E : Region → Prop}
    {x : Region → Region × Except CheckError α}
    (hok : ∀ s a, P s → (x s).2 = .ok a → Q a (x s).1)
    (herror : ∀ s e, P s → (x s).2 = .error e → E (x s).1) :
    Treats P (onRegion x : Attempt CheckError (Inspection σ ω) α) Q E := by
  intro i hi
  have hrun : (onRegion x : Attempt CheckError (Inspection σ ω) α).run i =
      ((x i.region).2, { i with region := (x i.region).1 }) := rfl
  rw [hrun]
  rcases hx : (x i.region).2 with e | a
  · exact herror i.region e hi hx
  · exact hok i.region a hi hx

/-- Points may be recorded before a decision fails. -/
theorem explored_sample {s : Region} (h : r.Explored s) (holds : Valuation → Except CheckError Bool)
    (points : List Valuation) : r.Explored (s.sample holds points).1 := by
  obtain ⟨hundecided, hgrows⟩ := h.undecided.sample holds points
  exact ⟨h.grows.trans hgrows, hundecided⟩

theorem decidePoint_treats (point : Valuation) :
    Treats r.Explored (decidePoint options p point : Attempt CheckError (Inspection σ ω) Bool)
      (fun _ => r.Explored) r.Explored :=
  treats_onRegion (fun _ _ hs _ => explored_sample hs _ _) fun _ _ hs _ => explored_sample hs _ _

theorem explores_bySampling :
    Explores r (bySampling options p : Attempt CheckError (Inspection σ ω) Bool) := by
  have hpoints : ∀ s, r.Explored s →
      r.Explored (p.sampler.samplePoints p.property options.sampleViaFunction s).1 := by
    intro s hs
    unfold Sampler.samplePoints
    split
    · exact hs
    · exact explored_sample hs _ _
  unfold bySampling
  split
  · exact treats_onRegion (fun s both hs _ => (hpoints s hs).reached both)
      fun s _ hs _ => (hpoints s hs).grown
  · exact explores_return_false

/-- An outcome that proves nothing leaves the region as it was. -/
theorem reached_of_check {a : Approximator Float} {bound : Bound} {s s' : Region}
    {o : ApproximationOutcome Float} (hs : r.Explored s) (h : a.check bound s = .ok (o, s')) :
    r.Reached o.proven s' := by
  obtain ⟨process, -, hdecide⟩ := bind_eq_ok_iff.mp h
  have hcases := Approximator.pursue_cases bound (a.solve process) s.verdict.goals
    ⟨none, none, false⟩ s
  rw [← Approximator.decideWith, Except.ok.inj hdecide] at hcases
  rcases hcases with rfl | ⟨hproven, goal, hconclude⟩
  · exact hs.reached o.proven
  · obtain ⟨hgrows, hcoherent⟩ := hs.undecided.conclude hconclude
    rw [hproven]
    exact ⟨hs.grows.trans hgrows, hcoherent⟩

theorem explores_byApproximation :
    Explores r (byApproximation options p : Attempt CheckError (Inspection σ ω) Bool) := by
  unfold byApproximation
  split
  · exact explores_return_false
  · next a _ =>
      refine treats_onRegion (fun s settled hs hok => ?_) fun s e hs herror => ?_
      · rcases hcheck : a.check p.property.bound s with e | ⟨o, s'⟩
        · rw [hcheck] at hok
          cases hok
        · rw [hcheck] at hok
          exact Except.ok.inj hok ▸ reached_of_check hs hcheck
      · rcases hcheck : a.check p.property.bound s with e | ⟨o, s'⟩
        · exact hs.grown
        · rw [hcheck] at herror
          cases herror

/-- A verdict that a known point contradicts is not concluded. -/
theorem concludes_treats (goal : Goal) :
    Treats r.Explored (concludes goal.verdict : Attempt RegionError (Inspection σ ω) Unit)
      (fun _ => r.Grown) r.Explored := by
  refine Meets.bind_get fun i hi => ?_
  refine Meets.bind (Q := fun s _ => i.region.conclude goal.verdict = .ok s)
    (Meets.ofExcept (fun s hs _ _ => hs) fun _ _ j hj => hj ▸ hi) fun s => ?_
  refine Meets.set fun _ hs => ?_
  obtain ⟨hgrows, hcoherent⟩ := hi.undecided.conclude hs
  exact ⟨hi.grows.trans hgrows, hcoherent⟩

theorem explores_byConstantResult :
    Explores r (byConstantResult p : Attempt CheckError (Inspection σ ω) Bool) := by
  unfold byConstantResult
  split
  · exact explores_return_false
  · next value _ =>
      have hconcludes : Treats r.Explored
          (concludes (if p.property.bound.holds value then .allSat else .allViolated) :
            Attempt RegionError (Inspection σ ω) Unit) (fun _ => r.Grown) r.Explored := by
        split
        · exact concludes_treats .allSat
        · exact concludes_treats .allViolated
      refine Meets.bind (hconcludes.mapError fun _ _ hi => hi.grown) fun _ => ?_
      exact Meets.pure fun _ hi => hi

/-! ### Solvers -/

/-- A session that is started does not touch the region. -/
theorem session_treats (P : Region → Prop) (worker : Nat) (kind : Smt.SessionKind) :
    Treats P (session options p f worker kind) (fun _ => P) P := by
  refine Meets.bind_get fun i hi => ?_
  split
  · exact Meets.pure fun j hj => hj ▸ hi
  · refine Meets.bind (Q := fun _ j => P j.region) ?_ fun session => ?_
    · rintro j rfl
      have hrun : (inWorld (startSession options p f worker kind)).run j =
          (((startSession options p f worker kind).run j.world).1,
            { j with world := ((startSession options p f worker kind).run j.world).2 }) := rfl
      rw [hrun]
      rcases (startSession options p f worker kind).run j.world with ⟨e | session, world⟩
      · exact hi
      · exact hi
    · refine Meets.bind (Q := fun _ j => P j.region) (Meets.modify fun j hj => hj) fun _ => ?_
      exact Meets.pure fun j hj => hj

/-- A query does not touch the region, whatever its answer. -/
theorem query_treats (P : Region → Prop) (kind : Smt.SessionKind) (session : Smt.Session σ)
    (goal : Goal) : Treats P (query p f kind session goal) (fun _ => P) P := by
  intro i hi
  unfold query
  simp only [ExceptT.run_mk]
  rcases (Smt.Session.query f i.region.box p.property.bound goal).run (session, i.world) with
    ⟨e | answer, session', world⟩
  · exact hi
  · exact hi

/-- An answer is used only as far as the known points allow. -/
theorem explores_settle (goal : Goal) (answer : Smt.QueryAnswer) :
    Explores r (settle options p goal answer : Attempt CheckError (Inspection σ ω) Bool) := by
  cases answer with
  | proven =>
      refine Meets.bind (concludes_treats goal).outcome fun outcome => ?_
      rcases outcome with e | u
      · exact Meets.pure fun _ hi => hi
      · exact Meets.pure fun _ hi => hi
  | counterexample point =>
      refine Meets.bind (decidePoint_treats point).outcome fun outcome => ?_
      rcases outcome with e | both
      · dsimp only
        split
        · next heq => cases heq
        · exact explores_return_false
        · exact Meets.throw fun _ hi => hi.grown
      · exact Meets.pure fun _ hi => hi.reached both
  | inconclusive reason => exact explores_return_false

variable (options p f r) in
/-- What is proved is chosen by the verdict so far. -/
theorem explores_askByVerdict (kind : Smt.SessionKind) (session : Smt.Session σ) :
    Explores r (do match (← get).region.verdict with
      | .existsSat => settle options p .allSat (← query p f kind session .allSat)
      | .existsViolated => settle options p .allViolated (← query p f kind session .allViolated)
      | _ => return true) := by
  have hask : ∀ goal, Explores r (do settle options p goal (← query p f kind session goal)) :=
    fun goal => Meets.bind (query_treats r.Explored kind session goal).grown fun answer =>
      explores_settle goal answer
  refine Meets.bind_get fun i hi => ?_
  split
  · exact (hask .allSat).startingAt hi
  · exact (hask .allViolated).startingAt hi
  · exact Meets.pure fun j hj => hj ▸ hi.grown

theorem explores_bySolver (worker : Nat) (kind : Smt.SessionKind) :
    Explores r (bySolver options p f worker kind) := by
  refine Meets.bind (session_treats r.Explored worker kind).grown fun session => ?_
  refine Meets.bind_get fun i hi => ?_
  -- Both branches go on with the same query, so it is met first.
  have hquery := explores_askByVerdict options p f r kind session
  dsimp only
  split
  · exact Meets.bind ((decidePoint_treats i.region.box.midpoint).grown.startingAt hi)
      fun _ => hquery
  · exact hquery.startingAt hi

/-! ### All tiers -/

/-- The first tier that settles the region is the last that touches it. -/
theorem grows_firstSettled {attempts : List (Tier × Attempt CheckError (Inspection σ ω) Bool)}
    (h : ∀ attempt ∈ attempts, Explores r attempt.2) :
    Treats r.Explored (firstSettled attempts) (fun _ => r.Grown) r.Grown := by
  induction attempts with
  | nil => exact Meets.pure fun _ hi => hi.grown
  | cons attempt rest ih =>
      refine Meets.bind (h attempt List.mem_cons_self) fun settled => ?_
      cases settled with
      | true => exact Meets.pure fun _ hi => hi
      | false => exact ih fun attempt' ha => h attempt' (List.mem_cons_of_mem _ ha)

variable (options p f) in
/-- A check lets a region grow.  It starts from an undecided region, since a region with a verdict
on all points is not checked again. -/
theorem grows_escalate (worker : Nat) :
    Treats (fun s => s = r ∧ r.Coherent) (escalate options p f worker) (fun _ => r.Grown)
      r.Grown := by
  have hsolver : ∀ (wanted : Bool) kind, Explores r
      (if wanted then bySolver options p f worker kind else return false) := by
    intro wanted kind
    cases wanted with
    | true => exact explores_bySolver worker kind
    | false => exact explores_return_false
  have htiers : ∀ attempt ∈ tiers options p f worker, Explores r attempt.2 := by
    simp only [tiers, List.forall_mem_cons, List.not_mem_nil, false_imp_iff, implies_true, and_true]
    exact ⟨explores_byConstantResult, explores_bySampling, explores_byApproximation,
      hsolver options.subsystemSmt .subsystem, hsolver options.fullSmt .full⟩
  refine Meets.bind_get fun i ⟨hi, hr⟩ => ?_
  split
  · exact Meets.pure fun j hj => hj ▸ hi ▸ ⟨.refl _, hi ▸ hr⟩
  · next hopen =>
      rw [hi, Bool.not_eq_true] at hopen
      have hundecided : r.Undecided :=
        hr.undecided_of (Verdict.isUniversal_eq_false_of_not_terminal _ hopen)
      exact (grows_firstSettled htiers).startingAt (hi ▸ ⟨.refl _, hi ▸ hundecided⟩)

end Inspection

/-! ## Calls -/

namespace Checker

variable {σ ω : Type} (f : Smt.SolverFactory σ ω)

/-- What a checker is asked to do while it has a region. -/
inductive Call where
  /-- Specify a formula. -/
  | specify (formula : StateFormula)
  /-- Check the region. -/
  | check

/-- The region, the checker and the world after a call, which may succeed or fail. -/
def Call.perform : Call → Region × Checker σ × ω → Region × Checker σ × ω
  | .specify formula, (r, s) => (r, ((Checker.specify f formula).run s).2)
  | .check, s => ((checkRegion f).run s).2

/-- The region, the checker and the world after calls. -/
def performAll (calls : List Call) (s : Region × Checker σ × ω) : Region × Checker σ × ω :=
  calls.foldl (fun s call => call.perform f s) s

/-- The region before the calls and after each of them. -/
def history : List Call → Region × Checker σ × ω → List Region
  | [], s => [s.1]
  | call :: calls, s => s.1 :: history calls (call.perform f s)

variable {f} {s : Region × Checker σ × ω}

/-- A call lets the region grow. -/
theorem Call.grown_perform (call : Call) (hs : s.1.Coherent) :
    s.1.Grown (call.perform f s).1 := by
  cases call with
  | specify formula => exact ⟨.refl s.1, hs⟩
  | check =>
      obtain ⟨r, k, world⟩ := s
      unfold perform checkRegion Workplace.checkRegion
      simp only [ExceptT.run_mk]
      split
      · exact ⟨.refl r, hs⟩
      · next p _ =>
          have hgrown := Inspection.grows_escalate k.options p f 0 ⟨r, k.sessions, world⟩ ⟨rfl, hs⟩
          rcases hrun : (Inspection.escalate k.options p f 0).run ⟨r, k.sessions, world⟩ with
            ⟨e | tier, i⟩
          · rw [hrun] at hgrown
            exact hgrown
          · rw [hrun] at hgrown
            exact hgrown

theorem grown_of_mem_history (hs : s.1.Coherent) {calls : List Call} :
    ∀ r ∈ history f calls s, s.1.Grown r := by
  induction calls generalizing s with
  | nil =>
      intro r hr
      rw [List.mem_singleton.mp hr]
      exact ⟨.refl s.1, hs⟩
  | cons call calls ih =>
      have hcall := call.grown_perform (f := f) hs
      intro r hr
      rcases List.mem_cons.mp hr with rfl | hr
      · exact ⟨.refl s.1, hs⟩
      · have hlater := ih hcall.coherent r hr
        exact ⟨hcall.grows.trans hlater.grows, hlater.coherent⟩

theorem pairwise_history (hs : s.1.Coherent) (calls : List Call) :
    (history f calls s).Pairwise Region.Grows := by
  induction calls generalizing s with
  | nil => exact List.pairwise_singleton _ _
  | cons call calls ih =>
      have hcall := call.grown_perform (f := f) hs
      refine List.pairwise_cons.mpr ⟨fun r hr => ?_, ih hcall.coherent⟩
      exact hcall.grows.trans (grown_of_mem_history hcall.coherent r hr).grows

theorem performAll_mem_history (calls : List Call) :
    (performAll f calls s).1 ∈ history f calls s := by
  induction calls generalizing s with
  | nil => exact List.mem_singleton_self _
  | cons call calls ih => exact List.mem_cons_of_mem _ ih

theorem grows_performAll (hs : s.1.Coherent) {calls : List Call} :
    ∀ r ∈ history f calls s, r.Grows (performAll f calls s).1 := by
  induction calls generalizing s with
  | nil =>
      intro r hr
      rw [List.mem_singleton.mp hr]
      exact .refl s.1
  | cons call calls ih =>
      intro r hr
      rcases List.mem_cons.mp hr with rfl | hr
      · exact (grown_of_mem_history hs _ (performAll_mem_history (call :: calls))).grows
      · exact ih (call.grown_perform hs).coherent r hr

/-- A verdict on all points is not taken back. -/
theorem isUniversal_performAll (hs : s.1.Coherent) (calls : List Call) :
    (performAll f calls s).1.verdict.isUniversal = false ↔
      ∀ r ∈ history f calls s, r.verdict.isUniversal = false := by
  constructor
  · intro hlast r hr
    rw [← Bool.not_eq_true] at hlast ⊢
    exact fun huniversal =>
      hlast (Verdict.isUniversal_of_le _ _ (grows_performAll hs r hr).verdict_le huniversal)
  · exact fun h => h _ (performAll_mem_history calls)

/-- The history of a fresh region, whatever formulas are specified, whatever fails, and whatever the
solvers answer.  The region grows from call to call.  As long as nothing was concluded about all
points, the verdict says which points are known; a verdict on all points goes with no point against
it. -/
theorem verdict_fits_history (f : Smt.SolverFactory σ ω) (k : Checker σ) (world : ω) (b : Box)
    (calls : List Call) :
    let regions := history f calls (.fresh b, k, world)
    let r := (performAll f calls (.fresh b, k, world)).1
    regions.Pairwise Region.Grows ∧
      (∀ sat violated, r.verdict = .ofPoints sat violated ↔
        (r.satPoint.isSome = sat ∧ r.violatedPoint.isSome = violated) ∧
          ∀ s ∈ regions, s.verdict.isUniversal = false) ∧
      (r.verdict = .allSat → r.violatedPoint = none) ∧
      (r.verdict = .allViolated → r.satPoint = none) := by
  intro regions r
  have hfresh : (Region.fresh b).Coherent := .undecided (Region.undecided_fresh b)
  have hr : r.Coherent :=
    (grown_of_mem_history hfresh r (performAll_mem_history calls)).coherent
  refine ⟨pairwise_history hfresh calls, fun sat violated => ?_, hr.violatedPoint_eq_none,
    hr.satPoint_eq_none⟩
  rw [hr.verdict_eq_ofPoints_iff, isUniversal_performAll hfresh calls]

end Checker

end MarkovRegion
