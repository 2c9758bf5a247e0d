import MarkovRegion.Proofs.Checker.History
import MarkovRegion.Proofs.Checker.Requests
import MarkovRegion.Proofs.Region.Repetition

/-!
# Checks that are repeated

A region that was checked and is checked again stays exactly as it is (`Checker.recheck_eq`).  For
an unsettled region the second check takes other ways than the first: it knows points that the first
one had yet to find, so that other goals are pursued and another query may be asked.

The proof is tier by tier.  A tier that did not settle a region finds nothing when it is asked again
about any unsettled region that has grown from there (`Prepared.Exhausts`).  So a check that settles
nothing leaves a region about which no tier can tell more (`Prepared.firstSettled_exhausts`).
-/

namespace MarkovRegion

open Attempt

/-! ## Tiers -/

namespace Prepared

variable {reply : Smt.ReplyFunction} {options : Options} {p : Prepared} {r s t : Region}

/-- A tier that asks all it can: a region that it does not settle it leaves unsettled, and of every
unsettled region that grows from there it can tell nothing more. -/
structure Exhausts (learn : Region → Region × Except CheckError Bool) : Prop where
  settles : ∀ {s t : Region}, s.Unsettled → learn s = (t, .ok true) → t.verdict.isTerminal = true
  explores : ∀ {s t : Region}, s.Unsettled → learn s = (t, .ok false) → t.Unsettled ∧ s.Grows t
  repeats : ∀ {s t r : Region}, s.Unsettled → learn s = (t, .ok false) → t.Grows r → r.Unsettled →
    learn r = (r, .ok false)

theorem exhausts_nothing : Exhausts fun r => (r, .ok false) where
  settles _ h := nomatch (Prod.mk.inj h).2
  explores hs h := (Prod.mk.inj h).1 ▸ ⟨hs, .refl _⟩
  repeats _ _ _ _ := rfl

theorem isTerminal_of_conclude {goal : Goal} (h : s.conclude goal.verdict = .ok t) :
    t.verdict.isTerminal = true := by
  unfold Region.conclude at h
  split_ifs at h
  obtain rfl := Except.ok.inj h
  cases goal <;> rfl

theorem exhausts_sample (holds : Valuation → Except CheckError Bool) (points : List Valuation) :
    Exhausts (Region.sample holds points) where
  settles hs h := by
    have htried := (hs.tried_sample holds points).1 true
    rw [h] at htried
    exact htried rfl
  explores hs h := hs.sample h
  repeats hs h hgrows hr := Region.sample_again hs.undecided h hgrows hr

theorem exhausts_failure (e : CheckError) : Exhausts fun r => (r, .error e) where
  settles _ h := nomatch (Prod.mk.inj h).2
  explores _ h := nomatch (Prod.mk.inj h).2
  repeats _ h := nomatch (Prod.mk.inj h).2

/-- The box stays, so a tier may look at it first. -/
theorem exhausts_ofBox {learn : Region → Region × Except CheckError Bool}
    (h : ∀ b, ∃ onBox, Exhausts onBox ∧ ∀ r, r.box = b → learn r = onBox r) : Exhausts learn where
  settles {s t} hs hlearn := by
    obtain ⟨onBox, hexhausts, heq⟩ := h s.box
    exact hexhausts.settles hs ((heq s rfl).symm.trans hlearn)
  explores {s t} hs hlearn := by
    obtain ⟨onBox, hexhausts, heq⟩ := h s.box
    exact hexhausts.explores hs ((heq s rfl).symm.trans hlearn)
  repeats {s t r} hs hlearn hgrows hr := by
    obtain ⟨onBox, hexhausts, heq⟩ := h s.box
    rw [heq s rfl] at hlearn
    have hbox : r.box = s.box := hgrows.box_eq.trans (hexhausts.explores hs hlearn).2.box_eq
    rw [heq r hbox]
    exact hexhausts.repeats hs hlearn hgrows hr

/-- A verdict is concluded, or a known point contradicts it for good. -/
theorem exhausts_conclude (goal : Goal) {refused : RegionError → Except CheckError Bool}
    (hrefused : ∀ e, refused e ≠ .ok true) :
    Exhausts fun r => match r.conclude goal.verdict with
      | .ok s => (s, .ok true)
      | .error e => (r, refused e) where
  settles {s t} _ h := by
    rcases hconclude : s.conclude goal.verdict with e | s'
    · rw [hconclude] at h
      exact absurd (Prod.mk.inj h).2 (hrefused e)
    · rw [hconclude] at h
      obtain rfl := (Prod.mk.inj h).1
      exact isTerminal_of_conclude hconclude
  explores {s t} hs h := by
    rcases hconclude : s.conclude goal.verdict with e | s'
    · rw [hconclude] at h
      obtain rfl := (Prod.mk.inj h).1
      exact ⟨hs, .refl s⟩
    · rw [hconclude] at h
      cases (Prod.mk.inj h).2
  repeats {s t r} _ h hgrows _ := by
    unfold Region.conclude at h ⊢
    by_cases hcontradicts : s.contradicts goal.verdict = true
    · rw [if_pos hcontradicts] at h
      obtain ⟨rfl, hfalse⟩ := Prod.mk.inj h
      rw [if_pos (hgrows.contradicts hcontradicts)]
      exact congrArg _ hfalse
    · rw [if_neg hcontradicts] at h
      cases (Prod.mk.inj h).2

theorem exhausts_byConstantResult : Exhausts p.byConstantResult := by
  unfold byConstantResult
  rcases p.property.model.constant? with _ | value
  · exact exhausts_nothing
  · dsimp only
    split
    · exact exhausts_conclude .allSat nofun
    · exact exhausts_conclude .allViolated nofun

theorem exhausts_bySampling : Exhausts (p.bySampling options) := by
  unfold bySampling Sampler.samplePoints
  split
  · refine exhausts_ofBox fun b => ?_
    rcases hpoints : b.samplePoints with e | points
    · refine ⟨_, exhausts_failure (.region e), ?_⟩
      rintro r rfl
      simp only [hpoints]
    · refine ⟨_, exhausts_sample (p.holdsAt options) points, ?_⟩
      rintro r rfl
      simp only [hpoints, holdsAt]
  · exact exhausts_nothing

theorem exhausts_decideWith (bound : Bound) (value : Direction → Float) :
    Exhausts fun r => ((Approximator.decideWith bound value r).2,
      .ok (Approximator.decideWith bound value r).1.proven) := by
  -- A region about which nothing is proven stays as it is.
  have hstays : ∀ r, (Approximator.decideWith bound value r).1.proven = false →
      (Approximator.decideWith bound value r).2 = r := by
    intro r hproven
    refine (Approximator.pursue_cases bound value r.verdict.goals ⟨none, none, false⟩ r).resolve_right
      fun h => ?_
    exact absurd h.1 (Bool.eq_false_iff.mp hproven)
  refine ⟨fun _ h => ?_, fun {s _} hs h => ?_, fun {s _ r} hs h hgrows hr => ?_⟩
  · obtain ⟨rfl, hproven⟩ := Prod.mk.inj h
    obtain ⟨goal, hconclude⟩ := Approximator.conclude_of_proven rfl (Except.ok.inj hproven)
    exact isTerminal_of_conclude hconclude
  · obtain ⟨rfl, hproven⟩ := Prod.mk.inj h
    rw [hstays s (Except.ok.inj hproven)]
    exact ⟨hs, .refl s⟩
  · obtain ⟨rfl, hproven⟩ := Prod.mk.inj h
    rw [hstays s (Except.ok.inj hproven)] at hgrows
    have hagain := Approximator.decideWith_again hs (Except.ok.inj hproven) hgrows hr
    rw [hagain, hstays r hagain]

theorem exhausts_byApproximation : Exhausts (p.byApproximation options) := by
  unfold byApproximation
  rcases if options.approximation then p.approximator else none with _ | a
  · exact exhausts_nothing
  · refine exhausts_ofBox fun b => ?_
    rcases hprocess : a.process b with e | process
    · refine ⟨_, exhausts_failure e, ?_⟩
      rintro r rfl
      simp only [Approximator.check, hprocess]
      rfl
    · refine ⟨_, exhausts_decideWith p.property.bound (a.solve process), ?_⟩
      rintro r rfl
      simp only [Approximator.check, hprocess]
      rfl

theorem exhausts_byAnswer (goal : Goal) (answer : Smt.QueryAnswer) :
    Exhausts fun r => p.byAnswer options goal r answer := by
  cases answer with
  | proven => exact exhausts_conclude goal nofun
  | counterexample point =>
      rcases hholds : p.holdsAt options point with e | found
      · simp only [byAnswer, atPoint, Region.sample, hholds]
        cases e with
        | illDefinedPoint => exact exhausts_nothing
        | _ => exact exhausts_failure _
      · have hsample : (fun r => p.byAnswer options goal r (.counterexample point)) =
            Region.sample (p.holdsAt options) [point] := by
          funext r
          simp only [byAnswer, atPoint, Region.sample, hholds]
          cases (r.record found point).hasBoth <;> rfl
        rw [hsample]
        exact exhausts_sample _ [point]
  | inconclusive reason => exact exhausts_nothing

theorem exhausts_byQuery (kind : Smt.SessionKind) (goal : Goal) :
    Exhausts (p.byQuery reply options kind goal) := by
  refine exhausts_ofBox fun b => ?_
  rcases hanswer : (p.encoding options kind).answer reply b p.property.bound goal with e | answer
  · refine ⟨_, exhausts_failure e, ?_⟩
    rintro r rfl
    rw [byQuery, hanswer]
  · refine ⟨fun r => p.byAnswer options goal r answer, exhausts_byAnswer goal answer, ?_⟩
    rintro r rfl
    rw [byQuery, hanswer]

theorem byOpenGoal_eq {goal : Goal} (h : s.verdict.goals = [goal]) (kind : Smt.SessionKind) :
    p.byOpenGoal reply options kind s = p.byQuery reply options kind goal s := by
  unfold byOpenGoal
  cases hverdict : s.verdict <;> rw [hverdict] at h <;> simp_all [Verdict.goals]

/-- A solver is asked about the goal that is left once a point is known. -/
theorem bySolver_eq_ok (hs : s.Unsettled) {kind : Smt.SessionKind} {settled : Bool}
    (h : p.bySolver reply options kind s = (t, .ok settled)) :
    ∃ s' goal, (s'.Unsettled ∧ s.Grows s') ∧ s'.verdict.goals = [goal] ∧
      p.byQuery reply options kind goal s' = (t, .ok settled) := by
  unfold bySolver at h
  split at h
  · next hunknown =>
      rcases hholds : p.holdsAt options s.box.midpoint with e | found
      · simp only [atPoint, Region.sample, hholds] at h
        cases (Prod.mk.inj h).2
      · obtain ⟨hunsettled, goal, hgoal⟩ :=
          hs.undecided.record_of_unknown hunknown found s.box.midpoint
        refine ⟨_, goal, ⟨hunsettled, (hs.undecided.record found _).2⟩, hgoal, ?_⟩
        simp only [atPoint, Region.sample, hholds, hunsettled.hasBoth_eq_false] at h
        exact (byOpenGoal_eq hgoal kind).symm.trans h
  · next hknown =>
      obtain ⟨goal, hgoal⟩ := hs.exists_goal hknown
      exact ⟨s, goal, ⟨hs, .refl s⟩, hgoal, (byOpenGoal_eq hgoal kind).symm.trans h⟩

theorem exhausts_bySolver (kind : Smt.SessionKind) : Exhausts (p.bySolver reply options kind) where
  settles hs h := by
    obtain ⟨s', goal, ⟨hs', -⟩, -, hquery⟩ := bySolver_eq_ok hs h
    exact (exhausts_byQuery kind goal).settles hs' hquery
  explores hs h := by
    obtain ⟨s', goal, ⟨hs', hgrows⟩, -, hquery⟩ := bySolver_eq_ok hs h
    obtain ⟨ht, hgrows'⟩ := (exhausts_byQuery kind goal).explores hs' hquery
    exact ⟨ht, hgrows.trans hgrows'⟩
  repeats {s t r} hs h hgrows hr := by
    obtain ⟨s', goal, ⟨hs', -⟩, hgoal, hquery⟩ := bySolver_eq_ok hs h
    have hgrows' := ((exhausts_byQuery kind goal).explores hs' hquery).2.trans hgrows
    -- A point is known now, so the same goal is left.
    have hknown : s'.verdict ≠ .unknown := by
      intro hunknown
      rw [hunknown] at hgoal
      cases hgoal
    have hverdict := hs'.verdict_eq hr hgrows' hknown
    rw [bySolver, if_neg (hverdict ▸ hknown), byOpenGoal_eq (hverdict ▸ hgoal)]
    exact (exhausts_byQuery kind goal).repeats hs' hquery hgrows hr

theorem exhausts_tiers : ∀ tier ∈ p.tiers reply options, Exhausts tier.2 := by
  have hsolver : ∀ (wanted : Bool) kind, Exhausts
      (if wanted then p.bySolver reply options kind else fun r => (r, .ok false)) := by
    intro wanted kind
    cases wanted with
    | true => exact exhausts_bySolver kind
    | false => exact exhausts_nothing
  simp only [tiers, List.forall_mem_cons, List.not_mem_nil, false_imp_iff, implies_true, and_true]
  exact ⟨exhausts_byConstantResult, exhausts_bySampling, exhausts_byApproximation,
    hsolver options.subsystemSmt .subsystem, hsolver options.fullSmt .full⟩

/-! ## Checks -/

variable {functions : List (Tier × (Region → Region × Except CheckError Bool))}

theorem firstSettled_eq_none (h : ∀ tier ∈ functions, tier.2 r = (r, .ok false)) :
    firstSettled functions r = (r, .ok none) := by
  induction functions with
  | nil => rfl
  | cons tier rest ih =>
      rw [List.forall_mem_cons] at h
      rw [firstSettled, h.1]
      exact ih h.2

/-- A check that succeeds settles a region or leaves one about which the tiers can tell nothing
more. -/
theorem firstSettled_exhausts (h : ∀ tier ∈ functions, Exhausts tier.2) (hs : s.Unsettled)
    {settled : Option Tier} (hrun : firstSettled functions s = (r, .ok settled)) :
    r.verdict.isTerminal = true ∨
      (r.Unsettled ∧ s.Grows r) ∧ ∀ tier ∈ functions, tier.2 r = (r, .ok false) := by
  induction functions generalizing s with
  | nil =>
      obtain rfl := (Prod.mk.inj hrun).1
      exact .inr ⟨⟨hs, .refl s⟩, nofun⟩
  | cons tier rest ih =>
      rw [List.forall_mem_cons] at h
      rw [firstSettled] at hrun
      rcases hlearn : tier.2 s with ⟨t, e | settled'⟩
      · rw [hlearn] at hrun
        cases (Prod.mk.inj hrun).2
      · rw [hlearn] at hrun
        cases settled' with
        | true =>
            obtain rfl := (Prod.mk.inj hrun).1
            exact .inl (h.1.settles hs hlearn)
        | false =>
            obtain ⟨ht, hgrows⟩ := h.1.explores hs hlearn
            rcases ih h.2 ht hrun with hterminal | ⟨⟨hr, hgrows'⟩, hrest⟩
            · exact .inl hterminal
            · refine .inr ⟨⟨hr, hgrows.trans hgrows'⟩, List.forall_mem_cons.mpr ⟨?_, hrest⟩⟩
              exact h.1.repeats hs hlearn hgrows' hr

/-- A check of a region that was checked changes nothing. -/
theorem outcome_again (hs : s.Coherent) {settled : Option Tier}
    (h : p.outcome reply options s = (r, .ok settled)) :
    p.outcome reply options r = (r, .ok none) := by
  unfold outcome at h ⊢
  split at h
  · next hterminal =>
      obtain rfl := (Prod.mk.inj h).1
      rw [if_pos hterminal]
  · next hopen =>
      rw [Bool.not_eq_true] at hopen
      have hunsettled := hs.unsettled hopen
      rcases firstSettled_exhausts exhausts_tiers hunsettled h with hterminal | ⟨⟨hr, -⟩, hnothing⟩
      · rw [if_pos hterminal]
      · rw [if_neg (Bool.eq_false_iff.mp hr.not_terminal)]
        exact firstSettled_eq_none hnothing

end Prepared

/-! ## Regions that can come up -/

section Reachable

variable {σ ω : Type} {f : Smt.SolverFactory σ ω}

namespace Workplace

theorem checkRegion_coherent (options : Options) (p : Prepared) (worker : Nat) :
    Meets (fun s => s.1.Coherent) (checkRegion options p f worker) (fun _ s => s.1.Coherent)
      fun _ s => s.1.Coherent := by
  rintro ⟨r, w⟩ hr
  have hgrown := Inspection.grows_escalate options p f worker ⟨r, w.sessions, w.world⟩ ⟨rfl, hr⟩
  unfold checkRegion
  simp only [ExceptT.run_mk]
  rcases hrun : (Inspection.escalate options p f worker).run ⟨r, w.sessions, w.world⟩ with
    ⟨e | tier, i⟩
  · rw [hrun] at hgrown
    exact hgrown.coherent
  · rw [hrun] at hgrown
    exact hgrown.coherent

theorem workAll_coherent (options : Options) (p : Prepared) (worker : Nat)
    {parts : List (List Region)} (hparts : ∀ r ∈ parts.flatten, r.Coherent) (world : ω) :
    ∀ r ∈ (workAll options p f worker parts world).2.1, r.Coherent := by
  induction parts generalizing worker world with
  | nil => exact nofun
  | cons part parts ih =>
      rw [List.flatten_cons, List.forall_mem_append] at hparts
      have hturn := inTurn_keeps (R := fun _ => True)
        ((checkRegion_coherent (f := f) options p worker).weaken (fun _ hs => hs.1)
          (fun _ _ hs => ⟨hs, trivial⟩) fun _ _ hs => ⟨hs, trivial⟩)
      have hwork := meets_iff_run.mp hturn (part, fresh world) ⟨hparts.1, trivial⟩
      rw [workAll]
      exact List.forall_mem_append.mpr ⟨hwork.1, ih (worker + 1) hparts.2 _⟩

end Workplace

namespace Checker

/-- The check of a region lets it grow. -/
theorem grown_checkRegion {r : Region} (hr : r.Coherent) (k : Checker σ) (world : ω) :
    r.Grown ((checkRegion f).run (r, k, world)).2.1 :=
  Call.grown_perform (s := (r, k, world)) .check hr

theorem checkRegions_coherent :
    Meets (fun s => ∀ r ∈ s.1, r.Coherent) (checkRegions f) (fun _ s => ∀ r ∈ s.1, r.Coherent)
      fun _ s => ∀ r ∈ s.1, r.Coherent := by
  refine (inTurn_keeps (P := Region.Coherent) (R := fun _ => True) ?_).weaken
    (fun _ hs => ⟨hs, trivial⟩) (fun _ _ hs => hs.1) fun _ _ hs => hs.1
  exact meets_iff_run.mpr fun s hs => ⟨(grown_checkRegion hs.1 s.2.1 s.2.2).coherent, trivial⟩

theorem checkParallel_coherent (workers : Nat) :
    Meets (fun s => ∀ r ∈ s.1, r.Coherent) (checkParallel f workers)
      (fun _ s => ∀ r ∈ s.1, r.Coherent) fun _ s => ∀ r ∈ s.1, r.Coherent := by
  refine checkParallel_keeps checkRegions_coherent fun p => meets_iff_run.mpr ?_
  rintro ⟨regions, k, world⟩ hregions
  refine Workplace.workAll_coherent k.options p 0 ?_ world
  rw [flatten_partsOf]
  exact hregions

end Checker

/-- The regions that can come up: fresh ones, and what any checks leave of those that can, also if
they fail. -/
inductive Region.Reachable : Region → Prop
  | fresh (b : Box) : Reachable (.fresh b)
  | check {σ ω : Type} (f : Smt.SolverFactory σ ω) (k : Checker σ) (world : ω) {r : Region}
      (h : Reachable r) : Reachable ((Checker.checkRegion f).run (r, k, world)).2.1
  | checkAll {σ ω : Type} (f : Smt.SolverFactory σ ω) (k : Checker σ) (world : ω)
      {regions : List Region} (h : ∀ r ∈ regions, Reachable r) {r : Region}
      (hr : r ∈ ((Checker.checkRegions f).run (regions, k, world)).2.1) : Reachable r
  | checkParallel {σ ω : Type} (f : Smt.SolverFactory σ ω) (k : Checker σ) (world : ω)
      (workers : Nat) {regions : List Region} (h : ∀ r ∈ regions, Reachable r) {r : Region}
      (hr : r ∈ ((Checker.checkParallel f workers).run (regions, k, world)).2.1) : Reachable r

theorem Region.Reachable.coherent {r : Region} (h : r.Reachable) : r.Coherent := by
  induction h with
  | fresh b => exact .undecided (Region.undecided_fresh b)
  | check f k world _ ih => exact (Checker.grown_checkRegion ih k world).coherent
  | checkAll f k world _ hr ih =>
      exact meets_iff_run.mp Checker.checkRegions_coherent (_, k, world) ih _ hr
  | checkParallel f k world workers _ hr ih =>
      exact meets_iff_run.mp (Checker.checkParallel_coherent workers) (_, k, world) ih _ hr

end Reachable

namespace Checker

variable {σ ω : Type} {f : Smt.SolverFactory σ ω} {Tracks : σ → List (List Smt.Term) → Prop}
  {reply : Smt.ReplyFunction} {options : Options} {c : ParametricChain}

/-- Checks can be repeated.  Suppose that solvers do not fail and that their replies are a function
of the active assertions and the variables asked for.  If a checker with any history checks a region
that can come up, and that succeeds, then it can check the region once more, and the region stays
exactly as it is. -/
theorem recheck_eq (hf : f.Functional Tracks reply) {k : Checker σ}
    (hk : build c options = .ok k) {world : ω} {requests : List Request} {s : Service σ ω}
    (hs : Service.serveAll f ⟨k, world, none⟩ requests = s) {r r' : Region} (hr : r.Reachable)
    {k' : Checker σ} {world' : ω}
    (hcheck : (checkRegion f).run (r, s.checker, s.world) = (.ok (), r', k', world')) :
    ∃ k'' world'', (checkRegion f).run (r', k', world') = (.ok (), r', k'', world'') := by
  obtain ⟨prepared, hsteady, -⟩ : s.Consistent Tracks c options :=
    hs ▸ Service.consistent_serveAll hf (Service.consistent_build hk world) requests
  have hbox : r'.box = r.box := by
    have hgrown := grown_checkRegion (f := f) hr.coherent s.checker s.world
    rw [hcheck] at hgrown
    exact hgrown.grows.box_eq
  rcases haccepts : (do
      let p ← s.checker.specified
      s.checker.checkParameters p r
      return p) with e | p
  · rw [run_checkRegion_of_refused haccepts] at hcheck
    cases (Prod.mk.inj hcheck).1
  · obtain ⟨hready, -, hparameters⟩ := hsteady.of_accepts haccepts
    obtain ⟨k₁, world₁, hrun, hready', -⟩ := hready.checkRegion_eq hf hparameters s.world
    rw [hrun] at hcheck
    obtain ⟨hok, hcheck⟩ := Prod.mk.inj hcheck
    obtain ⟨hregion, hcheck⟩ := Prod.mk.inj hcheck
    obtain ⟨rfl, rfl⟩ := Prod.mk.inj hcheck
    rcases houtcome : p.outcome reply options r with ⟨t, e | tier⟩
    · rw [houtcome] at hok
      cases hok
    · rw [houtcome] at hregion
      obtain rfl : t = r' := hregion
      have hparameters' : k₁.checkParameters p t = .ok () := by
        rw [checkParameters_eq_ok_iff, hready.chain_eq] at hparameters
        rw [checkParameters_eq_ok_iff, hready'.chain_eq, hbox]
        exact hparameters
      obtain ⟨k₂, world₂, hrun', -⟩ := hready'.checkRegion_eq hf hparameters' world₁
      rw [Prepared.outcome_again hr.coherent houtcome] at hrun'
      exact ⟨k₂, world₂, hrun'⟩

open Property in
/-- The chain with the cycle, checked twice. -/
theorem recheck_eq_resend : ∃ (c : ParametricChain) (k k' k'' : Checker (List (List Smt.Term)))
    (s : Service (List (List Smt.Term)) Unit) (r : Region),
    resendFile.toChain = .ok c ∧ build c exactOptions = .ok k ∧
    Service.serveAll Smt.completeSolver ⟨k, (), none⟩ [.specify resendFormula] = s ∧
    (Region.fresh (resendBox resendSide)).Reachable ∧
    (checkRegion Smt.completeSolver).run (.fresh (resendBox resendSide), s.checker, s.world) =
      (.ok (), r, k', ()) ∧
    (checkRegion Smt.completeSolver).run (r, k', ()) = (.ok (), r, k'', ()) := by
  obtain ⟨c, p, hc, hk, hp, hcheck⟩ := exists_resend_check
  let k : Checker (List (List Smt.Term)) := ⟨c, exactOptions, none, .empty, .zero⟩
  let s := Service.serveAll Smt.completeSolver ⟨k, (), none⟩ [.specify resendFormula]
  have hnew : Service.Consistent (fun s frames => s = frames) c exactOptions ⟨k, (), none⟩ :=
    Service.consistent_build hk ()
  obtain ⟨p', hp', hready⟩ : ∃ p', Prepared.build exactOptions c resendFormula = .ok p' ∧
      s.checker.Ready (fun s frames => s = frames) c exactOptions p' :=
    (Service.consistent_serveAll Smt.completeSolver_functional hnew _).ready
      (hnew.formula_specify hp)
  obtain rfl : p = p' := Except.ok.inj (hp.symm.trans hp')
  obtain ⟨r, k', hrun⟩ := hcheck s.checker hready
  obtain ⟨k'', _, hagain⟩ :=
    recheck_eq Smt.completeSolver_functional hk (s := s) rfl (.fresh _) hrun
  exact ⟨c, k, k', k'', s, r, hc, hk, rfl, .fresh _, hrun, hagain⟩

end Checker

end MarkovRegion
