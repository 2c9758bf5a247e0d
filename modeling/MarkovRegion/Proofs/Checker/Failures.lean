import MarkovRegion.Proofs.Analysis.Failures
import MarkovRegion.Proofs.Checker.Leftovers

/-!
# How a check can fail

A checker accepts a region if it bounds every parameter of the property and none that the chain does
not have.  This rules out all failures that come from missing or unknown names: whatever the chain,
the formula, the options and the answers of solvers are, and whatever the checker was asked before,
the check of an accepted fresh region fails only if its corners are too many, if the model has no
meaning at one of its points, or if a solver fails (`Checker.checkRegion_inherent`).

Three sets of parameters meet here: those of the region, those of the simplified model, and those of
everything that is computed from it.  `Prepared.Fits` says that each is in the one before.  A
session is asked about the encoding it was told, which names the parameters of the model; for that a
session must belong to the formula that was specified last (`Checker.Loyal`).
-/

namespace MarkovRegion

open Attempt

/-! ## Solvers -/

namespace Smt

variable {σ ω : Type} {f : SolverFactory σ ω} {e : Encoding} {b : Box}

/-- The error of a solver. -/
def IsSolverError (failure : CheckError) : Prop := ∃ reason, failure = .solver reason

theorem liftSolver_fails {S α : Type} (x : Attempt String S α) :
    Meets (fun _ => True) (liftSolver x) (fun _ _ => True)
      fun failure _ => IsSolverError failure := by
  have hx : Meets (fun _ => True) x (fun _ _ => True) fun _ _ => True :=
    meets_iff_run.mpr fun _ _ => trivial
  exact hx.mapError fun reason _ _ => ⟨reason, rfl⟩

theorem start_fails (solver : σ) (e : Encoding) :
    Meets (fun _ => True) (Session.start f solver e) (fun session _ => session.encoding = e)
      fun failure _ => IsSolverError failure := by
  have htell := tellEncoding_meets (I := fun _ (_ : σ × ω) => True)
    (fun name sort => liftSolver_fails (f.solver.declare name sort))
    (fun t _ => liftSolver_fails (f.solver.assert t)) e
  exact start_meets (htell.weaken (fun _ _ => trivial) (fun _ _ _ => rfl) fun _ _ hs => hs)

/-- A counterexample gives values to all parameters of the box. -/
def QueryAnswer.Covers (b : Box) : QueryAnswer → Prop
  | .counterexample point => ∀ p ∈ b.parameters, p ∈ point.domain
  | _ => True

theorem mem_domain_of_witness? {m : Model} {point : Valuation} (h : witness? e b m = some point) :
    ∀ p ∈ b.parameters, p ∈ point.domain := by
  obtain ⟨values, hvalues, hpoint⟩ := Option.bind_eq_some_iff.mp h
  obtain rfl := Option.some.inj hpoint
  have hkeys : List.Forall₂ (fun s value => s.1 = value.1) b.sides.entries values := by
    refine (mapM_eq_some_iff.mp hvalues).imp fun s value hvalue => ?_
    obtain ⟨x, -, hpair⟩ := Option.bind_eq_some_iff.mp hvalue
    exact congrArg Prod.fst (Option.some.inj hpair)
  have hsame : values.map Prod.fst = b.parameters := by
    rw [Box.parameters, OrderedMap.keys, eq_comm, ← List.forall₂_eq_eq_eq,
      List.forall₂_map_left_iff, List.forall₂_map_right_iff]
    exact hkeys
  intro p hp
  obtain ⟨⟨q, x⟩, hx, rfl⟩ := List.mem_map.mp (hsame ▸ hp)
  exact Option.isSome_iff_exists.mpr
    ⟨x, (OrderedMap.find?_ofList (hsame ▸ b.sides.nodup_keys)).mpr hx⟩

theorem covers_interpret (e : Encoding) (b : Box) (answer : SatResult × Option Model) :
    (interpret e b answer).Covers b := by
  unfold interpret
  split
  · trivial
  · trivial
  · split
    · next hpoint => exact mem_domain_of_witness? hpoint
    · trivial
  · trivial

/-- If the sides of the box are known, only the solver can fail in a query. -/
theorem query_fails {terms : List Term} (hterms : e.boxTerms b = .ok terms) (bound : Bound)
    (goal : Goal) :
    Meets (fun _ => True) (query f.solver e b bound goal) (fun answer _ => answer.Covers b)
      fun failure _ => IsSolverError failure := by
  have hframe : Meets (fun _ => True) (queryInFrame f.solver e b bound goal)
      (fun answer _ => answer.Covers b) fun failure _ => IsSolverError failure := by
    refine queryInFrame_meets (I := fun _ _ => True) (fun _ _ => trivial)
      (fun t _ => liftSolver_fails (f.solver.assert t)) (fun failure hfails => ?_) fun _ _ => ?_
    · rw [liftRegion, hterms] at hfails
      cases hfails
    · exact (liftSolver_fails _).weaken (fun _ _ => trivial)
        (fun answer _ _ => covers_interpret e b answer) fun _ _ hs => hs
  have hpop : ∀ φ : Prop, Meets (fun _ => φ) (liftSolver f.solver.pop) (fun _ _ => φ)
      fun failure _ => IsSolverError failure := by
    intro φ
    have hfact : Meets (fun _ => True ∧ φ) (liftSolver f.solver.pop) (fun _ _ => φ)
        fun failure _ => IsSolverError failure := Meets.of_fact fun hφ =>
      (liftSolver_fails _).weaken (fun _ hs => hs) (fun _ _ _ => hφ) fun _ _ hs => hs
    exact hfact.weaken (fun _ hφ => ⟨trivial, hφ⟩) (fun _ _ hs => hs) fun _ _ hs => hs
  exact query_meets (liftSolver_fails _) hframe (fun _ => hpop _) fun _ => hpop _

/-- A session that has been told an encoding is asked about it. -/
theorem sessionQuery_fails {terms : List Term} (hterms : e.boxTerms b = .ok terms) (bound : Bound)
    (goal : Goal) :
    Meets (fun s => s.1.encoding = e) (Session.query f b bound goal)
      (fun answer s => s.1.encoding = e ∧ answer.Covers b)
      fun failure s => s.1.encoding = e ∧ IsSolverError failure :=
  (sessionQuery_meets (query_fails hterms bound goal)).weaken (fun _ hs => ⟨hs, trivial⟩)
    (fun _ _ hs => hs) fun _ _ hs => hs

end Smt

/-! ## Prepared properties -/

theorem Region.exists_mem_of_sample_eq_error {holds : Valuation → Except CheckError Bool}
    {points : List Valuation} {r : Region} {e : CheckError}
    (h : (r.sample holds points).2 = .error e) : ∃ v ∈ points, holds v = .error e := by
  induction points generalizing r with
  | nil => cases h
  | cons v rest ih =>
      rw [sample] at h
      split at h
      · next e' hv => exact ⟨v, List.mem_cons_self, hv.trans h⟩
      · next found _ =>
          dsimp only at h
          split at h
          · cases h
          · obtain ⟨w, hw, hfails⟩ := ih h
            exact ⟨w, List.mem_cons_of_mem v hw, hfails⟩

namespace Prepared

variable {options : Options} {p : Prepared} {b : Box} {v : Valuation} {r : Region} {e : CheckError}

/-- The box bounds all parameters of the model, and nothing that was prepared has others. -/
structure Fits (p : Prepared) (b : Box) : Prop where
  bounded : ∀ q ∈ p.parameters, q ∈ b.parameters
  function : ∀ f, p.property.reachFunction.get.function? = some f →
    ∀ q ∈ f.parameters, q ∈ p.parameters
  sampler : p.sampler.arena.Within p.parameters
  approximator : ∀ a, p.approximator = some a → a.arena.Within p.parameters

theorem fits_of_build {c : ParametricChain} (hc : ∀ s, ∀ d ∈ c.row s, d.2.denominator ≠ .zero)
    {φ : StateFormula} (hp : build options c φ = .ok p)
    (hb : ∀ q ∈ p.parameters, q ∈ b.parameters) : p.Fits b := by
  obtain ⟨property, linear, hproperty, -, rfl⟩ := build_eq_ok_iff.mp hp
  obtain ⟨⟨targets, hmodel⟩, hfunction⟩ := Property.exists_ofChain_of_build hproperty
  have hregular : property.model.Regular := SimplifiedModel.regular_of_ofChain hc hmodel
  refine ⟨hb, fun f hf q hq => ?_, hregular.arena_within, fun a ha => ?_⟩
  · have hcomputed : property.model.closedForm options.eliminationSizeBound = .computed f := by
      rw [← hfunction]
      exact ReachFunction.eq_computed hf
    exact hregular.mem_parameters_of_closedForm hcomputed hq
  · have hsome : (if linear then
        some (Approximator.ofModel property.model options.settings) else none) = some a := ha
    split at hsome
    · exact Option.some.inj hsome ▸ hregular.arena_within
    · cases hsome

/-- No point is known of a fresh region, so a constant probability contradicts none. -/
theorem byConstantResult_fresh_ne_error (p : Prepared) :
    (p.byConstantResult (.fresh b)).2 ≠ .error e := by
  intro hfails
  rw [byConstantResult] at hfails
  split at hfails
  · cases hfails
  · split at hfails
    · cases hfails
    · next hconclude =>
        split at hconclude <;> cases hconclude

namespace Fits

variable (h : p.Fits b)
include h

theorem illDefinedAt_of_holdsAt (hv : ∀ q ∈ b.parameters, q ∈ v.domain)
    (hfails : p.holdsAt options v = .error e) : Arena.IllDefinedAt v e :=
  Sampler.illDefinedAt_of_holdsAt h.sampler h.function (fun q hq => hv q (h.bounded q hq)) hfails

theorem illDefinedAt_of_atPoint (hv : ∀ q ∈ b.parameters, q ∈ v.domain)
    (hfails : (p.atPoint options v r).2 = .error e) : Arena.IllDefinedAt v e := by
  obtain ⟨w, hw, hholds⟩ := Region.exists_mem_of_sample_eq_error hfails
  rw [List.mem_singleton.mp hw] at hholds
  exact h.illDefinedAt_of_holdsAt hv hholds

theorem unavoidable_of_bySampling (hr : r.box = b)
    (hfails : (p.bySampling options r).2 = .error e) : e.Unavoidable b := by
  subst hr
  rw [bySampling] at hfails
  split at hfails
  · rw [Sampler.samplePoints] at hfails
    split at hfails
    · next cause hcause =>
        rw [← Except.error.inj hfails]
        rcases r.box.samplePoints_cases with ⟨points, hpoints, -⟩ | ⟨_, hcrowded, hpoints⟩
        · cases hcause.symm.trans hpoints
        · obtain rfl := Except.error.inj (hcause.symm.trans hpoints)
          exact .of_crowded hcrowded le_rfl
    · next points hpoints =>
        obtain ⟨v, hv, hholds⟩ := Region.exists_mem_of_sample_eq_error hfails
        obtain ⟨hbounds, hdomain⟩ := Box.bounds_of_mem_samplePoints hpoints hv
        exact .of_illDefinedAt hbounds (h.illDefinedAt_of_holdsAt hdomain hholds)
  · cases hfails

theorem unavoidable_of_byApproximation (hr : r.box = b)
    (hfails : (p.byApproximation options r).2 = .error e) : e.Unavoidable b := by
  subst hr
  rw [byApproximation] at hfails
  split at hfails
  · cases hfails
  · next a ha =>
      have hused : p.approximator = some a := by
        split at ha
        · exact ha
        · cases ha
      split at hfails
      · cases hfails
      · next e' hcheck =>
          obtain rfl := Except.error.inj hfails
          rcases bind_eq_error_iff.mp hcheck with hprocess | ⟨process, -, hpure⟩
          · exact Approximator.unavoidable_of_process (h.approximator a hused) h.bounded hprocess
          · cases hpure

/-- An answer of a solver leads to no failure: where the model has no meaning, the answer is not
used. -/
theorem byAnswer_ne_error {goal : Goal} {answer : Smt.QueryAnswer} (ha : answer.Covers b) :
    (p.byAnswer options goal r answer).2 ≠ .error e := by
  intro hfails
  cases answer with
  | proven =>
      rw [byAnswer] at hfails
      split at hfails <;> cases hfails
  | counterexample point =>
      rw [byAnswer] at hfails
      split at hfails
      · cases hfails
      · next hother =>
          -- An ill-defined point is passed over, and deciding a point fails in no other way.
          obtain ⟨reason, rfl⟩ := h.illDefinedAt_of_atPoint ha hfails
          exact hother _ _ _ (Prod.ext rfl hfails)
  | inconclusive reason => cases hfails

end Fits

end Prepared

/-! ## Checks -/

namespace Inspection

variable {σ ω : Type} {options : Options} {p : Prepared} {f : Smt.SolverFactory σ ω} {b : Box}

/-- A session that has been told the encoding of a property. -/
def Told (options : Options) (p : Prepared) (kind : Smt.SessionKind) (session : Smt.Session σ) :
    Prop :=
  session.encoding = p.encoding options kind

theorem startSession_fails (worker : Nat) (kind : Smt.SessionKind) :
    Meets (fun _ => True) (startSession options p f worker kind)
      (fun session _ => Told options p kind session) fun e _ => Smt.IsSolverError e :=
  Meets.bind (Smt.liftSolver_fails _) fun solver => Smt.start_fails solver _

theorem query_fails (h : p.Fits b) (kind : Smt.SessionKind) (goal : Goal) :
    Meets (fun s => Told options p kind s.1 ∧ True)
      (Smt.Session.query f b p.property.bound goal)
      (fun answer s => (Told options p kind s.1 ∧ True) ∧ answer.Covers b)
      fun e s => (Told options p kind s.1 ∧ True) ∧ Smt.IsSolverError e := by
  obtain ⟨terms, hterms⟩ := Prepared.Covers.exists_boxTerms_of_bounded options h.bounded kind
  exact (Smt.sessionQuery_fails hterms _ goal).weaken (fun _ hs => hs.1)
    (fun _ _ hs => ⟨⟨hs.1, trivial⟩, hs.2⟩) fun _ _ hs => ⟨⟨hs.1, trivial⟩, hs.2⟩

/-- The check of a fresh region by a worker whose sessions belong to the property. -/
theorem escalate_fails (h : p.Fits b) (worker : Nat) :
    Meets (Idle (Told options p) (fun _ => True) fun r => r = .fresh b)
      (escalate options p f worker) (fun _ _ => True) fun e _ => e.Unavoidable b := by
  have hsolver : ∀ e, Smt.IsSolverError e → e.Unavoidable b := by
    rintro e ⟨reason, rfl⟩
    exact Or.inl (.solver reason)
  have hstart : ∀ kind, Meets (fun _ => True) (startSession options p f worker kind)
      (fun session _ => Told options p kind session ∧ True) fun e _ => True ∧ e.Unavoidable b :=
    fun kind => (startSession_fails worker kind).weaken (fun _ hs => hs)
      (fun _ _ hs => ⟨hs, trivial⟩) fun e _ he => ⟨trivial, hsolver e he⟩
  have hmidpoint : ∀ r e, r.box = b → (p.atPoint options b.midpoint r).2 = .error e →
      e.Unavoidable b := fun r e _ hfails =>
    .of_illDefinedAt b.bounds_midpoint (h.illDefinedAt_of_atPoint b.mem_domain_midpoint hfails)
  refine (escalate_confined (R := fun r => r = .fresh b) hstart (fun kind goal => ?_) hmidpoint
    (fun goal answer ha r e _ hfails => absurd hfails (h.byAnswer_ne_error ha))
    (fun r hr => hr ▸ rfl) (fun r e hr hfails => ?_)
    (fun r e hr hfails => h.unavoidable_of_bySampling hr hfails)
    fun r e hr hfails => h.unavoidable_of_byApproximation hr hfails).weaken
      (fun _ hi => hi) (fun _ _ _ => trivial) fun _ _ hi => hi.2
  · exact (query_fails h kind goal).weaken (fun _ hs => hs) (fun _ _ hs => hs)
      fun e _ hs => ⟨hs.1, hsolver e hs.2⟩
  · rw [hr] at hfails
    exact absurd hfails p.byConstantResult_fresh_ne_error

end Inspection

namespace Checker

variable {σ ω : Type} {f : Smt.SolverFactory σ ω} {c : ParametricChain} {options : Options}

/-- What a checker has belongs to its chain and to the formula that was specified last. -/
structure Loyal (c : ParametricChain) (options : Options) (k : Checker σ) : Prop where
  chain_eq : k.chain = c
  options_eq : k.options = options
  exists_formula : ∀ p, k.prepared = some p → ∃ φ, Prepared.build options c φ = .ok p
  sessions : ∀ p, k.prepared = some p → k.sessions.All (Inspection.Told options p)

theorem loyal_of_build {k : Checker σ} (hk : build c options = .ok k) : k.Loyal c options := by
  obtain ⟨-, -, hbuild⟩ := bind_eq_ok_iff.mp hk
  obtain rfl := pure_eq_ok_iff.mp hbuild
  refine ⟨rfl, rfl, fun p hp => ?_, fun p hp => ?_⟩
  · exact absurd hp.symm (Option.some_ne_none p)
  · exact absurd hp.symm (Option.some_ne_none p)

/-- Sessions are asked about the encoding that they were told, whatever comes of it. -/
theorem respects_escalate_told (p : Prepared) (b : Box) (worker : Nat) :
    Inspection.Respects (Inspection.Told options p) (fun _ : ω => True) b
      (Inspection.escalate options p f worker) := by
  refine Inspection.respects_escalate (fun kind => ?_) fun kind goal => ?_
  · exact (Inspection.startSession_fails worker kind).weaken (fun _ hs => hs)
      (fun _ _ hs => ⟨hs, trivial⟩) fun _ _ _ => trivial
  · have hany : Meets (fun _ => True) (Smt.query f.solver (p.encoding options kind) b
        p.property.bound goal) (fun _ _ => True) fun _ _ => True :=
      meets_iff_run.mpr fun _ _ => trivial
    exact Smt.sessionQuery_meets hany

theorem checkRegion_loyal :
    Meets (fun s => s.2.1.Loyal c options) (checkRegion f) (fun _ s => s.2.1.Loyal c options)
      fun _ s => s.2.1.Loyal c options := by
  refine meets_iff_run.mpr ?_
  rintro ⟨r, k, world⟩ ⟨hchain, rfl, hformula, hsessions⟩
  rcases hp : (do let p ← k.specified; k.checkParameters p r; return p) with e | p
  · rw [run_checkRegion_of_refused hp]
    exact ⟨hchain, rfl, hformula, hsessions⟩
  · obtain ⟨hprepared, -⟩ := prepared_of_accepts hp
    obtain ⟨outcome, region, sessions, statistics, world', hrun, hkept, -⟩ :=
      checkRegion_kept (respects_escalate_told p r.box 0) hprepared (hsessions p hprepared) trivial
    rw [hrun]
    refine ⟨hchain, rfl, hformula, fun q hq => ?_⟩
    obtain rfl := Option.some.inj (hprepared.symm.trans hq)
    exact hkept

theorem checkParallel_loyal (workers : Nat) :
    Meets (fun s => s.2.1.Loyal c options) (checkParallel f workers)
      (fun _ s => s.2.1.Loyal c options) fun _ s => s.2.1.Loyal c options := by
  refine checkParallel_keeps (checkRegions_keeps (J := fun s => s.1.Loyal c options)
    checkRegion_loyal) fun p => meets_iff_run.mpr ?_
  rintro ⟨regions, k, world⟩ hk
  exact ⟨hk.chain_eq, hk.options_eq, hk.exists_formula, hk.sessions⟩

namespace Service

variable {s : Service σ ω}

theorem loyal_serve (hs : s.checker.Loyal c options) (request : Request) :
    (s.serve f request).checker.Loyal c options := by
  cases request with
  | specify φ =>
      rw [serve, run_specify, hs.options_eq, hs.chain_eq]
      rcases hbuild : Prepared.build options c φ with e | p
      · exact hs
      · -- The sessions that were told about the formula before are gone.
        refine ⟨rfl, rfl, fun q hq => ?_, fun _ _ => Sessions.all_empty⟩
        obtain rfl := Option.some.inj hq
        exact ⟨φ, hbuild⟩
  | check region => exact meets_iff_run.mp checkRegion_loyal (region, s.checker, s.world) hs
  | checkAll regions =>
      exact meets_iff_run.mp (checkRegions_keeps (J := fun s => s.1.Loyal c options)
        checkRegion_loyal) (regions, s.checker, s.world) hs
  | checkParallel regions workers =>
      exact meets_iff_run.mp (checkParallel_loyal workers) (regions, s.checker, s.world) hs

theorem loyal_serveAll (hs : s.checker.Loyal c options) (requests : List Request) :
    (s.serveAll f requests).checker.Loyal c options := by
  induction requests generalizing s with
  | nil => exact hs
  | cons request requests ih => exact ih (loyal_serve hs request)

end Service

/-- The check of a fresh region that a loyal checker accepts. -/
theorem Loyal.unavoidable_of_checkRegion {k : Checker σ} (hk : k.Loyal c options) {p : Prepared}
    {b : Box} (hfits : p.Fits b) (hprepared : k.prepared = some p)
    (hparameters : k.checkParameters p (.fresh b) = .ok ()) (world : ω) {e : CheckError}
    (he : ((checkRegion f).run (.fresh b, k, world)).1 = .error e) : e.Unavoidable b := by
  obtain ⟨-, rfl, -, hsessions⟩ := hk
  have hrun := Inspection.escalate_fails (f := f) hfits 0
    ⟨.fresh b, k.sessions, world⟩ ⟨rfl, hsessions p hprepared, trivial⟩
  have haccepts : (do let p ← k.specified; k.checkParameters p (.fresh b); return p) = .ok p := by
    simp [specified, hprepared, hparameters, bind, Except.bind, pure, Except.pure]
  unfold checkRegion Workplace.checkRegion at he
  simp only [ExceptT.run_mk, haccepts] at he
  rcases hescalate : (Inspection.escalate k.options p f 0).run ⟨.fresh b, k.sessions, world⟩ with
    ⟨e' | tier, i⟩
  · rw [hescalate] at he hrun
    exact Except.error.inj he ▸ hrun
  · rw [hescalate] at he
    cases he

/-- Take any chain whose weights are quotients, any options and any solvers, and let a checker of
the chain be asked anything.  If it has a formula and accepts a fresh region, then the check of that
region succeeds or fails with an inherent error: the region has too many corners, the model has no
meaning at a point of it, or a solver or its start has failed.  Otherwise it stops without an error,
as there is no room for a list of corners. -/
theorem checkRegion_inherent (f : Smt.SolverFactory σ ω) {c : ParametricChain}
    (hc : ∀ s, ∀ d ∈ c.row s, d.2.denominator ≠ .zero) {options : Options} {k : Checker σ}
    (hk : build c options = .ok k) (world : ω) (requests : List Request) :
    let s := Service.serveAll f ⟨k, world, none⟩ requests
    ∀ p b, s.checker.prepared = some p → s.checker.checkParameters p (.fresh b) = .ok () →
      ∀ e, ((checkRegion f).run (.fresh b, s.checker, s.world)).1 = .error e →
        (e.stops = false → e.Inherent b) ∧ (e.stops = true → e.OutOfRoom b) := by
  intro s p b hprepared hparameters e he
  have hs : s.checker.Loyal c options :=
    Service.loyal_serveAll (s := ⟨k, world, none⟩) (loyal_of_build hk) requests
  obtain ⟨φ, hφ⟩ := hs.exists_formula p hprepared
  have hfits : p.Fits b :=
    Prepared.fits_of_build hc hφ (checkParameters_eq_ok_iff.mp hparameters).1
  exact (hs.unavoidable_of_checkRegion hfits hprepared hparameters s.world he).stops_cases

/-- The options with which points are decided by iteration alone. -/
def iterationOnly (o : Options) : Options := { fullOnly o with sampleViaFunction := false }

/-- Biases that no coin has. -/
def wildBias : Interval := ⟨2, 3, by decide⟩

/-- What is found at the midpoint of these. -/
def wildError : CheckError := .illDefinedPoint "b=2.5" "weight b evaluates to 5/2"

/-- The parameters of the region are right and its values are not, which is seen twice. -/
theorem checkRegion_inherent_coin : ∃ (c : ParametricChain) (k : Checker Smt.Stack) (p : Prepared),
    coinFile.toChain = .ok c ∧ (∀ s, ∀ d ∈ c.row s, d.2.denominator ≠ .zero) ∧
    build c (iterationOnly .usual) = .ok k ∧
    let s := Service.serveAll stubborn.factory ⟨k, ⟨false, []⟩, none⟩
      [.specify coinFormula, .check (.fresh (coinBox wildBias))]
    s.checker.prepared = some p ∧
    s.checker.checkParameters p (.fresh (coinBox wildBias)) = .ok () ∧
    ((checkRegion stubborn.factory).run (.fresh (coinBox wildBias), s.checker, s.world)).1 =
      .error wildError ∧
    wildError.Inherent (coinBox wildBias) := by
  -- The point is refused before an iteration starts, so no tolerance need be evaluated.
  generalize Options.usual = o
  have hseen : coinFile.toChain.toOption.map (fun c =>
      (build c (iterationOnly o) : Except CheckError (Checker Smt.Stack)).toOption.map fun k =>
        let s := Service.serveAll stubborn.factory ⟨k, ⟨false, []⟩, none⟩
          [.specify coinFormula, .check (.fresh (coinBox wildBias))]
        (s.checker.prepared.map fun p =>
            s.checker.checkParameters p (.fresh (coinBox wildBias)),
          ((checkRegion stubborn.factory).run
            (.fresh (coinBox wildBias), s.checker, s.world)).1)) =
      some (some (some (.ok ()), .error wildError)) := by
    cbv
  obtain ⟨c, hc, hseen⟩ := exists_ok_of_map_eq hseen
  obtain ⟨k, hk, hseen⟩ := exists_ok_of_map_eq hseen
  obtain ⟨hprepared, hfails⟩ := Prod.mk.inj hseen
  obtain ⟨p, hp, hparameters⟩ := Option.map_eq_some_iff.mp hprepared
  have hquotients : ∀ s, ∀ d ∈ c.row s, d.2.denominator ≠ .zero := fun s d hd =>
    (RationalFunction.readDefined_fraction_iff.mp
      ((ModelFile.toChain_regular hc).defined s d hd)).1
  exact ⟨c, k, p, hc, hquotients, hk, hp, hparameters, hfails,
    (checkRegion_inherent stubborn.factory hquotients hk ⟨false, []⟩ _ p _ hp hparameters _ hfails).1
      rfl⟩

end Checker

end MarkovRegion
