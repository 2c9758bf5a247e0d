import MarkovRegion.Checker.Basic
import MarkovRegion.Proofs.Checker.Tiers
import MarkovRegion.Proofs.Region.Corners

/-!
# Verdicts are true

A checker whose formula is specified keeps its sessions open between regions (`Checker.Ready`).  The
check of one region keeps the checker ready and the region truthful (`checkRegion_meets`); by
induction so does the check of a list of regions (`inTurn_meets`).

The result, `Checker.checkRegions_truthful`, starts from the file of the chain: whatever options are
chosen, as long as points are decided by the closed form, every verdict and every recorded point
agrees with the probabilities of the unsimplified chain.
-/

namespace MarkovRegion

open Attempt

theorem run_inTurn {ε α S : Type} (attempt : Attempt ε (α × S) Unit) (xs : List α) (s : S) :
    (inTurn attempt).run (xs, s) = inTurn.go attempt xs s := rfl

/-- Doing the same for all elements of a list: what a step keeps of each element and of the state is
kept by the run.  Here `key` is what a step may not change of an element. -/
theorem inTurn_meets {ε α κ S : Type} {attempt : Attempt ε (α × S) Unit} {P : α → Prop}
    (key : α → κ) {R : S → Prop} {F : κ → ε → Prop} {keys : List κ}
    (hstep : ∀ k ∈ keys, Meets (fun s => (P s.1 ∧ key s.1 = k) ∧ R s.2) attempt
      (fun _ s => (P s.1 ∧ key s.1 = k) ∧ R s.2)
      fun e s => ((P s.1 ∧ key s.1 = k) ∧ R s.2) ∧ F k e) :
    Meets (fun s => ((∀ a ∈ s.1, P a) ∧ s.1.map key = keys) ∧ R s.2) (inTurn attempt)
      (fun _ s => ((∀ a ∈ s.1, P a) ∧ s.1.map key = keys) ∧ R s.2)
      fun e s => (((∀ a ∈ s.1, P a) ∧ s.1.map key = keys) ∧ R s.2) ∧ ∃ k ∈ keys, F k e := by
  rintro ⟨xs, s⟩ ⟨⟨hP, hkeys⟩, hR⟩
  rw [run_inTurn]
  dsimp only at hP hkeys hR
  induction xs generalizing keys s with
  | nil => exact ⟨⟨hP, hkeys⟩, hR⟩
  | cons x xs ih =>
      obtain ⟨k, rest, rfl⟩ : ∃ k rest, keys = k :: rest := ⟨key x, xs.map key, hkeys.symm⟩
      rw [List.map_cons, List.cons.injEq] at hkeys
      have hx := hstep k List.mem_cons_self (x, s) ⟨⟨hP x List.mem_cons_self, hkeys.1⟩, hR⟩
      have hP' := fun a ha => hP a (List.mem_cons_of_mem x ha)
      rw [inTurn.go]
      rcases hrun' : attempt.run (x, s) with ⟨e | u, x', s'⟩
      · rw [hrun'] at hx
        obtain ⟨⟨⟨hx', hkey⟩, hR'⟩, hF⟩ := hx
        refine ⟨⟨⟨List.forall_mem_cons.mpr ⟨hx', hP'⟩, ?_⟩, hR'⟩, k, List.mem_cons_self, hF⟩
        rw [List.map_cons, hkey, hkeys.2]
      · rw [hrun'] at hx
        obtain ⟨⟨hx', hkey⟩, hR'⟩ := hx
        have hrest := ih (fun k hk => hstep k (List.mem_cons_of_mem _ hk)) s' hR' hP' hkeys.2
        rcases hgo : inTurn.go attempt xs s' with ⟨e | u', xs', s''⟩
        · rw [hgo] at hrest
          obtain ⟨⟨⟨hxs', hmap⟩, hR''⟩, k', hk', hF⟩ := hrest
          simp only [hgo]
          refine ⟨⟨⟨List.forall_mem_cons.mpr ⟨hx', hxs'⟩, ?_⟩, hR''⟩,
            k', List.mem_cons_of_mem _ hk', hF⟩
          rw [List.map_cons, hkey, hmap]
        · rw [hgo] at hrest
          obtain ⟨⟨hxs', hmap⟩, hR''⟩ := hrest
          simp only [hgo]
          refine ⟨⟨List.forall_mem_cons.mpr ⟨hx', hxs'⟩, ?_⟩, hR''⟩
          rw [List.map_cons, hkey, hmap]

namespace Checker

variable {σ ω : Type} {f : Smt.SolverFactory σ ω} {Tracks : σ → List (List Smt.Term) → Prop}
  {options : Options} {c : ParametricChain} {target : StateFormula} {bound : Bound} {p : Prepared}
  {b : Box}

/-- What a checker has between two regions: the prepared formula and open sessions. -/
structure Ready (Tracks : σ → List (List Smt.Term) → Prop) (c : ParametricChain)
    (options : Options) (p : Prepared) (k : Checker σ) : Prop where
  chain_eq : k.chain = c
  options_eq : k.options = options
  prepared_eq : k.prepared = some p
  sessions_open : ∀ kind session, k.sessions.get? kind = some session →
    session.Open Tracks (p.encoding options kind)

theorem checkParameters_eq_ok_iff {k : Checker σ} {r : Region} :
    k.checkParameters p r = .ok () ↔
      (∀ a ∈ p.parameters, a ∈ r.box.parameters) ∧
        ∀ a ∈ r.box.parameters, a ∈ k.chain.parameters := by
  unfold checkParameters parameters
  simp

theorem Ready.specified_eq {k : Checker σ} (hk : k.Ready Tracks c options p) :
    k.specified = .ok p := by
  rw [specified, hk.prepared_eq]

theorem Ready.with_sessions {k : Checker σ} (hk : k.Ready Tracks c options p)
    {sessions : Sessions σ} (hsessions : ∀ kind session, sessions.get? kind = some session →
      session.Open Tracks (p.encoding options kind)) (statistics : Statistics) :
    Ready Tracks c options p { k with sessions := sessions, statistics := statistics } :=
  ⟨hk.chain_eq, hk.options_eq, hk.prepared_eq, hsessions⟩

/-- A checker that is ready accepts the regions with the right parameters. -/
theorem Ready.accepts {k : Checker σ} (hk : k.Ready Tracks c options p) {r : Region}
    (hparameters : k.checkParameters p r = .ok ()) :
    (do let p ← k.specified; k.checkParameters p r; return p) = .ok p :=
  bind_eq_ok_iff.mpr ⟨p, hk.specified_eq, bind_eq_ok_iff.mpr ⟨(), hparameters, rfl⟩⟩

/-- The check of a region by a checker that is ready is an escalation of its tiers. -/
theorem Ready.run_checkRegion {k : Checker σ} (hk : k.Ready Tracks c options p) {r : Region}
    (f : Smt.SolverFactory σ ω) (world : ω) (hparameters : k.checkParameters p r = .ok ()) :
    (checkRegion f).run (r, k, world) =
      match (Inspection.escalate options p f 0).run ⟨r, k.sessions, world⟩ with
      | (.error e, i) => (.error e, i.region, { k with sessions := i.sessions }, i.world)
      | (.ok tier, i) => (.ok (), i.region,
          { k with
            sessions := i.sessions
            statistics := k.statistics.record tier i.region.verdict }, i.world) := by
  unfold checkRegion Workplace.checkRegion
  simp only [ExceptT.run_mk]
  rw [hk.accepts hparameters, hk.options_eq]
  dsimp only
  rcases (Inspection.escalate options p f 0).run ⟨r, k.sessions, world⟩ with ⟨e | tier, i⟩
  · rfl
  · rfl

/-- The check of a region keeps the checker ready and the region truthful. -/
theorem checkRegion_meets (hf : f.Trusted Tracks) (hbound : p.property.bound = bound)
    (hcovers : p.Covers options c target b) (hknown : ∀ a ∈ b.parameters, a ∈ c.parameters) :
    Meets (fun s => (s.1.Truthful c target bound ∧ s.1.box = b) ∧ s.2.1.Ready Tracks c options p)
      (checkRegion f)
      (fun _ s => (s.1.Truthful c target bound ∧ s.1.box = b) ∧ s.2.1.Ready Tracks c options p)
      fun e s => ((s.1.Truthful c target bound ∧ s.1.box = b) ∧ s.2.1.Ready Tracks c options p) ∧
        Inspection.Overflow options b e := by
  subst hbound
  rintro ⟨r, k, world⟩ ⟨⟨hr, hbox⟩, hk⟩
  dsimp only at hr hbox hk
  have hparameters : k.checkParameters p r = .ok () := by
    rw [checkParameters_eq_ok_iff, hbox, hk.chain_eq]
    exact ⟨hcovers.parameters, hknown⟩
  have hkeeps := Inspection.keeps_escalate hf hcovers 0 ⟨r, k.sessions, world⟩
    ⟨hbox, hr, hk.sessions_open⟩
  have hrun := hk.run_checkRegion f world hparameters
  rcases hescalate : (Inspection.escalate options p f 0).run ⟨r, k.sessions, world⟩ with
    ⟨e | tier, i⟩
  · rw [hescalate] at hkeeps hrun
    rw [hrun]
    obtain ⟨hi, hoverflow⟩ := hkeeps
    exact ⟨⟨⟨hi.truthful, hi.box_eq⟩, hk.with_sessions hi.sessions_open _⟩, hoverflow⟩
  · rw [hescalate] at hkeeps hrun
    rw [hrun]
    exact ⟨⟨hkeeps.truthful, hkeeps.box_eq⟩, hk.with_sessions hkeeps.sessions_open _⟩

theorem run_specify (f : Smt.SolverFactory σ ω) (φ : StateFormula) (k : Checker σ) (world : ω) :
    (specify f φ).run (k, world) = match Prepared.build k.options k.chain φ with
      | .error e => (.error e, k, world)
      | .ok p => (.ok (), { k with prepared := some p, sessions := .empty },
          k.sessions.close f world) := rfl

/-- A formula that is specified is prepared, and the checker is ready. -/
theorem ready_of_specify {k k' : Checker σ} {world world' : ω} {φ : StateFormula}
    (h : (specify f φ).run (k, world) = (.ok (), k', world')) :
    ∃ p, Prepared.build k.options k.chain φ = .ok p ∧ k'.Ready Tracks k.chain k.options p := by
  rw [run_specify] at h
  rcases hbuild : Prepared.build k.options k.chain φ with e | p
  · rw [hbuild] at h
    cases (Prod.mk.inj h).1
  · rw [hbuild] at h
    obtain ⟨rfl, -⟩ := Prod.mk.inj (Prod.mk.inj h).2
    refine ⟨p, rfl, rfl, rfl, rfl, fun kind session hsession => ?_⟩
    cases kind with
    | subsystem => cases hsession
    | full => cases hsession

/-- The checks of boxes whose points are admissible are covered. -/
theorem covers_of_checkParameters {file : ModelFile} {k : Checker σ}
    (hfile : file.toChain = .ok c) (happroximation : options.approximation = false)
    (hfunction : options.sampleViaFunction = true) {φ : StateFormula}
    (hφ : φ.reachability? = some (bound, target)) (hp : Prepared.build options c φ = .ok p)
    {g : RationalFunction} (hg : p.property.reachFunction.get.toExcept = .ok g)
    (hparameters : k.checkParameters p (.fresh b) = .ok ())
    (hadmissible : ∀ q, b.contains q = true → ∃ v, c.Admissible v ∧ b.Extends q v) :
    p.property.bound = bound ∧ p.Covers options c target b := by
  obtain ⟨v, hv, -⟩ := hadmissible _ b.contains_midpoint
  have hc := ModelFile.toChain_regular hfile
  obtain ⟨property, linear, hproperty, -, rfl⟩ := Prepared.build_eq_ok_iff.mp hp
  obtain ⟨property', hproperty', hfaithful⟩ := Property.build_eq_ok hc
    (Property.checkable_of_build hφ hproperty) hv options.eliminationSizeBound
  obtain rfl : property = property' := Except.ok.inj (hproperty.symm.trans hproperty')
  refine ⟨hfaithful.bound_eq, hc, hfaithful.bound_eq.symm ▸ hfaithful, ?_, hfunction,
    happroximation, (checkParameters_eq_ok_iff.mp hparameters).1, hadmissible⟩
  exact ⟨g, ReachFunction.toExcept_eq_ok_iff.mp hg⟩

/-- Checks never mislead.  Take a chain that was read from a file, a formula that was specified for
it, and boxes that the checker accepts and whose points extend to admissible ones.  If points are
decided by the closed form and solvers are trusted, then the checks of the boxes, with any choice of
the other tiers, end; they fail at most because corners of a box cannot be listed.  Whatever is
recorded of the boxes, in either case, is true of the chain. -/
theorem checkRegions_truthful {file : ModelFile} {k k' : Checker σ} {world world' : ω}
    {φ : StateFormula} {g : RationalFunction} {boxes : List Box}
    (hfile : file.toChain = .ok k.chain) (hf : f.Trusted Tracks)
    (happroximation : k.options.approximation = false)
    (hfunction : k.options.sampleViaFunction = true)
    (hφ : φ.reachability? = some (bound, target))
    (hspecify : (specify f φ).run (k, world) = (.ok (), k', world'))
    (hp : k'.specified = .ok p) (hg : k'.reachabilityFunction = .ok g)
    (hparameters : ∀ b ∈ boxes, k'.checkParameters p (.fresh b) = .ok ())
    (hadmissible : ∀ b ∈ boxes, ∀ q, b.contains q = true →
      ∃ v, k.chain.Admissible v ∧ b.Extends q v) :
    ∃ outcome regions k'' world'',
      (checkRegions f).run (boxes.map .fresh, k', world') = (outcome, regions, k'', world'') ∧
      regions.map Region.box = boxes ∧
      (∀ r ∈ regions, r.Truthful k.chain target bound) ∧
      (outcome = .ok () ∨ ∃ b ∈ boxes, ∃ e, outcome = .error e ∧
        Inspection.Overflow k.options b e) := by
  obtain ⟨p', hbuild, hready⟩ : ∃ p', Prepared.build k.options k.chain φ = .ok p' ∧
      k'.Ready Tracks k.chain k.options p' := ready_of_specify hspecify
  obtain rfl : p = p' := Except.ok.inj (hp.symm.trans hready.specified_eq)
  have hg' : p.property.reachFunction.get.toExcept = .ok g := by
    rw [reachabilityFunction, hp] at hg
    exact hg
  have hcovers := fun b hb => covers_of_checkParameters hfile happroximation hfunction hφ hbuild hg'
    (hparameters b hb) (hadmissible b hb)
  have hknown : ∀ b ∈ boxes, ∀ a ∈ b.parameters, a ∈ k.chain.parameters := by
    intro b hb
    rw [← hready.chain_eq]
    exact (checkParameters_eq_ok_iff.mp (hparameters b hb)).2
  have hrun := inTurn_meets Region.box (P := fun r => r.Truthful k.chain target bound)
    (R := fun s => s.1.Ready Tracks k.chain k.options p) (F := Inspection.Overflow k.options)
    (fun b hb => checkRegion_meets hf (hcovers b hb).1 (hcovers b hb).2 (hknown b hb))
    (boxes.map Region.fresh, k', world') ⟨⟨?_, ?_⟩, hready⟩
  · rcases hout : (checkRegions f).run (boxes.map .fresh, k', world') with
      ⟨e | u, regions, k'', world''⟩
    · rw [checkRegions] at hout
      rw [hout] at hrun
      obtain ⟨⟨⟨htruthful, hboxes⟩, -⟩, b, hb, hoverflow⟩ := hrun
      exact ⟨_, regions, k'', world'', rfl, hboxes, htruthful, Or.inr ⟨b, hb, e, rfl, hoverflow⟩⟩
    · rw [checkRegions] at hout
      rw [hout] at hrun
      obtain ⟨⟨htruthful, hboxes⟩, -⟩ := hrun
      exact ⟨_, regions, k'', world'', rfl, hboxes, htruthful, Or.inl rfl⟩
  · intro r hr
    obtain ⟨b, -, rfl⟩ := List.mem_map.mp hr
    exact Region.truthful_fresh b
  · exact (List.map_map ..).trans (List.map_id boxes)

/-- With linear weights a chain is admissible in a box if it is at the corners. -/
theorem admissible_of_vertices {points : List Valuation} (hvertices : b.allVertices = .ok points)
    (hlinear : ∀ row ∈ c.transitions.rows, ∀ e ∈ row, e.2.isLinear = .ok true ∧
      ∀ a ∈ e.2.parameters, a ∈ b.parameters)
    (hpoints : ∀ w ∈ points, c.Admissible w) {v : Valuation} (hv : b.contains v = true) :
    c.Admissible v := by
  intro row hrow e he
  obtain ⟨hweight, hparameters⟩ := hlinear row hrow e he
  have hlinearOn := RationalFunction.linearOn_value hweight hparameters
  have hcontains := Box.containsOn_of_contains hv fun a ha => ha
  have hnodup := b.sides.nodup_keys
  have hvalue : ∀ w ∈ points, 0 < (RationalFunction.pointReading w).value e.2 ∧
      (RationalFunction.pointReading w).value e.2 ≤ 1 := by
    intro w hw
    obtain ⟨q, hq, hpos, hle⟩ := hpoints w hw row hrow e he
    rw [← (RationalFunction.evaluate_eq_ok_iff.mp hq).2]
    exact ⟨Rat.cast_pos.mpr hpos, by exact_mod_cast hle⟩
  have hdefined := RationalFunction.defined_of_isLinear hweight fun a ha =>
    hcontains.isSome a (hparameters a ha)
  obtain ⟨q, hq, hread⟩ := RationalFunction.exists_evaluate_eq_ok hdefined
  obtain ⟨low, hlow, hbelow⟩ := Box.exists_vertex_le hvertices hnodup hlinearOn hcontains
  obtain ⟨high, hhigh, habove⟩ := Box.exists_vertex_ge hvertices hnodup hlinearOn hcontains
  refine ⟨q, hq, ?_, ?_⟩
  · exact_mod_cast hread.symm ▸ (hvalue low hlow).1.trans_le hbelow
  · exact_mod_cast hread.symm ▸ habove.trans (hvalue high hhigh).2

open Property in
/-- The chain with the cycle is admissible in a box, and its property has a closed form. -/
theorem exists_resend_property : ∃ c property g, resendFile.toChain = .ok c ∧
    (∀ v, (resendBox resendSide).contains v = true → c.Admissible v) ∧
    (∀ a ∈ (resendBox resendSide).parameters, a ∈ c.parameters) ∧
    Property.build c (.reaching (.label "delivered") ⟨.greaterEqual, mkRat 1 4⟩)
      Options.usual.eliminationSizeBound = .ok property ∧
    (∀ a ∈ property.model.parameters, a ∈ (resendBox resendSide).parameters) ∧
    property.model.linear = .ok true ∧ property.reachFunction.get.toExcept = .ok g := by
  let φ : StateFormula := .reaching (.label "delivered") ⟨.greaterEqual, mkRat 1 4⟩
  let box := resendBox resendSide
  obtain ⟨c, hc, htest⟩ := exists_ok_of_map resendFile.toChain
    (fun c => (c.transitions.rows.all fun row => row.all fun e =>
        decide (e.2.isLinear = .ok true) && e.2.parameters.all box.parameters.contains) &&
      (decide (box.allVertices.toOption.map (fun points => points.all fun w =>
        decide (c.Admissible w)) = some true) &&
      (box.parameters.all c.parameters.contains &&
      decide ((Property.build c φ (some 10000)).toOption.map (fun property =>
        property.model.parameters.all box.parameters.contains &&
          (decide (property.model.linear = .ok true) &&
            property.reachFunction.get.function?.isSome)) = some true)))) (by cbv)
  simp only [Bool.and_eq_true, decide_eq_true_eq] at htest
  obtain ⟨hlinear, hvertices, hknown, hbuild⟩ := htest
  obtain ⟨points, hpoints, hcorners⟩ := exists_ok_of_map _ _ hvertices
  obtain ⟨property, hproperty, hchecks⟩ := exists_ok_of_map _ _ hbuild
  simp only [List.all_eq_true, List.contains_iff_mem, Bool.and_eq_true, decide_eq_true_eq] at *
  obtain ⟨hparameters, hmodel, hfunction⟩ := hchecks
  obtain ⟨g, hg⟩ := Option.isSome_iff_exists.mp hfunction
  refine ⟨c, property, g, hc, fun v hv => admissible_of_vertices hpoints hlinear hcorners hv,
    hknown, hproperty, hparameters, hmodel, ?_⟩
  exact ReachFunction.toExcept_eq_ok_iff.mpr (ReachFunction.eq_computed hg)

open Property in
/-- The chain with the cycle, checked on a box with all tiers but the bounding processes. -/
theorem checkRegions_truthful_resend : ∃ (k k' k'' : Checker (List (List Smt.Term)))
    (p : Prepared) (g : RationalFunction) (regions : List Region),
    resendFile.toChain = .ok k.chain ∧
    k.options = { Options.usual with approximation := false } ∧
    (specify Smt.completeSolver (.reaching (.label "delivered") ⟨.greaterEqual, mkRat 1 4⟩)).run
      (k, ()) = (.ok (), k', ()) ∧
    k'.specified = .ok p ∧ k'.reachabilityFunction = .ok g ∧
    k'.checkParameters p (.fresh (resendBox resendSide)) = .ok () ∧
    (∀ v, (resendBox resendSide).contains v = true → k.chain.Admissible v) ∧
    (checkRegions Smt.completeSolver).run ([.fresh (resendBox resendSide)], k', ()) =
      (.ok (), regions, k'', ()) ∧
    regions.map Region.box = [resendBox resendSide] ∧
    ∀ r ∈ regions, r.Truthful k.chain (.label "delivered") ⟨.greaterEqual, mkRat 1 4⟩ := by
  obtain ⟨c, property, g, hc, hadmissible, hknown, hproperty, hparameters, hmodel, hg⟩ :=
    exists_resend_property
  let options : Options := { Options.usual with approximation := false }
  obtain ⟨p, hbuild, rfl⟩ := Prepared.exists_build options hproperty hmodel
  let k : Checker (List (List Smt.Term)) := ⟨c, options, none, .empty, .zero⟩
  let k' : Checker (List (List Smt.Term)) := ⟨c, options, some p, .empty, .zero⟩
  have hspecify : (specify Smt.completeSolver
      (.reaching (.label "delivered") ⟨.greaterEqual, mkRat 1 4⟩)).run (k, ()) =
        (.ok (), k', ()) := by
    rw [run_specify, hbuild]
  have hfresh : k'.checkParameters p (.fresh (resendBox resendSide)) = .ok () :=
    checkParameters_eq_ok_iff.mpr ⟨hparameters, hknown⟩
  obtain ⟨outcome, regions, k'', world, hrun, hboxes, htruthful, houtcome⟩ :=
    checkRegions_truthful hc Smt.completeSolver_trusted rfl rfl rfl hspecify rfl hg
      (List.forall_mem_singleton.mpr hfresh)
      (List.forall_mem_singleton.mpr fun q hq => ⟨q, hadmissible q hq, fun _ _ => rfl⟩)
  refine ⟨k, k', k'', p, g, regions, hc, rfl, hspecify, rfl, hg, hfresh, hadmissible, ?_, hboxes,
    htruthful⟩
  -- A box with two parameters has few corners, so the checks succeed.
  rcases houtcome with rfl | ⟨b, hb, e, -, -, cause, hcrowded, -⟩
  · exact hrun
  · rw [List.mem_singleton.mp hb] at hcrowded
    exact absurd hcrowded.roomLimit_le (by decide)

end Checker

end MarkovRegion
