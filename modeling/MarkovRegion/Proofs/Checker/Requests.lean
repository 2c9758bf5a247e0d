import MarkovRegion.Proofs.Checker.Outcome
import MarkovRegion.Proofs.Checker.Soundness

/-!
# Checkers in service

A checker is asked to specify formulas and to check regions, in any order (`Checker.Request`).  A
`Checker.Service` keeps track of the formula that was specified last.  With solvers that do not fail
and reply by a function, the checker always has what is prepared for that formula, and open sessions
(`Checker.Service.Consistent`); this holds after every request and so after any number of them
(`Checker.Service.consistent_serveAll`).

A region that such a checker accepts becomes what the function `Prepared.outcome` says
(`Checker.Ready.checkRegion_eq`), and the counts grow by `Prepared.counts`.
-/

namespace MarkovRegion

open Attempt

/-! ## Counts -/

namespace Statistics

/-- The counts of several checks. -/
def total (counts : List Statistics) : Statistics := counts.foldr merge zero

theorem merge_assoc (s t u : Statistics) : (s.merge t).merge u = s.merge (t.merge u) := by
  simp only [merge, Nat.add_assoc]

theorem zero_merge (s : Statistics) : zero.merge s = s := by
  simp only [merge, zero, Nat.zero_add]

/-- A count adds to what was counted before. -/
theorem record_eq_merge (s : Statistics) (tier : Option Tier) (verdict : Verdict) :
    s.record tier verdict = s.merge (zero.record tier verdict) := by
  rcases tier with _ | tier
  · cases verdict <;> rfl
  · cases tier <;> cases verdict <;> rfl

end Statistics

/-! ## Lists of regions -/

/-- The parts of a list make up the list. -/
theorem flatten_partsOf {α : Type} (size : Nat) (xs : List α) : (partsOf size xs).flatten = xs := by
  fun_induction partsOf size xs with
  | case1 xs h => rw [List.isEmpty_iff.mp h]; rfl
  | case2 xs h ih => rw [List.flatten_cons, ih, List.take_append_drop]

/-- What a step keeps of its element and of the state, a run keeps of all elements and of the
state. -/
theorem inTurn_keeps {ε α S : Type} {attempt : Attempt ε (α × S) Unit} {P : α → Prop} {R : S → Prop}
    (hstep : Meets (fun s => P s.1 ∧ R s.2) attempt (fun _ s => P s.1 ∧ R s.2)
      fun _ s => P s.1 ∧ R s.2) :
    Meets (fun s => (∀ a ∈ s.1, P a) ∧ R s.2) (inTurn attempt)
      (fun _ s => (∀ a ∈ s.1, P a) ∧ R s.2) fun _ s => (∀ a ∈ s.1, P a) ∧ R s.2 := by
  rintro ⟨xs, s⟩ hs
  refine (inTurn_meets (P := P) (R := R) (F := fun _ _ => True) (fun _ => ()) fun _ _ => ?_).weaken
    (fun _ hs => hs) (fun _ _ hs => ⟨hs.1.1, hs.2⟩) (fun _ _ hs => ⟨hs.1.1.1, hs.1.2⟩) (xs, s)
      ⟨⟨hs.1, rfl⟩, hs.2⟩
  exact hstep.weaken (fun _ hs => ⟨hs.1.1, hs.2⟩) (fun _ _ hs => ⟨⟨hs.1, rfl⟩, hs.2⟩)
    fun _ _ hs => ⟨⟨⟨hs.1, rfl⟩, hs.2⟩, trivial⟩

/-- What the check of a region keeps of the checker, the checks of regions keep. -/
theorem Checker.checkRegions_keeps {σ ω : Type} {f : Smt.SolverFactory σ ω}
    {J : Checker σ × ω → Prop}
    (hstep : Meets (fun s => J s.2) (checkRegion f) (fun _ s => J s.2) fun _ s => J s.2) :
    Meets (fun s => J s.2) (checkRegions f) (fun _ s => J s.2) fun _ s => J s.2 := by
  refine (inTurn_keeps (P := fun _ => True) (R := J) ?_).weaken
    (fun _ hs => ⟨fun _ _ => trivial, hs⟩) (fun _ _ hs => hs.2) fun _ _ hs => hs.2
  exact hstep.weaken (fun _ hs => hs.2) (fun _ _ hs => ⟨trivial, hs⟩) fun _ _ hs => ⟨trivial, hs⟩

/-- What is kept in turn and in parts is kept in parallel. -/
theorem Checker.checkParallel_keeps {σ ω : Type} {f : Smt.SolverFactory σ ω} {workers : Nat}
    {J : List Region × Checker σ × ω → Prop}
    (hturn : Meets J (checkRegions f) (fun _ => J) fun _ => J)
    (hparts : ∀ p, Meets J (checkParts f p workers) (fun _ => J) fun _ => J) :
    Meets J (checkParallel f workers) (fun _ => J) fun _ => J := by
  refine Meets.bind_get fun s hs => ?_
  dsimp only
  split
  · exact hturn.startingAt hs
  · have hsame : ∀ t, t = s → J t := fun t ht => ht ▸ hs
    refine Meets.bind (Meets.ofExcept (fun _ _ => hsame) fun _ _ => hsame) fun p => ?_
    exact Meets.bind (Meets.ofExcept (fun _ _ t ht => ht) fun _ _ t ht => ht) fun _ => hparts p

/-- What a check adds to the counts. -/
def Prepared.counts (reply : Smt.ReplyFunction) (options : Options) (p : Prepared) (r : Region) :
    Statistics :=
  match p.outcome reply options r with
  | (s, .ok tier) => Statistics.zero.record tier s.verdict
  | (_, .error _) => .zero

variable {σ ω : Type} {f : Smt.SolverFactory σ ω} {Tracks : σ → List (List Smt.Term) → Prop}
  {reply : Smt.ReplyFunction} {options : Options} {p : Prepared} {c : ParametricChain}

/-- All sessions have been told the encodings of a formula and have no open frame. -/
abbrev Sessions.Open (Tracks : σ → List (List Smt.Term) → Prop) (options : Options) (p : Prepared)
    (s : Sessions σ) : Prop :=
  s.All fun kind session => session.Open Tracks (p.encoding options kind)

/-- The check of a region by a worker with open sessions. -/
theorem Workplace.checkRegion_eq (hf : f.Functional Tracks reply) (worker : Nat)
    {w : Workplace σ ω} (hw : w.sessions.Open Tracks options p) (r : Region) :
    ∃ w', (checkRegion options p f worker).run (r, w) =
        ((p.outcome reply options r).2.map fun _ => (), (p.outcome reply options r).1, w') ∧
      w'.sessions.Open Tracks options p ∧
      w'.statistics = w.statistics.merge (p.counts reply options r) := by
  have hperforms : Inspection.Performs Tracks options p _ _ := Inspection.performs_escalate hf worker
  have hrun := hperforms r ⟨r, w.sessions, w.world⟩ ⟨rfl, hw, trivial⟩
  unfold checkRegion Prepared.counts
  simp only [ExceptT.run_mk]
  rcases hout : p.outcome reply options r with ⟨s, outcome⟩
  rcases hescalate : (Inspection.escalate options p f worker).run ⟨r, w.sessions, w.world⟩ with
    ⟨e | tier, i⟩
  · rw [hescalate, hout] at hrun
    obtain ⟨⟨rfl, hsessions, -⟩, rfl⟩ := hrun
    exact ⟨_, rfl, hsessions, rfl⟩
  · rw [hescalate, hout] at hrun
    obtain ⟨⟨rfl, hsessions, -⟩, rfl⟩ := hrun
    exact ⟨_, rfl, hsessions, Statistics.record_eq_merge ..⟩

/-- What is assumed of solvers can be met. -/
theorem Smt.completeSolver_functional :
    Smt.completeSolver.Functional (fun s frames => s = frames)
      fun active asked => Smt.completeAnswer (asked.map Prod.fst) active where
  create := Smt.completeSolver_trusted.create
  declare := Smt.completeSolver_trusted.declare
  assert := Smt.completeSolver_trusted.assert
  push := Smt.completeSolver_trusted.push
  pop := Smt.completeSolver_trusted.pop
  comment := Smt.completeSolver_trusted.comment
  check _ _ := by
    rintro ⟨s, world⟩ rfl
    exact ⟨rfl, rfl⟩

namespace Checker

/-- The check of a region that a checker accepts. -/
theorem Ready.checkRegion_eq (hf : f.Functional Tracks reply) {k : Checker σ}
    (hk : k.Ready Tracks c options p) {r : Region} (hr : k.checkParameters p r = .ok ())
    (world : ω) :
    ∃ k' world', (checkRegion f).run (r, k, world) =
        ((p.outcome reply options r).2.map fun _ => (), (p.outcome reply options r).1, k',
          world') ∧
      k'.Ready Tracks c options p ∧
      k'.statistics = k.statistics.merge (p.counts reply options r) := by
  obtain ⟨w, hrun, hsessions, hstatistics⟩ := Workplace.checkRegion_eq hf 0
    (w := ⟨k.sessions, k.statistics, world⟩) hk.sessions_open r
  refine ⟨{ k with sessions := w.sessions, statistics := w.statistics }, w.world, ?_,
    hk.with_sessions hsessions _, hstatistics⟩
  unfold checkRegion
  simp only [ExceptT.run_mk]
  rw [hk.accepts hr, hk.options_eq]
  simp only [hrun]

/-- A region that is not accepted stays as it is. -/
theorem run_checkRegion_of_refused {k : Checker σ} {r : Region} {e : CheckError}
    (h : (do let p ← k.specified; k.checkParameters p r; return p) = .error e) (world : ω) :
    (checkRegion f).run (r, k, world) = (.error e, r, k, world) := by
  unfold checkRegion
  simp only [ExceptT.run_mk, h]

/-- A region is accepted for what is prepared. -/
theorem prepared_of_accepts {k : Checker σ} {r : Region}
    (h : (do let p ← k.specified; k.checkParameters p r; return p) = .ok p) :
    k.prepared = some p ∧ k.checkParameters p r = .ok () := by
  obtain ⟨p', hspecified, hrest⟩ := bind_eq_ok_iff.mp h
  obtain ⟨_, hparameters, heq⟩ := bind_eq_ok_iff.mp hrest
  obtain rfl := pure_eq_ok_iff.mp heq
  unfold specified at hspecified
  split at hspecified
  · next q hq => exact ⟨Except.ok.inj hspecified ▸ hq, hparameters⟩
  · cases hspecified

/-- If all regions are accepted, they are checked in turn or in parts. -/
theorem run_checkParallel {k : Checker σ} (hp : k.prepared = some p) {regions : List Region}
    (haccepted : ∀ r ∈ regions, k.checkParameters p r = .ok ()) (workers : Nat) (world : ω) :
    (checkParallel f workers).run (regions, k, world) =
      if workers ≤ 1 || regions.length ≤ 1 then (checkRegions f).run (regions, k, world)
      else (checkParts f p workers).run (regions, k, world) := by
  have hspecified : k.specified = .ok p := by rw [specified, hp]
  have hforM : regions.forM (k.checkParameters p) = .ok () := forM_eq_ok_iff.mpr haccepted
  have hrun : (checkParallel f workers).run (regions, k, world) =
      (if workers ≤ 1 || regions.length ≤ 1 then checkRegions f
        else do
          let p ← Attempt.ofExcept k.specified
          Attempt.ofExcept (regions.forM (k.checkParameters p))
          checkParts f p workers).run (regions, k, world) := rfl
  rw [hrun]
  split
  · rfl
  · rw [hspecified, run_bind, run_ofExcept]
    dsimp only
    rw [run_bind, run_ofExcept, hforM]

/-- The chain, the options, what is prepared and open sessions for it. -/
structure Steady (Tracks : σ → List (List Smt.Term) → Prop) (c : ParametricChain)
    (options : Options) (prepared : Option Prepared) (k : Checker σ) : Prop where
  chain_eq : k.chain = c
  options_eq : k.options = options
  prepared_eq : k.prepared = prepared
  sessions_open : ∀ p, prepared = some p → k.sessions.Open Tracks options p

theorem Steady.ready {k : Checker σ} (hk : k.Steady Tracks c options (some p)) :
    k.Ready Tracks c options p :=
  ⟨hk.chain_eq, hk.options_eq, hk.prepared_eq, hk.sessions_open p rfl⟩

theorem Ready.steady {k : Checker σ} (hk : k.Ready Tracks c options p) :
    k.Steady Tracks c options (some p) := by
  refine ⟨hk.chain_eq, hk.options_eq, hk.prepared_eq, ?_⟩
  rintro _ ⟨⟩
  exact hk.sessions_open

theorem Steady.of_accepts {prepared : Option Prepared} {k : Checker σ}
    (hk : k.Steady Tracks c options prepared) {r : Region}
    (h : (do let p ← k.specified; k.checkParameters p r; return p) = .ok p) :
    k.Ready Tracks c options p ∧ prepared = some p ∧ k.checkParameters p r = .ok () := by
  obtain ⟨hprepared, hparameters⟩ := prepared_of_accepts h
  obtain rfl : prepared = some p := hk.prepared_eq.symm.trans hprepared
  exact ⟨hk.ready, rfl, hparameters⟩

section Steady

variable {prepared : Option Prepared} (hf : f.Functional Tracks reply)
include hf

/-- The check of a region keeps a checker steady, whatever its outcome. -/
theorem checkRegion_steady :
    Meets (fun s => s.2.1.Steady Tracks c options prepared) (checkRegion f)
      (fun _ s => s.2.1.Steady Tracks c options prepared)
      fun _ s => s.2.1.Steady Tracks c options prepared := by
  rintro ⟨r, k, world⟩ hk
  dsimp only at hk
  rcases hp : (do let p ← k.specified; k.checkParameters p r; return p) with e | p
  · rw [run_checkRegion_of_refused hp]
    exact hk
  · obtain ⟨hready, rfl, hparameters⟩ := hk.of_accepts hp
    obtain ⟨k', world', hrun, hk', -⟩ := hready.checkRegion_eq hf hparameters world
    rw [hrun]
    rcases (p.outcome reply options r).2 with e | tier
    · exact hk'.steady
    · exact hk'.steady

theorem checkRegions_steady :
    Meets (fun s => s.2.1.Steady Tracks c options prepared) (checkRegions f)
      (fun _ s => s.2.1.Steady Tracks c options prepared)
      fun _ s => s.2.1.Steady Tracks c options prepared :=
  checkRegions_keeps (J := fun s => s.1.Steady Tracks c options prepared) (checkRegion_steady hf)

/-- Workers have sessions of their own, so those of the checker are not touched. -/
theorem checkParallel_steady (workers : Nat) :
    Meets (fun s => s.2.1.Steady Tracks c options prepared) (checkParallel f workers)
      (fun _ s => s.2.1.Steady Tracks c options prepared)
      fun _ s => s.2.1.Steady Tracks c options prepared := by
  refine checkParallel_keeps (checkRegions_steady hf) fun p => ?_
  rintro ⟨regions, k, world⟩ hk
  unfold checkParts
  simp only [ExceptT.run_mk]
  rcases k.statistics.mergeAll _ with ⟨e | u, statistics⟩
  · exact ⟨hk.chain_eq, hk.options_eq, hk.prepared_eq, hk.sessions_open⟩
  · exact ⟨hk.chain_eq, hk.options_eq, hk.prepared_eq, hk.sessions_open⟩

end Steady

/-! ## Requests -/

/-- What a checker is asked to do. -/
inductive Request where
  /-- Specify a formula. -/
  | specify (formula : StateFormula)
  /-- Check a region. -/
  | check (region : Region)
  /-- Check regions one after the other. -/
  | checkAll (regions : List Region)
  /-- Check regions by several workers. -/
  | checkParallel (regions : List Region) (workers : Nat)

/-- A checker in its world, and the formula that was specified last. -/
structure Service (σ ω : Type) where
  /-- The checker. -/
  checker : Checker σ
  /-- The world of the solvers. -/
  world : ω
  /-- The formula of the last request to specify one that succeeded. -/
  formula : Option StateFormula

namespace Service

/-- Do what is asked, which may succeed or fail. -/
def serve (f : Smt.SolverFactory σ ω) (s : Service σ ω) : Request → Service σ ω
  | .specify φ =>
    match (Checker.specify f φ).run (s.checker, s.world) with
    | (.ok (), k, world) => ⟨k, world, some φ⟩
    | (.error _, k, world) => ⟨k, world, s.formula⟩
  | .check region =>
    let (_, _, k, world) := (checkRegion f).run (region, s.checker, s.world)
    ⟨k, world, s.formula⟩
  | .checkAll regions =>
    let (_, _, k, world) := (checkRegions f).run (regions, s.checker, s.world)
    ⟨k, world, s.formula⟩
  | .checkParallel regions workers =>
    let (_, _, k, world) := (Checker.checkParallel f workers).run (regions, s.checker, s.world)
    ⟨k, world, s.formula⟩

/-- Do all that is asked. -/
def serveAll (f : Smt.SolverFactory σ ω) (s : Service σ ω) (requests : List Request) :
    Service σ ω :=
  requests.foldl (serve f) s

/-- The checker has what is prepared for the last formula, and open sessions. -/
def Consistent (Tracks : σ → List (List Smt.Term) → Prop) (c : ParametricChain)
    (options : Options) (s : Service σ ω) : Prop :=
  ∃ prepared, s.checker.Steady Tracks c options prepared ∧
    prepared.map .ok = s.formula.map (Prepared.build options c)

variable {s : Service σ ω}

/-- A request that keeps the checker steady keeps the service consistent. -/
theorem Consistent.of_steady (hs : s.Consistent Tracks c options) {S : Type}
    {x : Attempt CheckError (S × Checker σ × ω) Unit}
    (hx : ∀ prepared, Meets (fun t => t.2.1.Steady Tracks c options prepared) x
      (fun _ t => t.2.1.Steady Tracks c options prepared)
      fun _ t => t.2.1.Steady Tracks c options prepared) (a : S) :
    let t := (x.run (a, s.checker, s.world)).2
    Consistent Tracks c options (⟨t.2.1, t.2.2, s.formula⟩ : Service σ ω) := by
  obtain ⟨prepared, hsteady, hprepared⟩ := hs
  exact ⟨prepared, meets_iff_run.mp (hx prepared) (a, s.checker, s.world) hsteady, hprepared⟩

/-- What is asked keeps a service consistent. -/
theorem consistent_serve (hf : f.Functional Tracks reply) (hs : s.Consistent Tracks c options)
    (request : Request) : (s.serve f request).Consistent Tracks c options := by
  cases request with
  | specify φ =>
      obtain ⟨prepared, hsteady, hprepared⟩ := hs
      rw [serve, run_specify, hsteady.options_eq, hsteady.chain_eq]
      rcases hbuild : Prepared.build options c φ with e | p
      · exact ⟨prepared, hsteady, hprepared⟩
      · refine ⟨some p, ⟨rfl, rfl, rfl, fun _ _ => ?_⟩, ?_⟩
        · exact Sessions.all_empty
        · rw [Option.map_some, Option.map_some, hbuild]
  | check region => exact hs.of_steady (fun _ => checkRegion_steady hf) region
  | checkAll regions => exact hs.of_steady (fun _ => checkRegions_steady hf) regions
  | checkParallel regions workers =>
      exact hs.of_steady (fun _ => checkParallel_steady hf workers) regions

theorem consistent_serveAll (hf : f.Functional Tracks reply) (hs : s.Consistent Tracks c options)
    (requests : List Request) : (s.serveAll f requests).Consistent Tracks c options := by
  induction requests generalizing s with
  | nil => exact hs
  | cons request requests ih => exact ih (consistent_serve hf hs request)

/-- A new checker has no formula. -/
theorem consistent_build {k : Checker σ} (hk : build c options = .ok k) (world : ω) :
    Consistent Tracks c options (⟨k, world, none⟩ : Service σ ω) := by
  obtain ⟨-, -, hbuild⟩ := bind_eq_ok_iff.mp hk
  obtain rfl := pure_eq_ok_iff.mp hbuild
  exact ⟨none, ⟨rfl, rfl, rfl, fun _ h => nomatch h⟩, rfl⟩

/-- Once a formula has been specified the checker is ready for it. -/
theorem Consistent.ready (hs : s.Consistent Tracks c options) {φ : StateFormula}
    (hφ : s.formula = some φ) :
    ∃ p, Prepared.build options c φ = .ok p ∧ s.checker.Ready Tracks c options p := by
  obtain ⟨prepared, hsteady, hprepared⟩ := hs
  rw [hφ, Option.map_some] at hprepared
  obtain ⟨p, rfl, hbuild⟩ := Option.map_eq_some_iff.mp hprepared
  exact ⟨p, hbuild.symm, hsteady.ready⟩

/-- A formula that can be prepared is specified. -/
theorem Consistent.formula_specify (hs : s.Consistent Tracks c options) {φ : StateFormula}
    (hφ : Prepared.build options c φ = .ok p) : (s.serve f (.specify φ)).formula = some φ := by
  obtain ⟨prepared, hsteady, -⟩ := hs
  rw [serve, run_specify, hsteady.options_eq, hsteady.chain_eq, hφ]

end Service

/-! ## A chain that can be checked -/

/-- The property of the chain with the cycle. -/
def resendFormula : StateFormula := .reaching (.label "delivered") ⟨.greaterEqual, mkRat 1 4⟩

/-- All tiers but the bounding processes. -/
def exactOptions : Options := { Options.usual with approximation := false }

open Property in
/-- The chain with the cycle can be checked on a box. -/
theorem exists_resend_check : ∃ c p,
    resendFile.toChain = .ok c ∧
    build c exactOptions =
      .ok (⟨c, exactOptions, none, .empty, .zero⟩ : Checker (List (List Smt.Term))) ∧
    Prepared.build exactOptions c resendFormula = .ok p ∧
    ∀ k : Checker (List (List Smt.Term)), k.Ready (fun s frames => s = frames) c exactOptions p →
      ∃ r k', (checkRegion Smt.completeSolver).run (.fresh (resendBox resendSide), k, ()) =
        (.ok (), r, k', ()) := by
  obtain ⟨c, property, g, hc, hadmissible, hknown, hproperty, hparameters, hmodel, hg⟩ :=
    exists_resend_property
  have hvalid : c.validate = .ok () := (ModelFile.toChain_eq_ok hc).choose_spec.2.2.2.2
  obtain ⟨p, hp, rfl⟩ := Prepared.exists_build exactOptions hproperty hmodel
  refine ⟨c, p, hc, ?_, hp, fun k hk => ?_⟩
  · rw [build, hvalid]
    rfl
  · have hfresh : k.checkParameters p (.fresh (resendBox resendSide)) = .ok () := by
      rw [checkParameters_eq_ok_iff, hk.chain_eq]
      exact ⟨hparameters, hknown⟩
    obtain ⟨hbound, hcovers⟩ := covers_of_checkParameters hc rfl rfl rfl hp hg hfresh
      fun q hq => ⟨q, hadmissible q hq, fun _ _ => rfl⟩
    have hrun := checkRegion_meets Smt.completeSolver_trusted hbound hcovers hknown
      (.fresh (resendBox resendSide), k, ()) ⟨⟨Region.truthful_fresh _, rfl⟩, hk⟩
    rcases hout : (checkRegion Smt.completeSolver).run (.fresh (resendBox resendSide), k, ()) with
      ⟨e | u, r, k', world⟩
    · rw [hout] at hrun
      -- A box with two parameters has few corners.
      obtain ⟨-, -, cause, hcrowded, -⟩ := hrun
      exact absurd hcrowded.roomLimit_le (by decide)
    · exact ⟨r, k', rfl⟩

end Checker

end MarkovRegion
