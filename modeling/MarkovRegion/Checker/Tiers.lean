import MarkovRegion.Analysis.Approximation
import MarkovRegion.Checker.Options
import MarkovRegion.Checker.Statistics
import MarkovRegion.Smt.Session

/-!
# Tiers

A region is settled by the cheapest tier that can do it: a constant probability, sampling, a
bounding process, and a solver on the reduced and on all equations.  A tier that does not settle a
region may still leave a point behind, which the later ones use.

`escalate` tries the tiers in this order.  What is learned before a failure stays with the region,
and the sessions that were started stay open.
-/

namespace MarkovRegion

/-- A property with the tiers that are built once for it. -/
structure Prepared where
  /-- The property. -/
  property : Property
  /-- How single points are decided. -/
  sampler : Sampler Float
  /-- The bounding processes, if all weights are linear. -/
  approximator : Option (Approximator Float)

namespace Prepared

/-- Prepare the checks of a property. -/
def ofProperty (options : Options) (property : Property) : Except CheckError Prepared := do
  let linear ← liftModel property.model.linear
  return { property
           sampler := .ofModel property.model options.settings options.tolerance
           approximator :=
             if linear then some (.ofModel property.model options.settings) else none }

/-- Prepare the checks of a formula on a chain. -/
def build (options : Options) (c : ParametricChain) (formula : StateFormula) :
    Except CheckError Prepared := do
  ofProperty options (← Property.build c formula options.eliminationSizeBound)

/-- The parameters that a region must bound. -/
def parameters (p : Prepared) : List Parameter := p.property.model.parameters

/-- What a session of a kind is told. -/
def encoding (p : Prepared) (options : Options) : Smt.SessionKind → Smt.Encoding
  | .subsystem =>
    .subsystem p.property.model options.subsystemFanBound options.eliminationSizeBound
  | .full => .full p.property.model

/-- Whether the property holds at a point. -/
def holdsAt (p : Prepared) (options : Options) : Valuation → Except CheckError Bool :=
  p.sampler.holdsAt p.property options.sampleViaFunction

end Prepared

/-- The sessions of a worker, each started when it is first needed. -/
structure Sessions (σ : Type) where
  /-- The session on the reduced system. -/
  subsystem : Option (Smt.Session σ)
  /-- The session on all equations. -/
  full : Option (Smt.Session σ)

namespace Sessions

variable {σ ω : Type}

/-- No session has been started. -/
def empty : Sessions σ := ⟨none, none⟩

/-- The session of a kind. -/
def get? (s : Sessions σ) : Smt.SessionKind → Option (Smt.Session σ)
  | .subsystem => s.subsystem
  | .full => s.full

/-- Set the session of a kind. -/
def set (s : Sessions σ) (session : Smt.Session σ) : Smt.SessionKind → Sessions σ
  | .subsystem => { s with subsystem := some session }
  | .full => { s with full := some session }

/-- Close a session that was started. -/
def closeOne (f : Smt.SolverFactory σ ω) (world : ω) : Option (Smt.Session σ) → ω
  | some session => f.close session.solver world
  | none => world

/-- Close all sessions. -/
def close (f : Smt.SolverFactory σ ω) (s : Sessions σ) (world : ω) : ω :=
  closeOne f (closeOne f world s.subsystem) s.full

end Sessions

/-- A region while it is checked. -/
structure Inspection (σ ω : Type) where
  /-- The region. -/
  region : Region
  /-- The sessions of the worker. -/
  sessions : Sessions σ
  /-- The world of the solvers. -/
  world : ω

namespace Inspection

variable {σ ω : Type}

/-- Work on the region alone. -/
def onRegion {α : Type} (x : Region → Region × Except CheckError α) :
    Attempt CheckError (Inspection σ ω) α :=
  ExceptT.mk fun i =>
    let (region, outcome) := x i.region
    (outcome, { i with region })

/-- Work in the world of the solvers alone. -/
def inWorld {α : Type} (x : Attempt CheckError ω α) : Attempt CheckError (Inspection σ ω) α :=
  ExceptT.mk fun i =>
    let (outcome, world) := x.run i.world
    (outcome, { i with world })

/-- Conclude a verdict on the region. -/
def concludes (verdict : Verdict) : Attempt RegionError (Inspection σ ω) Unit := do
  let i ← get
  let region ← Attempt.ofExcept (i.region.conclude verdict)
  set { i with region }

section Tiers

variable (options : Options) (p : Prepared)

/-- Decide the property at a point of the region; whether points of both kinds are known then. -/
def decidePoint (point : Valuation) : Attempt CheckError (Inspection σ ω) Bool :=
  onRegion fun r => r.sample (p.holdsAt options) [point]

/-- Settle the region if the probability does not depend on the parameters. -/
def byConstantResult : Attempt CheckError (Inspection σ ω) Bool :=
  match p.property.model.constant? with
  | none => return false
  | some value => do
    Attempt.mapError CheckError.region
      (concludes (if p.property.bound.holds value then .allSat else .allViolated))
    return true

/-- Settle the region by a satisfying and a violating point. -/
def bySampling : Attempt CheckError (Inspection σ ω) Bool :=
  if options.sampling then
    onRegion (p.sampler.samplePoints p.property options.sampleViaFunction)
  else return false

/-- Settle the region by its bounding process. -/
def byApproximation : Attempt CheckError (Inspection σ ω) Bool :=
  match if options.approximation then p.approximator else none with
  | none => return false
  | some a =>
    onRegion fun r =>
      match a.check p.property.bound r with
      | .ok (outcome, r) => (r, .ok outcome.proven)
      | .error e => (r, .error e)

variable (f : Smt.SolverFactory σ ω) (worker : Nat)

/-- Start a session of a kind. -/
def startSession (kind : Smt.SessionKind) : Attempt CheckError ω (Smt.Session σ) := do
  let solver ← Smt.liftSolver (f.create kind worker)
  Smt.Session.start f solver (p.encoding options kind)

/-- The session of a kind, which is started if it is not open. -/
def session (kind : Smt.SessionKind) :
    Attempt CheckError (Inspection σ ω) (Smt.Session σ) := do
  match (← get).sessions.get? kind with
  | some session => return session
  | none =>
    let session ← inWorld (startSession options p f worker kind)
    modify fun i => { i with sessions := i.sessions.set session kind }
    return session

/-- Ask a session about a goal on the region. -/
def query (kind : Smt.SessionKind) (session : Smt.Session σ) (goal : Goal) :
    Attempt CheckError (Inspection σ ω) Smt.QueryAnswer :=
  ExceptT.mk fun i =>
    let (answer, (session, world)) :=
      (Smt.Session.query f i.region.box p.property.bound goal).run (session, i.world)
    (answer, { i with sessions := i.sessions.set session kind, world })

/-- Use the answer to a query: a proof settles the region unless a known point contradicts it, and a
counterexample is decided like any other point unless the model has no meaning there. -/
def settle (goal : Goal) : Smt.QueryAnswer → Attempt CheckError (Inspection σ ω) Bool
  | .proven => do
    match ← Attempt.outcome (concludes goal.verdict) with
    | .ok () => return true
    | .error _ => return false
  | .counterexample point => do
    match ← Attempt.outcome (decidePoint options p point) with
    | .ok both => return both
    | .error (.illDefinedPoint ..) => return false
    | .error e => throw e
  | .inconclusive _ => return false

/-- Settle the region by a solver.  If nothing is known, the midpoint decides what to prove. -/
def bySolver (kind : Smt.SessionKind) : Attempt CheckError (Inspection σ ω) Bool := do
  let session ← session options p f worker kind
  let region := (← get).region
  if region.verdict = .unknown then
    let _ ← decidePoint options p region.box.midpoint
  match (← get).region.verdict with
  | .existsSat => settle options p .allSat (← query p f kind session .allSat)
  | .existsViolated => settle options p .allViolated (← query p f kind session .allViolated)
  | _ => return true

/-- The tiers in the order of their cost. -/
def tiers : List (Tier × Attempt CheckError (Inspection σ ω) Bool) :=
  [(.constantResult, byConstantResult p),
    (.sampling, bySampling options p),
    (.approximation, byApproximation options p),
    (.subsystemSmt,
      if options.subsystemSmt then bySolver options p f worker .subsystem else return false),
    (.fullSmt, if options.fullSmt then bySolver options p f worker .full else return false)]

end Tiers

/-- The first tier that settles the region. -/
def firstSettled :
    List (Tier × Attempt CheckError (Inspection σ ω) Bool) →
      Attempt CheckError (Inspection σ ω) (Option Tier)
  | [] => return none
  | (tier, attempt) :: rest => do
    if ← attempt then return some tier else firstSettled rest

/-- Try the tiers until one settles the region; a settled region is left as it is. -/
def escalate (options : Options) (p : Prepared) (f : Smt.SolverFactory σ ω) (worker : Nat) :
    Attempt CheckError (Inspection σ ω) (Option Tier) := do
  if (← get).region.verdict.isTerminal then return none
  else firstSettled (tiers options p f worker)

end Inspection

end MarkovRegion
