import MarkovRegion.Checker.Tiers

/-!
# Checkers

A checker holds a chain and, once a formula has been specified, what is prepared for it.  Regions
are checked one after the other, or in equal parts by several workers.  Each worker has sessions of
its own, which are closed when it has finished; the sessions of the checker itself stay open until a
new formula is specified or the checker is closed.

A check that fails is not counted and leaves the later regions of the same worker as they are.
-/

namespace MarkovRegion

/-- A list in parts of one size, the last of which may be shorter.  The size is one more than the
given number. -/
def partsOf {α : Type} (size : Nat) (xs : List α) : List (List α) :=
  if xs.isEmpty then [] else xs.take (size + 1) :: partsOf size (xs.drop (size + 1))
termination_by xs.length
decreasing_by
  cases xs with
  | nil => simp_all
  | cons x xs =>
    simp only [List.length_drop, List.length_cons]
    omega

/-- Do the same for all elements of a list until it fails for one. -/
def inTurn {ε α S : Type} (attempt : Attempt ε (α × S) Unit) : Attempt ε (List α × S) Unit :=
  ExceptT.mk fun (xs, s) => go xs s
where
  /-- The outcome with the elements and the state after it. -/
  go : List α → S → Except ε Unit × List α × S
    | [], s => (.ok (), [], s)
    | x :: xs, s =>
      match attempt.run (x, s) with
      | (.error e, x, s) => (.error e, x :: xs, s)
      | (.ok (), x, s) =>
        let (outcome, xs, s) := go xs s
        (outcome, x :: xs, s)

/-- What a worker has: its sessions, its counts, and the world of the solvers. -/
structure Workplace (σ ω : Type) where
  /-- The sessions. -/
  sessions : Sessions σ
  /-- The counts. -/
  statistics : Statistics
  /-- The world of the solvers. -/
  world : ω

namespace Workplace

variable {σ ω : Type}

/-- The workplace of a new worker. -/
def fresh (world : ω) : Workplace σ ω := ⟨.empty, .zero, world⟩

variable (options : Options) (p : Prepared) (f : Smt.SolverFactory σ ω) (worker : Nat)

/-- Check a region, and count it if that succeeds. -/
def checkRegion : Attempt CheckError (Region × Workplace σ ω) Unit :=
  ExceptT.mk fun (region, w) =>
    match (Inspection.escalate options p f worker).run ⟨region, w.sessions, w.world⟩ with
    | (.error e, i) => (.error e, i.region, { w with sessions := i.sessions, world := i.world })
    | (.ok tier, i) =>
      (.ok (), i.region, ⟨i.sessions, w.statistics.record tier i.region.verdict, i.world⟩)

/-- All the work of a worker on its part of the regions. -/
def work (part : List Region) (world : ω) : Except CheckError Statistics × List Region × ω :=
  let (outcome, regions, w) :=
    (inTurn (checkRegion options p f worker)).run (part, fresh world)
  (outcome.map fun () => w.statistics, regions, w.sessions.close f w.world)

/-- The work of all workers, who are numbered from the given number on. -/
def workAll : Nat → List (List Region) → ω →
    List (Except CheckError Statistics) × List Region × ω
  | _, [], world => ([], [], world)
  | worker, part :: parts, world =>
    let (outcome, regions, world) := work options p f worker part world
    let (outcomes, others, world) := workAll (worker + 1) parts world
    (outcome :: outcomes, regions ++ others, world)

end Workplace

/-- Add the counts of workers up to the first that failed. -/
def Statistics.mergeAll (s : Statistics) :
    List (Except CheckError Statistics) → Except CheckError Unit × Statistics
  | [] => (.ok (), s)
  | .error e :: _ => (.error e, s)
  | .ok t :: rest => (s.merge t).mergeAll rest

/-- A chain whose regions are checked. -/
structure Checker (σ : Type) where
  /-- The chain. -/
  chain : ParametricChain
  /-- What the checker may do. -/
  options : Options
  /-- What is prepared for the formula, once one has been specified. -/
  prepared : Option Prepared
  /-- The open sessions. -/
  sessions : Sessions σ
  /-- The counts of all checks. -/
  statistics : Statistics

namespace Checker

variable {σ ω : Type}

/-- The checker of a chain. -/
def build (chain : ParametricChain) (options : Options) : Except CheckError (Checker σ) := do
  liftModel chain.validate
  return { chain, options, prepared := none, sessions := .empty, statistics := .zero }

/-- The parameters of the chain. -/
def parameters (c : Checker σ) : List Parameter := c.chain.parameters

/-- Whether regions can be checked for a formula. -/
def canHandle (formula : StateFormula) : Bool := formula.reachability?.isSome

/-- What is prepared for the formula. -/
def specified (c : Checker σ) : Except CheckError Prepared :=
  match c.prepared with
  | some p => .ok p
  | none => .error .noFormula

/-- The probability of the initial state as a function of the parameters. -/
def reachabilityFunction (c : Checker σ) : Except CheckError RationalFunction := do
  (← c.specified).property.reachFunction.get.toExcept

/-- A region must bound every parameter that the property depends on, and only parameters of the
chain. -/
def checkParameters (c : Checker σ) (p : Prepared) (r : Region) : Except CheckError Unit :=
  let bounded := r.box.parameters
  if p.parameters.all bounded.contains && bounded.all c.parameters.contains then .ok ()
  else .error (.regionMismatch (bounded.map Parameter.name) (p.parameters.map Parameter.name))

variable (f : Smt.SolverFactory σ ω)

/-- Specify the formula.  The sessions of the last formula are closed. -/
def specify (formula : StateFormula) : Attempt CheckError (Checker σ × ω) Unit :=
  ExceptT.mk fun (c, world) =>
    match Prepared.build c.options c.chain formula with
    | .error e => (.error e, c, world)
    | .ok p =>
      (.ok (), { c with prepared := some p, sessions := .empty }, c.sessions.close f world)

/-- Check a region. -/
def checkRegion : Attempt CheckError (Region × Checker σ × ω) Unit :=
  ExceptT.mk fun (region, c, world) =>
    match do let p ← c.specified; c.checkParameters p region; return p with
    | .error e => (.error e, region, c, world)
    | .ok p =>
      let (outcome, region, w) := (Workplace.checkRegion c.options p f 0).run
        (region, ⟨c.sessions, c.statistics, world⟩)
      (outcome, region, { c with sessions := w.sessions, statistics := w.statistics }, w.world)

/-- Check regions one after the other. -/
def checkRegions : Attempt CheckError (List Region × Checker σ × ω) Unit :=
  inTurn (checkRegion f)

/-- Check regions in equal parts. -/
def checkParts (p : Prepared) (workers : Nat) :
    Attempt CheckError (List Region × Checker σ × ω) Unit :=
  ExceptT.mk fun (regions, c, world) =>
    let parts := partsOf ((regions.length - 1) / workers) regions
    let (outcomes, regions, world) := Workplace.workAll c.options p f 0 parts world
    let (outcome, statistics) := c.statistics.mergeAll outcomes
    (outcome, regions, { c with statistics }, world)

/-- Check regions by several workers, if there is more than one region.  Before the work starts the
parameters of all regions are checked. -/
def checkParallel (workers : Nat) : Attempt CheckError (List Region × Checker σ × ω) Unit := do
  let (regions, c, _) ← get
  if workers ≤ 1 || regions.length ≤ 1 then checkRegions f
  else
    let p ← Attempt.ofExcept c.specified
    Attempt.ofExcept (regions.forM (c.checkParameters p))
    checkParts f p workers

/-- Close the sessions. -/
def close (c : Checker σ) (world : ω) : ω := c.sessions.close f world

end Checker

end MarkovRegion
