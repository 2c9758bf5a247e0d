import MarkovRegion.Checker.Basic
import MarkovRegion.Cli.Arguments
import MarkovRegion.Cli.Input
import MarkovRegion.Model.File

/-!
# Running a command

A command reads its files through a function, so that it can be run on any directory.  Its result is
printed only when everything has succeeded.
-/

namespace MarkovRegion.Cli

/-- What a command prints. -/
structure Output where
  /-- The result. -/
  result : String
  /-- What accompanies it. -/
  remarks : String

/-- Lines as one text. -/
def unlines (lines : List String) : String :=
  lines.foldl (fun text line => text ++ line ++ "\n") ""

/-- How a run ends: with output, with an error, because the arguments are not as they should be, or
without an answer. -/
inductive Outcome where
  | success (output : Output)
  | failure (error : CommandError)
  | usage
  | stopped (error : CommandError)

namespace Outcome

/-- The code with which the program ends. -/
def code : Outcome → Nat
  | success _ => 0
  | failure _ => 1
  | usage => 2
  | stopped _ => 101

/-- The text of the result, which is empty unless the run succeeds. -/
def result : Outcome → String
  | success output => output.result
  | _ => ""

/-- The outcome of a computation that may fail. -/
def ofExcept : Except CommandError Output → Outcome
  | .ok output => success output
  | .error e => if e.stops then stopped e else failure e

end Outcome

section Files

variable (files : String → Option String)

/-- The contents of a file. -/
def readFile (path : String) : Except CommandError String :=
  match files path with
  | some text => .ok text
  | none => .error (.unreadableFile path)

/-- The contents of a file, if a path is given. -/
def readFile? : Option String → Except CommandError (Option String)
  | none => .ok none
  | some path => return some (← readFile files path)

/-- The chain of a model file. -/
def readModel (path : String) : Except CommandError ParametricChain := do
  let text ← readFile files path
  ((ModelFile.read text).bind ModelFile.toChain).mapError .model

/-- The options of a file, or the usual ones. -/
def readConfig (path : Option String) : Except CommandError Options := do
  match ← readFile? files path with
  | none => return .usual
  | some text => (Options.read text).mapError .check

/-- The options of a check: those of the file, except what the arguments say. -/
def readCheckOptions (r : CheckRequest) : Except CommandError Options := do
  let options ← readConfig files r.config
  let solver ← match r.solver with
    | none => pure options.solver
    | some name => readSolver name
  return { options with solver, dump := r.dump.or options.dump }

/-- All that a check needs. -/
structure CheckInput where
  /-- The chain. -/
  chain : ParametricChain
  /-- The formula. -/
  formula : StateFormula
  /-- The options. -/
  options : Options
  /-- The regions. -/
  regions : List Region

/-- Read all that a check needs. -/
def readCheck (r : CheckRequest) : Except CommandError CheckInput := do
  let chain ← readModel files r.model
  let target ← readTarget r.target
  let bound ← readBound r.bound
  let options ← readCheckOptions files r
  let regions ← readRegions r.regions (← readFile? files r.regionsFile)
  if regions.isEmpty then throw .noRegions
  return { chain, formula := .reaching target bound, options, regions }

/-- The closed form that is asked for.  The threshold of the formula does not enter it. -/
def closedForm (r : FunctionRequest) : Except CommandError RationalFunction := do
  let chain ← readModel files r.model
  let target ← readTarget r.target
  let options ← readConfig files r.config
  let formula := StateFormula.reaching target ⟨.greaterEqual, 0⟩
  let property ← (Property.build chain formula options.eliminationSizeBound).mapError .check
  property.reachFunction.get.toExcept.mapError .check

end Files

/-- The regions and counts after a check. -/
structure CheckReport where
  /-- The formula. -/
  formula : StateFormula
  /-- The regions. -/
  regions : List Region
  /-- The counts. -/
  statistics : Statistics

/-- The report as a document. -/
def CheckReport.toJson (r : CheckReport) : Json :=
  .ofMembers
    [("property", .ofString r.formula.write), ("regions", .array (r.regions.map Region.report)),
      ("statistics", r.statistics.report .zero)]

/-- What is printed of a report. -/
def CheckReport.output (r : CheckReport) (json stats : Bool) : Output where
  result := unlines (if json then [r.toJson.pretty] else r.regions.map Region.line)
  remarks := unlines (if stats then r.statistics.lines .zero else [])

section Run

variable {σ ω : Type}

/-- Check the regions.  All sessions are closed at the end. -/
def checkInput (f : Smt.SolverFactory σ ω) (input : CheckInput) (jobs : Nat) (world : ω) :
    Except CheckError CheckReport × ω :=
  match Checker.build input.chain input.options with
  | .error e => (.error e, world)
  | .ok c =>
    match (Checker.specify f input.formula).run (c, world) with
    | (.error e, c, world) => (.error e, c.close f world)
    | (.ok (), c, world) =>
      let (outcome, regions, c, world) :=
        (Checker.checkParallel f jobs).run (input.regions, c, world)
      (outcome.map fun () => ⟨input.formula, regions, c.statistics⟩, c.close f world)

variable (files : String → Option String) (factory : Options → Smt.SolverFactory σ ω)

/-- Run a command.  The solvers are those that the options ask for. -/
def Command.run (command : Command) (world : ω) : Outcome × ω :=
  match command with
  | .function r =>
    (.ofExcept (do
      let text ← (← closedForm files r).write.mapError .model
      return ⟨unlines [text], ""⟩), world)
  | .check r =>
    match readCheck files r with
    | .error e => (.ofExcept (.error e), world)
    | .ok input =>
      let (report, world) := checkInput (factory input.options) input r.jobs world
      (.ofExcept ((report.map fun report => report.output r.json r.stats).mapError .check), world)

/-- Run the program on its arguments. -/
def run (args : List String) (world : ω) : Outcome × ω :=
  match Command.read? args with
  | none => (.usage, world)
  | some command => command.run files factory world

end Run

end MarkovRegion.Cli
