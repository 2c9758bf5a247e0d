import MarkovRegion.Analysis.Approximation
import MarkovRegion.Smt.Encoding
import MarkovRegion.Smt.Solver

/-!
# Sessions

A session is a solver to which the declarations and assertions of an encoding have been told.  A
query asks, in a frame of its own, for a point of a region at which a goal fails.  If there is none,
the goal is proven.
-/

namespace MarkovRegion

/-- The name of a goal in remarks. -/
def Goal.title : Goal → String
  | allSat => "ProveAllSat"
  | allViolated => "ProveAllViolated"

/-- The verdict of a proven goal. -/
def Goal.verdict : Goal → Verdict
  | allSat => .allSat
  | allViolated => .allViolated

namespace Smt

/-- The answer to a query. -/
inductive QueryAnswer where
  /-- The goal holds at every point. -/
  | proven
  /-- A point at which the goal fails. -/
  | counterexample (point : Valuation)
  | inconclusive (reason : String)

/-- A failure of a solver within a check. -/
def liftSolver {σ α : Type} (x : Attempt String σ α) : Attempt CheckError σ α :=
  Attempt.mapError CheckError.solver x

section Query

variable {σ : Type} (s : Solver σ) (e : Encoding)

/-- Assert terms one after the other. -/
def assertAll : List Term → Attempt CheckError σ Unit
  | [] => pure ()
  | t :: ts => do
    liftSolver (s.assert t)
    assertAll ts

/-- Declare variables one after the other. -/
def declareAll : List (String × ValueSort) → Attempt CheckError σ Unit
  | [] => pure ()
  | (name, sort) :: rest => do
    liftSolver (s.declare name sort)
    declareAll rest

/-- Tell a solver the encoding. -/
def tellEncoding : Attempt CheckError σ Unit := do
  declareAll s e.declarations
  assertAll s e.assertions

/-- The term that a goal fails for the probability of the initial state. -/
def goalFails (bound : Bound) (goal : Goal) : Term :=
  let holds := termOfBound bound (.var e.initialVariable)
  match goal with
  | .allSat => .not holds
  | .allViolated => holds

/-- The value of a parameter at the point of a model: a parameter that is not encoded takes its
least value. -/
def witnessValue? (m : Model) (p : Parameter) (side : Interval) : Option Rat :=
  match e.nameOf? p with
  | some name => m.real? name
  | none => some side.lower

/-- The point of a box that a model describes, if all its values are exact. -/
def witness? (b : Box) (m : Model) : Option Valuation := do
  let values ← b.sides.entries.mapM fun (p, side) => return (p, ← witnessValue? e m p side)
  return .ofList values

/-- What the answer to a check says about a goal. -/
def interpret (b : Box) : SatResult × Option Model → QueryAnswer
  | (.unsat, _) => .proven
  | (.sat, none) => .inconclusive "sat without a model"
  | (.sat, some m) =>
    match witness? e b m with
    | some point => .counterexample point
    | none => .inconclusive "model value not rational"
  | (.unknown reason, _) => .inconclusive reason

/-- A query within its frame. -/
def queryInFrame (b : Box) (bound : Bound) (goal : Goal) : Attempt CheckError σ QueryAnswer := do
  ExceptT.lift (s.comment (goal.title ++ " on " ++ b.write))
  assertAll s (← Attempt.ofExcept (liftRegion (e.boxTerms b)))
  liftSolver (s.assert (goalFails e bound goal))
  let answer ← liftSolver (s.check (e.parameters.map fun p => (p.2, .real)))
  return interpret e b answer

/-- A query in a frame of its own, which is closed also if the query fails. -/
def query (b : Box) (bound : Bound) (goal : Goal) : Attempt CheckError σ QueryAnswer := do
  liftSolver s.push
  let answer ← Attempt.outcome (queryInFrame s e b bound goal)
  liftSolver s.pop
  Attempt.ofExcept answer

end Query

/-- A solver that has been told an encoding. -/
structure Session (σ : Type) where
  /-- The state of the solver. -/
  solver : σ
  /-- The encoding. -/
  encoding : Encoding

variable {σ ω : Type}

/-- Start a session with a solver.  If it fails the solver is closed. -/
def Session.start (f : SolverFactory σ ω) (solver : σ) (encoding : Encoding) :
    Attempt CheckError ω (Session σ) :=
  ExceptT.mk fun world =>
    match (tellEncoding f.solver encoding).run (solver, world) with
    | (.ok (), (solver, world)) => (.ok { solver, encoding }, world)
    | (.error e, (solver, world)) => (.error e, f.close solver world)

/-- A query of a session. -/
def Session.query (f : SolverFactory σ ω) (b : Box) (bound : Bound) (goal : Goal) :
    Attempt CheckError (Session σ × ω) QueryAnswer :=
  ExceptT.mk fun (session, world) =>
    let (answer, (solver, world)) :=
      (Smt.query f.solver session.encoding b bound goal).run (session.solver, world)
    (answer, ({ session with solver }, world))

end Smt

end MarkovRegion
