import MarkovRegion.Analysis.Sampling

/-!
# Approximation by a bounding decision process

In the bounding process of a region each state has one choice for each corner of the region over the
parameters of its row.  If the weights are linear, the row at any point of the region is a convex
combination of the rows at those corners, so the minimal and maximal probabilities of the process
enclose the probability at every point.
-/

namespace MarkovRegion

/-- A statement about all points of a region. -/
inductive Goal where
  | allSat
  | allViolated
  deriving DecidableEq, Repr

/-- The directions whose value can prove a goal. -/
def Goal.directions (comparison : Comparison) : Goal → List Direction
  | goal =>
    if comparison = .equal then [.minimize, .maximize]
    else
      match goal, comparison.isLower with
      | .allSat, true | .allViolated, false => [.minimize]
      | .allSat, false | .allViolated, true => [.maximize]

/-- The goals that are still open under a verdict. -/
def Verdict.goals : Verdict → List Goal
  | existsSat => [.allSat]
  | existsViolated => [.allViolated]
  | unknown => [.allSat, .allViolated]
  | _ => []

/-- Bounds that were computed for a region; a side that was not needed is absent. -/
structure ApproximationOutcome (α : Type) where
  /-- The minimal probability. -/
  lower : Option α
  /-- The maximal probability. -/
  upper : Option α
  /-- Whether a statement about all points was proven. -/
  proven : Bool

/-- The bounding processes of regions. -/
structure Approximator (α : Type) where
  /-- The weights. -/
  arena : Arena
  /-- When iterations end. -/
  settings : IterationSettings α

namespace Approximator

variable {α : Type} [Scalar α]

/-- The bounding processes of a model. -/
def ofModel (m : SimplifiedModel) (settings : IterationSettings α) : Approximator α where
  arena := .ofModel m
  settings := settings

/-- Whether two rows have the same entries. -/
def sameRow (r s : Row α) : Bool :=
  r.length == s.length && (r.zip s).all fun (a, b) => a.1 == b.1 && Scalar.same a.2 b.2

/-- Add a row to the choices, unless it is one of them. -/
def addChoice (choices : List (Row α)) (row : Row α) : List (Row α) :=
  if choices.any fun choice => sameRow choice row then choices else choices ++ [row]

/-- The choices of a state: its distinct rows at the corners over its parameters. -/
def choicesOf (a : Approximator α) (box : Box) (state : Nat) :
    Except CheckError (List (Row α)) := do
  let corners ← liftRegion (box.vertices (a.arena.rowParameters state))
  let rows ← corners.mapM fun corner =>
    return a.arena.scalarRow (← a.arena.instantiateRow state corner)
  return rows.foldl addChoice []

/-- The bounding process of a box: the states, the target and the sink. -/
def process (a : Approximator α) (box : Box) : Except CheckError (DecisionProcess α) := do
  let groups ← (List.range a.arena.states).mapM (a.choicesOf box)
  let matrix ← liftModel (TransitionMatrix.ofGroups (a.arena.states + 2)
    (groups ++ a.arena.finalRows.map fun row => [row]))
  liftModel (DecisionProcess.build matrix a.arena.initial)

/-- A bound on the optimal probability of the initial state from outside. -/
def solve (a : Approximator α) (p : DecisionProcess α) (direction : Direction) : α :=
  let bounds := Reachability.ofProcess p.transitions [a.arena.target] direction a.settings
  match direction with
  | .minimize => Reachability.valueAt bounds.lower p.initial
  | .maximize => Reachability.valueAt bounds.upper p.initial

/-- Compute the value of a direction, unless it is known. -/
def fill (value : Direction → α) (o : ApproximationOutcome α) (direction : Direction) :
    ApproximationOutcome α :=
  match direction with
  | .minimize => { o with lower := some (o.lower.getD (value .minimize)) }
  | .maximize => { o with upper := some (o.upper.getD (value .maximize)) }

/-- Conclude a statement about all points, unless a known point contradicts it. -/
def settle (o : ApproximationOutcome α) (r : Region) (verdict : Verdict) :
    ApproximationOutcome α × Region :=
  match r.conclude verdict with
  | .ok r => ({ o with proven := true }, r)
  | .error _ => (o, r)

/-- Try goals one after the other, with the values of the directions they need. -/
def pursue (bound : Bound) (value : Direction → α) :
    List Goal → ApproximationOutcome α → Region → ApproximationOutcome α × Region
  | [], o, r => (o, r)
  | goal :: goals, o, r =>
    let o := (goal.directions bound.comparison).foldl (fill value) o
    match bound.classify (o.lower.getD Weight.zero) (o.upper.getD Weight.one) with
    | .allSatisfy => settle o r .allSat
    | .allViolate => settle o r .allViolated
    | .inconclusive => pursue bound value goals o r

/-- Try to prove a statement about all points with the values of a bounding process. -/
def decideWith (bound : Bound) (value : Direction → α) (r : Region) :
    ApproximationOutcome α × Region :=
  pursue bound value r.verdict.goals ⟨none, none, false⟩ r

/-- Try to prove a statement about all points of a region. -/
def check (a : Approximator α) (bound : Bound) (r : Region) :
    Except CheckError (ApproximationOutcome α × Region) := do
  let p ← a.process r.box
  return decideWith bound (a.solve p) r

end Approximator

end MarkovRegion
