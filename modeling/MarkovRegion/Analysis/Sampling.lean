import MarkovRegion.Analysis.Property
import MarkovRegion.Analysis.Reachability

/-!
# Sampling

The property is decided at single points of a region: by the closed form of the probability where it
is defined, and otherwise by interval iteration on the chain at that point.  The points are the
corners of the region and then its midpoint, until both a satisfying and a violating one are known.

An `Arena` stores each weight of a simplified model once.  Its states are followed by a target and a
sink, which takes what is missing in a row.
-/

namespace MarkovRegion

/-- The weights of a simplified model, each stored once. -/
structure Arena where
  /-- The distinct weights, in the order of their first use. -/
  functions : List RationalFunction
  /-- For each state the columns with the numbers of their weights. -/
  rows : Array (List (Nat × Nat))
  /-- The initial state. -/
  initial : Nat

namespace Arena

/-- The weights of a state, the one-step weight at the column of the target. -/
def entriesOf (m : SimplifiedModel) (state : Nat) : Row RationalFunction :=
  let oneStep := m.system.target state
  m.system.row state ++ (if oneStep.isZero then [] else [(m.system.states, oneStep)])

/-- The arena of a model. -/
def ofModel (m : SimplifiedModel) : Arena :=
  let entries := (List.range m.system.states).map (entriesOf m)
  let functions := (entries.flatten.map Prod.snd).eraseDups
  { functions
    rows := (entries.map fun row => row.map fun e => (e.1, functions.idxOf e.2)).toArray
    initial := m.initial }

/-- The number of states without target and sink. -/
def states (a : Arena) : Nat := a.rows.size

/-- The target. -/
def target (a : Arena) : Nat := a.states

/-- The sink. -/
def sink (a : Arena) : Nat := a.states + 1

/-- The weight of a number. -/
def function (a : Arena) (index : Nat) : RationalFunction := a.functions.getD index .zero

/-- The columns of a state with their weights. -/
def row (a : Arena) (state : Nat) : Row RationalFunction :=
  (a.rows.getD state []).map fun e => (e.1, a.function e.2)

/-- The parameters in the weights of a state, in their order. -/
def rowParameters (a : Arena) (state : Nat) : List Parameter :=
  orderedKeys ((a.row state).flatMap fun e => e.2.parameters)

/-- The model has no meaning at a point. -/
def illDefined (point : Valuation) (reason : String) : CheckError :=
  .illDefinedPoint point.write reason

/-- The value of a function at a point; a pole makes the point ill-defined. -/
def evaluate (f : RationalFunction) (point : Valuation) : Except CheckError Rat :=
  match f.evaluate point with
  | .ok value => .ok value
  | .error (.divisionByZero what) => .error (illDefined point ("division by zero in " ++ what))
  | .error e => .error (.model e)

/-- The value of a weight at a point, which must be a probability. -/
def weigh (f : RationalFunction) (point : Valuation) : Except CheckError Rat := do
  let value ← evaluate f point
  if value < 0 || 1 < value then
    throw (illDefined point
      ("weight " ++ f.text ++ " evaluates to " ++ Coefficient.writeFraction value))
  return value

/-- The exact values of a row at a point and what is missing to one. -/
def instantiateRow (a : Arena) (state : Nat) (point : Valuation) :
    Except CheckError (Row Rat × Rat) := do
  let entries ← (a.row state).mapM fun e => return (e.1, ← weigh e.2 point)
  let missing := 1 - entries.foldl (fun sum e => sum + e.2) 0
  if missing < 0 then
    throw (illDefined point ("row of state " ++ toString state ++ " sums above one"))
  return (entries, missing)

variable {α : Type} [Scalar α]

/-- A row of scalars: entries with value zero are dropped, and the sink takes what is missing. -/
def scalarRow (a : Arena) (row : Row Rat × Rat) : Row α :=
  (row.1.filter fun e => e.2 ≠ 0).map (fun e => (e.1, Scalar.ofRat e.2))
    ++ (if row.2 = 0 then [] else [(a.sink, Scalar.ofRat row.2)])

/-- The rows of the target and the sink. -/
def finalRows (a : Arena) : List (Row α) := [[(a.target, Weight.one)], [(a.sink, Weight.one)]]

/-- The chain at a point: the states, the target and the sink. -/
def instantiate (a : Arena) (point : Valuation) : Except CheckError (TransitionMatrix α) := do
  let rows ← (List.range a.states).mapM fun s => return a.scalarRow (← a.instantiateRow s point)
  liftModel (TransitionMatrix.ofRows (a.states + 2) (rows ++ a.finalRows))

end Arena

/-- How the property is decided at points where the closed form does not serve. -/
structure Sampler (α : Type) where
  /-- The weights. -/
  arena : Arena
  /-- When iterations end. -/
  settings : IterationSettings α
  /-- How near to the threshold a value counts as on it. -/
  tolerance : α

/-- Record whether the property holds at a point. -/
def Region.record (r : Region) (holds : Bool) (point : Valuation) : Region :=
  if holds then r.recordSat point else r.recordViolated point

/-- Whether points of both kinds are known. -/
def Region.hasBoth (r : Region) : Bool := r.verdict = .existsBoth

/-- Decide points one after the other until points of both kinds are known.  The region keeps what
is learned before a failure. -/
def Region.sample (holds : Valuation → Except CheckError Bool) :
    List Valuation → Region → Region × Except CheckError Bool
  | [], r => (r, .ok false)
  | point :: points, r =>
    match holds point with
    | .error e => (r, .error e)
    | .ok found =>
      let r := r.record found point
      if r.hasBoth then (r, .ok true) else r.sample holds points

/-- The points at which a box is sampled: its corners, then its midpoint. -/
def Box.samplePoints (b : Box) : Except RegionError (List Valuation) := do
  return (← b.allVertices) ++ [b.midpoint]

namespace Sampler

variable {α : Type} [Scalar α]

/-- The sampler of a model. -/
def ofModel (m : SimplifiedModel) (settings : IterationSettings α) (tolerance : α) : Sampler α where
  arena := .ofModel m
  settings := settings
  tolerance := tolerance

/-- Decide the property by iteration on the chain at a point. -/
def holdsNumerically (s : Sampler α) (bound : Bound) (point : Valuation) :
    Except CheckError Bool := do
  let matrix ← s.arena.instantiate point
  let bounds := Reachability.ofChain matrix [s.arena.target] s.settings
  let initial := s.arena.initial
  match bound.classify (Reachability.valueAt bounds.lower initial)
      (Reachability.valueAt bounds.upper initial) with
  | .allSatisfy => return true
  | .allViolate => return false
  | .inconclusive => return bound.holdsNear (bounds.midpoint initial) s.tolerance

/-- Decide the property at a point, by the closed form if it is wanted, usable and defined there.
-/
def holdsAt (s : Sampler α) (p : Property) (viaFunction : Bool) (point : Valuation) :
    Except CheckError Bool :=
  match if viaFunction then p.reachFunction.get.function? else none with
  | none => s.holdsNumerically p.bound point
  | some f =>
    match Arena.evaluate f point with
    | .ok value => .ok (p.bound.holds value)
    | .error (.illDefinedPoint ..) => s.holdsNumerically p.bound point
    | .error e => .error e

/-- Sample all points of a region. -/
def samplePoints (s : Sampler α) (p : Property) (viaFunction : Bool) (r : Region) :
    Region × Except CheckError Bool :=
  match r.box.samplePoints with
  | .error e => (r, .error (.region e))
  | .ok points => r.sample (s.holdsAt p viaFunction) points

end Sampler

end MarkovRegion
