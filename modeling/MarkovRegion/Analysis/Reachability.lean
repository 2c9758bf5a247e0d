import MarkovRegion.Analysis.Qualitative

/-!
# Numeric reachability by interval iteration

A lower and an upper vector of values are improved side by side.  The lower one starts at one on the
states that are known to have value one and at zero elsewhere; the upper one starts at zero on the
states that are known to have value zero and at one elsewhere.  Each sweep applies the Bellman
operator state after state, and a value only moves towards the other vector.  So the vectors enclose
the exact values after every sweep, converged or not.

The computation is written for any scalar: with doubles it is what is run, and with rationals it is
the same in exact arithmetic.
-/

namespace MarkovRegion

/-- Which of the choices of a state counts. -/
inductive Direction where
  | minimize
  | maximize
  deriving DecidableEq, Repr

/-- When an iteration ends. -/
structure IterationSettings (α : Type) where
  /-- The width of the enclosure that is good enough. -/
  precision : α
  /-- The largest number of sweeps. -/
  maxIterations : Nat

/-- Lower and upper values of all states. -/
structure ReachabilityBounds (α : Type) where
  /-- The lower values. -/
  lower : Array α
  /-- The upper values. -/
  upper : Array α
  /-- The number of sweeps. -/
  iterations : Nat
  /-- Whether the enclosure is as narrow as asked for. -/
  converged : Bool

namespace Reachability

variable {α : Type} [Scalar α]

/-- The value of a state in a vector. -/
def valueAt (values : Array α) (state : Nat) : α := values.getD state Weight.zero

/-- The expected value of a row. -/
def rowValue (values : Array α) (row : Row α) : α :=
  row.foldl (fun sum e => Weight.add sum (Weight.mul e.2 (valueAt values e.1))) Weight.zero

/-- Cut a value to the range from zero to one. -/
def clamp (x : α) : α :=
  if Scalar.lt x Weight.zero then Weight.zero
  else if Scalar.lt Weight.one x then Weight.one
  else x

/-- The best expected value of the choices of a state. -/
def bellman (m : TransitionMatrix α) (direction : Direction) (values : Array α) (state : Nat) : α :=
  let outcomes := (m.choices state).map (rowValue values)
  clamp (match direction with
    | .minimize => outcomes.foldl Scalar.min Weight.one
    | .maximize => outcomes.foldl Scalar.max Weight.zero)

/-- The two vectors within a sweep, and whether it has changed a value. -/
structure Sweep (α : Type) where
  /-- The lower values. -/
  lower : Array α
  /-- The upper values. -/
  upper : Array α
  /-- Whether a value has changed. -/
  changed : Bool

/-- Improve the values of one state. -/
def improve (m : TransitionMatrix α) (direction : Direction) (sweep : Sweep α) (state : Nat) :
    Sweep α :=
  let oldLower := valueAt sweep.lower state
  let oldUpper := valueAt sweep.upper state
  let newLower := Scalar.max (bellman m direction sweep.lower state) oldLower
  let newUpper := Scalar.min (bellman m direction sweep.upper state) oldUpper
  { lower := sweep.lower.setIfInBounds state newLower
    upper := sweep.upper.setIfInBounds state newUpper
    changed := sweep.changed || !Scalar.same newLower oldLower || !Scalar.same newUpper oldUpper }

/-- The largest distance of the two vectors. -/
def gap (lower upper : Array α) : α :=
  (lower.toList.zip upper.toList).foldl
    (fun widest e => Scalar.max widest (Weight.sub e.2 e.1)) Weight.zero

/-- Whether the enclosure is as narrow as asked for. -/
def isNarrow (settings : IterationSettings α) (lower upper : Array α) : Bool :=
  Scalar.le (gap lower upper) settings.precision

/-- Sweep over the open states until the enclosure is narrow, nothing changes, or no sweep remains.
-/
def iterate (m : TransitionMatrix α) (direction : Direction) (settings : IterationSettings α)
    (openStates : List Nat) :
    Nat → Nat → Array α → Array α → ReachabilityBounds α
  | 0, iterations, lower, upper =>
    { lower, upper, iterations, converged := isNarrow settings lower upper }
  | remaining + 1, iterations, lower, upper =>
    if isNarrow settings lower upper then { lower, upper, iterations, converged := true }
    else
      let next := openStates.foldl (improve m direction) { lower, upper, changed := false }
      if next.changed then
        iterate m direction settings openStates remaining (iterations + 1) next.lower next.upper
      else
        { lower := next.lower, upper := next.upper, iterations := iterations + 1
          converged := isNarrow settings next.lower next.upper }

/-- Interval iteration, given states with value zero and states with value one. -/
def enclose (m : TransitionMatrix α) (zero one : List Nat) (direction : Direction)
    (settings : IterationSettings α) : ReachabilityBounds α :=
  let states := List.range m.states
  let lower := states.map fun s => if one.contains s then (Weight.one : α) else Weight.zero
  let upper := states.map fun s => if zero.contains s then (Weight.zero : α) else Weight.one
  let openStates := states.filter fun s => !(zero.contains s || one.contains s)
  iterate m direction settings openStates settings.maxIterations 0 lower.toArray upper.toArray

/-- The probabilities with which the states of a chain reach the targets. -/
def ofChain (m : TransitionMatrix α) (targets : List Nat) (settings : IterationSettings α) :
    ReachabilityBounds α :=
  let never := Qualitative.neverReach m targets
  enclose m never (Qualitative.surelyReach m targets never) .maximize settings

/-- The minimal or maximal probabilities with which the states of a decision process reach the
targets. -/
def ofProcess (m : TransitionMatrix α) (targets : List Nat) (direction : Direction)
    (settings : IterationSettings α) : ReachabilityBounds α :=
  let zero := match direction with
    | .maximize => Qualitative.neverReach m targets
    | .minimize => Qualitative.canAvoid m targets
  enclose m zero targets direction settings

end Reachability

namespace ReachabilityBounds

variable {α : Type} [Scalar α]

/-- The value half way between the bounds of a state. -/
def midpoint (b : ReachabilityBounds α) (state : Nat) : α :=
  Weight.mul (Weight.add (Reachability.valueAt b.lower state) (Reachability.valueAt b.upper state))
    (Scalar.ofRat (mkRat 1 2))

end ReachabilityBounds

end MarkovRegion
