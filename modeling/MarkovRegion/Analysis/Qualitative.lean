import MarkovRegion.Model.TransitionMatrix

/-!
# Qualitative analysis

Which states reach a set of targets with probability zero or one, by the graph of the transitions
alone.  Every stored entry counts as a possible step.

All sets are found by `stabilize`, which repeats a step on the marks of the states until nothing
changes.  A step only sets marks, or only removes them, so as many repetitions as there are states
are enough.
-/

namespace MarkovRegion.Qualitative

variable {W : Type}

/-! ## Sets of states as marks -/

/-- The marks of a set of states. -/
def marksOf (states : Nat) (set : List Nat) : Array Bool :=
  (Array.range states).map fun s => set.contains s

/-- Whether a state is marked. -/
def marked (marks : Array Bool) (state : Nat) : Bool := marks.getD state false

/-- The marked states in their order. -/
def members (marks : Array Bool) : List Nat := (List.range marks.size).filter (marked marks)

/-- The states outside a set. -/
def complement (states : Nat) (set : List Nat) : List Nat :=
  (List.range states).filter fun s => !set.contains s

/-- Repeat a step on marks until nothing changes, at most as often as the fuel says. -/
def stabilize (step : Array Bool → Array Bool) : Nat → Array Bool → Array Bool
  | 0, marks => marks
  | fuel + 1, marks =>
    let next := step marks
    if next = marks then marks else stabilize step fuel next

/-! ## Backwards -/

/-- Mark the states that may be passed and have a marked successor. -/
def backwardStep (m : TransitionMatrix W) (passes : Nat → Bool) (marks : Array Bool) :
    Array Bool :=
  (Array.range m.states).map fun s =>
    marked marks s || (passes s && (m.successors s).any (marked marks))

/-- The states from which some run enters the set and only passes states that may be passed.  The
set itself is included. -/
def canReach (m : TransitionMatrix W) (set : List Nat) (passes : Nat → Bool) : List Nat :=
  members (stabilize (backwardStep m passes) m.states (marksOf m.states set))

/-- The states from which no run reaches the targets.  In a decision process these are the states
with maximal probability zero. -/
def neverReach (m : TransitionMatrix W) (targets : List Nat) : List Nat :=
  complement m.states (canReach m targets fun _ => true)

/-- The states of a chain that reach the targets with probability one, given those that never reach
them: the states from which no run enters the latter before a target. -/
def surelyReach (m : TransitionMatrix W) (targets never : List Nat) : List Nat :=
  complement m.states (canReach m never fun s => !targets.contains s)

/-! ## Avoiding -/

/-- Keep the marks of the states with a choice that only leads to marked states. -/
def avoidStep (m : TransitionMatrix W) (marks : Array Bool) : Array Bool :=
  (Array.range m.states).map fun s =>
    marked marks s && (m.choices s).any fun row => row.all fun e => marked marks e.1

/-- The states of a decision process from which some choices avoid the targets for ever.  These are
the states with minimal probability zero. -/
def canAvoid (m : TransitionMatrix W) (targets : List Nat) : List Nat :=
  members (stabilize (avoidStep m) m.states (marksOf m.states (complement m.states targets)))

/-! ## Forwards -/

/-- Mark the successors of all marked states. -/
def forwardStep (successors : Nat → List Nat) (marks : Array Bool) : Array Bool :=
  (members marks).foldl
    (fun next s => (successors s).foldl (fun next t => next.setIfInBounds t true) next) marks

/-- The states on runs from a state. -/
def reachableFrom (states : Nat) (successors : Nat → List Nat) (initial : Nat) : List Nat :=
  members (stabilize (forwardStep successors) states (marksOf states [initial]))

end MarkovRegion.Qualitative
