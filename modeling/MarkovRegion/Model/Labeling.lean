import MarkovRegion.Algebra.OrderedMap

/-!
# Labels of states

A labeling gives each label its set of states.  Labels keep the order of their first mention, and a
set of states is the increasing list of its members.
-/

namespace MarkovRegion

/-- The increasing list of the states that occur in a list. -/
def stateSet (states : List Nat) : List Nat := orderedKeys states

/-- The states of each label, in the order in which the labels were first mentioned. -/
structure Labeling where
  /-- The labels with their states. -/
  labels : List (String × List Nat)
  deriving DecidableEq

namespace Labeling

/-- No labels. -/
def empty : Labeling := ⟨[]⟩

/-- The states of a label, if it is declared. -/
def states? (l : Labeling) (name : String) : Option (List Nat) := l.labels.lookup name

/-- Add states to a label, which is declared by it. -/
def add (l : Labeling) (name : String) (states : List Nat) : Labeling where
  labels :=
    if (l.states? name).isSome then
      l.labels.map fun e => if e.1 = name then (e.1, stateSet (e.2 ++ states)) else e
    else l.labels ++ [(name, stateSet states)]

/-- The labeling of a list of labels with their states, added from left to right. -/
def ofList (labels : List (String × List Nat)) : Labeling :=
  labels.foldl (fun l e => l.add e.1 e.2) empty

end Labeling

end MarkovRegion
