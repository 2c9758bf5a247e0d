import MarkovRegion.Model.Labeling
import MarkovRegion.Model.TransitionMatrix

/-!
# Markov chains and decision processes

A chain has one row for each state, an initial state and labels; a decision process has at least one
row for each state and an initial state.  `Chain.build` and `DecisionProcess.build` check the shape.
-/

namespace MarkovRegion

/-- A discrete-time Markov chain. -/
structure Chain (W : Type) where
  /-- The weights of the transitions. -/
  transitions : TransitionMatrix W
  /-- The state in which runs start. -/
  initial : Nat
  /-- The labels of the states. -/
  labeling : Labeling
  deriving DecidableEq

/-- A chain whose weights are functions of parameters. -/
abbrev ParametricChain := Chain RationalFunction

/-- A Markov decision process. -/
structure DecisionProcess (W : Type) where
  /-- The rows of a state are its choices. -/
  transitions : TransitionMatrix W
  /-- The state in which runs start. -/
  initial : Nat
  deriving DecidableEq

/-- Refuse a matrix that is not square. -/
def checkSquare {W : Type} (m : TransitionMatrix W) : Except ModelError Unit :=
  if m.columns = m.states then .ok ()
  else .error (.invalid ("transition matrix has " ++ toString m.columns ++ " columns but "
    ++ toString m.states ++ " states"))

/-- Refuse a state that is out of range. -/
def checkState (states state : Nat) : Except ModelError Unit :=
  if state < states then .ok () else .error (.stateOutOfRange state states)

namespace Chain

variable {W : Type}

/-- The number of states. -/
def states (c : Chain W) : Nat := c.transitions.states

/-- The transitions of a state. -/
def row (c : Chain W) (state : Nat) : Row W := c.transitions.rows.getD state []

/-- The shape of a chain: one row for each state, a square matrix, an initial state in range, no
empty row, labels in range.  The first failure wins. -/
def validate (c : Chain W) : Except ModelError Unit := do
  if !c.transitions.hasRowPerState then
    throw (.invalid "a DTMC has exactly one row per state")
  checkSquare c.transitions
  checkState c.states c.initial
  match c.transitions.rows.findIdx? List.isEmpty with
  | some state => throw (.deadlock state)
  | none => pure ()
  c.labeling.labels.forM fun label => label.2.forM (checkState c.states)

/-- The chain of its parts, if they fit together. -/
def build (transitions : TransitionMatrix W) (initial : Nat) (labeling : Labeling) :
    Except ModelError (Chain W) := do
  let c : Chain W := { transitions, initial, labeling }
  c.validate
  return c

/-- The parameters that occur in some weight, in their order. -/
def parameters (c : ParametricChain) : List Parameter :=
  orderedKeys (c.transitions.rows.flatMap fun row => row.flatMap fun e => e.2.parameters)

end Chain

namespace DecisionProcess

variable {W : Type}

/-- The number of states. -/
def states (p : DecisionProcess W) : Nat := p.transitions.states

/-- The number of choices of all states. -/
def choiceCount (p : DecisionProcess W) : Nat := p.transitions.rows.length

/-- The decision process of its parts: a square matrix, an initial state in range, and a choice for
every state.  The first failure wins. -/
def build (transitions : TransitionMatrix W) (initial : Nat) :
    Except ModelError (DecisionProcess W) := do
  checkSquare transitions
  checkState transitions.states initial
  match transitions.groups.toList.findIdx? List.isEmpty with
  | some state => throw (.deadlock state)
  | none => return { transitions, initial }

end DecisionProcess

end MarkovRegion
