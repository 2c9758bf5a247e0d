import MarkovRegion.Expression.Reader
import MarkovRegion.Json.Reader
import MarkovRegion.Model.Chain

/-!
# Model files

A model file lists the transitions of a parametric chain with the texts of their weights.

* `ModelFile.read` and `ModelFile.write` take it from a document and back.
* `ModelFile.toChain` builds the chain; the weights of a state must add up to one as functions.
* `ModelFile.ofChain` lists the transitions of a chain in canonical order.
-/

namespace MarkovRegion

/-- A transition with the text of its weight. -/
structure Transition where
  /-- The state that is left. -/
  source : Nat
  /-- The state that is entered. -/
  target : Nat
  /-- The text of the weight. -/
  weight : String
  deriving DecidableEq

/-- The contents of a model file. -/
structure ModelFile where
  /-- The number of states. -/
  states : Nat
  /-- The initial state. -/
  initial : Nat
  /-- The states of each label. -/
  labels : List (String × List Nat)
  /-- The transitions. -/
  transitions : List Transition
  deriving DecidableEq

namespace ModelFile

/-! ## Documents -/

/-- A transition of a document. -/
def transition? (j : Json) : Option Transition := do
  match ← j.record? ["from", "to", "weight"] .refused with
  | [source, target, weight] =>
    return { source := ← Json.required Json.asNat? source
             target := ← Json.required Json.asNat? target
             weight := ← Json.required Json.asString? weight }
  | _ => none

/-- Give a label its states; a label keeps its place and takes the last states. -/
def setLabel (labels : List (String × List Nat)) (name : String) (states : List Nat) :
    List (String × List Nat) :=
  if (labels.lookup name).isSome then
    labels.map fun e => if e.1 = name then (name, states) else e
  else labels ++ [(name, states)]

/-- The labels of a document. -/
def labels? (j : Json) : Option (List (String × List Nat)) := do
  let members ← j.asObject?
  let members ← members.mapM fun e => do
    return (e.1, ← (← e.2.asArray?).mapM Json.asNat?)
  return members.foldl (fun labels e => setLabel labels e.1 e.2) []

/-- The model file of a document. -/
def ofJson? (j : Json) : Option ModelFile := do
  match ← j.record? ["states", "initial", "labels", "transitions"] .refused with
  | [states, initial, labels, transitions] =>
    return { states := ← Json.required Json.asNat? states
             initial := ← Json.required Json.asNat? initial
             labels := ← Json.optional labels? [] labels
             transitions := ← (← Json.required Json.asArray? transitions).mapM transition? }
  | _ => none

/-- Read a model file. -/
def read (text : String) : Except ModelError ModelFile :=
  match (Json.read? text).bind ofJson? with
  | some file => .ok file
  | none => .error (.format "not a model file")

/-- The document of a transition. -/
def transitionJson (t : Transition) : Json :=
  .ofMembers [("from", .ofNat t.source), ("to", .ofNat t.target), ("weight", .ofString t.weight)]

/-- The document of a model file. -/
def toJson (file : ModelFile) : Json :=
  .ofMembers
    [("states", .ofNat file.states), ("initial", .ofNat file.initial),
      ("labels", .ofMembers (file.labels.map fun e => (e.1, .array (e.2.map Json.ofNat)))),
      ("transitions", .array (file.transitions.map transitionJson))]

/-- The text of a model file. -/
def write (file : ModelFile) : String := file.toJson.pretty

/-! ## Chains -/

/-- A transition with its weight as a function. -/
structure WeightedTransition where
  /-- The state that is left. -/
  source : Nat
  /-- The state that is entered. -/
  target : Nat
  /-- The weight. -/
  weight : RationalFunction

/-- Read the weight of the transition at an index.  The error names the transition. -/
def weigh (states index : Nat) (t : Transition) : Except ModelError WeightedTransition := do
  checkState states t.source
  match RationalFunction.read t.weight with
  | .ok weight => return { source := t.source, target := t.target, weight }
  | .error .overflow => throw .overflow
  | .error e =>
    throw (.format ("transition #" ++ toString index ++ " (" ++ toString t.source ++ " -> "
      ++ toString t.target ++ "): " ++ e.message))

/-- Read the weights of transitions, the first of which has the given index. -/
def weighFrom (states index : Nat) : List Transition → Except ModelError (List WeightedTransition)
  | [] => .ok []
  | t :: rest => do
    let first ← weigh states index t
    return first :: (← weighFrom states (index + 1) rest)

/-- The entries that leave a state, in the order of the transitions. -/
def entriesOf (transitions : List WeightedTransition) (state : Nat) : Row RationalFunction :=
  (transitions.filter fun t => t.source == state).map fun t => (t.target, t.weight)

/-- The sum of the weights of a row, from left to right with checked exponents. -/
def rowSumChecked (row : Row RationalFunction) : Except ModelError RationalFunction :=
  row.foldlM (fun sum e => sum.addChecked e.2) .zero

/-- Refuse a state with transitions whose weights do not add up to one. -/
def checkSum (state : Nat) (row : Row RationalFunction) : Except ModelError Unit := do
  let sum ← rowSumChecked row
  if !row.isEmpty && !sum.isOne then
    throw (.invalid ("outgoing weights of state " ++ toString state ++ " sum to "
      ++ (← sum.write) ++ " instead of 1"))

/-- The chain of a model file. -/
def toChain (file : ModelFile) : Except ModelError ParametricChain := do
  let transitions ← weighFrom file.states 0 file.transitions
  let rows := (List.range file.states).map (entriesOf transitions)
  rows.zipIdx.forM fun e => checkSum e.2 e.1
  let matrix ← TransitionMatrix.ofRows file.states rows
  Chain.build matrix file.initial (.ofList file.labels)

/-- The transitions of a row. -/
def transitionsOf (state : Nat) (row : Row RationalFunction) :
    Except ModelError (List Transition) :=
  row.mapM fun e => do return { source := state, target := e.1, weight := ← e.2.write }

/-- The model file of a chain. -/
def ofChain (c : ParametricChain) : Except ModelError ModelFile := do
  let transitions ← c.transitions.rows.zipIdx.mapM fun e => transitionsOf e.2 e.1
  return { states := c.states
           initial := c.initial
           labels := c.labeling.labels
           transitions := transitions.flatten }

end ModelFile

end MarkovRegion
