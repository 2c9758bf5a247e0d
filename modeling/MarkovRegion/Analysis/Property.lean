import MarkovRegion.Analysis.Elimination
import MarkovRegion.Analysis.Error
import MarkovRegion.Analysis.Qualitative
import MarkovRegion.Logic.Formula
import MarkovRegion.Model.Chain

/-!
# Properties of a chain

A property is a checkable formula on a chain together with what its checking needs:

* `simplify` keeps the states whose probability is neither zero nor one by the graph alone, and
  eliminates those among them whose equations have no parameters;
* `closedForm` eliminates all other states and gives the probability of the initial state as a
  function of the parameters, unless a weight grows beyond a bound.
-/

namespace MarkovRegion

/-- The equations that are left of a chain for a property. -/
structure SimplifiedModel where
  /-- The states of the chain that the equations belong to. -/
  states : List Nat
  /-- The equations: one-step weights lead to states that surely reach the target. -/
  system : EquationSystem RationalFunction
  /-- The number of the equation of the initial state. -/
  initial : Nat
  /-- The parameters that occur. -/
  parameters : List Parameter
  /-- Whether every weight is a polynomial of degree at most one, if all degrees can be computed. -/
  linear : Except ModelError Bool
  /-- The probability of the initial state, if it is seen not to depend on the parameters. -/
  constant? : Option Rat

/-- The probability of the initial state as a function of the parameters. -/
inductive ReachFunction where
  /-- It has not been asked for. -/
  | notComputed
  | computed (function : RationalFunction)
  /-- Elimination failed for a reason. -/
  | unusable (reason : String)

/-- The function, if there is one. -/
def ReachFunction.function? : ReachFunction → Option RationalFunction
  | computed f => some f
  | _ => none

/-- The function, or why there is none. -/
def ReachFunction.toExcept : ReachFunction → Except CheckError RationalFunction
  | notComputed => .error (.construction "reachability function was not computed")
  | computed f => .ok f
  | unusable reason => .error (.construction reason)

/-- The states that a state reaches, in their order. -/
def EquationSystem.reachableFrom {W : Type} (e : EquationSystem W) (initial : Nat) : List Nat :=
  Qualitative.reachableFrom e.states (fun s => Row.columns (e.row s)) initial

/-- The new number of the initial state among the states that are kept. -/
def newInitial (keep : List Nat) (initial : Nat) : Nat := (keep.idxOf? initial).getD 0

namespace SimplifiedModel

/-- The model of a property whose probability is known from the graph. -/
def ofConstant (initial : Nat) (value : Rat) : SimplifiedModel where
  states := [initial]
  system := { rows := #[[]], oneStep := #[.constant value] }
  initial := 0
  parameters := []
  linear := .ok true
  constant? := some value

/-- The equation of a state: weights to open states with their new numbers, and the sum of the
weights to states that surely reach the target. -/
def equationOf (openStates sure : List Nat) (row : Row RationalFunction) :
    Row RationalFunction × RationalFunction :=
  (row.filterMap fun e => if sure.contains e.1 then none
    else (openStates.idxOf? e.1).map fun i => (i, e.2),
   (row.filter fun e => sure.contains e.1).foldl (fun sum e => sum.add e.2) .zero)

/-- The equations of the open states. -/
def openSystem (c : ParametricChain) (openStates sure : List Nat) :
    EquationSystem RationalFunction :=
  let equations := openStates.map fun s => equationOf openStates sure (c.row s)
  .ofEntries (equations.map Prod.fst) (equations.map Prod.snd)

/-- The states other than the initial one whose equations have no parameters. -/
def constantStates (e : EquationSystem RationalFunction) (initial : Nat) : List Nat :=
  (List.range e.states).filter fun s =>
    s != initial && e.isRowConstant s && (e.target s).isConstant

/-- All weights of a system. -/
def weights (e : EquationSystem RationalFunction) : List RationalFunction :=
  (List.range e.states).flatMap fun s => (e.row s).map Prod.snd ++ [e.target s]

/-- Whether all weights are linear.  Every weight is looked at. -/
def areLinear (weights : List RationalFunction) : Except ModelError Bool := do
  return (← weights.mapM RationalFunction.isLinear).all id

/-- The probability of the initial state, if its equation mentions no other state and no parameter.
-/
def constantOf? (e : EquationSystem RationalFunction) (initial : Nat) :
    Except EliminationError (Option Rat) :=
  if (e.row initial).all (fun entry => entry.1 == initial && entry.2.isConstant)
      && (e.target initial).isConstant then
    (e.initialValue initial).map RationalFunction.constantValue?
  else .ok none

/-- The model of a system: its part that the initial state reaches. -/
def ofSystem (openStates : List Nat) (e : EquationSystem RationalFunction) (initial : Nat) :
    Except EliminationError SimplifiedModel := do
  let keep := e.reachableFrom initial
  let system := e.restrict keep
  let initial := newInitial keep initial
  return {
    states := keep.map fun s => openStates.getD s 0
    system
    initial
    parameters := orderedKeys ((weights system).flatMap RationalFunction.parameters)
    linear := areLinear (weights system)
    constant? := ← constantOf? system initial }

end SimplifiedModel

/-- A failed elimination within a check. -/
def liftElimination {α : Type} (x : Except EliminationError α) : Except CheckError α :=
  x.mapError fun e => .construction e.message

/-- Eliminate states one after the other, or fail. -/
def EquationSystem.eliminateStates {W : Type} [Weight W] (e : EquationSystem W)
    (bound : Option Nat) (states : List Nat) : Except EliminationError (EquationSystem W) :=
  match (Eliminator.eliminateAll bound states).run (.ofSystem e) with
  | (.ok (), result) => .ok result.system
  | (.error failure, _) => .error failure

/-- The equations of a chain that matter for reaching the targets. -/
def SimplifiedModel.ofChain (c : ParametricChain) (targets : List Nat) :
    Except CheckError SimplifiedModel := do
  let never := Qualitative.neverReach c.transitions targets
  let sure := Qualitative.surelyReach c.transitions targets never
  if sure.contains c.initial then return ofConstant c.initial 1
  if never.contains c.initial then return ofConstant c.initial 0
  let openStates := (List.range c.states).filter fun s => !never.contains s && !sure.contains s
  match openStates.idxOf? c.initial with
  | none => throw (.construction "initial state is not a maybe state")
  | some initial =>
    let system := openSystem c openStates sure
    let order := system.eliminationOrder (constantStates system initial)
    let system ← liftElimination (system.eliminateStates none order)
    liftElimination (ofSystem openStates system initial)

/-- The probability of the initial state as a function of the parameters. -/
def SimplifiedModel.closedForm (m : SimplifiedModel) (sizeBound : Option Nat) : ReachFunction :=
  let others := (List.range m.system.states).filter (· != m.initial)
  let result := do
    let system ← m.system.eliminateStates sizeBound (m.system.eliminationOrder others)
    system.initialValue m.initial
  match result with
  | .ok function => .computed function
  | .error failure => .unusable failure.message

/-- A formula on a chain with what its checking needs. -/
structure Property where
  /-- The formula. -/
  formula : StateFormula
  /-- The bound of the formula. -/
  bound : Bound
  /-- The states of the chain that satisfy the target of the formula. -/
  targets : List Nat
  /-- The equations that matter. -/
  model : SimplifiedModel
  /-- The probability of the initial state as a function, computed when it is asked for. -/
  reachFunction : Thunk ReachFunction
  /-- The same function once it has been asked for. -/
  cached : ReachFunction

/-- Ask for the probability of the initial state as a function. -/
def Property.askFunction (p : Property) : ReachFunction × Property :=
  let f := match p.cached with
    | .notComputed => p.reachFunction.get
    | f => f
  (f, { p with cached := f })

/-- The property of a formula on a chain.  The size bound limits the weights of the closed form. -/
def Property.build (c : ParametricChain) (formula : StateFormula) (sizeBound : Option Nat) :
    Except CheckError Property := do
  match formula.reachability? with
  | none => throw (.unsupportedFormula formula.write)
  | some (bound, target) =>
    match target.labels.find? fun name => (c.labeling.states? name).isNone with
    | some missing => throw (.unknownLabel missing)
    | none =>
      let targets ← liftModel (target.satisfying c.labeling c.states)
      let model ← SimplifiedModel.ofChain c targets
      return { formula, bound, targets, model
               reachFunction := Thunk.mk fun _ => model.closedForm sizeBound
               cached := .notComputed }

end MarkovRegion
