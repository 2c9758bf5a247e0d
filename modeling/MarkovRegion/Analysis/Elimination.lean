import MarkovRegion.Attempt
import MarkovRegion.Model.Row

/-!
# Equation systems and state elimination

An equation system has one equation `x i = ∑ j, M i j * x j + b i` for each state: the row `M i`
holds the weights of the steps between states and `b i`, the one-step weight, that of a step into a
target.

Eliminating a state scales its row by `1 / (1 - loop)` and redirects it to all its predecessors.
The one-step weights are carried along, so once every other state has been eliminated the value of
the initial state is its one-step weight over `1 - loop`.
-/

namespace MarkovRegion

/-- Why a state cannot be eliminated. -/
inductive EliminationError where
  /-- A weight would become larger than the bound. -/
  | sizeBoundExceeded (state size bound : Nat)
  /-- The state is never left. -/
  | noExit (state : Nat)
  deriving DecidableEq

/-- The text of an error. -/
def EliminationError.message : EliminationError → String
  | sizeBoundExceeded state size bound =>
    "Eliminating state " ++ toString state ++ " produces a weight of size " ++ toString size
      ++ " (bound " ++ toString bound ++ ")"
  | noExit state =>
    "State " ++ toString state ++ " has a self-loop of weight one and cannot be eliminated"

/-- A system of linear equations, one for each state. -/
structure EquationSystem (W : Type) where
  /-- The weights between states; canonical rows. -/
  rows : Array (Row W)
  /-- The weights of the steps into a target. -/
  oneStep : Array W
  deriving DecidableEq

namespace EquationSystem

variable {W : Type}

/-- The number of states. -/
def states (e : EquationSystem W) : Nat := e.rows.size

/-- The row of a state. -/
def row (e : EquationSystem W) (state : Nat) : Row W := e.rows.getD state []

/-- The number of stored entries. -/
def entryCount (e : EquationSystem W) : Nat := e.rows.foldl (fun n row => n + row.length) 0

/-- The weight from one state to another, if one is stored. -/
def get? (e : EquationSystem W) (state column : Nat) : Option W := Row.get? (e.row state) column

/-- Whether a state has a step to itself. -/
def hasSelfLoop (e : EquationSystem W) (state : Nat) : Bool := (e.get? state state).isSome

/-- The states with a step to a state, in their order. -/
def predecessorsOf (e : EquationSystem W) (state : Nat) : List Nat :=
  (List.range e.states).filter fun r => (e.get? r state).isSome

/-- The predecessors of every state. -/
def predecessors (e : EquationSystem W) : Array (List Nat) :=
  (Array.range e.states).map e.predecessorsOf

variable [Weight W]

/-- The one-step weight of a state. -/
def target (e : EquationSystem W) (state : Nat) : W := e.oneStep.getD state Weight.zero

/-- The system of rows of entries in any order. -/
def ofEntries (rows : List (Row W)) (oneStep : List W) : EquationSystem W where
  rows := (rows.map Row.ofEntries).toArray
  oneStep := oneStep.toArray

/-- Whether the row of a state has no parameters. -/
def isRowConstant (e : EquationSystem W) (state : Nat) : Bool := Row.isConstant (e.row state)

/-- Add a weight to an entry. -/
def addToEntry (e : EquationSystem W) (state column : Nat) (weight : W) : EquationSystem W :=
  { e with rows := e.rows.modify state (Row.addAt column weight) }

/-- The new number of a state; the last mention counts. -/
def newIndex? (keep : List Nat) (state : Nat) : Option Nat :=
  (keep.zipIdx.reverse.find? fun e => e.1 == state).map Prod.snd

/-- The rows of some states in the given order, with new numbers.  Entries to other states are
dropped. -/
def restrictRows (e : EquationSystem W) (keep : List Nat) : Array (Row W) :=
  (keep.map fun state => Row.ofEntries ((e.row state).filterMap fun entry =>
    (newIndex? keep entry.1).map fun c => (c, entry.2))).toArray

/-- The system of some states in the given order, with new numbers.  Steps to other states are
dropped. -/
def restrict (e : EquationSystem W) (keep : List Nat) : EquationSystem W where
  rows := e.restrictRows keep
  oneStep := (keep.map e.target).toArray

/-- The value of the initial state of a system without other equations. -/
def initialValue (e : EquationSystem W) (initial : Nat) : Except EliminationError W :=
  match e.get? initial initial with
  | none => .ok (e.target initial)
  | some loop =>
    match Weight.div? (e.target initial) (Weight.sub Weight.one loop) with
    | some value => .ok value
    | none => .error (.noExit initial)

/-- The number of paths through a state that its elimination joins. -/
def joinCost (e : EquationSystem W) (state : Nat) : Nat :=
  (e.predecessorsOf state).length * (e.row state).length

/-- Cheapest first: by the number of paths, then by the state. -/
def eliminationOrder (e : EquationSystem W) (candidates : List Nat) : List Nat :=
  let costs := candidates.map fun s => (e.joinCost s, s)
  (costs.mergeSort fun a b => a.1 < b.1 || (a.1 == b.1 && a.2 ≤ b.2)).map Prod.snd

end EquationSystem

/-- An equation system with an index of predecessors. -/
structure Eliminator (W : Type) where
  /-- The equations. -/
  system : EquationSystem W
  /-- For each state the states that may have a step to it, in their order. -/
  predecessors : Array (List Nat)
  deriving DecidableEq

namespace Eliminator

variable {W : Type}

/-- The eliminator of a system. -/
def ofSystem (system : EquationSystem W) : Eliminator W where
  system := system
  predecessors := system.predecessors

/-- The possible predecessors of a state. -/
def predecessorsOf (e : Eliminator W) (state : Nat) : List Nat := e.predecessors.getD state []

/-- Insert a state into an increasing list. -/
def insertState (state : Nat) : List Nat → List Nat
  | [] => [state]
  | s :: rest =>
    if state < s then state :: s :: rest
    else if state = s then s :: rest
    else s :: insertState state rest

variable [Weight W]

/-- How a state is left: its row without its self-loop and its one-step weight, both scaled. -/
def exits (system : EquationSystem W) (state : Nat) : Except EliminationError (Row W × W) :=
  let row := system.row state
  match Row.get? row state with
  | none => .ok (row, system.target state)
  | some loop =>
    match Weight.div? Weight.one (Weight.sub Weight.one loop) with
    | none => .error (.noExit state)
    | some scale =>
      .ok ((Row.erase row state).map fun e => (e.1, Weight.mul e.2 scale),
        Weight.mul (system.target state) scale)

/-- A new equation for a state. -/
structure Update (W : Type) where
  /-- The state. -/
  state : Nat
  /-- Its new row. -/
  row : Row W
  /-- Its new one-step weight. -/
  oneStep : W

/-- The size of the largest weight of an update. -/
def Update.size (u : Update W) : Nat :=
  u.row.foldl (fun n e => Nat.max n (Weight.size e.2)) (Weight.size u.oneStep)

/-- The equation of a predecessor once its step to a state is redirected along the exits of that
state. -/
def redirect? (system : EquationSystem W) (state : Nat) (exit : Row W × W) (predecessor : Nat) :
    Option (Update W) :=
  let row := system.row predecessor
  (Row.get? row state).map fun via =>
    { state := predecessor
      row := Row.addEntries (Row.erase row state) (exit.1.map fun e => (e.1, Weight.mul via e.2))
      oneStep := Weight.add (system.target predecessor) (Weight.mul via exit.2) }

/-- The updates of the predecessors in their order, as far as the size bound allows. -/
def updates (system : EquationSystem W) (bound : Option Nat) (state : Nat) (exit : Row W × W) :
    List Nat → Except EliminationError (List (Update W))
  | [] => .ok []
  | predecessor :: rest =>
    match redirect? system state exit predecessor with
    | none => updates system bound state exit rest
    | some update => do
      match bound with
      | some bound =>
        if bound < update.size then throw (.sizeBoundExceeded state update.size bound)
      | none => pure ()
      return update :: (← updates system bound state exit rest)

/-- Replace the equation of one state, and add it to the index. -/
def applyUpdate (e : Eliminator W) (u : Update W) : Eliminator W where
  system :=
    { rows := e.system.rows.setIfInBounds u.state u.row
      oneStep := e.system.oneStep.setIfInBounds u.state u.oneStep }
  predecessors :=
    u.row.foldl (fun index entry => index.modify entry.1 (insertState u.state)) e.predecessors

/-- Remove a state from the index of the states it has steps to. -/
def forget (e : Eliminator W) (state : Nat) : Eliminator W where
  system := e.system
  predecessors :=
    (e.system.row state).foldl
      (fun index entry => index.modify entry.1 fun found => found.filter (· != state))
      e.predecessors

/-- Remove the equation of a state and its predecessors. -/
def clear (e : Eliminator W) (state : Nat) : Eliminator W where
  system :=
    { rows := e.system.rows.setIfInBounds state []
      oneStep := e.system.oneStep.setIfInBounds state Weight.zero }
  predecessors := e.predecessors.setIfInBounds state []

/-- Eliminate a state.  All new equations are known before the first one is replaced. -/
def eliminate (bound : Option Nat) (state : Nat) :
    Attempt EliminationError (Eliminator W) Unit := do
  let e ← get
  let exit ← Attempt.ofExcept (exits e.system state)
  let others := (e.predecessorsOf state).filter (· != state)
  let changes ← Attempt.ofExcept (updates e.system bound state exit others)
  modify fun e => e.forget state
  changes.forM fun change => modify fun e => e.applyUpdate change
  modify fun e => e.clear state

/-- Eliminate states one after the other.  The steps before a failure remain. -/
def eliminateAll (bound : Option Nat) (states : List Nat) :
    Attempt EliminationError (Eliminator W) Unit :=
  states.forM (eliminate bound)

end Eliminator

end MarkovRegion
