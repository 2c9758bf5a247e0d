import MarkovRegion.Error
import MarkovRegion.Model.Row

/-!
# Transition matrices

A transition matrix has a group of rows for each state.  In a Markov chain a group is one row; in a
decision process its rows are the choices of the state.  The rows of a matrix that was built here
are canonical.
-/

namespace MarkovRegion

/-- A sparse matrix whose rows are collected in groups, one for each state. -/
structure TransitionMatrix (W : Type) where
  /-- The number of columns. -/
  columns : Nat
  /-- The rows of each state. -/
  groups : Array (List (Row W))
  deriving DecidableEq

namespace TransitionMatrix

variable {W : Type}

/-- The rows of a state; none beyond the last state. -/
def choices (m : TransitionMatrix W) (state : Nat) : List (Row W) := m.groups.getD state []

/-- The number of states. -/
def states (m : TransitionMatrix W) : Nat := m.groups.size

/-- All rows, group after group. -/
def rows (m : TransitionMatrix W) : List (Row W) := m.groups.toList.flatten

/-- The number of stored entries. -/
def entryCount (m : TransitionMatrix W) : Nat := m.rows.foldl (fun n row => n + row.length) 0

/-- Whether there are as many rows as groups. -/
def hasRowPerState (m : TransitionMatrix W) : Bool := m.rows.length == m.states

/-- The columns of the rows of a state, row after row. -/
def successors (m : TransitionMatrix W) (state : Nat) : List Nat :=
  (m.choices state).flatMap Row.columns

/-- The first row and the row after the last of each group, from a first row on. -/
def rangesFrom (first : Nat) : List (List (Row W)) → List (Nat × Nat)
  | [] => []
  | group :: rest => (first, first + group.length) :: rangesFrom (first + group.length) rest

/-- The range of rows of each group. -/
def ranges (m : TransitionMatrix W) : List (Nat × Nat) := rangesFrom 0 m.groups.toList

/-- Change every weight. -/
def map {V : Type} (f : W → V) (m : TransitionMatrix W) : TransitionMatrix V where
  columns := m.columns
  groups := m.groups.map fun group => group.map fun row => row.map fun e => (e.1, f e.2)

/-- Change every weight; the first failure in row order wins. -/
def mapM {V ε : Type} (f : W → Except ε V) (m : TransitionMatrix W) :
    Except ε (TransitionMatrix V) := do
  let groups ← m.groups.toList.mapM fun group => group.mapM fun row => row.mapM fun e => do
    return (e.1, ← f e.2)
  return { columns := m.columns, groups := groups.toArray }

variable [Weight W]

/-- The canonical row of a list of entries, if every column is in range. -/
def rowOfEntries (columns : Nat) (entries : Row W) : Except ModelError (Row W) :=
  match entries.find? fun e => columns ≤ e.1 with
  | some e => .error (.stateOutOfRange e.1 columns)
  | none => .ok (Row.normalize entries)

/-- The matrix of groups of rows of entries in any order. -/
def ofGroups (columns : Nat) (groups : List (List (Row W))) :
    Except ModelError (TransitionMatrix W) := do
  let groups ← groups.mapM fun group => group.mapM (rowOfEntries columns)
  return { columns, groups := groups.toArray }

/-- The matrix with one row for each state. -/
def ofRows (columns : Nat) (rows : List (Row W)) : Except ModelError (TransitionMatrix W) :=
  ofGroups columns (rows.map fun row => [row])

end TransitionMatrix

end MarkovRegion
