import MarkovRegion.Algebra.OrderedMap
import MarkovRegion.Attempt
import MarkovRegion.Smt.Term

/-!
# Solvers

`Solver σ` is what a session needs of a solver whose state is a `σ`: declarations, assertions in
nested frames, and checks that may give a model.  A failure is a text.

`SolverFactory σ ω` creates solvers with states in `σ` that live in a world `ω`, which all of them
share.
-/

namespace MarkovRegion

namespace Smt

/-- The answer to a check. -/
inductive SatResult where
  | sat
  | unsat
  /-- No answer, for a reason. -/
  | unknown (reason : String)
  deriving DecidableEq

/-- Whether the answer is yes or no. -/
def SatResult.isDecisive : SatResult → Bool
  | unknown _ => false
  | _ => true

/-- The value of a variable. -/
inductive ModelValue where
  | real (value : Rat)
  | bool (value : Bool)
  deriving DecidableEq

/-- The values of some variables. -/
abbrev Model := OrderedMap String ModelValue

/-- The exact value of a variable. -/
def Model.real? (m : Model) (name : String) : Option Rat :=
  match m.find? name with
  | some (.real value) => some value
  | _ => none

/-- What can be asked of a solver. -/
structure Solver (σ : Type) where
  /-- Declare a variable. -/
  declare : String → ValueSort → Attempt String σ Unit
  /-- Assert a term in the innermost frame. -/
  assert : Term → Attempt String σ Unit
  /-- Open a frame. -/
  push : Attempt String σ Unit
  /-- Close the innermost frame. -/
  pop : Attempt String σ Unit
  /-- Check the assertions, and ask for the values of variables if they can be met. -/
  check : List (String × ValueSort) → Attempt String σ (SatResult × Option Model)
  /-- Leave a remark. -/
  comment : String → StateM σ Unit

/-- The two kinds of sessions. -/
inductive SessionKind where
  /-- On a reduced system of equations. -/
  | subsystem
  /-- On all equations. -/
  | full
  deriving DecidableEq, Repr

/-- The name of a kind. -/
def SessionKind.name : SessionKind → String
  | subsystem => "subsystem"
  | full => "full"

/-- How solvers are created, used and closed in a world. -/
structure SolverFactory (σ ω : Type) where
  /-- Create the solver of a session of a worker. -/
  create : SessionKind → Nat → Attempt String ω σ
  /-- Use a solver in its world. -/
  solver : Solver (σ × ω)
  /-- Close a solver. -/
  close : σ → ω → ω

end Smt

end MarkovRegion
