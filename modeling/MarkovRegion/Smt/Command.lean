import MarkovRegion.Text.Pieces

/-!
# Solver commands

How the two known solvers are started: program, arguments and the options that are set before the
first query.  A limit on the time of a query is an option for one and an argument for the other.
-/

namespace MarkovRegion.Smt

/-- The known solvers. -/
inductive Flavor where
  | z3
  | cvc5
  deriving DecidableEq, Repr

/-- The name of a solver. -/
def Flavor.name : Flavor → String
  | z3 => "z3"
  | cvc5 => "cvc5"

/-- How a solver is started. -/
structure SolverCommand where
  /-- The solver whose arguments are given. -/
  flavor : Flavor
  /-- The program that is run. -/
  program : String
  /-- The arguments. -/
  args : List String
  /-- Options that are set first, with their values. -/
  options : List (String × String)
  /-- The logic that is set after the options. -/
  logic : String
  deriving DecidableEq

namespace SolverCommand

/-- The command of a solver without limits. -/
def ofFlavor : Flavor → SolverCommand
  | .z3 =>
    { flavor := .z3, program := "z3", args := ["-in", "-smt2"]
      options := [("produce-models", "true")], logic := "QF_NRA" }
  | .cvc5 =>
    { flavor := .cvc5, program := "cvc5"
      args := ["-q", "--lang", "smt2", "--incremental", "--produce-models"]
      options := [], logic := "QF_NRA" }

/-- Run another program. -/
def withProgram (c : SolverCommand) (program : String) : SolverCommand := { c with program }

/-- Limit the time of a query in milliseconds; zero is no limit. -/
def withTimeout (c : SolverCommand) (milliseconds : Nat) : SolverCommand :=
  if milliseconds = 0 then c
  else
    match c.flavor with
    | .z3 => { c with options := c.options ++ [("timeout", toString milliseconds)] }
    | .cvc5 => { c with args := c.args ++ ["--tlimit-per=" ++ toString milliseconds] }

/-- The program with its arguments. -/
def commandLine (c : SolverCommand) : String := c.program ++ " " ++ Text.join " " c.args

/-- The lines that are sent first. -/
def preamble (c : SolverCommand) : List String :=
  c.options.map (fun o => "(set-option :" ++ o.1 ++ " " ++ o.2 ++ ")")
    ++ ["(set-logic " ++ c.logic ++ ")"]

end SolverCommand

end MarkovRegion.Smt
