import MarkovRegion.Cli.Run

/-!
# The program

Reads the files that the arguments name, runs the command, and prints its output.  No solver
processes are started: a check that would need one fails.
-/

namespace MarkovRegion.Cli

/-- How the program is used. -/
def usageLines : List String :=
  ["usage:",
    "  check --model FILE --target TARGET --bound BOUND [--region REGION]...",
    "        [--regions-file FILE] [--config FILE] [--solver z3|cvc5] [--jobs N]",
    "        [--json] [--stats] [--dump-smt PATH]",
    "  function --model FILE --target TARGET [--config FILE]"]

/-- A factory whose solvers are not installed. -/
def noSolvers (options : Options) : Smt.SolverFactory (Smt.Recorded Empty) Smt.Files :=
  Smt.Recorded.factory ⟨fun _ state => nomatch state⟩ (fun _ => none) options.plan

/-- The contents of a file, if it can be read. -/
def loadFile (path : String) : IO (Option String) := do
  try
    return some (← IO.FS.readFile path)
  catch _ => return none

/-- The files that a command reads, with their contents. -/
def loadInputs (args : List String) : IO (List (String × Option String)) :=
  match Command.read? args with
  | none => return []
  | some command => command.inputs.mapM fun path => return (path, ← loadFile path)

end MarkovRegion.Cli

open MarkovRegion.Cli in
/-- Run the program. -/
def main (args : List String) : IO UInt32 := do
  let inputs ← loadInputs args
  let files (path : String) : Option String := (inputs.lookup path).join
  let (outcome, _) := run files noSolvers args MarkovRegion.Smt.Files.empty
  match outcome with
  | .success output =>
    IO.print output.result
    IO.eprint output.remarks
  | .failure e => IO.eprintln ("Error: " ++ e.message)
  | .stopped e => IO.eprintln e.message
  | .usage => IO.eprint (unlines usageLines)
  return UInt32.ofNat outcome.code
