import MarkovRegion.Analysis.Error
import MarkovRegion.Logic.Formula
import MarkovRegion.Region.Reader
import MarkovRegion.Smt.Command

/-!
# Inputs of commands

Targets, bounds, names of solvers and lists of regions, as they are given to a command.
-/

namespace MarkovRegion.Cli

/-- Why a command fails. -/
inductive CommandError where
  /-- A file cannot be read. -/
  | unreadableFile (path : String)
  | emptyLabel (target : String)
  | invalidBound (text : String) (cause : ModelError)
  | unknownSolver (name : String)
  | noRegions
  | model (cause : ModelError)
  | region (cause : RegionError)
  | check (cause : CheckError)
  deriving DecidableEq

/-- The text of an error. -/
def CommandError.message : CommandError → String
  | unreadableFile path => "cannot read " ++ path
  | emptyLabel target => "empty label in target `" ++ target ++ "`"
  | invalidBound text cause => "invalid bound `" ++ text ++ "`: " ++ cause.message
  | unknownSolver name => "unknown solver `" ++ name ++ "` (expected z3 or cvc5)"
  | noRegions => "no regions given (use --region or --regions-file)"
  | model cause => cause.message
  | region cause => cause.message
  | check cause => cause.message

/-- Whether the command stops here without an answer. -/
def CommandError.stops : CommandError → Bool
  | model cause => cause.stops
  | region cause => cause.stops
  | check cause => cause.stops
  | _ => false

/-- One alternative of a target: `true`, a label, or the negation of one. -/
def readAlternative (target : String) (part : List Char) : Except CommandError StateFormula :=
  let atom (name : List Char) : Except CommandError StateFormula :=
    if name.isEmpty then .error (.emptyLabel target)
    else if String.ofList name == "true" then .ok .always
    else .ok (.label (String.ofList name))
  match Text.trim part with
  | '!' :: rest => return .neg (← atom (Text.trim rest))
  | name => atom name

/-- A target such as `goal`, `!sink` or `done|error`. -/
def readTarget (text : String) : Except CommandError StateFormula := do
  let parts := Text.splitAtChar '|' text.toList
  let first ← readAlternative text (parts.headD [])
  let others ← parts.tail.mapM (readAlternative text)
  return others.foldl .disj first

/-- A bound such as `>=0.5`. -/
def readBound (text : String) : Except CommandError Bound :=
  (Bound.read text).mapError (.invalidBound text)

/-- The solver of a name, in letters of any case. -/
def readSolver (text : String) : Except CommandError Smt.Flavor :=
  match text.map Char.toLower with
  | "z3" => .ok .z3
  | "cvc5" => .ok .cvc5
  | other => .error (.unknownSolver other)

/-- The regions of arguments, in which semicolons separate them, and then of the lines of a file, in
which a number sign starts a remark. -/
def readRegions (args : List String) (file : Option String) : Except CommandError (List Region) :=
  let given := args.flatMap fun arg => Text.splitAtChar ';' arg.toList
  let listed := (Text.lines (file.getD "").toList).map fun line => line.takeWhile (· != '#')
  let texts := ((given ++ listed).map Text.trim).filter fun text => !text.isEmpty
  texts.mapM fun text => (Region.read (String.ofList text)).mapError .region

end MarkovRegion.Cli
