import MarkovRegion.Text.Pieces

/-!
# Arguments of the program

The first argument names a command, and the others are its options: `--name value`, `--name=value`,
or `--name` alone for a switch.  A value that starts with a hyphen can only be given with an equals
sign.  Each option is given at most once, except regions.
-/

namespace MarkovRegion.Cli

/-- What an option takes. -/
inductive OptionKind where
  /-- Nothing. -/
  | switch
  /-- Any text. -/
  | text
  /-- Any text, and the option may be repeated. -/
  | texts
  /-- A path, which is not empty. -/
  | path
  deriving DecidableEq, Repr

/-- The options of a command. -/
abbrev OptionTable := List (String × OptionKind)

/-- Options that were given, with their values; a switch has the empty value. -/
abbrev GivenOptions := List (String × String)

/-- The name of an option and what stands after its equals sign. -/
def longOption? (arg : String) : Option (String × Option String) :=
  match arg.toList with
  | '-' :: '-' :: body =>
    let name := String.ofList (body.takeWhile (· != '='))
    match body.dropWhile (· != '=') with
    | [] => some (name, none)
    | _ :: value => some (name, some (String.ofList value))
  | _ => none

/-- Whether an argument starts with a hyphen, and is not a hyphen alone. -/
def looksLikeOption (arg : String) : Bool :=
  match arg.toList with
  | '-' :: _ :: _ => true
  | _ => false

/-- The options that are given.  Two hyphens alone may end the arguments. -/
def scanOptions (table : OptionTable) : List String → Option GivenOptions
  | [] => some []
  | ["--"] => some []
  | [arg] => do
    let (name, value) ← longOption? arg
    match ← table.lookup name, value with
    | .switch, none => some [(name, "")]
    | .switch, some _ => none
    | _, value => value.map fun value => [(name, value)]
  | arg :: next :: rest => do
    let (name, value) ← longOption? arg
    match ← table.lookup name, value with
    | .switch, none => return (name, "") :: (← scanOptions table (next :: rest))
    | .switch, some _ => none
    | _, some value => return (name, value) :: (← scanOptions table (next :: rest))
    | _, none =>
      if looksLikeOption next then none else return (name, next) :: (← scanOptions table rest)

/-- Whether an option is given as often and with such a value as its kind allows. -/
def isAllowed (given : GivenOptions) (option : String × OptionKind) : Bool :=
  let values := (given.filter fun e => e.1 == option.1).map Prod.snd
  match option.2 with
  | .texts => true
  | .path => values.length ≤ 1 && values.all fun value => !value.isEmpty
  | _ => values.length ≤ 1

/-- Read options, each of which must be allowed. -/
def readOptions (table : OptionTable) (args : List String) : Option GivenOptions := do
  let given ← scanOptions table args
  if table.all (isAllowed given) then some given else none

/-- A number of at most 64 bits, with an optional plus sign. -/
def readCount? (text : String) : Option Nat :=
  let digits := match text.toList with
    | '+' :: digits => digits
    | digits => digits
  if digits.isEmpty || digits.any fun c => !c.isDigit then none
  else
    let value := digits.foldl (fun n c => 10 * n + (c.toNat - 48)) 0
    if value < 18446744073709551616 then some value else none

/-- What a check is asked for. -/
structure CheckRequest where
  /-- The path of the model. -/
  model : String
  /-- The target. -/
  target : String
  /-- The bound. -/
  bound : String
  /-- The regions. -/
  regions : List String
  /-- The path of a file with more regions. -/
  regionsFile : Option String
  /-- The path of the options. -/
  config : Option String
  /-- The name of the solver. -/
  solver : Option String
  /-- The number of workers. -/
  jobs : Nat
  /-- Whether the report is a document. -/
  json : Bool
  /-- Whether the statistics are wanted. -/
  stats : Bool
  /-- What the paths of transcripts start with. -/
  dump : Option String
  deriving DecidableEq, Repr

/-- What a closed form is asked for. -/
structure FunctionRequest where
  /-- The path of the model. -/
  model : String
  /-- The target. -/
  target : String
  /-- The path of the options. -/
  config : Option String
  deriving DecidableEq, Repr

/-- A command. -/
inductive Command where
  | check (request : CheckRequest)
  | function (request : FunctionRequest)
  deriving DecidableEq, Repr

namespace Command

/-- The options that both commands have. -/
def sharedOptions : OptionTable := [("model", .path), ("target", .text), ("config", .path)]

/-- The options of a check. -/
def checkOptions : OptionTable :=
  sharedOptions ++
    [("bound", .text), ("region", .texts), ("regions-file", .path), ("solver", .text),
      ("jobs", .text), ("json", .switch), ("stats", .switch), ("dump-smt", .path)]

/-- Read a check. -/
def readCheck? (args : List String) : Option Command := do
  let given ← readOptions checkOptions args
  let jobs ← match given.lookup "jobs" with
    | some text => readCount? text
    | none => some 1
  return check {
    model := ← given.lookup "model"
    target := ← given.lookup "target"
    bound := ← given.lookup "bound"
    regions := (given.filter fun e => e.1 == "region").map Prod.snd
    regionsFile := given.lookup "regions-file"
    config := given.lookup "config"
    solver := given.lookup "solver"
    jobs
    json := (given.lookup "json").isSome
    stats := (given.lookup "stats").isSome
    dump := given.lookup "dump-smt" }

/-- Read a request for a closed form. -/
def readFunction? (args : List String) : Option Command := do
  let given ← readOptions sharedOptions args
  return function {
    model := ← given.lookup "model"
    target := ← given.lookup "target"
    config := given.lookup "config" }

/-- Read a command; nothing if the arguments are not as they should be. -/
def read? : List String → Option Command
  | "check" :: args => readCheck? args
  | "function" :: args => readFunction? args
  | _ => none

/-- The paths of the files that a command reads. -/
def inputs : Command → List String
  | check r => r.model :: (r.config.toList ++ r.regionsFile.toList)
  | function r => r.model :: r.config.toList

end Command

end MarkovRegion.Cli
