import MarkovRegion.Smt.Command
import MarkovRegion.Smt.SExpr
import MarkovRegion.Smt.Solver
import MarkovRegion.Smt.Transcript

/-!
# Talking to a solver process

A process is a function from a line that is sent to the lines it prints.  After each command whose
answer matters the process is asked to print a marker; what it has printed up to the marker is the
answer.  A line that starts with `(error` makes the command fail.

`Dialogue.solver` is the solver behind a process, and `Recorded.factory` starts processes whose
commands are also written to transcripts.
-/

namespace MarkovRegion.Smt

/-- What a process does on a line. -/
structure Reply where
  /-- The lines that it prints. -/
  lines : List String
  /-- Whether it closes its output after them. -/
  closes : Bool

/-- A process with states in `π`. -/
structure Process (π : Type) where
  /-- The reaction to a line. -/
  respond : String → π → Reply × π

/-- Why a command fails. -/
inductive SolverError where
  | io (reason : String)
  | notFound (reason : String)
  | reported (reason : String)
  | unreadable (reason : String)
  | closed
  deriving DecidableEq

/-- The text of an error. -/
def SolverError.message : SolverError → String
  | io reason => "SMT solver I/O error: " ++ reason
  | notFound reason => "SMT solver not found: " ++ reason
  | reported reason => "SMT solver error: " ++ reason
  | unreadable reason => "Failed to parse SMT solver output: " ++ reason
  | closed => "SMT solver closed its output unexpectedly"

/-- A running process and what has been said. -/
structure Dialogue (π : Type) where
  /-- How the process was started. -/
  command : SolverCommand
  /-- The state of the process. -/
  process : π
  /-- The lines that were printed and not read. -/
  unread : List String
  /-- Whether the process has closed its output. -/
  closed : Bool
  /-- The declared variables. -/
  declared : List String
  /-- What has to be written to the transcript, piece by piece. -/
  unrecorded : List String

namespace Dialogue

/-- The line that marks the end of an answer. -/
def marker : String := "<<DONE>>"

/-- The command that makes the process print the marker. -/
def markerCommand : String := "(echo \"" ++ marker ++ "\")"

/-- Whether a line is the marker; some solvers keep its quotation marks. -/
def isMarker (line : String) : Bool :=
  let line := String.ofList (Text.trimEnd line.toList)
  line == marker || line == "\"" ++ marker ++ "\""

/-- Whether a line reports an error. -/
def isError (line : String) : Bool :=
  "(error".toList.isPrefixOf (Text.trimStart line.toList)

/-- A text without blanks around it. -/
def trimmed (text : String) : String := String.ofList (Text.trim text.toList)

variable {π : Type}

/-- Take the lines up to the marker, if it has been printed. -/
def takeAnswer? : List String → Option (List String × List String)
  | [] => none
  | line :: rest =>
    if isMarker line then some ([], rest)
    else (takeAnswer? rest).map fun (answer, rest) => (line :: answer, rest)

/-- Send one line.  A process that has closed its output prints nothing more. -/
def sendLine (p : Process π) (d : Dialogue π) (line : String) : Dialogue π :=
  let (reply, process) := p.respond line d.process
  if d.closed then { d with process }
  else { d with process, unread := d.unread ++ reply.lines, closed := reply.closes }

/-- The lines of a command. -/
def commandLines (text : String) : List String :=
  (Text.splitAtChar '\n' text.toList).map String.ofList

/-- Send a command and record it. -/
def send (p : Process π) (text : String) (d : Dialogue π) : Dialogue π :=
  let d := (commandLines text).foldl (sendLine p) d
  { d with unrecorded := d.unrecorded ++ [text, "\n"] }

/-- Read the answer to the last command. -/
def receive : Attempt SolverError (Dialogue π) String := do
  let d ← get
  match takeAnswer? d.unread with
  | none =>
    set { d with unread := [] }
    throw .closed
  | some (answer, rest) =>
    set { d with unread := rest }
    match answer.find? isError with
    | some line => throw (.reported (trimmed line))
    | none => return trimmed (Text.join "\n" answer)

/-- Send a command and read its answer. -/
def ask (p : Process π) (text : String) : Attempt SolverError (Dialogue π) String := do
  modify (send p text)
  modify fun d => sendLine p d markerCommand
  receive

/-- Send a command that prints nothing unless it fails. -/
def tell (p : Process π) (text : String) : Attempt SolverError (Dialogue π) Unit := do
  let _ ← ask p text

/-- Send the options and the logic. -/
def initialise (p : Process π) (d : Dialogue π) : Dialogue π :=
  d.command.preamble.foldl (fun d line => send p line d) d

/-- Start to talk to a process. -/
def start (p : Process π) (command : SolverCommand) (process : π) : Dialogue π :=
  initialise p
    { command, process, unread := [], closed := false, declared := []
      unrecorded := [";; ", command.commandLine, "\n"] }

/-- Declare a variable; its answer is not waited for. -/
def declare (p : Process π) (name : String) (sort : ValueSort) :
    Attempt SolverError (Dialogue π) Unit := do
  if (← get).declared.contains name then
    throw (.reported ("`" ++ name ++ "` is already declared"))
  modify (send p ("(declare-const " ++ name ++ " " ++ sort.write ++ ")"))
  modify fun d => { d with declared := d.declared ++ [name] }

/-- Assert a term. -/
def assert (p : Process π) (t : Term) : Attempt SolverError (Dialogue π) Unit :=
  tell p ("(assert " ++ t.write ++ ")")

/-- Open a frame. -/
def push (p : Process π) : Attempt SolverError (Dialogue π) Unit := tell p "(push 1)"

/-- Close a frame. -/
def pop (p : Process π) : Attempt SolverError (Dialogue π) Unit := tell p "(pop 1)"

/-- Forget everything and set the options again. -/
def reset (p : Process π) : StateM (Dialogue π) Unit := do
  modify (send p "(reset)")
  modify fun d => initialise p { d with declared := [] }

/-- Leave a remark in the transcript. -/
def comment (text : String) : StateM (Dialogue π) Unit :=
  modify fun d =>
    { d with unrecorded := d.unrecorded ++ "\n" ::
        (Text.lines text.toList).flatMap fun line => [";; ", String.ofList line, "\n"] }

/-- The second item of a list, without the quotation marks around it. -/
def reasonOf? : SExpr → Option String
  | .list (_ :: reason :: _) =>
    some (String.ofList (Text.dropEndWhile (· == '\x22')
      (reason.write.toList.dropWhile (· == '\x22'))))
  | _ => none

/-- The reason that an answer to `(get-info :reason-unknown)` gives. -/
def reasonIn (answer : String) : String :=
  ((SExpr.read answer).toOption.bind reasonOf?).getD answer

/-- Why the last check had no answer. -/
def reasonUnknown (p : Process π) : Attempt SolverError (Dialogue π) String := do
  let outcome ← Attempt.outcome (ask p "(get-info :reason-unknown)")
  match outcome with
  | .ok answer => return reasonIn answer
  | .error e => return e.message

/-- The last line of an answer, without blanks around it. -/
def lastLine (answer : String) : String :=
  String.ofList (Text.trim ((Text.lines answer.toList).getLastD []))

/-- Check the assertions. -/
def checkSat (p : Process π) : Attempt SolverError (Dialogue π) SatResult := do
  let answer ← ask p "(check-sat)"
  match lastLine answer with
  | "sat" => return .sat
  | "unsat" => return .unsat
  | "unknown" | "timeout" => return .unknown (← reasonUnknown p)
  | _ => throw (.reported ("unexpected check-sat response `" ++ answer ++ "`"))

/-- The value of a sort that an s-expression stands for, if it is exact. -/
def valueOf? (sort : ValueSort) (s : SExpr) : Option ModelValue :=
  match sort, s with
  | .real, s => s.toRational?.map .real
  | .bool, .atom "true" => some (.bool true)
  | .bool, .atom "false" => some (.bool false)
  | .bool, _ => none

/-- Add the values of the wanted variables; a value that is not exact is left out. -/
def addBindings (wanted : List (String × ValueSort)) (m : Model) :
    List SExpr → Except SolverError Model
  | [] => .ok m
  | .list [.atom name, value] :: rest =>
    match (wanted.lookup name).bind fun sort => valueOf? sort value with
    | some v => addBindings wanted (m.insert name v) rest
    | none => addBindings wanted m rest
  | other :: _ => .error (.unreadable ("malformed binding `" ++ other.write ++ "`"))

/-- The values in an answer such as `((x 1.0) (y (/ 1.0 3.0)))`. -/
def readModel (wanted : List (String × ValueSort)) (answer : String) : Except SolverError Model :=
  match SExpr.read answer with
  | .error e => .error (.unreadable e.message)
  | .ok (.list bindings) => addBindings wanted OrderedMap.empty bindings
  | .ok (.atom _) => .error (.unreadable ("expected a list, got `" ++ answer ++ "`"))

/-- Check the assertions, and ask for the values of variables if they can be met. -/
def check (p : Process π) (wanted : List (String × ValueSort)) :
    Attempt SolverError (Dialogue π) (SatResult × Option Model) := do
  match ← checkSat p with
  | .sat =>
    if wanted.isEmpty then return (.sat, some OrderedMap.empty)
    let answer ← ask p ("(get-value (" ++ Text.join " " (wanted.map Prod.fst) ++ "))")
    return (.sat, some (← Attempt.ofExcept (readModel wanted answer)))
  | other => return (other, none)

/-- The solver behind a process. -/
def solver (p : Process π) : Solver (Dialogue π) where
  declare name sort := Attempt.mapError SolverError.message (declare p name sort)
  assert t := Attempt.mapError SolverError.message (assert p t)
  push := Attempt.mapError SolverError.message (push p)
  pop := Attempt.mapError SolverError.message (pop p)
  check wanted := Attempt.mapError SolverError.message (check p wanted)
  comment := comment

end Dialogue

/-- A dialogue with a transcript. -/
structure Recorded (π : Type) where
  /-- The dialogue. -/
  dialogue : Dialogue π
  /-- The transcript, if one is kept. -/
  transcript : Option Transcript

namespace Recorded

variable {π : Type}

/-- Write what has to be recorded. -/
def record (r : Recorded π) (files : Files) : Recorded π × Files :=
  let pieces := r.dialogue.unrecorded
  let dialogue := { r.dialogue with unrecorded := [] }
  match r.transcript with
  | none => ({ dialogue, transcript := none }, files)
  | some t =>
    let (t, files) := t.appendAll pieces files
    ({ dialogue, transcript := some t }, files)

/-- A step of the dialogue, after which what was said is recorded. -/
def stepped {α : Type} (x : StateM (Dialogue π) α) : StateM (Recorded π × Files) α :=
  fun (r, files) =>
    let (a, dialogue) := x r.dialogue
    (a, record { r with dialogue } files)

/-- The solver behind a process, with its transcript. -/
def solver (p : Process π) : Solver (Recorded π × Files) :=
  let s := Dialogue.solver p
  { declare := fun name sort => ExceptT.mk (stepped (s.declare name sort).run)
    assert := fun t => ExceptT.mk (stepped (s.assert t).run)
    push := ExceptT.mk (stepped s.push.run)
    pop := ExceptT.mk (stepped s.pop.run)
    check := fun wanted => ExceptT.mk (stepped (s.check wanted).run)
    comment := fun text => stepped (s.comment text) }

/-- What is said of a file or program that does not exist. -/
def missing : String := "No such file or directory (os error 2)"

/-- Start a process and its transcript.  The programs that exist are given with the states in which
they start. -/
def start (p : Process π) (programs : String → Option π) (command : SolverCommand)
    (path : Option String) : Attempt SolverError Files (Recorded π) := do
  match programs command.program with
  | none => throw (.notFound (command.program ++ ": " ++ missing))
  | some process =>
    let transcript ← match path with
      | none => pure none
      | some path =>
        match Transcript.open? path (← get) with
        | none => throw (.io missing)
        | some (t, files) =>
          set files
          pure (some t)
    let (r, files) := record { dialogue := Dialogue.start p command process, transcript } (← get)
    set files
    return r

/-- End the process and its transcript. -/
def close (r : Recorded π) (files : Files) : Files :=
  match r.transcript with
  | none => files
  | some t => (t.flush files).2

/-- How the processes of sessions are started. -/
structure Plan where
  /-- The solver. -/
  flavor : Flavor
  /-- The time limit of queries in each kind of session, in milliseconds. -/
  timeout : SessionKind → Nat
  /-- What the paths of transcripts start with, if transcripts are wanted. -/
  dump : Option String

/-- The path of the transcript of a session. -/
def Plan.path (plan : Plan) (kind : SessionKind) (worker : Nat) : Option String :=
  plan.dump.map fun base =>
    if worker = 0 then base ++ "." ++ kind.name ++ ".smt2"
    else base ++ "." ++ kind.name ++ "." ++ toString worker ++ ".smt2"

/-- The factory that starts processes. -/
def factory (p : Process π) (programs : String → Option π) (plan : Plan) :
    SolverFactory (Recorded π) Files where
  create kind worker :=
    Attempt.mapError SolverError.message
      (start p programs ((SolverCommand.ofFlavor plan.flavor).withTimeout (plan.timeout kind))
        (plan.path kind worker))
  solver := solver p
  close := close

end Recorded

end MarkovRegion.Smt
