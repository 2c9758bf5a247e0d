import MarkovRegion.Smt.Dialogue

/-!
# Scripted solvers

Solvers whose answers are given beforehand, to rehearse a check without a solver.

* `Script.process` is a process that replies to lines by rules.
* `Stage.factory` creates solvers that answer the checks of a session from a list, may be told to
  fail at a call, and log all calls.
-/

namespace MarkovRegion.Smt

/-! ## Scripted processes -/

/-- The replies of a process, by the first rule whose text starts the line. -/
structure Script where
  /-- The text that a line starts with, and the replies to its lines in their order.  Without a
  reply the process is about to close. -/
  rules : List (String × List (Option String))
  /-- Whether the process prints echoed texts with their quotation marks. -/
  quoted : Bool
  /-- Whether the process closes its output at the next echo. -/
  closing : Bool

namespace Script

/-- Take the next reply of the first rule that fits a line. -/
def takeReply (line : List Char) :
    List (String × List (Option String)) →
      Option (Option String) × List (String × List (Option String))
  | [] => (none, [])
  | (start, replies) :: rules =>
    if start.toList.isPrefixOf line then
      match replies with
      | [] => (none, (start, []) :: rules)
      | reply :: rest => (some reply, (start, rest) :: rules)
    else
      let (reply, rules) := takeReply line rules
      (reply, (start, replies) :: rules)

/-- The text between quotation marks that a line asks to echo. -/
def echoed? (line : List Char) : Option (List Char) :=
  ("(echo \"".toList.isPrefixOf? line).bind fun rest =>
    ("\")".toList.reverse.isPrefixOf? rest.reverse).map List.reverse

/-- The lines of a reply. -/
def linesOf (reply : String) : List String :=
  (Text.splitAtChar '\n' reply.toList).map String.ofList

/-- The reaction to a line. -/
def respond (line : String) (s : Script) : Reply × Script :=
  if line == "(exit)" then ({ lines := [], closes := false }, s)
  else
    match echoed? line.toList with
    | some text =>
      if s.closing then ({ lines := [], closes := true }, s)
      else
        let text := String.ofList text
        ({ lines := [if s.quoted then "\"" ++ text ++ "\"" else text], closes := false }, s)
    | none =>
      match takeReply line.toList s.rules with
      | (none, rules) => ({ lines := [], closes := false }, { s with rules })
      | (some none, rules) => ({ lines := [], closes := false }, { s with rules, closing := true })
      | (some (some reply), rules) =>
        ({ lines := linesOf reply, closes := false }, { s with rules })

/-- The process that replies by a script. -/
def process : Process Script := ⟨respond⟩

/-- The programs that reply by a script are those of the known solvers. -/
def programs (s : Script) (program : String) : Option Script :=
  if program == Flavor.z3.name || program == Flavor.cvc5.name then some s else none

end Script

/-! ## Scripted solvers -/

/-- The calls of a solver that may be told to fail. -/
inductive CallKind where
  | declare
  | assert
  | push
  | pop
  | check
  deriving DecidableEq, Repr

/-- The name of a call. -/
def CallKind.name : CallKind → String
  | declare => "declare"
  | assert => "assert"
  | push => "push"
  | pop => "pop"
  | check => "check"

/-- What is shared by scripted solvers. -/
structure Stage where
  /-- The answers that are left for each session. -/
  answers : List (String × List (SatResult × Option Model))
  /-- The calls that fail: the session, the call and how many such calls come before. -/
  failures : List (String × CallKind × Nat)
  /-- The sessions whose solvers cannot be created. -/
  refused : List String
  /-- All calls with their sessions, the last one first. -/
  log : List (String × String)

/-- A scripted solver. -/
structure Actor where
  /-- The session. -/
  name : String
  /-- The calls that were made. -/
  calls : List CallKind

namespace Stage

/-- Log a call. -/
def note (name text : String) (s : Stage) : Stage := { s with log := (name, text) :: s.log }

/-- The calls of a session, in their order. -/
def logOf (s : Stage) (name : String) : List String :=
  ((s.log.filter fun e => e.1 == name).map Prod.snd).reverse

/-- The sessions with calls, in their order. -/
def sessions (s : Stage) : List String := orderedKeys (s.log.map Prod.fst)

/-- Let a solver enter. -/
def enter (name : String) : Attempt String Stage Actor := do
  if (← get).refused.contains name then throw ("cannot create " ++ name)
  modify (note name "create")
  return { name, calls := [] }

/-- Make a call: it is logged, counted, and may be one that fails. -/
def call (kind : CallKind) (text : String) : Attempt String (Actor × Stage) Unit := do
  let (actor, stage) ← get
  set (({ actor with calls := kind :: actor.calls }, stage.note actor.name text) : Actor × Stage)
  if stage.failures.contains (actor.name, kind, actor.calls.count kind) then
    throw ("scripted " ++ kind.name ++ " failure")

/-- Take the next answer of a session. -/
def takeAnswer (name : String) (s : Stage) : (SatResult × Option Model) × Stage :=
  match s.answers.lookup name with
  | some (answer :: rest) =>
    (answer, { s with answers := s.answers.map fun e => if e.1 == name then (name, rest) else e })
  | _ => ((.unknown "script exhausted", none), s)

/-- The scripted solver. -/
def solver : Solver (Actor × Stage) where
  declare name sort := call .declare ("declare " ++ name ++ " " ++ sort.write)
  assert t := call .assert ("assert " ++ t.write)
  push := call .push "push"
  pop := call .pop "pop"
  check wanted := do
    call .check (Text.join " " ("check" :: wanted.map Prod.fst))
    let (actor, stage) ← get
    let (answer, stage) := takeAnswer actor.name stage
    set (actor, stage)
    return answer
  comment text := modify fun (actor, stage) => (actor, stage.note actor.name ("comment " ++ text))

/-- The factory of scripted solvers; a session is named by its kind and its worker. -/
def factory : SolverFactory Actor Stage where
  create kind worker := enter (kind.name ++ "." ++ toString worker)
  solver := solver
  close _ stage := stage

end Stage

end MarkovRegion.Smt
