import Mathlib
import MarkovRegion.Proofs.Attempt
import MarkovRegion.Proofs.Text.Lines
import MarkovRegion.Smt.Dialogue

/-!
# Replies stay with their commands

A dialogue reads what a process prints as one stream and finds the end of an answer by a marker.  A
`Channel` has no markers: it keeps the lines that were printed since the last command that waits,
and the next such command hears all of them and nothing else (`Channel.hear`).

`Dialogue.toChannel` forgets the stream.  As long as no line of the stream is a marker
(`Dialogue.Aligned`), what a dialogue does is what the channel does (`Dialogue.Simulates`).  So the
answers of a dialogue never shift, whatever has been printed before (`replies_stay_in_step`).

The dialogue reads the outcome of a check from the last line of the trimmed answer, the channel from
the last line that is not blank (`Dialogue.lastLine_trimmed_join`).
-/

namespace MarkovRegion.Smt

variable {π α β γ δ : Type}

/-! ## What a process prints -/

namespace Process

variable (p : Process π)

/-- The lines that are printed in reaction to some lines. -/
def printed : List String → π → List String
  | [], _ => []
  | line :: rest, q => (p.respond line q).1.lines ++ printed rest (p.respond line q).2

/-- The state after some lines. -/
def after (lines : List String) (q : π) : π := lines.foldl (fun q line => (p.respond line q).2) q

/-- A line of output which is not the marker. -/
def PlainLine (line : String) : Prop := Dialogue.isMarker line = false ∧ '\n' ∉ line.toList

instance (line : String) : Decidable (PlainLine line) :=
  inferInstanceAs (Decidable (Dialogue.isMarker line = false ∧ '\n' ∉ line.toList))

/-- The reaction to a line is any number of lines, none of which is the marker. -/
def AnswersPlainly (line : String) : Prop :=
  ∀ q, (p.respond line q).1.closes = false ∧ ∀ l ∈ (p.respond line q).1.lines, PlainLine l

/-- This is the reaction to all lines of a command.  In particular none of them asks for the
marker. -/
def Plain (text : String) : Prop := ∀ line ∈ Dialogue.commandLines text, p.AnswersPlainly line

/-- The marker is printed on its own line when the process is asked for it. -/
def Echoes : Prop :=
  ∀ q, ∃ line, Dialogue.isMarker line = true ∧
    (p.respond Dialogue.markerCommand q).1 = ⟨[line], false⟩

end Process

/-! ## Channels -/

/-- A running process and what it has printed since the last command that waits. -/
structure Channel (π : Type) where
  /-- How the process was started. -/
  command : SolverCommand
  /-- The state of the process. -/
  process : π
  /-- The lines that no command has heard. -/
  pending : List String
  /-- The declared variables. -/
  declared : List String

namespace Channel

open Dialogue (trimmed isError)

variable (p : Process π)

/-- The last line that is not blank, without blanks around it; empty if all lines are blank. -/
def lastText (lines : List String) : String :=
  ((lines.map trimmed).filter fun line => line ≠ "").getLastD ""

/-- Send a command. -/
def send (text : String) (c : Channel π) : Channel π :=
  { c with
    process := p.after (Dialogue.commandLines text) c.process
    pending := c.pending ++ p.printed (Dialogue.commandLines text) c.process }

/-- All that will have been printed since the last command that waits when a command is answered. -/
def heard (text : String) (c : Channel π) : List String := (c.send p text).pending

/-- The channel after a command that waits: nothing is left. -/
def answered (text : String) (c : Channel π) : Channel π :=
  { c.send p text with
    process := (p.respond Dialogue.markerCommand (c.send p text).process).2
    pending := [] }

/-- Send a command, and hear all that was printed since the last command that waits.  A line that
reports an error makes the command fail. -/
def hear (text : String) : Attempt SolverError (Channel π) (List String) := do
  let c ← get
  set (c.answered p text)
  match (c.heard p text).find? isError with
  | some line => throw (.reported (trimmed line))
  | none => return c.heard p text

theorem run_hear (text : String) (c : Channel π) :
    (hear p text).run c = (match (c.heard p text).find? isError with
      | some line => .error (.reported (trimmed line))
      | none => .ok (c.heard p text), c.answered p text) := by
  have hrun : (hear p text).run c = (do
      set (c.answered p text)
      match (c.heard p text).find? isError with
      | some line => throw (.reported (trimmed line))
      | none => return c.heard p text : Attempt _ _ _).run c := rfl
  rw [hrun]
  cases (c.heard p text).find? isError with
  | none => rfl
  | some line => rfl

/-- Send a command that prints nothing unless it fails. -/
def tell (text : String) : Attempt SolverError (Channel π) Unit := do
  let _ ← hear p text

/-- Send the options and the logic. -/
def initialise (c : Channel π) : Channel π :=
  c.command.preamble.foldl (fun c line => send p line c) c

/-- Start to talk to a process. -/
def start (command : SolverCommand) (process : π) : Channel π :=
  initialise p { command, process, pending := [], declared := [] }

/-- Declare a variable. -/
def declare (name : String) (sort : ValueSort) : Attempt SolverError (Channel π) Unit := do
  if (← get).declared.contains name then
    throw (.reported ("`" ++ name ++ "` is already declared"))
  modify (send p ("(declare-const " ++ name ++ " " ++ sort.write ++ ")"))
  modify fun c => { c with declared := c.declared ++ [name] }

/-- Forget everything and set the options again. -/
def reset : StateM (Channel π) Unit := do
  modify (send p "(reset)")
  modify fun c => initialise p { c with declared := [] }

/-- Why the last check had no answer. -/
def reasonUnknown : Attempt SolverError (Channel π) String := do
  let outcome ← Attempt.outcome (hear p "(get-info :reason-unknown)")
  match outcome with
  | .ok lines => return Dialogue.reasonIn (trimmed (Text.join "\n" lines))
  | .error e => return e.message

/-- Check the assertions. -/
def checkSat : Attempt SolverError (Channel π) SatResult := do
  let lines ← hear p "(check-sat)"
  if lastText lines = "sat" then return .sat
  else if lastText lines = "unsat" then return .unsat
  else if lastText lines = "unknown" ∨ lastText lines = "timeout" then
    return .unknown (← reasonUnknown p)
  else
    throw (.reported ("unexpected check-sat response `" ++ trimmed (Text.join "\n" lines) ++ "`"))

/-- Check the assertions, and ask for the values of variables if they can be met. -/
def check (wanted : List (String × ValueSort)) :
    Attempt SolverError (Channel π) (SatResult × Option Model) := do
  match ← checkSat p with
  | .sat =>
    if wanted.isEmpty then return (.sat, some OrderedMap.empty)
    let lines ← hear p ("(get-value (" ++ Text.join " " (wanted.map Prod.fst) ++ "))")
    return (.sat, some (← Attempt.ofExcept
      (Dialogue.readModel wanted (trimmed (Text.join "\n" lines)))))
  | other => return (other, none)

theorem run_tell (text : String) (c : Channel π) :
    (tell p text).run c = (match (c.heard p text).find? isError with
      | some line => .error (.reported (trimmed line))
      | none => .ok (), c.answered p text) := by
  unfold tell
  rw [Attempt.run_bind, run_hear]
  cases (c.heard p text).find? isError with
  | none => rfl
  | some line => rfl

/-- A command fails exactly if a line that it hears reports an error. -/
theorem tell_fails_iff {text : String} {c : Channel π} :
    (∃ e, ((tell p text).run c).1 = .error e) ↔ ∃ line ∈ c.heard p text, isError line = true := by
  rw [run_tell, ← List.find?_isSome]
  cases (c.heard p text).find? isError with
  | none => simp
  | some line => simp

/-- What a check returns if it is decided by a line. -/
def Decides (line : String) (result : Except SolverError SatResult) : Prop :=
  match line with
  | "sat" => result = .ok .sat
  | "unsat" => result = .ok .unsat
  | "unknown" | "timeout" => ∃ reason, result = .ok (.unknown reason)
  | _ => ∃ reason, result = .error (.reported reason)

/-- That a check has no answer is never an error. -/
theorem exists_unknown (c : Channel π) :
    ∃ reason, ((do return SatResult.unknown (← reasonUnknown p) :
      Attempt SolverError (Channel π) SatResult).run c).1 = .ok (.unknown reason) := by
  unfold reasonUnknown
  rw [Attempt.run_bind, Attempt.run_bind, Attempt.run_outcome]
  cases ((hear p "(get-info :reason-unknown)").run c).1 with
  | ok lines => exact ⟨_, rfl⟩
  | error e => exact ⟨_, rfl⟩

/-- Without an error a check is decided by the last line that is not blank. -/
theorem decides_checkSat {c : Channel π}
    (h : ∀ line ∈ c.heard p "(check-sat)", isError line = false) :
    Decides (lastText (c.heard p "(check-sat)")) ((checkSat p).run c).1 := by
  have hfind : (c.heard p "(check-sat)").find? isError = none :=
    List.find?_eq_none.mpr fun line hline => by simp [h line hline]
  unfold checkSat
  rw [Attempt.run_bind, run_hear, hfind]
  dsimp only
  generalize lastText (c.heard p "(check-sat)") = line
  unfold Decides
  split
  · rfl
  · rfl
  · exact exists_unknown p _
  · exact exists_unknown p _
  · next hsat hunsat hunknown htimeout =>
      rw [if_neg hsat, if_neg hunsat, if_neg (not_or.mpr ⟨hunknown, htimeout⟩)]
      exact ⟨_, rfl⟩

end Channel

/-! ## Calls -/

/-- The calls of a solver. -/
inductive Call where
  | declare (name : String) (sort : ValueSort)
  | assert (t : Term)
  | push
  | pop
  | checkSat
  | check (wanted : List (String × ValueSort))
  | reset

/-- What a call returns. -/
inductive Outcome where
  | done (result : Except SolverError Unit)
  | decided (result : Except SolverError SatResult)
  | valued (result : Except SolverError (SatResult × Option Model))

namespace Call

/-- The commands that a call may send. -/
def texts : Call → List String
  | declare name sort => ["(declare-const " ++ name ++ " " ++ sort.write ++ ")"]
  | assert t => ["(assert " ++ t.write ++ ")"]
  | push => ["(push 1)"]
  | pop => ["(pop 1)"]
  | checkSat => ["(check-sat)", "(get-info :reason-unknown)"]
  | check wanted => ["(check-sat)", "(get-info :reason-unknown)",
      "(get-value (" ++ Text.join " " (wanted.map Prod.fst) ++ "))"]
  | reset => ["(reset)"]

variable (p : Process π)

/-- Make a call in a dialogue. -/
def perform : Call → StateM (Dialogue π) Outcome
  | declare name sort => do return .done (← (Dialogue.declare p name sort).run)
  | assert t => do return .done (← (Dialogue.assert p t).run)
  | push => do return .done (← (Dialogue.push p).run)
  | pop => do return .done (← (Dialogue.pop p).run)
  | checkSat => do return .decided (← (Dialogue.checkSat p).run)
  | check wanted => do return .valued (← (Dialogue.check p wanted).run)
  | reset => do
    Dialogue.reset p
    return .done (.ok ())

/-- Make a call in a channel.  The calls `assert`, `push` and `pop` fail if a line that they hear
reports an error. -/
def performIn : Call → StateM (Channel π) Outcome
  | declare name sort => do return .done (← (Channel.declare p name sort).run)
  | assert t => do return .done (← (Channel.tell p ("(assert " ++ t.write ++ ")")).run)
  | push => do return .done (← (Channel.tell p "(push 1)").run)
  | pop => do return .done (← (Channel.tell p "(pop 1)").run)
  | checkSat => do return .decided (← (Channel.checkSat p).run)
  | check wanted => do return .valued (← (Channel.check p wanted).run)
  | reset => do
    Channel.reset p
    return .done (.ok ())

end Call

/-! ## Dialogues as channels -/

namespace Dialogue

/-- The channel of a dialogue. -/
def toChannel (d : Dialogue π) : Channel π := ⟨d.command, d.process, d.unread, d.declared⟩

/-- The process runs, no marker is left in the stream, and the options may be set again. -/
structure Aligned (p : Process π) (d : Dialogue π) : Prop where
  opened : d.closed = false
  plain : ∀ line ∈ d.unread, Process.PlainLine line
  preamble : ∀ text ∈ d.command.preamble, p.Plain text

/-- The answer in a stream that ends with the only marker. -/
theorem takeAnswer?_append {lines : List String} {line : String}
    (hlines : ∀ l ∈ lines, isMarker l = false) (hline : isMarker line = true) :
    takeAnswer? (lines ++ [line]) = some (lines, []) := by
  induction lines with
  | nil => simp [takeAnswer?, hline]
  | cons l lines ih =>
      obtain ⟨hl, hrest⟩ := List.forall_mem_cons.mp hlines
      rw [List.cons_append, takeAnswer?, if_neg (by simp [hl]), ih hrest]
      rfl

section Send

variable {p : Process π} {d : Dialogue π}

/-- What is printed in reaction to some lines is added to the stream. -/
theorem toChannel_sendLines {lines : List String} (hd : d.Aligned p)
    (hlines : ∀ line ∈ lines, p.AnswersPlainly line) :
    (lines.foldl (sendLine p) d).toChannel =
      { d.toChannel with
        process := p.after lines d.process
        pending := d.unread ++ p.printed lines d.process } ∧
      (lines.foldl (sendLine p) d).Aligned p := by
  induction lines generalizing d with
  | nil => exact ⟨by simp [Process.after, Process.printed, toChannel], hd⟩
  | cons line lines ih =>
      obtain ⟨hline, hrest⟩ := List.forall_mem_cons.mp hlines
      obtain ⟨hopen, hplain⟩ := hline d.process
      have hstep : sendLine p d line =
          { d with
            process := (p.respond line d.process).2
            unread := d.unread ++ (p.respond line d.process).1.lines } := by
        simp [sendLine, hd.opened, hopen]
      have haligned : (sendLine p d line).Aligned p := by
        rw [hstep]
        exact ⟨hd.opened, List.forall_mem_append.mpr ⟨hd.plain, hplain⟩, hd.preamble⟩
      obtain ⟨hview, hfinal⟩ := ih haligned hrest
      refine ⟨?_, hfinal⟩
      rw [List.foldl_cons, hview, hstep]
      simp [toChannel, Process.after, Process.printed]

theorem toChannel_send {text : String} (hd : d.Aligned p) (htext : p.Plain text) :
    (send p text d).toChannel = d.toChannel.send p text ∧ (send p text d).Aligned p := by
  obtain ⟨hview, haligned⟩ := toChannel_sendLines hd htext
  exact ⟨hview, haligned.opened, haligned.plain, haligned.preamble⟩

theorem toChannel_initialise (hd : d.Aligned p) :
    (initialise p d).toChannel = d.toChannel.initialise p ∧ (initialise p d).Aligned p := by
  have hsends : ∀ (texts : List String) (e : Dialogue π), e.Aligned p →
      (∀ text ∈ texts, p.Plain text) →
      (texts.foldl (fun e line => send p line e) e).toChannel =
        texts.foldl (fun c line => c.send p line) e.toChannel ∧
      (texts.foldl (fun e line => send p line e) e).Aligned p := by
    intro texts
    induction texts with
    | nil => exact fun e he _ => ⟨rfl, he⟩
    | cons text texts ih =>
        intro e he htexts
        obtain ⟨htext, hrest⟩ := List.forall_mem_cons.mp htexts
        obtain ⟨hview, haligned⟩ := toChannel_send he htext
        rw [List.foldl_cons, List.foldl_cons, ← hview]
        exact ih _ haligned hrest
  exact hsends d.command.preamble d hd hd.preamble

theorem toChannel_start {command : SolverCommand}
    (hpreamble : ∀ text ∈ command.preamble, p.Plain text) (process : π) :
    (start p command process).toChannel = Channel.start p command process ∧
      (start p command process).Aligned p :=
  toChannel_initialise ⟨rfl, fun _ hline => absurd hline List.not_mem_nil, hpreamble⟩

end Send

/-! ## Simulation -/

/-- Both computations fail in the same way, or both succeed with values that are related. -/
inductive Agree (V : α → β → Prop) : Except SolverError α → Except SolverError β → Prop
  | ok {a : α} {b : β} (h : V a b) : Agree V (.ok a) (.ok b)
  | error (e : SolverError) : Agree V (.error e) (.error e)

theorem Agree.eq {x y : Except SolverError α} (h : Agree Eq x y) : x = y := by
  cases h with
  | ok h => rw [h]
  | error e => rfl

/-- From all dialogues without markers in the stream, a computation does what another one does in
the channel. -/
def Simulates (p : Process π) (x : StateM (Dialogue π) α) (y : StateM (Channel π) β)
    (V : α → β → Prop) : Prop :=
  ∀ d, d.Aligned p →
    V (x d).1 (y d.toChannel).1 ∧ (x d).2.toChannel = (y d.toChannel).2 ∧ (x d).2.Aligned p

namespace Simulates

variable {p : Process π}

theorem ofModify {f : Dialogue π → Dialogue π} {g : Channel π → Channel π}
    (h : ∀ d, d.Aligned p → (f d).toChannel = g d.toChannel ∧ (f d).Aligned p) :
    Simulates p (modify f) (modify g) fun _ _ => True := fun d hd => ⟨trivial, h d hd⟩

theorem bind {V : α → β → Prop} {W : γ → δ → Prop} {x : StateM (Dialogue π) α}
    {y : StateM (Channel π) β} {f : α → StateM (Dialogue π) γ} {g : β → StateM (Channel π) δ}
    (hx : Simulates p x y V) (hf : ∀ a b, V a b → Simulates p (f a) (g b) W) :
    Simulates p (x >>= f) (y >>= g) W := by
  intro d hd
  obtain ⟨hvalue, hview, haligned⟩ := hx d hd
  have hnext := hf _ _ hvalue _ haligned
  rw [hview] at hnext
  exact hnext

theorem pure {V : α → β → Prop} {a : α} {b : β} (h : V a b) :
    Simulates p (pure a) (pure b) V := fun _ hd => ⟨h, rfl, hd⟩

section Attempts

variable {V : α → β → Prop} {W : γ → δ → Prop} {x : Attempt SolverError (Dialogue π) α}
  {y : Attempt SolverError (Channel π) β} {f : α → Attempt SolverError (Dialogue π) γ}
  {g : β → Attempt SolverError (Channel π) δ}

theorem attempt_pure {a : α} {b : β} (h : V a b) :
    Simulates p (Pure.pure a : Attempt SolverError (Dialogue π) α).run
      (Pure.pure b : Attempt SolverError (Channel π) β).run (Agree V) :=
  fun _ hd => ⟨.ok h, rfl, hd⟩

theorem attempt_get :
    Simulates p (get : Attempt SolverError (Dialogue π) _).run
      (get : Attempt SolverError (Channel π) _).run (Agree fun d c => d.toChannel = c) :=
  fun _ hd => ⟨.ok rfl, rfl, hd⟩

theorem attempt_modify {f : Dialogue π → Dialogue π} {g : Channel π → Channel π}
    (h : ∀ d, d.Aligned p → (f d).toChannel = g d.toChannel ∧ (f d).Aligned p) :
    Simulates p (modify f : Attempt SolverError (Dialogue π) _).run
      (modify g : Attempt SolverError (Channel π) _).run (Agree Eq) :=
  fun d hd => ⟨.ok rfl, h d hd⟩

theorem attempt_throw (e : SolverError) :
    Simulates p (throw e : Attempt SolverError (Dialogue π) α).run
      (throw e : Attempt SolverError (Channel π) β).run (Agree V) :=
  fun _ hd => ⟨.error e, rfl, hd⟩

theorem attempt_ofExcept (z : Except SolverError α) :
    Simulates p (Attempt.ofExcept z : Attempt SolverError (Dialogue π) α).run
      (Attempt.ofExcept z : Attempt SolverError (Channel π) α).run (Agree Eq) := by
  intro d hd
  refine ⟨?_, rfl, hd⟩
  rw [Attempt.run_ofExcept, Attempt.run_ofExcept]
  cases z with
  | ok a => exact .ok rfl
  | error e => exact .error e

theorem attempt_outcome (hx : Simulates p x.run y.run (Agree V)) :
    Simulates p (Attempt.outcome x : Attempt SolverError (Dialogue π) _).run
      (Attempt.outcome y : Attempt SolverError (Channel π) _).run (Agree (Agree V)) := by
  intro d hd
  obtain ⟨hvalue, hstate⟩ := hx d hd
  exact ⟨.ok hvalue, hstate⟩

theorem attempt_bind (hx : Simulates p x.run y.run (Agree V))
    (hf : ∀ a b, V a b → Simulates p (f a).run (g b).run (Agree W)) :
    Simulates p (x >>= f).run (y >>= g).run (Agree W) := by
  intro d hd
  obtain ⟨hvalue, hview, haligned⟩ := hx d hd
  rw [Attempt.run_bind, Attempt.run_bind]
  rcases hrun : x.run d with ⟨a', d'⟩
  rcases hrun' : y.run d.toChannel with ⟨b', c'⟩
  rw [hrun, hrun'] at hvalue hview
  rw [hrun] at haligned
  subst hview
  cases hvalue with
  | ok h => exact hf _ _ h d' haligned
  | error e => exact ⟨.error e, rfl, haligned⟩

end Attempts

end Simulates

theorem toList_join_concat {init : List String} (hinit : init ≠ []) (line : String) :
    (Text.join "\n" (init ++ [line])).toList =
      (Text.join "\n" init).toList ++ '\n' :: line.toList := by
  induction init with
  | nil => exact absurd rfl hinit
  | cons first rest ih =>
      cases rest with
      | nil => simp [Text.join]
      | cons second rest =>
          have hrest := ih (List.cons_ne_nil second rest)
          simp only [Text.join, String.toList_intercalate, List.cons_append, List.map_cons,
            List.intercalate_cons_cons] at hrest ⊢
          rw [hrest]
          simp

theorem lastText_concat (init : List String) (line : String) :
    Channel.lastText (init ++ [line]) =
      if Text.trim line.toList = [] then Channel.lastText init else trimmed line := by
  have hempty : trimmed line = "" ↔ Text.trim line.toList = [] := by
    rw [← String.toList_inj, trimmed, String.toList_ofList]
    rfl
  unfold Channel.lastText
  rw [List.map_append, List.filter_append]
  split_ifs with hblank
  · simp [hempty.mpr hblank]
  · simp [mt hempty.mp hblank]

/-- The last line of a trimmed answer is the last line of the answer that is not blank. -/
theorem lastLine_trimmed_join {lines : List String} (h : ∀ line ∈ lines, '\n' ∉ line.toList) :
    lastLine (trimmed (Text.join "\n" lines)) = Channel.lastText lines := by
  induction lines using List.reverseRecOn with
  | nil => rfl
  | append_singleton init line ih =>
      obtain ⟨hinit, hsingle⟩ := List.forall_mem_append.mp h
      have hline := hsingle line (List.mem_singleton_self line)
      have hlast := ih hinit
      rw [lastLine, trimmed, String.toList_ofList] at hlast ⊢
      rw [lastText_concat, ← hlast]
      by_cases hfirst : init = []
      · subst hfirst
        have hjoin : (Text.join "\n" ([] ++ [line])).toList = line.toList := by simp [Text.join]
        rw [hjoin]
        split_ifs with hblank
        · rw [hblank]
          rfl
        · rw [Text.trim_getLastD_lines hblank hline]
          rfl
      · rw [toList_join_concat hfirst]
        split_ifs with hblank
        · have hend : Text.Blank ('\n' :: line.toList) :=
            Text.blank_newline.append (Text.blank_of_trim hblank)
          rw [Text.trim_append_blank _ hend]
        · rw [Text.trim_getLastD_lines_append _ hblank hline]
          rfl

theorem run_receive {d : Dialogue π} {answer rest : List String}
    (h : takeAnswer? d.unread = some (answer, rest)) :
    receive.run d = (match answer.find? isError with
      | some line => .error (.reported (trimmed line))
      | none => .ok (trimmed (Text.join "\n" answer)), { d with unread := rest }) := by
  have hget : (get : Attempt SolverError (Dialogue π) _).run d = (.ok d, d) := rfl
  unfold receive
  rw [Attempt.run_bind, hget]
  dsimp only
  rw [h]
  dsimp only
  cases answer.find? isError with
  | none => rfl
  | some line => rfl

/-- A command that waits gives the text of the lines that it hears in the channel. -/
theorem simulates_ask {p : Process π} {text : String} (htext : p.Plain text) (hecho : p.Echoes) :
    Simulates p (ask p text).run (Channel.hear p text).run (Agree fun answer lines =>
      answer = trimmed (Text.join "\n" lines) ∧ ∀ line ∈ lines, '\n' ∉ line.toList) := by
  intro d hd
  obtain ⟨hview, haligned⟩ := toChannel_send hd htext
  obtain ⟨line, hmarker, hreply⟩ := hecho (send p text d).process
  generalize hsent : send p text d = e at hview haligned hreply
  have hmarked : sendLine p e markerCommand =
      { e with
        process := (p.respond markerCommand e.process).2
        unread := e.unread ++ [line] } := by
    simp [sendLine, haligned.opened, hreply]
  have hanswer := takeAnswer?_append (fun l hl => (haligned.plain l hl).1) hmarker
  have hask : (ask p text).run d = receive.run (sendLine p e markerCommand) := by
    rw [← hsent]
    rfl
  rw [hask, hmarked, run_receive hanswer, Channel.run_hear, Channel.heard, Channel.answered,
    ← hview]
  refine ⟨?_, rfl, haligned.opened, fun _ hline => absurd hline List.not_mem_nil,
    haligned.preamble⟩
  dsimp only [toChannel]
  cases e.unread.find? isError with
  | none => exact .ok ⟨rfl, fun l hl => (haligned.plain l hl).2⟩
  | some l => exact .error _

section Commands

variable {p : Process π} (hecho : p.Echoes)
include hecho

theorem simulates_tell {text : String} (htext : p.Plain text) :
    Simulates p (tell p text).run (Channel.tell p text).run (Agree Eq) :=
  (simulates_ask htext hecho).attempt_bind fun _ _ _ => .attempt_pure rfl

/-- A command that prints nothing unless it fails leaves nothing in the stream, and fails exactly if
a line that it hears reports an error. -/
theorem tell_hears {text : String} (htext : p.Plain text) {d : Dialogue π} (hd : d.Aligned p) :
    ((tell p text).run d).2.unread = [] ∧
    ((∃ e, ((tell p text).run d).1 = .error e) ↔
      ∃ line ∈ d.toChannel.heard p text, isError line = true) := by
  obtain ⟨hagree, hview, -⟩ := simulates_tell hecho htext d hd
  constructor
  · have hpending := congrArg Channel.pending hview
    rw [Channel.run_tell] at hpending
    exact hpending
  · rw [hagree.eq]
    exact Channel.tell_fails_iff p

theorem simulates_reasonUnknown (htext : p.Plain "(get-info :reason-unknown)") :
    Simulates p (reasonUnknown p).run (Channel.reasonUnknown p).run (Agree Eq) := by
  refine (simulates_ask htext hecho).attempt_outcome.attempt_bind fun x y hxy => ?_
  cases hxy with
  | ok h =>
      obtain ⟨rfl, -⟩ := h
      exact .attempt_pure rfl
  | error e => exact .attempt_pure rfl

theorem simulates_checkSat (hcheck : p.Plain "(check-sat)")
    (hreason : p.Plain "(get-info :reason-unknown)") :
    Simulates p (checkSat p).run (Channel.checkSat p).run (Agree Eq) := by
  refine (simulates_ask hcheck hecho).attempt_bind ?_
  rintro answer lines ⟨rfl, hlines⟩
  have hunknown := (simulates_reasonUnknown hecho hreason).attempt_bind
    (f := fun reason => pure (SatResult.unknown reason))
    (g := fun reason => pure (SatResult.unknown reason)) (W := Eq)
    fun reason _ h => h ▸ .attempt_pure rfl
  rw [lastLine_trimmed_join hlines]
  generalize Channel.lastText lines = line
  split
  · rw [if_pos rfl]
    exact .attempt_pure rfl
  · rw [if_neg (by decide), if_pos rfl]
    exact .attempt_pure rfl
  · rw [if_neg (by decide), if_neg (by decide), if_pos (.inl rfl)]
    exact hunknown
  · rw [if_neg (by decide), if_neg (by decide), if_pos (.inr rfl)]
    exact hunknown
  · next hsat hunsat hunknown htimeout =>
      rw [if_neg hsat, if_neg hunsat, if_neg (not_or.mpr ⟨hunknown, htimeout⟩)]
      exact .attempt_throw _

/-- If no line that it hears reports an error, a check is decided by the last of them that is not
blank. -/
theorem checkSat_decided {d : Dialogue π} (hd : d.Aligned p) (hcheck : p.Plain "(check-sat)")
    (hreason : p.Plain "(get-info :reason-unknown)")
    (hsilent : ∀ line ∈ d.toChannel.heard p "(check-sat)", isError line = false) :
    Channel.Decides (Channel.lastText (d.toChannel.heard p "(check-sat)"))
      ((checkSat p).run d).1 := by
  obtain ⟨hagree, -⟩ := simulates_checkSat hecho hcheck hreason d hd
  rw [hagree.eq]
  exact Channel.decides_checkSat p hsilent

theorem simulates_check {wanted : List (String × ValueSort)}
    (htexts : ∀ text ∈ (Call.check wanted).texts, p.Plain text) :
    Simulates p (check p wanted).run (Channel.check p wanted).run (Agree Eq) := by
  simp only [Call.texts, List.forall_mem_cons, List.not_mem_nil, false_implies, implies_true,
    and_true] at htexts
  obtain ⟨hcheck, hreason, hvalues⟩ := htexts
  refine (simulates_checkSat hecho hcheck hreason).attempt_bind ?_
  rintro result _ rfl
  cases result with
  | sat =>
      dsimp only
      split_ifs
      · exact .attempt_pure rfl
      · refine (simulates_ask hvalues hecho).attempt_bind ?_
        rintro answer lines ⟨rfl, -⟩
        refine (Simulates.attempt_ofExcept _).attempt_bind ?_
        rintro m _ rfl
        exact .attempt_pure rfl
  | unsat => exact .attempt_pure rfl
  | unknown reason => exact .attempt_pure rfl

end Commands

theorem simulates_declare {p : Process π} {name : String} {sort : ValueSort}
    (htext : p.Plain ("(declare-const " ++ name ++ " " ++ sort.write ++ ")")) :
    Simulates p (declare p name sort).run (Channel.declare p name sort).run (Agree Eq) := by
  refine Simulates.attempt_get.attempt_bind ?_
  rintro d _ rfl
  dsimp only [toChannel]
  by_cases hname : d.declared.contains name = true
  · simp only [hname, if_true]
    exact (Simulates.attempt_throw (V := fun _ _ => False) _).attempt_bind fun _ _ h => h.elim
  · simp only [hname]
    refine (Simulates.attempt_modify fun e he => toChannel_send he htext).attempt_bind fun _ _ _ => ?_
    exact .attempt_modify fun e he => ⟨rfl, he.opened, he.plain, he.preamble⟩

theorem simulates_reset {p : Process π} (htext : p.Plain "(reset)") :
    Simulates p (reset p) (Channel.reset p) fun _ _ => True := by
  refine (Simulates.ofModify fun d hd => toChannel_send hd htext).bind fun _ _ _ => ?_
  refine .ofModify fun d hd => ?_
  have haligned : Aligned p { d with declared := [] } := ⟨hd.opened, hd.plain, hd.preamble⟩
  exact toChannel_initialise haligned

end Dialogue

/-! ## Runs -/

namespace Call

open Dialogue (Simulates Agree)

variable {p : Process π}

/-- What a computation in a dialogue returns is what it returns in the channel. -/
theorem simulates_outcome {x : StateM (Dialogue π) (Except SolverError α)}
    {y : StateM (Channel π) (Except SolverError α)} (h : Simulates p x y (Agree Eq))
    (result : Except SolverError α → Outcome) :
    Simulates p (do return result (← x)) (do return result (← y)) Eq :=
  h.bind fun _ _ hagree => .pure (congrArg result hagree.eq)

/-- A call is made in the dialogue as in the channel. -/
theorem simulates_perform (hecho : p.Echoes) {call : Call}
    (htexts : ∀ text ∈ call.texts, p.Plain text) :
    Simulates p (call.perform p) (call.performIn p) Eq := by
  cases call with
  | declare name sort =>
      exact simulates_outcome (Dialogue.simulates_declare (htexts _ (List.mem_singleton_self _))) _
  | assert t =>
      exact simulates_outcome
        (Dialogue.simulates_tell hecho (htexts _ (List.mem_singleton_self _))) _
  | push =>
      exact simulates_outcome
        (Dialogue.simulates_tell hecho (htexts _ (List.mem_singleton_self _))) _
  | pop =>
      exact simulates_outcome
        (Dialogue.simulates_tell hecho (htexts _ (List.mem_singleton_self _))) _
  | checkSat =>
      obtain ⟨hcheck, hreason⟩ := List.forall_mem_cons.mp htexts
      exact simulates_outcome
        (Dialogue.simulates_checkSat hecho hcheck (hreason _ (List.mem_singleton_self _))) _
  | check wanted => exact simulates_outcome (Dialogue.simulates_check hecho htexts) _
  | reset =>
      exact (Dialogue.simulates_reset (htexts _ (List.mem_singleton_self _))).bind
        fun _ _ _ => .pure rfl

/-- So are all calls of a list. -/
theorem simulates_performAll (hecho : p.Echoes) {calls : List Call}
    (htexts : ∀ text ∈ calls.flatMap texts, p.Plain text) :
    Simulates p (calls.mapM (perform p)) (calls.mapM (performIn p)) Eq := by
  induction calls with
  | nil => exact .pure rfl
  | cons call calls ih =>
      rw [List.flatMap_cons, List.forall_mem_append] at htexts
      rw [List.mapM_cons, List.mapM_cons]
      refine (simulates_perform hecho htexts.1).bind ?_
      rintro outcome _ rfl
      refine (ih htexts.2).bind ?_
      rintro outcomes _ rfl
      exact .pure rfl

end Call

/-- The answers of a dialogue never shift.  Let a process print anything but the marker in reaction
to commands, and the marker when it is asked for it.  Then all calls return what they return in a
channel, and what the dialogue has not read is what the channel keeps for the next command that
waits.  Such a command takes exactly what was printed since the last one.  It fails if one of these
lines reports an error; otherwise a check is decided by the last of them that is not blank. -/
theorem replies_stay_in_step {p : Process π} (hecho : p.Echoes) (command : SolverCommand)
    (calls : List Call)
    (hplain : ∀ text ∈ command.preamble ++ calls.flatMap Call.texts, p.Plain text) (process : π) :
    let dialogue := (calls.mapM (Call.perform p)).run (Dialogue.start p command process)
    let channel := (calls.mapM (Call.performIn p)).run (Channel.start p command process)
    dialogue.1 = channel.1 ∧ dialogue.2.unread = channel.2.pending ∧ dialogue.2.closed = false ∧
    (∀ text, p.Plain text →
      let told := (Dialogue.tell p text).run dialogue.2
      told.2.unread = [] ∧
      ((∃ e, told.1 = .error e) ↔
        ∃ line ∈ channel.2.heard p text, Dialogue.isError line = true)) ∧
    (p.Plain "(check-sat)" → p.Plain "(get-info :reason-unknown)" →
      (∀ line ∈ channel.2.heard p "(check-sat)", Dialogue.isError line = false) →
      Channel.Decides (Channel.lastText (channel.2.heard p "(check-sat)"))
        ((Dialogue.checkSat p).run dialogue.2).1) := by
  intro dialogue channel
  obtain ⟨hpreamble, htexts⟩ := List.forall_mem_append.mp hplain
  obtain ⟨hstart, haligned⟩ := Dialogue.toChannel_start hpreamble process
  obtain ⟨houtcomes, hchannel, hfinal⟩ := Call.simulates_performAll hecho htexts _ haligned
  rw [hstart] at houtcomes hchannel
  change dialogue.2.toChannel = channel.2 at hchannel
  rw [← hchannel]
  exact ⟨houtcomes, rfl, hfinal.opened, fun _ htext => Dialogue.tell_hears hecho htext hfinal,
    Dialogue.checkSat_decided hecho hfinal⟩

/-! ## A process that complains late -/

/-- A process that does not like a declaration, and checks with a remark. -/
def grumbler : Process Unit where
  respond line _ :=
    (if line = Dialogue.markerCommand then ⟨["\"<<DONE>>\""], false⟩
      else if line = "(declare-const luck Real)" then ⟨["  (error \"no luck\")"], false⟩
      else if line = "(check-sat)" then ⟨["; slow", " unsat ", "\t"], false⟩
      else ⟨[], false⟩, ())

theorem echoes_grumbler : grumbler.Echoes := fun _ => ⟨_, by decide, rfl⟩

theorem plain_grumbler {text : String}
    (htext : Dialogue.markerCommand ∉ Dialogue.commandLines text) : grumbler.Plain text := by
  intro line hline q
  have hmarker : line ≠ Dialogue.markerCommand := fun h => htext (h ▸ hline)
  simp only [grumbler, if_neg hmarker]
  split_ifs
  · decide +kernel
  · decide +kernel
  · decide +kernel

/-- A declaration, an assertion, a check and a frame. -/
def luckyCalls : List Call := [.declare "luck" .real, .assert (.bool true), .checkSat, .push]

/-- The complaint about the declaration makes the assertion fail, and nothing after it. -/
theorem replies_stay_in_step_grumbler :
    grumbler.Echoes ∧
    (∀ text ∈ (SolverCommand.ofFlavor .z3).preamble ++ luckyCalls.flatMap Call.texts,
      grumbler.Plain text) ∧
    let dialogue := (luckyCalls.mapM (Call.perform grumbler)).run
      (Dialogue.start grumbler (.ofFlavor .z3) ())
    dialogue.1 = [.done (.ok ()), .done (.error (.reported "(error \"no luck\")")),
      .decided (.ok .unsat), .done (.ok ())] ∧
    dialogue.2.unread = [] := by
  have hplain : ∀ text ∈ (SolverCommand.ofFlavor .z3).preamble ++ luckyCalls.flatMap Call.texts,
      grumbler.Plain text := by
    have hmarker : ∀ text ∈ (SolverCommand.ofFlavor .z3).preamble ++ luckyCalls.flatMap Call.texts,
        Dialogue.markerCommand ∉ Dialogue.commandLines text := by decide +kernel
    exact fun text htext => plain_grumbler (hmarker text htext)
  obtain ⟨houtcomes, hunread, -⟩ :=
    replies_stay_in_step echoes_grumbler (.ofFlavor .z3) luckyCalls hplain ()
  refine ⟨echoes_grumbler, hplain, houtcomes.trans ?_, hunread.trans ?_⟩
  · cbv
  · cbv

end MarkovRegion.Smt
