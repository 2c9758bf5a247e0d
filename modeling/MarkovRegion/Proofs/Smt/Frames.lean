import MarkovRegion.Proofs.Smt.Query
import MarkovRegion.Smt.Script

/-!
# Frames that are left open

A solver as a stack of frames of assertions, any call of which may fail (`Temper.factory`).  A call
that fails leaves the frames as they are, so a query whose frame cannot be closed leaves it behind.
Every such failure is counted, and the stacks at all checks are noted.

A query leaves one frame more behind for every failure to close one, and nothing else
(`Temper.query_carries`): above the assertions of the encoding there are as many frames as have
failed to close.
-/

namespace MarkovRegion.Smt

open Attempt

/-! ## Solvers that fail -/

/-- The state of a solver. -/
structure Stack where
  /-- The kind of its session. -/
  kind : SessionKind
  /-- The frames of assertions, the innermost first. -/
  frames : List (List Term)
  /-- The last remark. -/
  remark : String
  /-- How many frames could not be closed. -/
  failedPops : Nat

namespace Stack

/-- Assert a term in the innermost frame. -/
def assert (s : Stack) (t : Term) : Stack :=
  { s with
    frames := match s.frames with
      | [] => [[t]]
      | frame :: frames => (t :: frame) :: frames }

/-- Open a frame. -/
def push (s : Stack) : Stack := { s with frames := [] :: s.frames }

/-- Close the innermost frame. -/
def pop (s : Stack) : Stack := { s with frames := s.frames.tail }

/-- A call has failed: the frames are as they were. -/
def failed (s : Stack) : CallKind → Stack
  | .pop => { s with failedPops := s.failedPops + 1 }
  | _ => s

/-- The frames of a query, then one for every frame that could not be closed, then the base. -/
def Carries (s : Stack) (query : List (List Term)) (base : List Term) : Prop :=
  ∃ leftover, s.frames = query ++ leftover ++ [base] ∧ leftover.length = s.failedPops

variable {s : Stack} {query : List (List Term)} {base : List Term}

/-- Nothing is left over exactly if every frame could be closed. -/
theorem Carries.frames_eq_iff (h : s.Carries query base) :
    s.frames = query ++ [base] ↔ s.failedPops = 0 := by
  obtain ⟨leftover, hframes, hlength⟩ := h
  rw [hframes, ← hlength, List.length_eq_zero_iff, List.append_left_inj, List.append_right_eq_self]

theorem Carries.push (h : s.Carries [] base) : s.push.Carries [[]] base := by
  obtain ⟨leftover, hframes, hlength⟩ := h
  exact ⟨leftover, congrArg ([] :: ·) hframes, hlength⟩

theorem Carries.assert {frame : List Term} (h : s.Carries [frame] base) (t : Term) :
    (s.assert t).Carries [t :: frame] base := by
  obtain ⟨leftover, hframes, hlength⟩ := h
  refine ⟨leftover, ?_, hlength⟩
  rw [Stack.assert, hframes]
  rfl

theorem Carries.pop {frame : List Term} (h : s.Carries [frame] base) : s.pop.Carries [] base := by
  obtain ⟨leftover, hframes, hlength⟩ := h
  exact ⟨leftover, congrArg List.tail hframes, hlength⟩

/-- The frame that cannot be closed stays behind. -/
theorem Carries.failed_pop {frame : List Term} (h : s.Carries [frame] base) :
    (s.failed .pop).Carries [] base := by
  obtain ⟨leftover, hframes, hlength⟩ := h
  exact ⟨frame :: leftover, hframes, congrArg (· + 1) hlength⟩

end Stack

/-- Which calls fail and what checks answer.  Both may depend on the stack and on all that happened
before. -/
structure Temper (τ : Type) where
  /-- Whether a solver cannot be created. -/
  refuses : SessionKind → Nat → τ → Option String × τ
  /-- Whether a call fails. -/
  fails : CallKind → Stack → τ → Option String × τ
  /-- The answer to a check. -/
  answers : Stack → List (String × ValueSort) → τ → (SatResult × Option Model) × τ

/-- The world of the solvers. -/
structure Bench (τ : Type) where
  /-- What happened before. -/
  mood : τ
  /-- The stacks at all checks, the last one first. -/
  checks : List Stack

namespace Temper

variable {τ : Type} (t : Temper τ)

/-- A call that may fail. -/
def call (kind : CallKind) (change : Stack → Stack) : Attempt String (Stack × Bench τ) Unit :=
  ExceptT.mk fun (s, bench) =>
    match t.fails kind s bench.mood with
    | (some failure, mood) => (.error failure, s.failed kind, { bench with mood })
    | (none, mood) => (.ok (), change s, { bench with mood })

/-- A check, which is noted and may fail. -/
def check (wanted : List (String × ValueSort)) :
    Attempt String (Stack × Bench τ) (SatResult × Option Model) := do
  modify fun (s, bench) => (s, { bench with checks := s :: bench.checks })
  t.call .check id
  let (s, bench) ← get
  let (answer, mood) := t.answers s wanted bench.mood
  set (s, { bench with mood })
  return answer

/-- Solvers of this temper. -/
def factory : SolverFactory Stack (Bench τ) where
  create kind worker := ExceptT.mk fun bench =>
    match t.refuses kind worker bench.mood with
    | (some failure, mood) => (.error failure, { bench with mood })
    | (none, mood) => (.ok ⟨kind, [[]], "", 0⟩, { bench with mood })
  solver :=
    { declare := fun _ _ => t.call .declare id
      assert := fun term => t.call .assert (Stack.assert · term)
      push := t.call .push Stack.push
      pop := t.call .pop Stack.pop
      check := t.check
      comment := fun text => modify fun (s, bench) => ({ s with remark := text }, bench) }
  close _ bench := bench

/-! ## Calls -/

/-- The checks that are new are all good. -/
def Notes (Seen : Stack → Prop) (old : List Stack) (bench : Bench τ) : Prop :=
  ∃ new, bench.checks = new ++ old ∧ ∀ stack ∈ new, Seen stack

variable {t} {Seen : Stack → Prop} {old : List Stack} {kind : SessionKind} {base : List Term}

theorem Notes.cons {bench : Bench τ} {s : Stack} (h : Notes Seen old bench) (hs : Seen s) :
    Notes Seen old { bench with checks := s :: bench.checks } := by
  obtain ⟨new, hchecks, hnew⟩ := h
  exact ⟨s :: new, congrArg (s :: ·) hchecks, List.forall_mem_cons.mpr ⟨hs, hnew⟩⟩

/-- A call changes the stack or fails. -/
theorem call_meets {call : CallKind} {change : Stack → Stack} {P Q E : Stack → Prop}
    (hok : ∀ s, P s → Q (change s)) (hfailed : ∀ s, P s → E (s.failed call)) :
    Meets (fun s => P s.1 ∧ Notes Seen old s.2) (t.call call change)
      (fun _ s => Q s.1 ∧ Notes Seen old s.2) fun _ s => E s.1 ∧ Notes Seen old s.2 := by
  rintro ⟨s, bench⟩ ⟨hs, hbench⟩
  unfold Temper.call
  simp only [ExceptT.run_mk]
  rcases t.fails call s bench.mood with ⟨_ | failure, mood⟩
  · exact ⟨hok s hs, hbench⟩
  · exact ⟨hfailed s hs, hbench⟩

theorem liftCall_meets {call : CallKind} {change : Stack → Stack} {P Q E : Stack → Prop}
    (hok : ∀ s, P s → Q (change s)) (hfailed : ∀ s, P s → E (s.failed call)) :
    Meets (fun s => P s.1 ∧ Notes Seen old s.2) (liftSolver (t.call call change))
      (fun _ s => Q s.1 ∧ Notes Seen old s.2) fun _ s => E s.1 ∧ Notes Seen old s.2 :=
  (call_meets hok hfailed).mapError fun _ _ h => h

/-- A check is noted and leaves the stack as it is. -/
theorem liftCheck_meets {P Q : Stack → Prop} (hseen : ∀ s, P s → Seen s) (hPQ : ∀ s, P s → Q s)
    (wanted : List (String × ValueSort)) :
    Meets (fun s => P s.1 ∧ Notes Seen old s.2) (liftSolver (t.check wanted))
      (fun _ s => Q s.1 ∧ Notes Seen old s.2) fun _ s => Q s.1 ∧ Notes Seen old s.2 := by
  refine Meets.mapError (E := fun _ s => Q s.1 ∧ Notes Seen old s.2) ?_ fun _ _ h => h
  refine Meets.bind (Q := fun _ s => P s.1 ∧ Notes Seen old s.2)
    (Meets.modify fun s hs => ⟨hs.1, hs.2.cons (hseen s.1 hs.1)⟩) fun _ => ?_
  refine Meets.bind (call_meets (Q := Q) hPQ hPQ) fun _ => ?_
  refine Meets.bind_get fun s hs => ?_
  exact Meets.bind (Q := fun _ s => Q s.1 ∧ Notes Seen old s.2) (Meets.set fun _ _ => hs) fun _ =>
    Meets.pure fun _ h => h

theorem create_meets (worker : Nat) :
    Meets (Notes Seen old) (t.factory.create kind worker)
      (fun s bench => s = ⟨kind, [[]], "", 0⟩ ∧ Notes Seen old bench) fun _ => Notes Seen old := by
  intro bench hbench
  unfold factory
  simp only [ExceptT.run_mk]
  rcases t.refuses kind worker bench.mood with ⟨_ | failure, mood⟩
  · exact ⟨rfl, hbench⟩
  · exact hbench

/-! ## Sessions -/

/-- A session between two queries. -/
def AtRest (kind : SessionKind) (e : Encoding) (session : Session Stack) : Prop :=
  session.encoding = e ∧ session.solver.kind = kind ∧
    session.solver.Carries [] e.assertions.reverse

/-- A new session has no frame but its base. -/
theorem start_carries {s : Stack} (hs : s = ⟨kind, [[]], "", 0⟩) (e : Encoding) :
    Meets (Notes Seen old) (Session.start t.factory s e)
      (fun session bench => AtRest kind e session ∧ Notes Seen old bench)
      fun _ => Notes Seen old := by
  let Told : List Term → Stack → Prop := fun frame s =>
    s.kind = kind ∧ s.frames = [frame] ∧ s.failedPops = 0
  have hassert : ∀ term frame s, Told frame s → Told (term :: frame) (s.assert term) := by
    rintro term frame s ⟨hkind, hframes, hfailed⟩
    exact ⟨hkind, by rw [Stack.assert, hframes], hfailed⟩
  have htell : Meets (fun s => Told [] s.1 ∧ Notes Seen old s.2) (tellEncoding t.factory.solver e)
      (fun _ s => Told e.assertions.reverse s.1 ∧ Notes Seen old s.2)
      fun _ s => True ∧ Notes Seen old s.2 :=
    tellEncoding_meets (I := fun frame (s : Stack × Bench τ) => Told frame s.1 ∧ Notes Seen old s.2)
      (fun _ _ => liftCall_meets (P := Told []) (Q := Told []) (E := fun _ => True)
        (fun _ hs => hs) fun _ _ => trivial)
      (fun term frame => liftCall_meets (P := Told frame) (Q := Told (term :: frame))
        (E := fun _ => True) (hassert term frame) fun _ _ => trivial) e
  refine start_meets (htell.weaken ?_ ?_ fun _ _ hs => hs.2)
  · rintro ⟨s', bench⟩ ⟨rfl, hbench⟩
    exact ⟨hs ▸ ⟨rfl, rfl, rfl⟩, hbench⟩
  · rintro - ⟨s', bench⟩ ⟨⟨hkind, hframes, hfailed⟩, hbench⟩
    exact ⟨⟨rfl, hkind, [], hframes, hfailed.symm⟩, hbench⟩

/-- A query leaves a frame behind if it cannot be closed, and nothing else. -/
theorem query_carries (e : Encoding) (b : Box) (bound : Bound) (goal : Goal)
    (hseen : ∀ (s : Stack) terms, s.kind = kind → e.boxTerms b = .ok terms →
      s.remark = goal.title ++ " on " ++ b.write →
      s.Carries [goalFails e bound goal :: terms.reverse] e.assertions.reverse → Seen s) :
    Meets (fun s => AtRest kind e s.1 ∧ Notes Seen old s.2)
      (Session.query t.factory b bound goal)
      (fun _ s => AtRest kind e s.1 ∧ Notes Seen old s.2)
      fun _ s => AtRest kind e s.1 ∧ Notes Seen old s.2 := by
  let Resting : Stack → Prop := fun s => s.kind = kind ∧ s.Carries [] e.assertions.reverse
  let Opened : Stack → Prop := fun s => s.kind = kind ∧ s.Carries [[]] e.assertions.reverse
  let Asking : List Term → Stack → Prop := fun frame s => s.kind = kind ∧
    s.remark = goal.title ++ " on " ++ b.write ∧ s.Carries [frame] e.assertions.reverse
  let Asked : Stack → Prop := fun s =>
    s.kind = kind ∧ ∃ frame, s.Carries [frame] e.assertions.reverse
  have hasked : ∀ frame s, Asking frame s → Asked s := fun frame s hs => ⟨hs.1, frame, hs.2.2⟩
  have hpush : Meets (fun s => Resting s.1 ∧ Notes Seen old s.2)
      (liftSolver t.factory.solver.push) (fun _ s => Opened s.1 ∧ Notes Seen old s.2)
      fun _ s => Resting s.1 ∧ Notes Seen old s.2 :=
    liftCall_meets (fun _ hs => ⟨hs.1, hs.2.push⟩) fun _ hs => hs
  have hframe : Meets (fun s => Opened s.1 ∧ Notes Seen old s.2)
      (queryInFrame t.factory.solver e b bound goal) (fun _ s => Asked s.1 ∧ Notes Seen old s.2)
      fun _ s => Asked s.1 ∧ Notes Seen old s.2 := by
    refine queryInFrame_meets (I := fun frame s => Asking frame s.1 ∧ Notes Seen old s.2)
      (fun s hs => ⟨⟨hs.1.1, rfl, hs.1.2⟩, hs.2⟩) (fun term frame => ?_)
      (fun _ _ s hs => ⟨hasked [] s.1 hs.1, hs.2⟩) fun terms hterms => ?_
    · have hassert : ∀ s, Asking frame s → Asking (term :: frame) (s.assert term) :=
        fun s hs => ⟨hs.1, hs.2.1, hs.2.2.assert term⟩
      exact liftCall_meets hassert (hasked frame)
    · exact liftCheck_meets (fun s hs => hseen s terms hs.1 hterms hs.2.1 hs.2.2) (hasked _) e.asked
  have hpop : Meets (fun s => Asked s.1 ∧ Notes Seen old s.2) (liftSolver t.factory.solver.pop)
      (fun _ s => Resting s.1 ∧ Notes Seen old s.2)
      fun _ s => Resting s.1 ∧ Notes Seen old s.2 := by
    refine liftCall_meets (P := Asked) (Q := Resting) (E := Resting) ?_ ?_
    · rintro s ⟨hkind, frame, hcarries⟩
      exact ⟨hkind, hcarries.pop⟩
    · rintro s ⟨hkind, frame, hcarries⟩
      exact ⟨hkind, hcarries.failed_pop⟩
  have hquery := query_meets hpush hframe (fun _ => hpop) fun _ => hpop
  exact (sessionQuery_meets hquery).weaken (fun _ hs => ⟨hs.1.1, hs.1.2, hs.2⟩)
    (fun _ _ hs => ⟨⟨hs.1, hs.2.1⟩, hs.2.2⟩) fun _ _ hs => ⟨⟨hs.1, hs.2.1⟩, hs.2.2⟩

end Temper

end MarkovRegion.Smt
