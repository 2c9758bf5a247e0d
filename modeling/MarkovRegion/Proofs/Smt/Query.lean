import MarkovRegion.Proofs.Attempt
import MarkovRegion.Proofs.Basic
import MarkovRegion.Smt.Session

/-!
# The calls of a query

A session is started by telling a solver the declarations and assertions of an encoding, and a query
is a list of calls in a frame of its own.  The first part says what follows for these from triples
for the single calls, whatever the solver is and whether it fails or not.  There `I frame` is what
holds when `frame` has been asserted in the innermost frame.

The second part is about solvers that do not fail (`SolverFactory.Reliable`).  A relation `Tracks`
between states and frames says which assertions are active, and a relation `Reply` which answers
they may have.  With such a solver a session always returns to the assertions of its encoding, and
the answer to a query comes from a check of these, the sides of the box and the failure of the goal
(`Encoding.Answers`).
-/

namespace MarkovRegion.Smt

open Attempt

/-! ## Any solver -/

section Calls

variable {S : Type} {solver : Solver S} {e : Encoding} {b : Box} {bound : Bound} {goal : Goal}
  {I : List Term → S → Prop} {E : CheckError → S → Prop}

theorem assertAll_meets
    (hassert : ∀ t frame, Meets (I frame) (liftSolver (solver.assert t)) (fun _ => I (t :: frame)) E)
    (ts frame : List Term) :
    Meets (I frame) (assertAll solver ts) (fun _ => I (ts.reverse ++ frame)) E := by
  induction ts generalizing frame with
  | nil => exact Meets.pure fun s hs => hs
  | cons t ts ih =>
      refine Meets.bind (hassert t frame) fun _ => ?_
      rw [List.reverse_cons, List.append_assoc]
      exact ih (t :: frame)

theorem declareAll_meets {P : S → Prop}
    (hdeclare : ∀ name sort, Meets P (liftSolver (solver.declare name sort)) (fun _ => P) E)
    (declarations : List (String × ValueSort)) :
    Meets P (declareAll solver declarations) (fun _ => P) E := by
  induction declarations with
  | nil => exact Meets.pure fun s hs => hs
  | cons d rest ih => exact Meets.bind (hdeclare d.1 d.2) fun _ => ih

theorem tellEncoding_meets
    (hdeclare : ∀ name sort, Meets (I []) (liftSolver (solver.declare name sort)) (fun _ => I []) E)
    (hassert : ∀ t frame, Meets (I frame) (liftSolver (solver.assert t)) (fun _ => I (t :: frame)) E)
    (e : Encoding) :
    Meets (I []) (tellEncoding solver e) (fun _ => I e.assertions.reverse) E := by
  refine Meets.bind (declareAll_meets hdeclare e.declarations) fun _ => ?_
  have hassertions := assertAll_meets hassert e.assertions []
  rw [List.append_nil] at hassertions
  exact hassertions

/-- The variables whose values a query asks for. -/
def Encoding.asked (e : Encoding) : List (String × ValueSort) :=
  e.parameters.map fun p => (p.2, .real)

theorem queryInFrame_meets {P : S → Prop} {Q : QueryAnswer → S → Prop}
    (hcomment : ∀ s, P s → I [] (solver.comment (goal.title ++ " on " ++ b.write) s).2)
    (hassert : ∀ t frame, Meets (I frame) (liftSolver (solver.assert t)) (fun _ => I (t :: frame)) E)
    (hunbounded : ∀ failure, liftRegion (e.boxTerms b) = .error failure →
      ∀ s, I [] s → E failure s)
    (hcheck : ∀ terms, e.boxTerms b = .ok terms →
      Meets (I (goalFails e bound goal :: terms.reverse)) (liftSolver (solver.check e.asked))
        (fun answer => Q (interpret e b answer)) E) :
    Meets P (queryInFrame solver e b bound goal) Q E := by
  refine Meets.bind (Q := fun _ => I []) (Meets.lift hcomment) fun _ => ?_
  refine Meets.bind (Q := fun terms s => I [] s ∧ e.boxTerms b = .ok terms)
    (Meets.ofExcept (fun terms hterms s hs => ⟨hs, mapError_eq_ok_iff.mp hterms⟩) hunbounded)
    fun terms => ?_
  refine Meets.of_fact fun hterms => ?_
  have hassertions := assertAll_meets hassert terms []
  rw [List.append_nil] at hassertions
  refine Meets.bind hassertions fun _ => ?_
  refine Meets.bind (hassert _ _) fun _ => ?_
  exact Meets.bind (hcheck terms hterms) fun answer => Meets.pure fun s hs => hs

/-- The frame of a query is closed whatever the query's outcome is. -/
theorem query_meets {P P' : S → Prop} {Q Q' : QueryAnswer → S → Prop} {E' : CheckError → S → Prop}
    (hpush : Meets P (liftSolver solver.push) (fun _ => P') E)
    (hframe : Meets P' (queryInFrame solver e b bound goal) Q' E')
    (hpop : ∀ answer, Meets (Q' answer) (liftSolver solver.pop) (fun _ => Q answer) E)
    (hpop' : ∀ failure, Meets (E' failure) (liftSolver solver.pop) (fun _ => E failure) E) :
    Meets P (query solver e b bound goal) Q E := by
  refine Meets.bind hpush fun _ => ?_
  refine Meets.bind hframe.outcome fun outcome => ?_
  rcases outcome with failure | answer
  · exact Meets.bind (hpop' failure) fun _ => Meets.throw fun s hs => hs
  · exact Meets.bind (hpop answer) fun _ => Meets.pure fun s hs => hs

end Calls

section Sessions

variable {σ ω : Type} {f : SolverFactory σ ω} {e : Encoding}

/-- A solver that cannot be told the encoding is closed. -/
theorem start_meets {solver : σ} {P : ω → Prop} {Q : Session σ → ω → Prop}
    {E : CheckError → ω → Prop}
    (htell : Meets (fun s => s.1 = solver ∧ P s.2) (tellEncoding f.solver e)
      (fun _ s => Q ⟨s.1, e⟩ s.2) fun failure s => E failure (f.close s.1 s.2)) :
    Meets P (Session.start f solver e) Q E := by
  intro world hworld
  have hrun := htell (solver, world) ⟨rfl, hworld⟩
  unfold Session.start
  simp only [ExceptT.run_mk]
  rcases htells : (tellEncoding f.solver e).run (solver, world) with ⟨failure | _, s⟩
  · rw [htells] at hrun
    exact hrun
  · rw [htells] at hrun
    exact hrun

/-- A query of a session is a query of its solver. -/
theorem sessionQuery_meets {b : Box} {bound : Bound} {goal : Goal} {P : σ × ω → Prop}
    {Q : QueryAnswer → σ × ω → Prop} {E : CheckError → σ × ω → Prop}
    (hquery : Meets P (query f.solver e b bound goal) Q E) :
    Meets (fun s => s.1.encoding = e ∧ P (s.1.solver, s.2)) (Session.query f b bound goal)
      (fun answer s => s.1.encoding = e ∧ Q answer (s.1.solver, s.2))
      fun failure s => s.1.encoding = e ∧ E failure (s.1.solver, s.2) := by
  rintro ⟨session, world⟩ ⟨rfl, hP⟩
  have hrun := hquery (session.solver, world) hP
  unfold Session.query
  simp only [ExceptT.run_mk]
  rcases hanswer : (query f.solver session.encoding b bound goal).run (session.solver, world) with
    ⟨failure | answer, s⟩
  · rw [hanswer] at hrun
    exact ⟨rfl, hrun⟩
  · rw [hanswer] at hrun
    exact ⟨rfl, hrun⟩

end Sessions

/-! ## Solvers that do not fail -/

/-- Solvers whose calls succeed.  `Tracks s frames` says that `frames` are the assertions that are
active in the state `s`, the innermost frame first, and `Reply active asked answer` that a check of
the active assertions may have this answer. -/
structure SolverFactory.Reliable {σ ω : Type} (f : SolverFactory σ ω)
    (Tracks : σ → List (List Term) → Prop)
    (Reply : List Term → List (String × ValueSort) → SatResult × Option Model → Prop) : Prop where
  create : ∀ kind worker, Succeeds (fun _ => True) (f.create kind worker) fun s _ => Tracks s [[]]
  declare : ∀ name sort frames, Succeeds (fun s => Tracks s.1 frames) (f.solver.declare name sort)
    fun _ s => Tracks s.1 frames
  assert : ∀ t frame frames, Succeeds (fun s => Tracks s.1 (frame :: frames)) (f.solver.assert t)
    fun _ s => Tracks s.1 ((t :: frame) :: frames)
  push : ∀ frames, Succeeds (fun s => Tracks s.1 frames) f.solver.push
    fun _ s => Tracks s.1 ([] :: frames)
  pop : ∀ frame frames, Succeeds (fun s => Tracks s.1 (frame :: frames)) f.solver.pop
    fun _ s => Tracks s.1 frames
  comment : ∀ text frames s, Tracks s.1 frames → Tracks (f.solver.comment text s).2.1 frames
  check : ∀ wanted frames, Succeeds (fun s => Tracks s.1 frames) (f.solver.check wanted)
    fun answer s => Tracks s.1 frames ∧ Reply frames.flatten wanted answer

/-- The assertions that are active when a query is checked, the last one first. -/
def Encoding.active (e : Encoding) (terms : List Term) (bound : Bound) (goal : Goal) : List Term :=
  goalFails e bound goal :: (terms.reverse ++ e.assertions.reverse)

/-- The outcomes that a query may have: that the box lacks a parameter, or what a reply to the
check tells. -/
def Encoding.Answers (Reply : List Term → List (String × ValueSort) → SatResult × Option Model → Prop)
    (e : Encoding) (b : Box) (bound : Bound) (goal : Goal) : Except CheckError QueryAnswer → Prop
  | .error failure => liftRegion (e.boxTerms b) = .error failure
  | .ok answer => ∃ terms reply, e.boxTerms b = .ok terms ∧
      Reply (e.active terms bound goal) e.asked reply ∧ answer = interpret e b reply

/-- A session that was told an encoding and has no open frame. -/
def Session.Open {σ : Type} (Tracks : σ → List (List Term) → Prop) (session : Session σ)
    (e : Encoding) : Prop :=
  session.encoding = e ∧ Tracks session.solver [e.assertions.reverse]

namespace SolverFactory.Reliable

variable {σ ω : Type} {f : SolverFactory σ ω} {Tracks : σ → List (List Term) → Prop}
  {Reply : List Term → List (String × ValueSort) → SatResult × Option Model → Prop}
  {e : Encoding} {b : Box} {bound : Bound} {goal : Goal}

/-- A call that succeeds meets any condition on failures. -/
theorem lift {S α : Type} {P : S → Prop} {x : Attempt String S α} {Q : α → S → Prop}
    {E : CheckError → S → Prop} (h : Succeeds P x Q) : Meets P (liftSolver x) Q E :=
  h.mapError fun _ _ hfalse => hfalse.elim

variable (hf : f.Reliable Tracks Reply)
include hf

/-- A new session is open. -/
theorem start {solver : σ} (hsolver : Tracks solver [[]]) (e : Encoding) :
    Succeeds (fun _ => True) (Session.start f solver e) fun session _ => session.Open Tracks e := by
  have htell := tellEncoding_meets (I := fun frame (s : σ × ω) => Tracks s.1 [frame])
    (E := fun _ _ => False) (fun name sort => lift (hf.declare name sort _))
    (fun t frame => lift (hf.assert t frame [])) e
  refine start_meets (htell.weaken ?_ (fun _ s hs => ⟨rfl, hs⟩) fun _ _ hfalse => hfalse)
  rintro s ⟨rfl, -⟩
  exact hsolver

/-- A query returns to the assertions of the encoding. -/
theorem query (e : Encoding) (b : Box) (bound : Bound) (goal : Goal) :
    Meets (fun s => Tracks s.1 [e.assertions.reverse]) (query f.solver e b bound goal)
      (fun answer s => Tracks s.1 [e.assertions.reverse] ∧
        e.Answers Reply b bound goal (.ok answer))
      fun failure s => Tracks s.1 [e.assertions.reverse] ∧
        e.Answers Reply b bound goal (.error failure) := by
  have hframe : Meets (fun s => Tracks s.1 [[], e.assertions.reverse])
      (queryInFrame f.solver e b bound goal)
      (fun answer s => (∃ frame, Tracks s.1 [frame, e.assertions.reverse]) ∧
        e.Answers Reply b bound goal (.ok answer))
      fun failure s => (∃ frame, Tracks s.1 [frame, e.assertions.reverse]) ∧
        e.Answers Reply b bound goal (.error failure) := by
    refine queryInFrame_meets (I := fun frame (s : σ × ω) => Tracks s.1 [frame, e.assertions.reverse])
      (fun s hs => hf.comment _ _ s hs) (fun t frame => lift (hf.assert t frame _))
      (fun failure hfailure s hs => ⟨⟨[], hs⟩, hfailure⟩) fun terms hterms => ?_
    refine lift ((hf.check _ _).weaken (fun _ hs => hs) ?_ fun _ _ hfalse => hfalse)
    rintro reply s ⟨hs, hreply⟩
    refine ⟨⟨_, hs⟩, terms, reply, hterms, ?_, rfl⟩
    rw [Encoding.active]
    simpa using hreply
  have hpop : ∀ outcome : Prop, Meets
      (fun s => (∃ frame, Tracks s.1 [frame, e.assertions.reverse]) ∧ outcome)
      (liftSolver f.solver.pop) (fun _ s => Tracks s.1 [e.assertions.reverse] ∧ outcome)
      fun failure s => Tracks s.1 [e.assertions.reverse] ∧
        e.Answers Reply b bound goal (.error failure) := by
    refine fun outcome => Meets.of_fact fun houtcome => ?_
    rintro s ⟨frame, hs⟩
    exact (lift (hf.pop frame _)).weaken (fun _ hs => hs) (fun _ _ hs => ⟨hs, houtcome⟩)
      (fun _ _ h => h) s hs
  exact query_meets (lift (hf.push _)) hframe (fun answer => hpop _) fun failure => hpop _

/-- A query of a session leaves it open. -/
theorem sessionQuery (e : Encoding) (b : Box) (bound : Bound) (goal : Goal) :
    Meets (fun s => s.1.Open Tracks e) (Session.query f b bound goal)
      (fun answer s => s.1.Open Tracks e ∧ e.Answers Reply b bound goal (.ok answer))
      fun failure s => s.1.Open Tracks e ∧ e.Answers Reply b bound goal (.error failure) :=
  (sessionQuery_meets (hf.query e b bound goal)).weaken (fun _ hs => hs)
    (fun _ _ hs => ⟨⟨hs.1, hs.2.1⟩, hs.2.2⟩) fun _ _ hs => ⟨⟨hs.1, hs.2.1⟩, hs.2.2⟩

end SolverFactory.Reliable

end MarkovRegion.Smt
