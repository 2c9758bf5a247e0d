import MarkovRegion.Checker.Tiers
import MarkovRegion.Proofs.Smt.Query

/-!
# The sessions of a worker

A worker starts a session when it first needs one and keeps it between queries.  What all queries
keep of their session holds of every session that the worker has, and what they keep of the world
holds of the world (`Inspection.Idle`); the region does not change meanwhile.

With a reliable solver the sessions stay open: each has been told its encoding and has no open frame
(`Inspection.session_opens`, `Inspection.query_opens`).
-/

namespace MarkovRegion

open Attempt

variable {σ ω : Type}

namespace Sessions

variable {Good : Smt.SessionKind → Smt.Session σ → Prop} {s : Sessions σ}

/-- Every session that was started is good. -/
def All (Good : Smt.SessionKind → Smt.Session σ → Prop) (s : Sessions σ) : Prop :=
  ∀ kind session, s.get? kind = some session → Good kind session

theorem all_empty : (empty : Sessions σ).All Good := by
  intro kind session hsession
  cases kind with
  | subsystem => cases hsession
  | full => cases hsession

theorem All.set (h : s.All Good) {kind : Smt.SessionKind} {session : Smt.Session σ}
    (hsession : Good kind session) : (s.set session kind).All Good := by
  intro kind' session' hget
  cases kind <;> cases kind'
  · exact Option.some.inj hget ▸ hsession
  · exact h .full session' hget
  · exact h .subsystem session' hget
  · exact Option.some.inj hget ▸ hsession

end Sessions

namespace Inspection

variable {Good : Smt.SessionKind → Smt.Session σ → Prop} {W : ω → Prop} {P : Region → Prop}
  {options : Options} {p : Prepared} {f : Smt.SolverFactory σ ω} {worker : Nat}
  {kind : Smt.SessionKind} {F : CheckError → Prop}

/-- No query is under way: all sessions are good. -/
structure Idle (Good : Smt.SessionKind → Smt.Session σ → Prop) (W : ω → Prop) (P : Region → Prop)
    (i : Inspection σ ω) : Prop where
  region : P i.region
  sessions : i.sessions.All Good
  world : W i.world

/-- The session of a kind is good if new ones are. -/
theorem session_meets
    (hstart : Meets W (startSession options p f worker kind)
      (fun session world => Good kind session ∧ W world) fun e world => W world ∧ F e) :
    Meets (Idle Good W P) (session options p f worker kind)
      (fun session i => Idle Good W P i ∧ Good kind session)
      fun e i => Idle Good W P i ∧ F e := by
  refine Meets.bind_get fun i hi => ?_
  split
  · next session hsession =>
      exact Meets.pure fun j hj => hj ▸ ⟨hi, hi.sessions kind session hsession⟩
  · refine Meets.bind (Q := fun session j => Idle Good W P j ∧ Good kind session) ?_
      fun session => ?_
    · rintro j rfl
      have hrun := hstart j.world hi.world
      have hworld : (inWorld (startSession options p f worker kind)).run j =
          (((startSession options p f worker kind).run j.world).1,
            { j with world := ((startSession options p f worker kind).run j.world).2 }) := rfl
      rw [hworld]
      rcases hs : (startSession options p f worker kind).run j.world with ⟨e | session, world⟩
      · rw [hs] at hrun
        exact ⟨⟨hi.region, hi.sessions, hrun.1⟩, hrun.2⟩
      · rw [hs] at hrun
        exact ⟨⟨hi.region, hi.sessions, hrun.2⟩, hrun.1⟩
    · refine Meets.of_fact fun hsession => ?_
      refine Meets.bind (Q := fun _ => Idle Good W P)
        (Meets.modify fun j hj => ⟨hj.region, hj.sessions.set hsession, hj.world⟩) fun _ => ?_
      exact Meets.pure fun j hj => ⟨hj, hsession⟩

/-- A query keeps its session good, and with it all sessions. -/
theorem query_meets {session : Smt.Session σ} (hsession : Good kind session) {b : Box} {goal : Goal}
    (hbox : ∀ r, P r → r.box = b) {Q : Smt.QueryAnswer → Prop}
    (hquery : Meets (fun s => Good kind s.1 ∧ W s.2) (Smt.Session.query f b p.property.bound goal)
      (fun answer s => (Good kind s.1 ∧ W s.2) ∧ Q answer)
      fun e s => (Good kind s.1 ∧ W s.2) ∧ F e) :
    Meets (Idle Good W P) (query p f kind session goal) (fun answer i => Idle Good W P i ∧ Q answer)
      fun e i => Idle Good W P i ∧ F e := by
  intro i hi
  have hrun := hquery (session, i.world) ⟨hsession, hi.world⟩
  unfold query
  simp only [ExceptT.run_mk, hbox i.region hi.region]
  rcases hanswer : (Smt.Session.query f b p.property.bound goal).run (session, i.world) with
    ⟨e | answer, s⟩
  · rw [hanswer] at hrun
    exact ⟨⟨hi.region, hi.sessions.set hrun.1.1, hrun.1.2⟩, hrun.2⟩
  · rw [hanswer] at hrun
    exact ⟨⟨hi.region, hi.sessions.set hrun.1.1, hrun.1.2⟩, hrun.2⟩

/-! ## Reliable solvers -/

variable {Tracks : σ → List (List Smt.Term) → Prop}
  {Reply : List Smt.Term → List (String × Smt.ValueSort) → Smt.SatResult × Option Smt.Model → Prop}

/-- All sessions are open. -/
def Open (Tracks : σ → List (List Smt.Term) → Prop) (options : Options) (p : Prepared)
    (P : Region → Prop) : Inspection σ ω → Prop :=
  Idle (fun kind session => session.Open Tracks (p.encoding options kind)) (fun _ => True) P

variable (hf : f.Reliable Tracks Reply)
include hf

theorem session_opens (worker : Nat) (kind : Smt.SessionKind) :
    Succeeds (Open Tracks options p P) (session options p f worker kind)
      fun session i => Open Tracks options p P i ∧ session.Open Tracks (p.encoding options kind) := by
  refine (session_meets (F := fun _ => False) ?_).weaken (fun _ hi => hi) (fun _ _ hi => hi)
    fun _ _ hi => hi.2
  refine Meets.bind (Smt.SolverFactory.Reliable.lift (hf.create kind worker)) fun solver => ?_
  intro world hsolver
  exact (hf.start hsolver (p.encoding options kind)).weaken (fun _ hs => hs)
    (fun _ _ hs => ⟨hs, trivial⟩) (fun _ _ hfalse => hfalse.elim) world trivial

theorem query_opens {kind : Smt.SessionKind} {session : Smt.Session σ}
    (hsession : session.Open Tracks (p.encoding options kind)) {b : Box} (goal : Goal)
    (hbox : ∀ r, P r → r.box = b) :
    Meets (Open Tracks options p P) (query p f kind session goal)
      (fun answer i => Open Tracks options p P i ∧
        (p.encoding options kind).Answers Reply b p.property.bound goal (.ok answer))
      fun e i => Open Tracks options p P i ∧
        (p.encoding options kind).Answers Reply b p.property.bound goal (.error e) := by
  refine query_meets (F := fun e => (p.encoding options kind).Answers Reply b p.property.bound goal
    (.error e)) hsession hbox ?_
  exact (hf.sessionQuery _ b p.property.bound goal).weaken (fun _ hs => hs.1)
    (fun _ _ hs => ⟨⟨hs.1, trivial⟩, hs.2⟩) fun _ _ hs => ⟨⟨hs.1, trivial⟩, hs.2⟩

end Inspection

end MarkovRegion
