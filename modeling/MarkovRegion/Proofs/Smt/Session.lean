import MarkovRegion.Proofs.Smt.Encoding
import MarkovRegion.Proofs.Smt.Query

/-!
# Sessions with a trusted solver

`SolverFactory.Trusted` is what is assumed of solvers: that their operations do not fail, that they
answer `unsat` only if no rational assignment satisfies the active assertions, and that the values
of parameters in a model lie in the sides that are asserted for them.  So a trusted solver is
reliable, with replies that are true (`TrueReply`).

From this follows what an answer to a query tells (`justified_of_answers`): a proven goal fails under
no assignment that satisfies the encoding, and a counterexample is a point of the box.
-/

namespace MarkovRegion

/-! ## Trusted solvers -/

namespace Smt

open Attempt

/-- The values of parameters in a model lie in the sides that are asserted for them. -/
def Model.Respects (m : Model) (terms : List Term) : Prop :=
  ∀ p lower upper q,
    Term.within (.var (parameterVariable p)) (.real lower) (.real upper) ∈ terms →
    m.real? (parameterVariable p) = some q → lower ≤ q ∧ q ≤ upper

/-- What is assumed of solvers.  `Tracks s frames` says that `frames` are the assertions that are
active in the state `s`, the innermost frame first. -/
structure SolverFactory.Trusted {σ ω : Type} (f : SolverFactory σ ω)
    (Tracks : σ → List (List Term) → Prop) : Prop where
  create : ∀ kind worker, Succeeds (fun _ => True) (f.create kind worker) fun s _ => Tracks s [[]]
  declare : ∀ name sort frames, Succeeds (fun s => Tracks s.1 frames) (f.solver.declare name sort)
    fun _ s => Tracks s.1 frames
  assert : ∀ t frame frames, Succeeds (fun s => Tracks s.1 (frame :: frames)) (f.solver.assert t)
    fun _ s => Tracks s.1 ((t :: frame) :: frames)
  push : ∀ frames, Succeeds (fun s => Tracks s.1 frames) f.solver.push
    fun _ s => Tracks s.1 ([] :: frames)
  pop : ∀ frame frames, Succeeds (fun s => Tracks s.1 (frame :: frames)) f.solver.pop
    fun _ s => Tracks s.1 frames
  comment : ∀ text frames s, Tracks s.1 frames → Tracks (f.solver.comment text s).2.1 frames
  check : ∀ wanted frames, Succeeds (fun s => Tracks s.1 frames) (f.solver.check wanted)
    fun answer s => Tracks s.1 frames ∧
      (answer.1 = .unsat → ¬ ∃ a : String → ℚ, ∀ t ∈ frames.flatten, t.Holds fun name => a name) ∧
      ∀ m, answer = (.sat, some m) → m.Respects frames.flatten

/-! ## A complete solver -/

/-- The assignment satisfies all terms. -/
def Satisfies (a : String → ℚ) (terms : List Term) : Prop :=
  ∀ t ∈ terms, t.Holds fun name => a name

/-- The model of an assignment for some variables. -/
def modelOf (a : String → ℚ) (names : List String) : Model :=
  .ofList ((orderedKeys names).map fun name => (name, .real (a name)))

theorem eq_of_real?_modelOf {a : String → ℚ} {names : List String} {name : String} {q : ℚ}
    (h : (modelOf a names).real? name = some q) : q = a name := by
  have hkeys : (((orderedKeys names).map fun name => (name, ModelValue.real (a name))).map
      Prod.fst).Nodup := by
    rw [List.map_map]
    exact (List.map_id _).symm ▸ nodup_orderedKeys names
  rw [Model.real?] at h
  split at h
  · next value hfind =>
      obtain ⟨name', -, heq⟩ := List.mem_map.mp ((OrderedMap.find?_ofList hkeys).mp hfind)
      obtain ⟨rfl, hvalue⟩ := Prod.mk.inj heq
      rw [← Option.some.inj h, ModelValue.real.inj hvalue]
  · cases h

theorem Satisfies.respects {a : String → ℚ} {terms : List Term} (h : Satisfies a terms)
    (names : List String) : (modelOf a names).Respects terms := by
  intro p lower upper q hterm hq
  rw [eq_of_real?_modelOf hq]
  have hholds := (Term.holds_within (Term.number?_var _) (Term.number?_real _)
    (Term.number?_real _)).mp (h _ hterm)
  exact_mod_cast hholds

open Classical in
/-- Whether some terms can be satisfied, with a model if they can. -/
noncomputable def completeAnswer (names : List String) (terms : List Term) :
    SatResult × Option Model :=
  if h : ∃ a, Satisfies a terms then (.sat, some (modelOf h.choose names)) else (.unsat, none)

/-- A solver that decides every check. -/
noncomputable def completeSolver : SolverFactory (List (List Term)) Unit where
  create _ _ := pure [[]]
  solver :=
    { declare := fun _ _ => pure ()
      assert := fun t => modify fun s => (match s.1 with
        | [] => [[t]]
        | frame :: frames => (t :: frame) :: frames, s.2)
      push := modify fun s => ([] :: s.1, s.2)
      pop := modify fun s => (s.1.tail, s.2)
      check := fun wanted => do
        return completeAnswer (wanted.map Prod.fst) (← get).1.flatten
      comment := fun _ => pure () }
  close _ world := world

/-- What is assumed of solvers can be met. -/
theorem completeSolver_trusted : completeSolver.Trusted fun s frames => s = frames where
  create _ _ _ _ := rfl
  declare _ _ _ _ hs := hs
  assert t frame frames := by
    rintro ⟨s, world⟩ rfl
    rfl
  push frames := by
    rintro ⟨s, world⟩ rfl
    rfl
  pop frame frames := by
    rintro ⟨s, world⟩ rfl
    rfl
  comment _ _ _ hs := hs
  check wanted frames := by
    rintro ⟨s, world⟩ rfl
    refine ⟨rfl, fun hunsat => ?_, fun m hm => ?_⟩
    · rintro ⟨a, ha⟩
      have hsat : ∃ a, Satisfies a s.flatten := ⟨a, ha⟩
      rw [completeAnswer, dif_pos hsat] at hunsat
      cases hunsat
    · rw [completeAnswer] at hm
      split at hm
      · next hsat =>
          obtain rfl := Option.some.inj (Prod.mk.inj hm).2
          exact hsat.choose_spec.respects _
      · cases (Prod.mk.inj hm).1

variable {σ ω : Type} {f : SolverFactory σ ω} {Tracks : σ → List (List Term) → Prop}

/-- A reply that is true of the active assertions. -/
def TrueReply (active : List Term) (_ : List (String × ValueSort))
    (answer : SatResult × Option Model) : Prop :=
  (answer.1 = .unsat → ¬ ∃ a : String → ℚ, ∀ t ∈ active, t.Holds fun name => a name) ∧
    ∀ m, answer = (.sat, some m) → m.Respects active

theorem SolverFactory.Trusted.reliable (hf : f.Trusted Tracks) : f.Reliable Tracks TrueReply :=
  ⟨hf.create, hf.declare, hf.assert, hf.push, hf.pop, hf.comment, hf.check⟩

/-! ## Queries -/

/-- What an answer to a query tells. -/
def QueryAnswer.Justified (e : Encoding) (b : Box) (bound : Bound) (goal : Goal) :
    QueryAnswer → Prop
  | .proven => ¬ ∃ a : String → ℚ, e.Refutes b bound goal fun name => a name
  | .counterexample point => b.contains point = true
  | .inconclusive _ => True

section Witness

variable {e : Encoding} {parameters : List Parameter} {b : Box}

theorem nameOf?_eq_some (he : e.Named parameters) {p : Parameter} {name : String}
    (h : e.nameOf? p = some name) : p ∈ parameters ∧ name = parameterVariable p := by
  rw [Encoding.nameOf?, he] at h
  obtain ⟨before, after, heq, -⟩ := List.lookup_eq_some_iff.mp h
  have hmem : (p, name) ∈ parameters.map fun p => (p, parameterVariable p) := by
    rw [heq]
    simp
  obtain ⟨q, hq, hpair⟩ := List.mem_map.mp hmem
  obtain ⟨rfl, rfl⟩ := Prod.mk.inj hpair
  exact ⟨hq, rfl⟩

theorem mem_boxTerms (he : e.Named parameters) {terms : List Term}
    (hterms : e.boxTerms b = .ok terms) {p : Parameter} (hp : p ∈ parameters) {side : Interval}
    (hside : b.sides.find? p = some side) :
    Term.within (.var (parameterVariable p)) (.real side.lower) (.real side.upper) ∈ terms := by
  rw [Encoding.boxTerms, he, mapM_eq_ok_iff, List.forall₂_map_left_iff] at hterms
  clear he
  induction hterms with
  | nil => cases hp
  | cons hterm _ ih =>
      rcases List.mem_cons.mp hp with rfl | hp
      · obtain ⟨side', hside', heq⟩ := bind_eq_ok_iff.mp hterm
        obtain rfl := pure_eq_ok_iff.mp heq
        rw [Box.side_eq_ok_iff, hside] at hside'
        obtain rfl := Option.some.inj hside'
        exact List.mem_cons_self
      · exact List.mem_cons_of_mem _ (ih hp)

/-- The point of a model lies in the box whose sides the model respects. -/
theorem contains_of_witness? (he : e.Named parameters) {terms : List Term}
    (hterms : e.boxTerms b = .ok terms) {m : Model} (hm : m.Respects terms) {point : Valuation}
    (h : witness? e b m = some point) : b.contains point = true := by
  obtain ⟨values, hvalues, hpoint⟩ := Option.bind_eq_some_iff.mp h
  obtain rfl := Option.some.inj hpoint
  have hsides : ∀ s ∈ b.sides.entries, b.sides.find? s.1 = some s.2 :=
    fun s hs => OrderedMap.find?_eq_some_iff.mpr hs
  refine Box.Chosen.contains (List.Forall₂.imp ?_
    ((List.forall₂_and_left _ _).mpr ⟨hsides, mapM_eq_some_iff.mp hvalues⟩))
  rintro ⟨p, side⟩ entry ⟨hside, hentry⟩
  obtain ⟨x, hx, hpair⟩ := Option.bind_eq_some_iff.mp hentry
  obtain rfl := Option.some.inj hpair
  refine ⟨rfl, ?_⟩
  rw [witnessValue?] at hx
  split at hx
  · next name hname =>
      obtain ⟨hp, rfl⟩ := nameOf?_eq_some he hname
      exact hm p side.lower side.upper x (mem_boxTerms he hterms hp hside) hx
  · obtain rfl := Option.some.inj hx
    exact ⟨le_rfl, side.ordered⟩

end Witness

/-- The answer of a trusted solver, as a session interprets it. -/
theorem justified_interpret {e : Encoding} {parameters : List Parameter} (he : e.Named parameters)
    {b : Box} {terms : List Term} (hterms : e.boxTerms b = .ok terms) {bound : Bound} {goal : Goal}
    {active : List Term}
    (hactive : ∀ t, t ∈ active ↔ t = goalFails e bound goal ∨ t ∈ terms ∨ t ∈ e.assertions)
    {answer : SatResult × Option Model}
    (hunsat : answer.1 = .unsat →
      ¬ ∃ a : String → ℚ, ∀ t ∈ active, t.Holds fun name => a name)
    (hsat : ∀ m, answer = (.sat, some m) → m.Respects active) :
    (interpret e b answer).Justified e b bound goal := by
  unfold interpret
  split
  · rintro ⟨a, hassertions, ⟨terms', hterms', hbox⟩, hgoal⟩
    obtain rfl : terms = terms' := Except.ok.inj (hterms.symm.trans hterms')
    refine hunsat rfl ⟨a, fun t ht => ?_⟩
    rcases (hactive t).mp ht with rfl | ht | ht
    · exact hgoal
    · exact hbox t ht
    · exact hassertions t ht
  · trivial
  · next m =>
      split
      · next point hpoint =>
          refine contains_of_witness? he hterms (fun p lower upper q hside hq => ?_) hpoint
          exact hsat m rfl p lower upper q ((hactive _).mpr (Or.inr (Or.inl hside))) hq
      · trivial
  · trivial

/-- An answer that comes from a true reply is justified. -/
theorem justified_of_answers {e : Encoding} {parameters : List Parameter}
    (he : e.Named parameters) {b : Box} {bound : Bound} {goal : Goal} {answer : QueryAnswer}
    (h : e.Answers TrueReply b bound goal (.ok answer)) : answer.Justified e b bound goal := by
  obtain ⟨terms, reply, hterms, ⟨hunsat, hsat⟩, rfl⟩ := h
  refine justified_interpret he hterms (fun t => ?_) hunsat hsat
  simp [Encoding.active]

end Smt

end MarkovRegion
