import MarkovRegion.Proofs.Analysis.Elimination

/-!
# Runs of eliminations

A run asks for the elimination of one state after the other, goes on when a call fails, and may ask
for a state twice.  What is left after it has the solutions of the original system.

* One step: every solution stays one, and a vector that satisfies the equations after the step is
  completed by the value that the exits of the state give to it (`sameSolutions_eliminated`).  Both
  directions need that the pivot `1 - loop` is not zero, and nothing else: weights may be negative,
  and the system may have many solutions or none.
* Any run: `Progress.Keeps` collects what a call preserves (`Keeps.call`), so it holds after all of
  them (`Keeps.calls`).

A division that is made has a divisor other than zero.  In the rationals this is all one has to know
(`Progress.exact_calls`); other readings have to see every zero (`Reading.SeesZeros`).
-/

namespace MarkovRegion

variable {W : Type} [Weight W] {F : Type} [Field F]

/-- A reading that sees every zero: a divisor that is accepted has a value other than zero. -/
def Reading.SeesZeros (R : Reading W F) : Prop :=
  ∀ {a b q}, R.Defined b → Weight.div? a b = some q → R.value b ≠ 0

theorem Reading.SeesZeros.div?_eq_none_iff {R : Reading W F} (hR : R.SeesZeros) {a b : W}
    (ha : R.Defined a) (hb : R.Defined b) : Weight.div? a b = none ↔ R.value b = 0 := by
  constructor
  · intro hnone
    by_contra h0
    obtain ⟨q, hq, -⟩ := R.div ha hb h0
    rw [hnone] at hq
    cases hq
  · intro h0
    rcases hq : Weight.div? a b with _ | q
    · rfl
    · exact absurd h0 (hR hb hq)

/-- A rational denotes itself. -/
def exactReading : Reading ℚ ℚ where
  Defined _ := True
  value q := q
  zero := ⟨trivial, rfl⟩
  one := ⟨trivial, rfl⟩
  add _ _ := ⟨trivial, rfl⟩
  sub _ _ := ⟨trivial, rfl⟩
  mul _ _ := ⟨trivial, rfl⟩
  div _ _ h := ⟨_, if_neg h, trivial, rfl⟩
  eq_zero h := of_decide_eq_true h

theorem seesZeros_exactReading : exactReading.SeesZeros := by
  intro a b q _ hq h0
  have hnone : Weight.div? a b = none := if_pos h0
  rw [hnone] at hq
  cases hq

/-! ## Systems with the same solutions -/

namespace EquationSystem

/-- The equations of `e` outside `gone` and those of `e'` outside `gone'` have the same solutions:
the second hold for every solution of the first, and each of their solutions is completed to one of
the first, which its values outside `gone'` determine. -/
structure SameSolutions (R : Reading W F) (gone gone' : Set Nat) (e e' : EquationSystem W) :
    Prop where
  subset : gone ⊆ gone'
  states_eq : e'.states = e.states
  solves : ∀ {x}, e.SolvesOff R gone x → e'.SolvesOff R gone' x
  exists_completion : ∀ {y}, e'.SolvesOff R gone' y →
    ∃ x, e.SolvesOff R gone x ∧ ∀ i ∉ gone', x i = y i
  determined : ∀ {x y}, e.SolvesOff R gone x → e.SolvesOff R gone y →
    (∀ i < e.states, i ∉ gone' → x i = y i) → ∀ i < e.states, i ∉ gone → x i = y i

namespace SameSolutions

variable {R : Reading W F} {gone gone' gone'' : Set Nat} {e e' e'' : EquationSystem W}

theorem refl (R : Reading W F) (gone : Set Nat) (e : EquationSystem W) :
    SameSolutions R gone gone e e where
  subset := subset_rfl
  states_eq := rfl
  solves hx := hx
  exists_completion hy := ⟨_, hy, fun _ _ => rfl⟩
  determined _ _ h := h

theorem trans (h : SameSolutions R gone gone' e e') (h' : SameSolutions R gone' gone'' e' e'') :
    SameSolutions R gone gone'' e e'' where
  subset := h.subset.trans h'.subset
  states_eq := h'.states_eq.trans h.states_eq
  solves hx := h'.solves (h.solves hx)
  exists_completion hy := by
    obtain ⟨x', hx', hagree'⟩ := h'.exists_completion hy
    obtain ⟨x, hx, hagree⟩ := h.exists_completion hx'
    refine ⟨x, hx, fun i hi => ?_⟩
    exact (hagree i fun hmem => hi (h'.subset hmem)).trans (hagree' i hi)
  determined hx hy hagree := by
    refine h.determined hx hy ?_
    rw [← h.states_eq]
    refine h'.determined (h.solves hx) (h.solves hy) ?_
    rwa [h.states_eq]

/-- A solution of what is left is completed in exactly one way. -/
theorem existsUnique (h : SameSolutions R ∅ gone e e') (hgone : ∀ i ∈ gone, i < e.states)
    {y : Nat → F} (hy : e'.SolvesOff R gone y) :
    ∃! x, e.SolvesOff R ∅ x ∧ ∀ i ∉ gone, x i = y i := by
  obtain ⟨x, hx, hagree⟩ := h.exists_completion hy
  refine ⟨x, ⟨hx, hagree⟩, fun z ⟨hz, hzy⟩ => funext fun i => ?_⟩
  have hsame : ∀ i ∉ gone, z i = x i := fun i hi => (hzy i hi).trans (hagree i hi).symm
  by_cases hi : i < e.states
  · exact h.determined hz hx (fun i _ => hsame i) i hi (Set.notMem_empty i)
  · exact hsame i fun hmem => hi (hgone i hmem)

end SameSolutions

theorem exitValue_congr {R : Reading W F} {exit : Row W × W} {x y : Nat → F}
    (h : ∀ d ∈ exit.1, x d.1 = y d.1) : exitValue R exit x = exitValue R exit y := by
  rw [exitValue, exitValue]
  congr 1
  refine Row.dot_congr fun d hd => ?_
  obtain ⟨d', hd', rfl⟩ := Row.mem_read.mp hd
  exact h d' hd'

section Pivots

variable {R : Reading W F} {e : EquationSystem W} {s : Nat}

/-- A state has no exits exactly if its loop has the value one. -/
theorem Readable.exits_eq_error_iff (h : e.Readable R) (hR : R.SeesZeros)
    {failure : EliminationError} :
    Eliminator.exits e s = .error failure ↔
      failure = .noExit s ∧ ∃ loop, Row.get? (e.row s) s = some loop ∧ R.value loop = 1 := by
  rcases hget : Row.get? (e.row s) s with _ | loop
  · simp [Eliminator.exits, hget]
  · obtain ⟨hsub, hsubval⟩ := R.sub R.one.1 (h.defined s _ (Row.mem_of_get?_eq_some hget))
    have hdiv : Weight.div? Weight.one (Weight.sub Weight.one loop) = none ↔
        R.value loop = 1 := by
      rw [hR.div?_eq_none_iff R.one.1 hsub, hsubval, R.one.2, sub_eq_zero, eq_comm]
    simp only [Eliminator.exits, hget, Option.some.injEq, exists_eq_left', ← hdiv]
    rcases Weight.div? Weight.one (Weight.sub Weight.one loop) with _ | scale
    · simp [eq_comm]
    · simp

/-- A division that is made shows that the pivot does not vanish. -/
theorem Readable.hasPivot (h : e.Readable R) (hR : R.SeesZeros) {exit : Row W × W}
    (hexit : Eliminator.exits e s = .ok exit) : e.HasPivot R s := by
  intro loop hloop hone
  have herr := (h.exits_eq_error_iff hR).mpr ⟨rfl, loop, hloop, hone⟩
  rw [hexit] at herr
  cases herr

end Pivots

end EquationSystem

/-! ## One step -/

namespace Eliminator

open EquationSystem

section Step

variable {R : Reading W F} {e : Eliminator W} {gone : Set Nat} {s : Nat} {exit : Row W × W}
  (hi : Indexed e) (hshape : e.system.Shape gone) (h : e.system.Readable R) {loop : F}
  (hsolved : e.system.SolvedBy R s exit loop)
include hi hshape h hsolved

/-- The equations before a step follow from those after it, once the state has the value of its
exits. -/
theorem solvesOff_of_eliminated {y : Nat → F}
    (hy : (e.eliminated s exit).system.SolvesOff R (insert s gone) y)
    (hs : s ∈ gone ∨ y s = exitValue R exit y) : e.system.SolvesOff R gone y := by
  intro r hr hgone
  by_cases hrs : r = s
  · subst hrs
    exact (hsolved.eq_rhs_iff y).mpr (hs.resolve_left hgone)
  · obtain ⟨via, hvia⟩ := h.exists_redirectedBy hshape.sorted hsolved.defined
      hsolved.target_defined r
    have hstep : via * (exitValue R exit y - y s) = 0 := by
      rcases hs with hs | hs
      · rcases hvia.via_mem with rfl | ⟨w, hw, -⟩
        · exact zero_mul _
        · exact absurd hs (hshape.column_notMem r _ hw)
      · rw [← hs, sub_self, mul_zero]
    have hr' := hy r ((system_eliminated_sizes e s exit).1.symm ▸ hr)
      fun hmem => hmem.elim hrs hgone
    rwa [rhs_eliminated hi hshape.size_eq hrs hvia, hstep, add_zero] at hr'

/-- A step keeps the solutions of the system. -/
theorem sameSolutions_eliminated (hexit : exits e.system s = .ok exit) :
    SameSolutions R gone (insert s gone) e.system (e.eliminated s exit).system where
  subset := Set.subset_insert s gone
  states_eq := (system_eliminated_sizes e s exit).1
  solves hx := solvesOff_eliminated hi hshape h hsolved hx
  exists_completion {y} hy := by
    classical
    by_cases hs : s ∈ gone
    · exact ⟨y, solvesOff_of_eliminated hi hshape h hsolved hy (Or.inl hs), fun _ _ => rfl⟩
    · let x := Function.update y s (exitValue R exit y)
      have hagree : ∀ i ∉ insert s gone, x i = y i := fun i hi =>
        Function.update_of_ne (fun his => hi (Or.inl his)) _ _
      have hvalue : x s = exitValue R exit x := by
        rw [exitValue_congr (y := y) fun d hd =>
          Function.update_of_ne (column_of_mem_exits hexit hd).1 _ _]
        exact Function.update_self ..
      have hx := hy.congr_off (shape_eliminated hi hshape hexit) fun i _ hi => (hagree i hi).symm
      exact ⟨x, solvesOff_of_eliminated hi hshape h hsolved hx (Or.inr hvalue), hagree⟩
  determined {x y} hx hy hagree i hlt hgone := by
    by_cases his : i = s
    · subst his
      rw [(hsolved.eq_rhs_iff x).mp (hx i hlt hgone), (hsolved.eq_rhs_iff y).mp (hy i hlt hgone)]
      refine exitValue_congr fun d hd => ?_
      obtain ⟨hne, d', hd', hcolumn⟩ := column_of_mem_exits hexit hd
      rw [← hcolumn] at hne ⊢
      exact hagree d'.1 (hshape.column_lt i d' hd') fun hmem =>
        hmem.elim hne (hshape.column_notMem i d' hd')
    · exact hagree i hlt fun hmem => hmem.elim his hgone

end Step

/-- A state that mentions no other is not changed by a step. -/
theorem row_eliminated_of_nil {e : Eliminator W} (hi : Indexed e)
    (hsize : e.system.oneStep.size = e.system.states) {s r : Nat} (exit : Row W × W) (hr : r ≠ s)
    (hnil : e.system.row r = []) :
    (e.eliminated s exit).system.row r = [] ∧
      (e.eliminated s exit).system.target r = e.system.target r := by
  have hsame : e.system.redirected s exit r = (e.system.row r, e.system.target r) := by
    rw [redirected, redirect?, hnil]
    rfl
  obtain ⟨hrow, htarget⟩ := row_eliminated hi hsize exit hr
  rw [hsame] at hrow htarget
  exact ⟨hrow.trans hnil, htarget⟩

/-- Only missing exits are reported as such. -/
theorem eliminate_eq_noExit_iff {bound : Option Nat} {e : Eliminator W} {s t : Nat} :
    ((eliminate bound s).run e).1 = .error (.noExit t) ↔ exits e.system s = .error (.noExit t) := by
  rcases run_eliminate_cases bound e s with ⟨failure, hexit, herr⟩ |
    ⟨exit, hexit, ⟨limit, size, -, -, herr⟩ | hok⟩
  · simp [herr, hexit]
  · simp [herr, hexit]
  · simp [hok, hexit]

/-! ## Any number of calls -/

/-- A run so far. -/
structure Progress (W : Type) where
  /-- What the calls have left. -/
  current : Eliminator W
  /-- The states whose elimination has succeeded. -/
  eliminated : List Nat

namespace Progress

/-- Before the first call. -/
def start (system : EquationSystem W) : Progress W := ⟨ofSystem system, []⟩

/-- The set of eliminated states. -/
def gone (p : Progress W) : Set Nat := {s | s ∈ p.eliminated}

/-- One call. -/
def call (bound : Option Nat) (p : Progress W) (s : Nat) : Progress W :=
  match (eliminate bound s).run p.current with
  | (.ok (), next) => ⟨next, s :: p.eliminated⟩
  | (.error _, next) => ⟨next, p.eliminated⟩

/-- Calls for states one after the other, whether they succeed or not. -/
def calls (bound : Option Nat) (p : Progress W) (states : List Nat) : Progress W :=
  states.foldl (call bound) p

variable {bound : Option Nat} {p : Progress W} {s : Nat}

/-- A call succeeds, or it fails and changes nothing. -/
theorem call_cases (bound : Option Nat) (p : Progress W) (s : Nat) :
    (∃ failure, ((eliminate bound s).run p.current).1 = .error failure ∧
        ((eliminate bound s).run p.current).2 = p.current ∧ p.call bound s = p) ∨
      ∃ exit, exits p.current.system s = .ok exit ∧
        (eliminate bound s).run p.current = (Except.ok (), p.current.eliminated s exit) ∧
        p.call bound s = ⟨p.current.eliminated s exit, s :: p.eliminated⟩ := by
  rcases run_eliminate_cases bound p.current s with ⟨failure, -, herr⟩ |
    ⟨exit, hexit, ⟨_, _, -, -, herr⟩ | hok⟩
  · exact .inl ⟨_, by rw [herr], by rw [herr], by rw [call, herr]⟩
  · exact .inl ⟨_, by rw [herr], by rw [herr], by rw [call, herr]⟩
  · exact .inr ⟨exit, hexit, hok, by rw [call, hok]⟩

omit [Weight W] in
theorem gone_cons (next : Eliminator W) (s : Nat) (states : List Nat) :
    gone ⟨next, s :: states⟩ = insert s {t | t ∈ states} := by
  ext t
  exact List.mem_cons

/-- What a run from a system keeps. -/
structure Keeps (R : Reading W F) (system : EquationSystem W) (p : Progress W) : Prop where
  indexed : Indexed p.current
  shape : p.current.system.Shape p.gone
  readable : p.current.system.Readable R
  cleared : ∀ s ∈ p.gone, p.current.system.row s = [] ∧ p.current.system.target s = Weight.zero
  sameSolutions : SameSolutions R ∅ p.gone system p.current.system
  gone_lt : ∀ s ∈ p.gone, s < system.states

theorem keeps_start {R : Reading W F} {system : EquationSystem W} (hshape : system.Shape ∅)
    (h : system.Readable R) : (start system).Keeps R system := by
  have hgone : (start system).gone = ∅ := Set.eq_empty_of_forall_notMem fun _ => List.not_mem_nil
  have hnone : ∀ s, s ∉ (start system).gone := hgone ▸ Set.notMem_empty
  refine ⟨indexed_ofSystem hshape, hgone ▸ hshape, h, fun s hs => absurd hs (hnone s), ?_,
    fun s hs => absurd hs (hnone s)⟩
  rw [hgone]
  exact SameSolutions.refl R ∅ system

namespace Keeps

variable {R : Reading W F} {system : EquationSystem W}

/-- A step keeps it, if its pivot does not vanish. -/
theorem eliminated (h : p.Keeps R system) (hs : s < system.states) {exit : Row W × W}
    (hexit : exits p.current.system s = .ok exit) (hpivot : p.current.system.HasPivot R s) :
    (⟨p.current.eliminated s exit, s :: p.eliminated⟩ : Progress W).Keeps R system := by
  obtain ⟨loop, hsolved⟩ := h.readable.solvedBy (h.shape.sorted s) hpivot hexit
  refine ⟨indexed_eliminated h.indexed h.shape hexit, ?_,
    readable_eliminated h.indexed h.shape h.readable hsolved.defined hsolved.target_defined,
    fun r hr => ?_, ?_, fun r hr => ?_⟩
  · rw [gone_cons]
    exact shape_eliminated h.indexed h.shape hexit
  · by_cases hrs : r = s
    · rw [hrs]
      exact row_eliminated_self h.indexed h.shape.size_eq exit
    · obtain ⟨hrow, htarget⟩ := h.cleared r ((List.mem_cons.mp hr).resolve_left hrs)
      obtain ⟨hrow', htarget'⟩ := row_eliminated_of_nil h.indexed h.shape.size_eq exit hrs hrow
      exact ⟨hrow', htarget'.trans htarget⟩
  · rw [gone_cons]
    exact h.sameSolutions.trans
      (sameSolutions_eliminated h.indexed h.shape h.readable hsolved hexit)
  · rcases List.mem_cons.mp hr with rfl | hr
    · exact hs
    · exact h.gone_lt r hr

variable (hR : R.SeesZeros)
include hR

/-- A call keeps it. -/
theorem call (h : p.Keeps R system) (hs : s < system.states) : (p.call bound s).Keeps R system := by
  rcases call_cases bound p s with ⟨failure, -, -, hsame⟩ | ⟨exit, hexit, -, hcall⟩
  · rw [hsame]
    exact h
  · rw [hcall]
    exact h.eliminated hs hexit (h.readable.hasPivot hR hexit)

theorem calls {states : List Nat} (hstates : ∀ s ∈ states, s < system.states)
    (h : p.Keeps R system) : (p.calls bound states).Keeps R system := by
  induction states generalizing p with
  | nil => exact h
  | cons s rest ih =>
      exact ih (fun t ht => hstates t (List.mem_cons_of_mem s ht))
        (call hR h (hstates s List.mem_cons_self))

end Keeps

/-! ### Exact arithmetic -/

/-- How a run stands to the system it started from, with rational weights. -/
structure Exact (bound : Option Nat) (system : EquationSystem ℚ) (p : Progress ℚ) : Prop where
  states_eq : p.current.system.states = system.states
  /-- A solution of the system satisfies the equations that are left. -/
  solves : ∀ x, system.SolvesOff exactReading ∅ x →
    p.current.system.SolvesOff exactReading p.gone x
  /-- What satisfies the equations that are left is completed in exactly one way. -/
  completes_uniquely : ∀ y, p.current.system.SolvesOff exactReading p.gone y →
    ∃! x, system.SolvesOff exactReading ∅ x ∧ ∀ i ∉ p.gone, x i = y i
  not_mentioned : ∀ r, ∀ d ∈ p.current.system.row r, d.1 ∉ p.gone
  cleared : ∀ s ∈ p.gone, p.current.system.row s = [] ∧ p.current.system.target s = 0
  /-- The index of predecessors knows every step. -/
  indexed : ∀ r, ∀ d ∈ p.current.system.row r, r ∈ p.current.predecessorsOf d.1
  /-- A call that fails changes nothing. -/
  unchanged : ∀ s failure, ((eliminate bound s).run p.current).1 = .error failure →
    ((eliminate bound s).run p.current).2 = p.current ∧ p.call bound s = p
  /-- A state has no exit exactly if its loop has weight one. -/
  noExit_iff : ∀ s t, ((eliminate bound s).run p.current).1 = .error (.noExit t) ↔
    t = s ∧ p.current.system.get? s s = some 1

/-- Elimination keeps the solutions of a system with rational weights, whichever states it is asked
to eliminate and whichever calls fail. -/
theorem exact_calls {system : EquationSystem ℚ} (hshape : system.Shape ∅) (bound : Option Nat)
    {states : List Nat} (hstates : ∀ s ∈ states, s < system.states) :
    ((start system).calls bound states).Exact bound system := by
  have hreadable : system.Readable exactReading := ⟨fun _ _ _ => trivial, fun _ => trivial⟩
  have h : ((start system).calls bound states).Keeps exactReading system :=
    Keeps.calls seesZeros_exactReading hstates (keeps_start hshape hreadable)
  refine ⟨h.sameSolutions.states_eq, fun _ => h.sameSolutions.solves,
    fun _ => h.sameSolutions.existsUnique h.gone_lt, h.shape.column_notMem, h.cleared,
    h.indexed.complete, fun s failure herror => ?_, fun s t => ?_⟩
  · rcases call_cases bound ((start system).calls bound states) s with ⟨_, -, hsame⟩ | ⟨_, -, hok, -⟩
    · exact hsame
    · rw [hok] at herror
      cases herror
  rw [eliminate_eq_noExit_iff, h.readable.exits_eq_error_iff seesZeros_exactReading,
    EliminationError.noExit.injEq]
  exact and_congr_right fun _ => exists_eq_right

/-- Of three states the second is eliminated, the third loops for ever, and the second is asked for
again. -/
theorem exact_calls_second_twice :
    let system : EquationSystem ℚ := .ofEntries [[(1, 1)], [(0, 1 / 2), (2, 1 / 4)], [(2, 1)]]
      [0, 1 / 4, 0]
    let run := (start system).calls none [1, 2, 1]
    run.Exact none system ∧ run.eliminated = [1, 1] ∧
      ((eliminate none 2).run run.current).1 = .error (.noExit 2) := by
  intro system run
  refine ⟨exact_calls (shape_ofEntries rfl ?_) none ?_, ?_, ?_⟩
  · decide
  · decide
  · decide +kernel
  · decide +kernel

end Progress

end Eliminator

end MarkovRegion
