import MarkovRegion.Proofs.Analysis.EliminationRuns
import MarkovRegion.Proofs.Model.CanonicalRows
import MarkovRegion.Proofs.Model.Chain

/-!
# Equation systems with canonical rows

A matrix sorts its rows once and keeps them.  An equation system builds the same rows by insertion
and changes them afterwards: weights are added to entries, states are eliminated, and the system is
restricted to some of its states.  Search by halving is right as long as the rows stay sorted, and
they do.

* One change keeps the rows canonical (`Canonical.apply`).  For an elimination this is a statement
  about every row that it replaces: the redirected rows are built by insertion into what is left of
  a canonical row (`canonical_redirect?`), and the row of the state itself becomes empty.
* So every sequence of changes keeps them canonical (`Canonical.applyAll`), and halving finds
  exactly what is stored in every system that can come about.
-/

namespace MarkovRegion

variable {W : Type} [Weight W]

namespace EquationSystem

/-- All rows are canonical. -/
def Canonical (e : EquationSystem W) : Prop := ∀ r, (e.row r).Canonical

theorem canonical_of_forall_mem {e : EquationSystem W} (h : ∀ row ∈ e.rows, row.Canonical) :
    e.Canonical := by
  intro r
  by_cases hr : r < e.states
  · have hrow : e.row r = e.rows[r] := dif_pos hr
    rw [hrow]
    exact h _ (Array.getElem_mem hr)
  · rw [e.row_eq_nil (not_lt.mp hr)]
    exact Row.canonical_nil

theorem canonical_ofEntries (rows : List (Row W)) (oneStep : List W) :
    (ofEntries rows oneStep).Canonical := by
  refine canonical_of_forall_mem fun row hrow => ?_
  obtain ⟨entries, -, rfl⟩ : ∃ entries ∈ rows, Row.ofEntries entries = row := by
    simpa [ofEntries] using hrow
  exact Row.canonical_ofEntries entries

variable {e : EquationSystem W}

theorem Canonical.addToEntry (h : e.Canonical) (s c : Nat) (w : W) :
    (e.addToEntry s c w).Canonical := by
  intro r
  rw [row, EquationSystem.addToEntry, getD_modify]
  split
  · exact (h r).addAt c w
  · exact h r

theorem canonical_restrict (e : EquationSystem W) (keep : List Nat) :
    (e.restrict keep).Canonical := by
  refine canonical_of_forall_mem fun row hrow => ?_
  obtain ⟨s, -, rfl⟩ := List.mem_map.mp (Array.mem_toList_iff.mpr hrow)
  exact Row.canonical_ofEntries _

end EquationSystem

namespace Eliminator

open EquationSystem

/-- A redirected row is built by insertion into what is left of a canonical row. -/
theorem canonical_redirect? {e : EquationSystem W} (h : e.Canonical) {s r : Nat}
    {exit : Row W × W} {u : Update W} (hu : redirect? e s exit r = some u) : u.row.Canonical := by
  obtain ⟨via, -, rfl⟩ := Option.map_eq_some_iff.mp hu
  exact ((h r).erase s).addEntries _

theorem canonical_foldl_applyUpdate {changes : List (Update W)}
    (hchanges : ∀ u ∈ changes, u.row.Canonical) {e : Eliminator W} (h : e.system.Canonical) :
    (changes.foldl applyUpdate e).system.Canonical := by
  induction changes generalizing e with
  | nil => exact h
  | cons u rest ih =>
      refine ih (fun v hv => hchanges v (List.mem_cons_of_mem _ hv)) fun r => ?_
      rw [row_applyUpdate]
      split
      · exact hchanges u List.mem_cons_self
      · exact h r

theorem canonical_eliminated {e : Eliminator W} (h : e.system.Canonical) (s : Nat)
    (exit : Row W × W) : (e.eliminated s exit).system.Canonical := by
  intro r
  rw [eliminated, row_clear]
  split
  · exact Row.canonical_nil
  · refine canonical_foldl_applyUpdate (fun u hu => ?_) (e := e.forget s) h r
    obtain ⟨t, -, ht⟩ := List.mem_filterMap.mp hu
    exact canonical_redirect? h ht

/-- A call keeps the rows canonical, whether it succeeds or not. -/
theorem canonical_call {p : Progress W} (h : p.current.system.Canonical) (bound : Option Nat)
    (s : Nat) : (p.call bound s).current.system.Canonical := by
  rcases Progress.call_cases bound p s with ⟨_, -, -, hsame⟩ | ⟨exit, -, -, hcall⟩
  · rwa [hsame]
  · rw [hcall]
    exact canonical_eliminated h s exit

theorem canonical_calls {p : Progress W} (h : p.current.system.Canonical) (bound : Option Nat)
    (states : List Nat) : (p.calls bound states).current.system.Canonical := by
  unfold Progress.calls
  induction states generalizing p with
  | nil => exact h
  | cons s rest ih => exact ih (canonical_call h bound s)

end Eliminator

namespace EquationSystem

/-! ## Sequences of changes -/

/-- A change of an equation system. -/
inductive Change (W : Type) where
  /-- Add a weight to an entry. -/
  | add (state column : Nat) (weight : W)
  /-- Ask for the elimination of states one after the other, and go on when a call fails. -/
  | eliminate (bound : Option Nat) (states : List Nat)
  /-- Keep some states, in the given order. -/
  | restrict (keep : List Nat)

/-- Make a change. -/
def apply (e : EquationSystem W) : Change W → EquationSystem W
  | .add state column weight => e.addToEntry state column weight
  | .eliminate bound states =>
    ((Eliminator.Progress.start e).calls bound states).current.system
  | .restrict keep => e.restrict keep

/-- Make changes one after the other. -/
def applyAll (e : EquationSystem W) (changes : List (Change W)) : EquationSystem W :=
  changes.foldl apply e

theorem Canonical.apply {e : EquationSystem W} (h : e.Canonical) (change : Change W) :
    (e.apply change).Canonical := by
  cases change with
  | add state column weight => exact h.addToEntry state column weight
  | eliminate bound states =>
      exact Eliminator.canonical_calls (p := Eliminator.Progress.start e) h bound states
  | restrict keep => exact canonical_restrict e keep

theorem Canonical.applyAll {e : EquationSystem W} (h : e.Canonical) (changes : List (Change W)) :
    (e.applyAll changes).Canonical := by
  unfold EquationSystem.applyAll
  induction changes generalizing e with
  | nil => exact h
  | cons change rest ih => exact ih (h.apply change)

/-! ## Matrices and equation systems -/

section Exact

variable [ExactWeight W] {columns : Nat} {rows : List (Row W)}

omit [ExactWeight W] in
theorem exists_ofRows (hcolumns : ∀ entries ∈ rows, ∀ d ∈ entries, d.1 < columns) :
    ∃ m, TransitionMatrix.ofRows columns rows = .ok m ∧ m.rows = rows.map Row.normalize := by
  refine ⟨_, TransitionMatrix.ofGroups_eq_ok_iff.mpr ⟨?_, rfl⟩, ?_⟩
  · simpa using hcolumns
  · have hflat : rows.map Row.normalize = rows.flatMap fun row => [row.normalize] :=
      List.map_eq_flatMap
    simp [TransitionMatrix.rows, ← List.flatMap_def, Function.comp_def, hflat]

/-- A matrix and an equation system of the same entries have the same rows.  They are canonical and
have the sum of the given weights at every column.  The rows of the equation system stay canonical
under all changes, so that halving always finds exactly what is stored. -/
theorem ofRows_agrees_ofEntries (hcolumns : ∀ entries ∈ rows, ∀ d ∈ entries, d.1 < columns)
    (oneStep : List W) :
    (∃ m, TransitionMatrix.ofRows columns rows = .ok m ∧
        m.rows = (ofEntries rows oneStep).rows.toList ∧
        m.rows = rows.map (Row.mergeAll []) ∧ List.Forall₂ Row.Collects rows m.rows) ∧
      ∀ (changes : List (Change W)) (r : Nat),
        (((ofEntries rows oneStep).applyAll changes).row r).Canonical ∧
          (((ofEntries rows oneStep).applyAll changes).row r).Searchable ∧
          ∀ c w, ((ofEntries rows oneStep).applyAll changes).get? r c = some w ↔
            (c, w) ∈ ((ofEntries rows oneStep).applyAll changes).row r := by
  refine ⟨?_, fun changes r => ?_⟩
  · obtain ⟨m, hm, hrows⟩ := exists_ofRows hcolumns
    have hmerge : ∀ entries : Row W, Row.mergeAll [] entries = Row.ofEntries entries :=
      Row.canonical_nil.sorted.mergeAll_eq_addEntries
    refine ⟨m, hm, ?_, ?_, ?_⟩
    · rw [hrows, funext Row.normalize_eq_ofEntries]
      rfl
    · rw [hrows, funext Row.normalize_eq_ofEntries, funext hmerge]
    · rw [hrows, List.forall₂_map_right_iff, List.forall₂_same]
      exact fun entries _ => Row.collects_normalize entries
  · have hrow := (canonical_ofEntries rows oneStep).applyAll changes r
    exact ⟨hrow, hrow.sorted.searchable, fun c w => hrow.sorted.get?_eq_some_iff⟩

end Exact

/-- Rational entries out of order, with a sum that cancels on the way and one that cancels at the
end. -/
def spillRows : List (Row ℚ) :=
  [[(2, mkRat 1 2), (0, mkRat 1 4), (2, mkRat (-1) 2), (1, 0), (2, mkRat 3 4)],
    [(1, 1), (0, mkRat 1 3), (1, -1)], []]

/-- A step back to the first state is added, that state is eliminated, and the others change
places. -/
def spillChanges : List (Change ℚ) :=
  [.add 2 0 (mkRat 1 2), .eliminate none [0], .restrict [2, 1]]

/-- The chance of a surge. -/
def surge : Parameter := ⟨"surge", by decide⟩

/-- The weight of a surge. -/
def surgeWeight : RationalFunction := .ofParameter surge

/-- The same with rational functions. -/
def surgeRows : List (Row RationalFunction) :=
  [[(1, surgeWeight), (0, .sub .one surgeWeight), (1, surgeWeight.neg), (1, surgeWeight)],
    [(1, surgeWeight), (0, .zero), (1, surgeWeight.neg)]]

theorem ofRows_agrees_ofEntries_surge :
    ((∀ entries ∈ spillRows, ∀ d ∈ entries, d.1 < 3) ∧
      ∀ entries ∈ surgeRows, ∀ d ∈ entries, d.1 < 2) ∧
    (∃ m, TransitionMatrix.ofRows 3 spillRows = .ok m ∧
      m.rows = [[(0, mkRat 1 4), (2, mkRat 3 4)], [(0, mkRat 1 3)], []]) ∧
    (∃ m, TransitionMatrix.ofRows 2 surgeRows = .ok m ∧
      m.rows = [[(0, .sub .one surgeWeight), (1, surgeWeight)], []]) ∧
    Row.search? (((ofEntries spillRows []).applyAll spillChanges).row 1) 0 = some (mkRat 1 3) := by
  have hspill : ∀ entries ∈ spillRows, ∀ d ∈ entries, d.1 < 3 := by decide
  have hsurge : ∀ entries ∈ surgeRows, ∀ d ∈ entries, d.1 < 2 := by decide +kernel
  obtain ⟨⟨m, hm, hrows, -⟩, hrun⟩ := ofRows_agrees_ofEntries hspill []
  obtain ⟨⟨n, hn, hrows', -⟩, -⟩ := ofRows_agrees_ofEntries hsurge []
  refine ⟨⟨hspill, hsurge⟩, ⟨m, hm, hrows.trans ?_⟩, ⟨n, hn, hrows'.trans ?_⟩, ?_⟩
  · decide +kernel
  · decide +kernel
  · refine ((hrun spillChanges 1).2.1.search?_eq_some_iff _ _).mpr ?_
    decide +kernel

end EquationSystem

end MarkovRegion
