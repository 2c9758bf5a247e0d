import MarkovRegion.Analysis.Property
import MarkovRegion.Proofs.Attempt
import MarkovRegion.Proofs.Basic
import MarkovRegion.Proofs.Model.Row

/-!
# State elimination keeps solutions

A state is eliminated by redirecting its exits to its predecessors, which an index supplies.  The
argument has two halves.

* What a step does to the rows, without regard to what the weights mean: `equation_eliminated` says
  what each equation is after a step, and `indexed_eliminated` that the index stays complete.
* What this does to solutions, under a reading of the weights in some field (`Readable`): for
  `r ≠ s` the right side of the equation of `r` grows by a multiple of `X x - x s`, where
  `x s = X x` is the equation of `s` solved for `x s` (`SolvedBy`, `RedirectedBy`).  So every
  solution stays one, if the pivot `1 - loop` of the step is not zero (`HasPivot`,
  `solvesOff_eliminated`).

At the points of interest no pivot vanishes, because a vector with drift is carried along: `u` falls
strictly under the equations before a step, so the weight of a loop is below one, and it falls under
the equations after it as well (`sound_eliminated`).  Hence elimination without a bound on sizes
does not fail, and with a bound fails only because of it (`eliminateStates_cases`).
-/

set_option linter.unusedSectionVars false

namespace MarkovRegion

variable {W : Type} [Weight W]

/-! ## What a step does to the equations -/

namespace EquationSystem

/-- The equation of a state with its step to `s` redirected along the exits of `s`. -/
def redirected (e : EquationSystem W) (s : Nat) (exit : Row W × W) (r : Nat) : Row W × W :=
  match Eliminator.redirect? e s exit r with
  | some u => (u.row, u.oneStep)
  | none => (e.row r, e.target r)

/-- The form of an equation system in which the states in `gone` are not mentioned. -/
structure Shape (gone : Set Nat) (e : EquationSystem W) : Prop where
  size_eq : e.oneStep.size = e.states
  sorted : ∀ s, (e.row s).Sorted
  column_lt : ∀ s, ∀ d ∈ e.row s, d.1 < e.states
  column_notMem : ∀ s, ∀ d ∈ e.row s, d.1 ∉ gone

theorem row_eq_nil (e : EquationSystem W) {s : Nat} (hs : e.states ≤ s) : e.row s = [] :=
  getD_of_size_le _ hs _

theorem lt_states_of_mem_row {e : EquationSystem W} {s : Nat} {d : Nat × W} (hd : d ∈ e.row s) :
    s < e.states := by
  by_contra hs
  rw [e.row_eq_nil (not_lt.mp hs)] at hd
  cases hd

/-- Rows of entries in any order. -/
theorem shape_ofEntries {rows : List (Row W)} {oneStep : List W}
    (hlength : oneStep.length = rows.length)
    (hcolumn : ∀ row ∈ rows, ∀ d ∈ row, d.1 < rows.length) : (ofEntries rows oneStep).Shape ∅ := by
  have hstates : (ofEntries rows oneStep).states = rows.length := by
    simp [EquationSystem.states, ofEntries]
  have hrow : ∀ s, ∃ entries : Row W, (ofEntries rows oneStep).row s = Row.ofEntries entries ∧
      ∀ d ∈ entries, d.1 < rows.length := by
    intro s
    by_cases hs : s < rows.length
    · exact ⟨rows[s], by simp [EquationSystem.row, ofEntries, hs],
        hcolumn _ (List.getElem_mem hs)⟩
    · refine ⟨[], row_eq_nil _ (hstates ▸ not_lt.mp hs), by simp⟩
  refine ⟨?_, fun s => ?_, fun s d hd => ?_, fun s d _ => Set.notMem_empty d.1⟩
  · simpa [ofEntries, EquationSystem.states] using hlength
  · obtain ⟨entries, hentries, -⟩ := hrow s
    exact hentries ▸ Row.sorted_ofEntries entries
  · obtain ⟨entries, hentries, hlt⟩ := hrow s
    rw [hentries] at hd
    rw [hstates]
    exact Row.forall_ofEntries (P := fun c _ => c < rows.length) (fun _ _ _ h _ => h) hlt d hd

end EquationSystem

namespace Eliminator

open EquationSystem

variable {e e' : Eliminator W} {s : Nat}

/-- The index of predecessors knows every step. -/
structure Indexed (e : Eliminator W) : Prop where
  size_eq : e.predecessors.size = e.system.states
  complete : ∀ r, ∀ d ∈ e.system.row r, r ∈ e.predecessorsOf d.1

theorem mem_insertState {s t : Nat} {list : List Nat} :
    t ∈ insertState s list ↔ t = s ∨ t ∈ list := by
  induction list with
  | nil => simp [insertState]
  | cons a rest ih =>
      unfold insertState
      split
      · simp
      · split
        · next h => simp [h]
        · rw [List.mem_cons, ih, List.mem_cons]
          exact or_left_comm

/-- The updates of a step are the redirections of the predecessors, unless one of them is beyond the
bound. -/
theorem updates_cases (system : EquationSystem W) (bound : Option Nat) (s : Nat)
    (exit : Row W × W) (states : List Nat) :
    updates system bound s exit states = .ok (states.filterMap (redirect? system s exit)) ∨
      ∃ limit size, bound = some limit ∧ limit < size ∧
        updates system bound s exit states = .error (.sizeBoundExceeded s size limit) := by
  induction states with
  | nil => exact Or.inl rfl
  | cons r rest ih =>
      rcases hr : redirect? system s exit r with _ | u
      · simpa only [updates, hr, List.filterMap_cons] using ih
      · simp only [updates, hr, List.filterMap_cons]
        rcases bound with _ | limit
        · refine Or.inl ?_
          rw [ih.resolve_right (by simp)]
          rfl
        · by_cases hsize : limit < u.size
          · exact Or.inr ⟨limit, u.size, rfl, hsize, by simp only [if_pos hsize]; rfl⟩
          · simp only [if_neg hsize]
            rcases ih with hok | ⟨limit', size, heq, hlt, herr⟩
            · rw [hok]
              exact Or.inl rfl
            · rw [herr]
              exact Or.inr ⟨limit', size, heq, hlt, rfl⟩

theorem redirect?_state {system : EquationSystem W} {exit : Row W × W} {r : Nat} {u : Update W}
    (h : redirect? system s exit r = some u) : u.state = r := by
  obtain ⟨via, -, rfl⟩ := Option.map_eq_some_iff.mp h
  rfl

/-! ### The index -/

/-- A state is in the index of a column. -/
def Listed (index : Array (List Nat)) (r column : Nat) : Prop := r ∈ index.getD column []

theorem size_foldl_modify {α β : Type} (f : β → α → α) (column : β → Nat) (list : List β)
    (index : Array α) :
    (list.foldl (fun index b => index.modify (column b) (f b)) index).size = index.size := by
  induction list generalizing index with
  | nil => rfl
  | cons b rest ih => rw [List.foldl_cons, ih, Array.size_modify]

/-- An update adds its state to the index of its columns, and removes nothing. -/
theorem listed_applyUpdate {u : Update W} {r c : Nat}
    (h : Listed e.predecessors r c ∨
      r = u.state ∧ c < e.predecessors.size ∧ ∃ d ∈ u.row, d.1 = c) :
    Listed (e.applyUpdate u).predecessors r c := by
  rw [applyUpdate]
  generalize e.predecessors = index at h
  generalize u.row = row at h
  induction row generalizing index with
  | nil =>
      rcases h with h | ⟨-, -, d, hd, -⟩
      · exact h
      · cases hd
  | cons d rest ih =>
      rw [List.foldl_cons]
      refine ih _ ?_
      rw [Listed, getD_modify, Array.size_modify]
      split
      · next hdc =>
          rw [mem_insertState]
          rcases h with h | ⟨hr, -, -⟩
          · exact Or.inl (Or.inr h)
          · exact Or.inl (Or.inl hr)
      · next hdc =>
          rcases h with h | ⟨hr, hc, d', hd', hd'c⟩
          · exact Or.inl h
          · rcases List.mem_cons.mp hd' with rfl | hd'
            · exact absurd ⟨hd'c, hc⟩ hdc
            · exact Or.inr ⟨hr, hc, d', hd', hd'c⟩

/-- Forgetting a state leaves the others in the index. -/
theorem listed_forget {r c : Nat} (hr : r ≠ s) (h : Listed e.predecessors r c) :
    Listed (e.forget s).predecessors r c := by
  rw [forget]
  generalize e.predecessors = index at h
  generalize e.system.row s = row
  induction row generalizing index with
  | nil => exact h
  | cons d rest ih =>
      rw [List.foldl_cons]
      refine ih _ ?_
      rw [Listed, getD_modify]
      split
      · exact List.mem_filter.mpr ⟨h, by simpa using hr⟩
      · exact h

/-! ### The equations after a step -/

section Fields

variable (e : Eliminator W) (u : Update W) (s r : Nat)

theorem row_applyUpdate : (e.applyUpdate u).system.row r =
    if u.state = r ∧ r < e.system.states then u.row else e.system.row r := by
  rw [EquationSystem.row, applyUpdate, getD_setIfInBounds]
  rfl

theorem target_applyUpdate : (e.applyUpdate u).system.target r =
    if u.state = r ∧ r < e.system.oneStep.size then u.oneStep else e.system.target r := by
  simp only [target, applyUpdate, getD_setIfInBounds]

theorem row_clear : (e.clear s).system.row r =
    if s = r ∧ r < e.system.states then [] else e.system.row r := by
  rw [EquationSystem.row, clear, getD_setIfInBounds]
  rfl

theorem target_clear : (e.clear s).system.target r =
    if s = r ∧ r < e.system.oneStep.size then Weight.zero else e.system.target r := by
  simp only [target, clear, getD_setIfInBounds]

theorem predecessorsOf_clear : (e.clear s).predecessorsOf r =
    if s = r ∧ r < e.predecessors.size then [] else e.predecessorsOf r := by
  simp only [predecessorsOf, clear, getD_setIfInBounds]

theorem states_applyUpdate : (e.applyUpdate u).system.states = e.system.states := by
  simp [applyUpdate, EquationSystem.states]

theorem size_oneStep_applyUpdate :
    (e.applyUpdate u).system.oneStep.size = e.system.oneStep.size := by
  simp [applyUpdate]

theorem size_predecessors_applyUpdate :
    (e.applyUpdate u).predecessors.size = e.predecessors.size := by
  rw [applyUpdate, size_foldl_modify]

theorem size_predecessors_forget : (e.forget s).predecessors.size = e.predecessors.size := by
  rw [forget, size_foldl_modify]

theorem states_clear : (e.clear s).system.states = e.system.states := by
  simp [clear, EquationSystem.states]

theorem size_oneStep_clear : (e.clear s).system.oneStep.size = e.system.oneStep.size := by
  simp [clear]

theorem size_predecessors_clear : (e.clear s).predecessors.size = e.predecessors.size := by
  simp [clear]

end Fields

theorem sizes_foldl_applyUpdate (changes : List (Update W)) (e : Eliminator W) :
    (changes.foldl applyUpdate e).system.states = e.system.states ∧
      (changes.foldl applyUpdate e).system.oneStep.size = e.system.oneStep.size ∧
      (changes.foldl applyUpdate e).predecessors.size = e.predecessors.size := by
  induction changes generalizing e with
  | nil => exact ⟨rfl, rfl, rfl⟩
  | cons u rest ih =>
      obtain ⟨hstates, htargets, hindex⟩ := ih (e.applyUpdate u)
      exact ⟨hstates.trans (states_applyUpdate e u),
        htargets.trans (size_oneStep_applyUpdate e u),
        hindex.trans (size_predecessors_applyUpdate e u)⟩

/-- Updates that agree with a list of new equations replace the equations of their states. -/
theorem equation_foldl_applyUpdate {f : Nat → Row W × W} {changes : List (Update W)}
    (hf : ∀ u ∈ changes, (u.row, u.oneStep) = f u.state) (e : Eliminator W)
    (hsize : e.system.oneStep.size = e.system.states) (r : Nat) :
    ((changes.foldl applyUpdate e).system.row r, (changes.foldl applyUpdate e).system.target r) =
      if r ∈ changes.map Update.state ∧ r < e.system.states then f r
      else (e.system.row r, e.system.target r) := by
  induction changes generalizing e with
  | nil => simp
  | cons u rest ih =>
      have hu := hf u List.mem_cons_self
      have hstates := states_applyUpdate e u
      have hstep : ((e.applyUpdate u).system.row r, (e.applyUpdate u).system.target r) =
          if u.state = r ∧ r < e.system.states then f r
          else (e.system.row r, e.system.target r) := by
        rw [row_applyUpdate, target_applyUpdate, hsize]
        by_cases hr : u.state = r ∧ r < e.system.states
        · rw [if_pos hr, if_pos hr, if_pos hr, hu, hr.1]
        · rw [if_neg hr, if_neg hr, if_neg hr]
      rw [List.foldl_cons, ih (fun u hu => hf u (List.mem_cons_of_mem _ hu)) (e.applyUpdate u)
        ((size_oneStep_applyUpdate e u).trans (hsize.trans hstates.symm)), hstates, hstep,
        List.map_cons]
      grind

theorem listed_foldl_applyUpdate {changes : List (Update W)} {r c : Nat}
    (h : Listed e.predecessors r c ∨
      c < e.predecessors.size ∧ ∃ u ∈ changes, u.state = r ∧ ∃ d ∈ u.row, d.1 = c) :
    Listed (changes.foldl applyUpdate e).predecessors r c := by
  induction changes generalizing e with
  | nil =>
      rcases h with h | ⟨-, u, hu, -⟩
      · exact h
      · cases hu
  | cons u rest ih =>
      have hindex := size_predecessors_applyUpdate e u
      refine ih ?_
      rcases h with h | ⟨hc, u', hu', hr, hd⟩
      · exact Or.inl (listed_applyUpdate (Or.inl h))
      · rcases List.mem_cons.mp hu' with rfl | hu'
        · exact Or.inl (listed_applyUpdate (Or.inr ⟨hr.symm, hc, hd⟩))
        · exact Or.inr ⟨hindex.symm ▸ hc, u', hu', hr, hd⟩

/-- The result of eliminating a state with given exits. -/
def eliminated (e : Eliminator W) (s : Nat) (exit : Row W × W) : Eliminator W :=
  ((((e.predecessorsOf s).filter (· != s)).filterMap (redirect? e.system s exit)).foldl applyUpdate
    (e.forget s)).clear s

/-- A step fails because there is no exit or because of the bound, and then changes nothing, or else
it is made. -/
theorem run_eliminate_cases (bound : Option Nat) (e : Eliminator W) (s : Nat) :
    (∃ failure, exits e.system s = .error failure ∧
        (eliminate bound s).run e = (Except.error failure, e)) ∨
      ∃ exit, exits e.system s = .ok exit ∧
        ((∃ limit size, bound = some limit ∧ limit < size ∧
            (eliminate bound s).run e = (Except.error (.sizeBoundExceeded s size limit), e)) ∨
          (eliminate bound s).run e = (Except.ok (), e.eliminated s exit)) := by
  have hrun : (eliminate bound s).run e = (Attempt.ofExcept (exits e.system s) >>= fun exit =>
      Attempt.ofExcept (updates e.system bound s exit ((e.predecessorsOf s).filter (· != s))) >>=
        fun changes => modify (fun e => e.forget s) >>= fun _ =>
          (changes.forM fun change => modify fun e => e.applyUpdate change) >>= fun _ =>
            modify fun e => e.clear s).run e := rfl
  rw [hrun, Attempt.run_bind, Attempt.run_ofExcept]
  cases hexit : exits e.system s with
  | error failure => exact .inl ⟨failure, rfl, rfl⟩
  | ok exit =>
      refine .inr ⟨exit, rfl, ?_⟩
      dsimp only
      rw [Attempt.run_bind, Attempt.run_ofExcept]
      rcases updates_cases e.system bound s exit ((e.predecessorsOf s).filter (· != s)) with
        hok | ⟨limit, size, hbound, hlt, herr⟩
      · refine .inr ?_
        rw [hok]
        dsimp only
        rw [Attempt.run_bind]
        change (_ >>= fun _ => _ : Attempt _ _ _).run (e.forget s) = _
        rw [Attempt.run_bind, Attempt.run_forM_modify]
        rfl
      · refine .inl ⟨limit, size, hbound, hlt, ?_⟩
        rw [herr]

theorem eliminateAll_cons (bound : Option Nat) (s : Nat) (rest : List Nat) :
    (eliminateAll bound (s :: rest) : Attempt EliminationError (Eliminator W) Unit) =
      eliminate bound s >>= fun _ => eliminateAll bound rest := rfl

theorem system_eliminated_sizes (e : Eliminator W) (s : Nat) (exit : Row W × W) :
    (e.eliminated s exit).system.states = e.system.states ∧
      (e.eliminated s exit).system.oneStep.size = e.system.oneStep.size ∧
      (e.eliminated s exit).predecessors.size = e.predecessors.size := by
  obtain ⟨hstates, htargets, hindex⟩ := sizes_foldl_applyUpdate
    (((e.predecessorsOf s).filter (· != s)).filterMap (redirect? e.system s exit)) (e.forget s)
  rw [eliminated, states_clear, size_oneStep_clear, size_predecessors_clear]
  exact ⟨hstates, htargets, hindex.trans (size_predecessors_forget e s)⟩

/-- Every predecessor of the state is among those that are updated. -/
theorem Indexed.mem_changes (h : Indexed e) {exit : Row W × W} {r : Nat} (hr : r ≠ s)
    {u : Update W} (hu : redirect? e.system s exit r = some u) :
    u ∈ ((e.predecessorsOf s).filter (· != s)).filterMap (redirect? e.system s exit) := by
  obtain ⟨via, hvia, -⟩ := Option.map_eq_some_iff.mp hu
  have hlisted := h.complete r _ (Row.mem_of_get?_eq_some hvia)
  refine List.mem_filterMap.mpr ⟨r, List.mem_filter.mpr ⟨hlisted, by simpa using hr⟩, hu⟩

theorem equation_eliminated (h : Indexed e) (hsize : e.system.oneStep.size = e.system.states)
    (exit : Row W × W) (r : Nat) :
    ((e.eliminated s exit).system.row r, (e.eliminated s exit).system.target r) =
      if r = s then ([], Weight.zero) else e.system.redirected s exit r := by
  let changes := ((e.predecessorsOf s).filter (· != s)).filterMap (redirect? e.system s exit)
  have hchanges : ∀ u ∈ changes, (u.row, u.oneStep) = e.system.redirected s exit u.state := by
    intro u hu
    obtain ⟨r', -, hr'⟩ := List.mem_filterMap.mp hu
    rw [redirect?_state hr', redirected, hr']
  have hfold := equation_foldl_applyUpdate hchanges (e.forget s) hsize r
  obtain ⟨hstates, htargets, -⟩ := sizes_foldl_applyUpdate changes (e.forget s)
  rw [eliminated, row_clear, target_clear, htargets, hstates]
  by_cases hr : r = s
  · subst hr
    rw [if_pos rfl]
    by_cases hlt : r < e.system.states
    · rw [if_pos ⟨rfl, hlt⟩, if_pos ⟨rfl, hsize.symm ▸ hlt⟩]
    · rw [if_neg fun h => hlt h.2, if_neg fun h => hlt (hsize ▸ h.2), hfold,
        if_neg fun h => hlt h.2]
      have hle := not_lt.mp hlt
      exact congr (congrArg Prod.mk (e.system.row_eq_nil hle))
        (getD_of_size_le _ (hsize.symm ▸ hle) _)
  · rw [if_neg fun h => hr h.1.symm, if_neg fun h => hr h.1.symm, if_neg hr, hfold]
    rcases hred : redirect? e.system s exit r with _ | u
    · have hsame : e.system.redirected s exit r = (e.system.row r, e.system.target r) := by
        rw [redirected, hred]
      rw [hsame]
      exact ite_self _
    · obtain ⟨via, hvia, -⟩ := Option.map_eq_some_iff.mp hred
      have hlt := lt_states_of_mem_row (Row.mem_of_get?_eq_some hvia)
      refine if_pos ⟨List.mem_map.mpr ⟨u, h.mem_changes hr hred, redirect?_state hred⟩, hlt⟩

/-- The exits of a state lead where its row leads, but not back to it. -/
theorem column_of_mem_exits {system : EquationSystem W} {exit : Row W × W}
    (h : exits system s = .ok exit) {d : Nat × W} (hd : d ∈ exit.1) :
    d.1 ≠ s ∧ ∃ d' ∈ system.row s, d'.1 = d.1 := by
  simp only [exits] at h
  split at h
  · next hnone =>
      rw [Except.ok.injEq] at h
      rw [← h] at hd
      exact ⟨Row.get?_eq_none_iff.mp hnone d hd, d, hd, rfl⟩
  · next loop hloop =>
      split at h
      · cases h
      · next scale hscale =>
          rw [Except.ok.injEq] at h
          rw [← h] at hd
          obtain ⟨d', hd', rfl⟩ := List.mem_map.mp hd
          obtain ⟨hmem, hne⟩ := Row.mem_erase.mp hd'
          exact ⟨hne, d', hmem, rfl⟩

/-- A redirected row leads where the row and the exits lead, but not to the state. -/
theorem column_of_mem_redirected {system : EquationSystem W} {exit : Row W × W}
    (h : exits system s = .ok exit) {r : Nat} {d : Nat × W}
    (hd : d ∈ (system.redirected s exit r).1) :
    d.1 ≠ s ∧ ((∃ d' ∈ system.row r, d'.1 = d.1) ∨ ∃ d' ∈ system.row s, d'.1 = d.1) := by
  rcases hred : redirect? system s exit r with _ | u
  · rw [redirected, hred] at hd
    have hget : (system.row r).get? s = none := Option.map_eq_none_iff.mp hred
    exact ⟨Row.get?_eq_none_iff.mp hget d hd, Or.inl ⟨d, hd, rfl⟩⟩
  · rw [redirected, hred] at hd
    obtain ⟨via, -, rfl⟩ := Option.map_eq_some_iff.mp hred
    refine Row.forall_addEntries (P := fun c _ => c ≠ s ∧
      ((∃ d' ∈ system.row r, d'.1 = c) ∨ ∃ d' ∈ system.row s, d'.1 = c))
      (fun _ _ _ h _ => h) ?_ ?_ d hd
    · intro d' hd'
      obtain ⟨hmem, hne⟩ := Row.mem_erase.mp hd'
      exact ⟨hne, Or.inl ⟨d', hmem, rfl⟩⟩
    · intro d' hd'
      obtain ⟨d'', hd'', rfl⟩ := List.mem_map.mp hd'
      obtain ⟨hne, hrow⟩ := column_of_mem_exits h hd''
      exact ⟨hne, Or.inr hrow⟩

theorem row_eliminated (h : Indexed e) (hsize : e.system.oneStep.size = e.system.states)
    (exit : Row W × W) {r : Nat} (hr : r ≠ s) :
    (e.eliminated s exit).system.row r = (e.system.redirected s exit r).1 ∧
      (e.eliminated s exit).system.target r = (e.system.redirected s exit r).2 := by
  simpa only [if_neg hr, Prod.ext_iff] using equation_eliminated h hsize (s := s) exit r

theorem row_eliminated_self (h : Indexed e) (hsize : e.system.oneStep.size = e.system.states)
    (exit : Row W × W) :
    (e.eliminated s exit).system.row s = [] ∧
      (e.eliminated s exit).system.target s = Weight.zero := by
  simpa only [if_pos, Prod.ext_iff] using equation_eliminated h hsize (s := s) exit s

/-- A step keeps the form of the system; from then on the state is not mentioned. -/
theorem shape_eliminated {gone : Set Nat} (hi : Indexed e) (h : e.system.Shape gone)
    {exit : Row W × W} (hexit : exits e.system s = .ok exit) :
    (e.eliminated s exit).system.Shape (insert s gone) := by
  obtain ⟨hstates, htargets, -⟩ := system_eliminated_sizes e s exit
  have hcolumn : ∀ r, ∀ d ∈ (e.eliminated s exit).system.row r,
      d.1 < e.system.states ∧ d.1 ∉ insert s gone := by
    intro r d hd
    by_cases hr : r = s
    · rw [hr, (row_eliminated_self hi h.size_eq exit).1] at hd
      cases hd
    · rw [(row_eliminated hi h.size_eq exit hr).1] at hd
      obtain ⟨hne, ⟨d', hd', hdd⟩ | ⟨d', hd', hdd⟩⟩ := column_of_mem_redirected hexit hd
      all_goals
        rw [← hdd] at hne ⊢
        refine ⟨h.column_lt _ d' hd', fun hmem => ?_⟩
        exact h.column_notMem _ d' hd' (hmem.resolve_left hne)
  refine ⟨htargets.trans (h.size_eq.trans hstates.symm), fun r => ?_,
    fun r d hd => hstates.symm ▸ (hcolumn r d hd).1, fun r d hd => (hcolumn r d hd).2⟩
  by_cases hr : r = s
  · rw [hr, (row_eliminated_self hi h.size_eq exit).1]
    exact List.Pairwise.nil
  · rw [(row_eliminated hi h.size_eq exit hr).1, redirected]
    rcases hred : redirect? e.system s exit r with _ | u
    · exact h.sorted r
    · obtain ⟨via, -, rfl⟩ := Option.map_eq_some_iff.mp hred
      exact ((h.sorted r).erase s).addEntries _

/-- A step keeps the index complete. -/
theorem indexed_eliminated {gone : Set Nat} (hi : Indexed e) (h : e.system.Shape gone)
    {exit : Row W × W} (hexit : exits e.system s = .ok exit) :
    Indexed (e.eliminated s exit) := by
  obtain ⟨hstates, -, hindex⟩ := system_eliminated_sizes e s exit
  refine ⟨hindex.trans (hi.size_eq.trans hstates.symm), fun r d hd => ?_⟩
  have hlt := (shape_eliminated hi h hexit).column_lt r d hd
  have hr : r ≠ s := by
    rintro rfl
    rw [(row_eliminated_self hi h.size_eq exit).1] at hd
    cases hd
  rw [(row_eliminated hi h.size_eq exit hr).1] at hd
  have hds := (column_of_mem_redirected hexit hd).1
  rw [eliminated, predecessorsOf_clear, if_neg fun h => hds h.1.symm]
  apply listed_foldl_applyUpdate
  rcases hred : redirect? e.system s exit r with _ | u
  · rw [redirected, hred] at hd
    exact Or.inl (listed_forget hr (hi.complete r d hd))
  · refine Or.inr ⟨?_, u, hi.mem_changes hr hred, redirect?_state hred, d, ?_, rfl⟩
    · rw [hstates, ← hi.size_eq] at hlt
      rwa [size_predecessors_forget]
    · rw [redirected, hred] at hd
      exact hd

end Eliminator

/-! ## What a step does to solutions -/

namespace EquationSystem

section Solutions

variable {F : Type} [Field F] (R : Reading W F)

/-- The right side of the equation of a state. -/
def rhs (e : EquationSystem W) (x : Nat → F) (s : Nat) : F :=
  (Row.read R (e.row s)).dot x + R.value (e.target s)

/-- A vector that satisfies the equations of the states outside `gone`. -/
def SolvesOff (gone : Set Nat) (e : EquationSystem W) (x : Nat → F) : Prop :=
  ∀ r < e.states, r ∉ gone → x r = e.rhs R x r

/-- Every weight has a value. -/
structure Readable (e : EquationSystem W) : Prop where
  defined : ∀ s, Row.Defined R (e.row s)
  target_defined : ∀ s, R.Defined (e.target s)

/-- The equation of a state can be solved for the state itself. -/
def HasPivot (e : EquationSystem W) (s : Nat) : Prop :=
  ∀ loop, Row.get? (e.row s) s = some loop → R.value loop ≠ 1

/-- The value that the exits of a state give to it. -/
def exitValue (exit : Row W × W) (x : Nat → F) : F :=
  (Row.read R exit.1).dot x + R.value exit.2

/-- The exits of a state solve its equation for the state itself. -/
structure SolvedBy (e : EquationSystem W) (s : Nat) (exit : Row W × W) (loop : F) : Prop where
  defined : Row.Defined R exit.1
  target_defined : R.Defined exit.2
  loop_ne : loop ≠ 1
  loop_mem : loop = 0 ∨ ∃ w, (s, w) ∈ e.row s ∧ R.value w = loop
  entry_eq : ∀ d ∈ exit.1, ∃ d' ∈ e.row s, R.value d'.2 = (1 - loop) * R.value d.2
  row_eq : ∀ x, (Row.read R (e.row s)).dot x = loop * x s + (1 - loop) * (Row.read R exit.1).dot x
  target_eq : R.value (e.target s) = (1 - loop) * R.value exit.2

/-- The equation of a predecessor after the redirection, under the reading: what it gave to the
state goes along the exits. -/
structure RedirectedBy (e : EquationSystem W) (s : Nat) (exit : Row W × W) (r : Nat) (via : F) :
    Prop where
  defined : Row.Defined R (e.redirected s exit r).1
  target_defined : R.Defined (e.redirected s exit r).2
  /-- Nothing changes unless the state was mentioned. -/
  via_mem : via = 0 ∨ ∃ w, (s, w) ∈ e.row r ∧ R.value w = via
  row_eq : ∀ x, (Row.read R (e.redirected s exit r).1).dot x =
    (Row.read R (e.row r)).dot x + via * ((Row.read R exit.1).dot x - x s)
  target_eq : R.value (e.redirected s exit r).2 = R.value (e.target r) + via * R.value exit.2

variable {R} {e : EquationSystem W} {gone : Set Nat} {s : Nat} {exit : Row W × W}

theorem SolvesOff.congr_off (hshape : e.Shape gone) {x y : Nat → F} (hx : e.SolvesOff R gone x)
    (hxy : ∀ i < e.states, i ∉ gone → x i = y i) : e.SolvesOff R gone y := by
  intro i hi hgone
  rw [← hxy i hi hgone, hx i hi hgone, rhs, rhs]
  congr 1
  refine Row.dot_congr fun d hd => ?_
  obtain ⟨d', hd', rfl⟩ := Row.mem_read.mp hd
  exact hxy d'.1 (hshape.column_lt i d' hd') (hshape.column_notMem i d' hd')

theorem SolvesOff.congr (hshape : e.Shape gone) {x y : Nat → F} (hx : e.SolvesOff R gone x)
    (hxy : ∀ i < e.states, x i = y i) : e.SolvesOff R gone y :=
  hx.congr_off hshape fun i hi _ => hxy i hi

/-! ### Exits -/

/-- The factor that removes a loop. -/
theorem Readable.exists_scale (h : e.Readable R) (hpivot : e.HasPivot R s) {loop : W}
    (hloop : Row.get? (e.row s) s = some loop) :
    ∃ scale, Weight.div? Weight.one (Weight.sub Weight.one loop) = some scale ∧ R.Defined scale ∧
      R.value scale = 1 / (1 - R.value loop) := by
  have hdef := h.defined s _ (Row.mem_of_get?_eq_some hloop)
  obtain ⟨hsub, hsubval⟩ := R.sub R.one.1 hdef
  rw [R.one.2] at hsubval
  have hne : R.value (Weight.sub Weight.one loop) ≠ 0 := by
    rw [hsubval]
    exact sub_ne_zero.mpr (hpivot loop hloop).symm
  obtain ⟨scale, hscale, hscaledef, hscaleval⟩ := R.div R.one.1 hsub hne
  rw [hsubval, R.one.2] at hscaleval
  exact ⟨scale, hscale, hscaledef, hscaleval⟩

/-- A state whose equation can be solved for it has exits, and they do so. -/
theorem Readable.exists_solvedBy (h : e.Readable R) (hsorted : (e.row s).Sorted)
    (hpivot : e.HasPivot R s) :
    ∃ exit loop, Eliminator.exits e s = .ok exit ∧ e.SolvedBy R s exit loop := by
  rcases hget : Row.get? (e.row s) s with _ | loop
  · refine ⟨(e.row s, e.target s), 0, by simp only [Eliminator.exits, hget], h.defined s,
      h.target_defined s, zero_ne_one, Or.inl rfl, fun d hd => ⟨d, hd, ?_⟩, fun x => ?_, ?_⟩
    · ring
    · ring
    · ring
  · obtain ⟨scale, hscale, hscaledef, hscaleval⟩ := h.exists_scale hpivot hget
    have hmem := Row.mem_of_get?_eq_some hget
    have hne : 1 - R.value loop ≠ 0 := sub_ne_zero.mpr (hpivot loop hget).symm
    have hmul := fun d (hd : d ∈ e.row s) => R.mul (h.defined s d hd) hscaledef
    refine ⟨_, R.value loop, by simp only [Eliminator.exits, hget, hscale]; rfl, ?_,
      (R.mul (h.target_defined s) hscaledef).1, hpivot loop hget, Or.inr ⟨loop, hmem, rfl⟩, ?_,
      fun x => ?_, ?_⟩
    · intro d hd
      obtain ⟨d', hd', rfl⟩ := List.mem_map.mp hd
      exact (hmul d' (Row.mem_erase.mp hd').1).1
    · intro d hd
      obtain ⟨d', hd', rfl⟩ := List.mem_map.mp hd
      have hd'mem := (Row.mem_erase.mp hd').1
      refine ⟨d', hd'mem, ?_⟩
      rw [(hmul d' hd'mem).2, hscaleval]
      field_simp
    · have herase := Row.dot_read_scale (R := R) (f := fun w => Weight.mul w scale)
        (k := 1 / (1 - R.value loop)) (Row.erase (e.row s) s) (fun d hd => by
          rw [(hmul d (Row.mem_erase.mp hd).1).2, hscaleval, mul_comm]) x
      rw [hsorted.dot_read_erase hget, herase, ← mul_assoc (1 - _),
        mul_one_div_cancel hne, one_mul]
    · rw [(R.mul (h.target_defined s) hscaledef).2, hscaleval]
      field_simp

theorem Readable.solvedBy (h : e.Readable R) (hsorted : (e.row s).Sorted)
    (hpivot : e.HasPivot R s) (hexit : Eliminator.exits e s = .ok exit) :
    ∃ loop, e.SolvedBy R s exit loop := by
  obtain ⟨exit', loop, hexit', hsolved⟩ := h.exists_solvedBy hsorted hpivot
  obtain rfl : exit = exit' := Except.ok.inj (hexit.symm.trans hexit')
  exact ⟨loop, hsolved⟩

/-- A vector satisfies the equation of a state exactly if it agrees with the exits there. -/
theorem SolvedBy.eq_rhs_iff {loop : F} (hexit : e.SolvedBy R s exit loop) (x : Nat → F) :
    x s = e.rhs R x s ↔ x s = exitValue R exit x := by
  have hne : 1 - loop ≠ 0 := sub_ne_zero.mpr hexit.loop_ne.symm
  have hrhs : e.rhs R x s - x s = (1 - loop) * (exitValue R exit x - x s) := by
    rw [rhs, exitValue, hexit.row_eq, hexit.target_eq]
    ring
  rw [eq_comm, ← sub_eq_zero, hrhs, mul_eq_zero, or_iff_right hne, sub_eq_zero, eq_comm]

/-! ### Redirection -/

/-- A property of weights that sums and products keep holds of a redirected row. -/
theorem forall_redirected {P : W → Prop} (hadd : ∀ a b, P a → P b → P (Weight.add a b))
    (hmul : ∀ a b, P a → P b → P (Weight.mul a b)) {r : Nat} (hrow : ∀ d ∈ e.row r, P d.2)
    (hexit : ∀ d ∈ exit.1, P d.2) : ∀ d ∈ (e.redirected s exit r).1, P d.2 := by
  rcases hred : Eliminator.redirect? e s exit r with _ | u
  · rw [redirected, hred]
    exact hrow
  · obtain ⟨via, hvia, rfl⟩ := Option.map_eq_some_iff.mp hred
    rw [redirected, hred]
    refine Row.forall_addEntries (P := fun _ w => P w) (fun _ => hadd)
      (fun d hd => hrow d (Row.mem_erase.mp hd).1) fun d hd => ?_
    obtain ⟨d', hd', rfl⟩ := List.mem_map.mp hd
    exact hmul _ _ (hrow _ (Row.mem_of_get?_eq_some hvia)) (hexit d' hd')

theorem Readable.exists_redirectedBy (h : e.Readable R) (hsorted : ∀ r, (e.row r).Sorted)
    (hexit : Row.Defined R exit.1) (htarget : R.Defined exit.2) (r : Nat) :
    ∃ via, e.RedirectedBy R s exit r via := by
  have hdef : Row.Defined R (e.redirected s exit r).1 := forall_redirected (P := R.Defined)
    (fun _ _ ha hb => (R.add ha hb).1) (fun _ _ ha hb => (R.mul ha hb).1) (h.defined r) hexit
  rcases hget : Row.get? (e.row r) s with _ | via
  · have hsame : e.redirected s exit r = (e.row r, e.target r) := by
      rw [redirected, Eliminator.redirect?, hget]
      rfl
    refine ⟨0, hdef, ?_, Or.inl rfl, fun x => ?_, ?_⟩ <;> rw [hsame]
    · exact h.target_defined r
    · ring
    · ring
  · have hmem := Row.mem_of_get?_eq_some hget
    have hvia := h.defined r _ hmem
    have hmul := fun d (hd : d ∈ exit.1) => R.mul hvia (hexit d hd)
    have hentries : Row.Defined R (exit.1.map fun d => (d.1, Weight.mul via d.2)) := by
      intro d hd
      obtain ⟨d', hd', rfl⟩ := List.mem_map.mp hd
      exact (hmul d' hd').1
    have hrow : e.redirected s exit r = (Row.addEntries (Row.erase (e.row r) s)
        (exit.1.map fun d => (d.1, Weight.mul via d.2)),
        Weight.add (e.target r) (Weight.mul via exit.2)) := by
      rw [redirected, Eliminator.redirect?, hget]
      rfl
    have hsum := R.add (h.target_defined r) (R.mul hvia htarget).1
    refine ⟨R.value via, hdef, ?_, Or.inr ⟨via, hmem, rfl⟩, fun x => ?_, ?_⟩ <;> rw [hrow]
    · exact hsum.1
    · rw [Row.dot_read_addEntries ((h.defined r).erase s) hentries,
        Row.dot_read_scale (k := R.value via) _ (fun d hd => (hmul d hd).2),
        (hsorted r).dot_read_erase hget]
      ring
    · rw [hsum.2, (R.mul hvia htarget).2]

end Solutions

/-! ### Drift -/

/-- Every weight has a value, and the equations have drift. -/
structure Sound (R : Reading W ℝ) (u : Nat → ℝ) (e : EquationSystem W) : Prop where
  defined : ∀ s, Row.Defined R (e.row s)
  target_defined : ∀ s, R.Defined (e.target s)
  drift : HasDrift (Finset.range e.states) (fun s => Row.read R (e.row s)) u

namespace Sound

variable {R : Reading W ℝ} {e : EquationSystem W} {u : Nat → ℝ} {s : Nat} {exit : Row W × W}

theorem readable (h : e.Sound R u) : e.Readable R := ⟨h.defined, h.target_defined⟩

theorem nonneg (h : e.Sound R u) (s : Nat) : (Row.read R (e.row s)).Nonneg := by
  by_cases hs : s < e.states
  · exact h.drift.weights s (Finset.mem_range.mpr hs)
  · rw [e.row_eq_nil (not_lt.mp hs)]
    exact fun d hd => absurd hd List.not_mem_nil

theorem value_nonneg (h : e.Sound R u) {d : Nat × W} (hd : d ∈ e.row s) : 0 ≤ R.value d.2 :=
  h.nonneg s _ (Row.mem_read.mpr ⟨d, hd, rfl⟩)

/-- A loop has weight below one, since the equation of its state has drift. -/
theorem loop_lt_one (h : e.Sound R u) {loop : W} (hloop : (s, loop) ∈ e.row s) :
    R.value loop < 1 := by
  have hs := Finset.mem_range.mpr (lt_states_of_mem_row hloop)
  have hmul := Row.mul_le_dot (h.nonneg s) (x := u) (fun d _ => h.drift.nonneg d.1)
    (Row.mem_read.mpr ⟨_, hloop, rfl⟩)
  have hlt : R.value loop * u s < 1 * u s := by
    rw [one_mul]
    exact hmul.trans_lt (h.drift.falls s hs)
  exact lt_of_mul_lt_mul_right hlt (h.drift.nonneg s)

/-- No pivot of a sound system vanishes. -/
theorem hasPivot (h : e.Sound R u) (s : Nat) : e.HasPivot R s :=
  fun _ hloop => (h.loop_lt_one (Row.mem_of_get?_eq_some hloop)).ne

theorem lt_one (h : e.Sound R u) {loop : ℝ} (hexit : e.SolvedBy R s exit loop) : loop < 1 := by
  rcases hexit.loop_mem with rfl | ⟨w, hw, rfl⟩
  · exact zero_lt_one
  · exact h.loop_lt_one hw

/-- The values of the exits are not negative. -/
theorem exits_nonneg (h : e.Sound R u) {loop : ℝ} (hexit : e.SolvedBy R s exit loop) :
    ∀ d ∈ exit.1, 0 ≤ R.value d.2 := by
  intro d hd
  obtain ⟨d', hd', hval⟩ := hexit.entry_eq d hd
  refine nonneg_of_mul_nonneg_right ?_ (sub_pos.mpr (h.lt_one hexit))
  exact hval ▸ h.value_nonneg hd'

/-- Nor are those of a redirected row. -/
theorem redirected_nonneg (h : e.Sound R u) {loop : ℝ} (hexit : e.SolvedBy R s exit loop)
    (r : Nat) : (Row.read R (e.redirected s exit r).1).Nonneg := by
  intro d hd
  obtain ⟨d', hd', rfl⟩ := Row.mem_read.mp hd
  refine (forall_redirected (P := fun w => R.Defined w ∧ 0 ≤ R.value w) (fun a b ha hb => ?_)
    (fun a b ha hb => ?_) (fun d hd => ⟨h.defined r d hd, h.value_nonneg hd⟩)
    (fun d hd => ⟨hexit.defined d hd, h.exits_nonneg hexit d hd⟩) d' hd').2
  · refine ⟨(R.add ha.1 hb.1).1, ?_⟩
    rw [(R.add ha.1 hb.1).2]
    exact add_nonneg ha.2 hb.2
  · refine ⟨(R.mul ha.1 hb.1).1, ?_⟩
    rw [(R.mul ha.1 hb.1).2]
    exact mul_nonneg ha.2 hb.2

theorem via_nonneg (h : e.Sound R u) {r : Nat} {via : ℝ} (hvia : e.RedirectedBy R s exit r via) :
    0 ≤ via := by
  rcases hvia.via_mem with rfl | ⟨w, hw, rfl⟩
  · exact le_rfl
  · exact h.value_nonneg hw

/-- The exits of a state do not raise the drift vector there. -/
theorem dot_exits_le (h : e.Sound R u) {loop : ℝ} (hexit : e.SolvedBy R s exit loop) :
    (Row.read R exit.1).dot u ≤ u s := by
  have hrow := hexit.row_eq u
  have hpos : 0 < 1 - loop := sub_pos.mpr (h.lt_one hexit)
  have hle : (Row.read R (e.row s)).dot u ≤ u s := by
    by_cases hs : s < e.states
    · exact (h.drift.falls s (Finset.mem_range.mpr hs)).le
    · rw [e.row_eq_nil (not_lt.mp hs)]
      exact h.drift.nonneg s
  refine le_of_mul_le_mul_left ?_ hpos
  linarith

end Sound

end EquationSystem

namespace Eliminator

open EquationSystem

section Solutions

variable {F : Type} [Field F] {R : Reading W F} {e : Eliminator W} {gone : Set Nat} {s : Nat}
  {exit : Row W × W}

/-- The right side of an equation after a step. -/
theorem rhs_eliminated (hi : Indexed e) (hsize : e.system.oneStep.size = e.system.states) {r : Nat}
    (hr : r ≠ s) {via : F} (hvia : e.system.RedirectedBy R s exit r via) (x : Nat → F) :
    (e.eliminated s exit).system.rhs R x r =
      e.system.rhs R x r + via * (exitValue R exit x - x s) := by
  obtain ⟨hrow, htarget⟩ := row_eliminated hi hsize exit hr
  rw [rhs, rhs, exitValue, hrow, htarget, hvia.row_eq, hvia.target_eq]
  ring

/-- A step keeps values. -/
theorem readable_eliminated (hi : Indexed e) (hshape : e.system.Shape gone)
    (h : e.system.Readable R) (hexit : Row.Defined R exit.1) (htarget : R.Defined exit.2) :
    (e.eliminated s exit).system.Readable R := by
  have hself := row_eliminated_self hi hshape.size_eq (s := s) exit
  refine ⟨fun r => ?_, fun r => ?_⟩
  · by_cases hr : r = s
    · rw [hr, hself.1]
      exact fun d hd => absurd hd List.not_mem_nil
    · obtain ⟨via, hvia⟩ := h.exists_redirectedBy hshape.sorted (s := s) hexit htarget r
      exact (row_eliminated hi hshape.size_eq exit hr).1 ▸ hvia.defined
  · by_cases hr : r = s
    · rw [hr, hself.2]
      exact R.zero.1
    · obtain ⟨via, hvia⟩ := h.exists_redirectedBy hshape.sorted (s := s) hexit htarget r
      exact (row_eliminated hi hshape.size_eq exit hr).2 ▸ hvia.target_defined

/-- A step keeps solutions. -/
theorem solvesOff_eliminated (hi : Indexed e) (hshape : e.system.Shape gone)
    (h : e.system.Readable R) {loop : F} (hsolved : e.system.SolvedBy R s exit loop) {x : Nat → F}
    (hx : e.system.SolvesOff R gone x) :
    (e.eliminated s exit).system.SolvesOff R (insert s gone) x := by
  intro r hr hgone
  rw [(system_eliminated_sizes e s exit).1] at hr
  have hrs : r ≠ s := fun h => hgone (Or.inl h)
  obtain ⟨via, hvia⟩ := h.exists_redirectedBy hshape.sorted hsolved.defined hsolved.target_defined r
  have hstep : via * (exitValue R exit x - x s) = 0 := by
    rcases hvia.via_mem with rfl | ⟨w, hw, -⟩
    · exact zero_mul _
    · have hs := hx s (hshape.column_lt r _ hw) (hshape.column_notMem r _ hw)
      rw [← (hsolved.eq_rhs_iff x).mp hs, sub_self, mul_zero]
  rw [rhs_eliminated hi hshape.size_eq hrs hvia, hstep, add_zero]
  exact hx r hr fun hmem => hgone (Or.inr hmem)

end Solutions

variable {R : Reading W ℝ} {e : Eliminator W} {u : Nat → ℝ} {gone : Set Nat} {s : Nat}
  {exit : Row W × W}

/-- A step keeps values and drift. -/
theorem sound_eliminated (hi : Indexed e) (hshape : e.system.Shape gone)
    (h : e.system.Sound R u) (hexit : exits e.system s = .ok exit) :
    (e.eliminated s exit).system.Sound R u := by
  obtain ⟨loop, hsolved⟩ := h.readable.solvedBy (hshape.sorted s) (h.hasPivot s) hexit
  have hself := row_eliminated_self hi hshape.size_eq (s := s) exit
  have hrow := fun r (hr : r ≠ s) => row_eliminated hi hshape.size_eq exit hr
  have hread := readable_eliminated hi hshape h.readable (s := s) hsolved.defined
    hsolved.target_defined
  refine ⟨hread.defined, hread.target_defined, ?_, h.drift.nonneg, ?_, fun r hr => ?_⟩
  · intro r _
    by_cases hr : r = s
    · rw [hr, hself.1]
      exact fun d hd => absurd hd List.not_mem_nil
    · exact (hrow r hr).1 ▸ h.redirected_nonneg hsolved r
  · rw [(system_eliminated_sizes e s exit).1]
    exact h.drift.pos
  · rw [(system_eliminated_sizes e s exit).1] at hr
    by_cases hrs : r = s
    · rw [hrs, hself.1]
      exact h.drift.pos s (hrs ▸ hr)
    · obtain ⟨via, hvia⟩ := h.readable.exists_redirectedBy hshape.sorted hsolved.defined
        hsolved.target_defined r
      rw [(hrow r hrs).1, hvia.row_eq]
      have hle := mul_nonpos_of_nonneg_of_nonpos (h.via_nonneg hvia)
        (sub_nonpos.mpr (h.dot_exits_le hsolved))
      linarith [h.drift.falls r hr]

end Eliminator

/-! ## Runs -/

namespace EquationSystem

/-- What elimination keeps on the way from one system to another. -/
structure Reduces (gone gone' : Set Nat) (e e' : EquationSystem W) : Prop where
  states_eq : e'.states = e.states
  shape : e'.Shape gone'
  sound : ∀ {R : Reading W ℝ} {u}, e.Sound R u → e'.Sound R u
  solvesOff : ∀ {R : Reading W ℝ} {u x}, e.Sound R u → e.SolvesOff R gone x →
    e'.SolvesOff R gone' x

theorem Reduces.refl {gone : Set Nat} {e : EquationSystem W} (h : e.Shape gone) :
    Reduces gone gone e e :=
  ⟨rfl, h, id, fun _ hx => hx⟩

theorem Reduces.trans {gone gone' gone'' : Set Nat} {e e' e'' : EquationSystem W}
    (h : Reduces gone gone' e e') (h' : Reduces gone' gone'' e' e'') :
    Reduces gone gone'' e e'' where
  states_eq := h'.states_eq.trans h.states_eq
  shape := h'.shape
  sound hs := h'.sound (h.sound hs)
  solvesOff hs hx := h'.solvesOff (h.sound hs) (h.solvesOff hs hx)

end EquationSystem

namespace Eliminator

open EquationSystem

theorem reduces_eliminated {e : Eliminator W} {gone : Set Nat} (hi : Indexed e)
    (hshape : e.system.Shape gone) {s : Nat} {exit : Row W × W}
    (hexit : exits e.system s = .ok exit) :
    Reduces gone (insert s gone) e.system (e.eliminated s exit).system where
  states_eq := (system_eliminated_sizes e s exit).1
  shape := shape_eliminated hi hshape hexit
  sound hs := sound_eliminated hi hshape hs hexit
  solvesOff hs hx := by
    obtain ⟨loop, hsolved⟩ := hs.readable.solvedBy (hshape.sorted s) (hs.hasPivot s) hexit
    exact solvesOff_eliminated hi hshape hs.readable hsolved hx

/-- A run eliminates all states of a list, unless a weight is beyond the bound. -/
theorem eliminateAll_cases (bound : Option Nat) (order : List Nat) {e : Eliminator W}
    {gone : Set Nat} (hi : Indexed e) (hshape : e.system.Shape gone) {R : Reading W ℝ}
    {u : Nat → ℝ} (hsound : e.system.Sound R u) :
    (∃ e', (eliminateAll bound order).run e = (Except.ok (), e') ∧
        Reduces gone (gone ∪ {s | s ∈ order}) e.system e'.system) ∨
      ∃ e' limit size s, bound = some limit ∧ limit < size ∧
        (eliminateAll bound order).run e = (Except.error (.sizeBoundExceeded s size limit), e') := by
  induction order generalizing e gone with
  | nil =>
      refine Or.inl ⟨e, rfl, ?_⟩
      simpa using Reduces.refl hshape
  | cons s rest ih =>
      obtain ⟨exit, -, hexit, -⟩ := hsound.readable.exists_solvedBy (hshape.sorted s)
        (hsound.hasPivot s)
      rw [eliminateAll_cons, Attempt.run_bind]
      rcases run_eliminate_cases bound e s with ⟨failure, hfail, -⟩ |
        ⟨exit', hexit', ⟨limit, size, hbound, hlt, herr⟩ | hok⟩
      · rw [hexit] at hfail
        cases hfail
      · rw [herr]
        exact Or.inr ⟨e, limit, size, s, hbound, hlt, rfl⟩
      · rw [hok]
        have hstep := reduces_eliminated hi hshape hexit'
        have hset : insert s gone ∪ {t | t ∈ rest} = gone ∪ {t | t ∈ s :: rest} := by
          ext t
          simp only [Set.mem_union, Set.mem_insert_iff, Set.mem_ofPred_eq, List.mem_cons]
          tauto
        rcases ih (indexed_eliminated hi hshape hexit') hstep.shape (hstep.sound hsound) with
          ⟨e', he', hreduces⟩ | hfail
        · exact Or.inl ⟨e', he', hset ▸ hstep.trans hreduces⟩
        · exact Or.inr hfail

theorem indexed_ofSystem {system : EquationSystem W} {gone : Set Nat}
    (h : system.Shape gone) : Indexed (ofSystem system) := by
  refine ⟨by simp [ofSystem, EquationSystem.predecessors], fun r d hd => ?_⟩
  have hlt := h.column_lt r d hd
  have hindex : (ofSystem system).predecessorsOf d.1 = system.predecessorsOf d.1 := by
    simp [ofSystem, predecessorsOf, EquationSystem.predecessors, hlt]
  rw [hindex, EquationSystem.predecessorsOf, List.mem_filter, List.mem_range]
  refine ⟨lt_states_of_mem_row hd, ?_⟩
  rw [EquationSystem.get?, Option.isSome_iff_ne_none]
  exact fun hnone => Row.get?_eq_none_iff.mp hnone d hd rfl

end Eliminator

/-- Elimination of a list of states succeeds, unless a weight is beyond the bound. -/
theorem EquationSystem.eliminateStates_cases (bound : Option Nat) (order : List Nat)
    {e : EquationSystem W} {gone : Set Nat} (hshape : e.Shape gone) {R : Reading W ℝ}
    {u : Nat → ℝ} (hsound : e.Sound R u) :
    (∃ e', e.eliminateStates bound order = .ok e' ∧ Reduces gone (gone ∪ {s | s ∈ order}) e e') ∨
      ∃ limit size s, bound = some limit ∧ limit < size ∧
        e.eliminateStates bound order = .error (.sizeBoundExceeded s size limit) := by
  rw [eliminateStates]
  rcases Eliminator.eliminateAll_cases bound order (Eliminator.indexed_ofSystem hshape) hshape
      hsound with ⟨e', he', hreduces⟩ | ⟨e', limit, size, s, hbound, hlt, he'⟩
  · rw [he']
    exact Or.inl ⟨e'.system, rfl, hreduces⟩
  · rw [he']
    exact Or.inr ⟨limit, size, s, hbound, hlt, rfl⟩

/-! ## The value of the last state -/

namespace EquationSystem

section Last

variable {F : Type} [Field F] {R : Reading W F} {e : EquationSystem W} {i : Nat}

/-- If a state is mentioned by no other and mentions no other, then its equation says what its value
is. -/
theorem Readable.initialValue_read (h : e.Readable R) (hsorted : (e.row i).Sorted)
    (hpivot : e.HasPivot R i) (honly : ∀ d ∈ e.row i, d.1 = i) {f : W}
    (hf : e.initialValue i = .ok f) :
    R.Defined f ∧ ∀ x, x i = e.rhs R x i ↔ x i = R.value f := by
  have herase : Row.erase (e.row i) i = [] := by
    rw [List.eq_nil_iff_forall_not_mem]
    intro d hd
    obtain ⟨hmem, hne⟩ := Row.mem_erase.mp hd
    exact hne (honly d hmem)
  rw [initialValue] at hf
  rcases hget : e.get? i i with _ | loop
  · rw [hget, Except.ok.injEq] at hf
    have hnil : e.row i = [] := by
      rw [List.eq_nil_iff_forall_not_mem]
      intro d hd
      exact Row.get?_eq_none_iff.mp hget d hd (honly d hd)
    subst hf
    refine ⟨h.target_defined i, fun x => ?_⟩
    rw [rhs, hnil]
    simp [Row.read]
  · obtain ⟨hsub, hsubval⟩ := R.sub R.one.1 (h.defined i _ (Row.mem_of_get?_eq_some hget))
    rw [R.one.2] at hsubval
    have hne : 1 - R.value loop ≠ 0 := sub_ne_zero.mpr (hpivot loop hget).symm
    obtain ⟨q, hq, hqdef, hqval⟩ := R.div (h.target_defined i) hsub (hsubval ▸ hne)
    simp only [hget, hq, Except.ok.injEq] at hf
    subst hf
    refine ⟨hqdef, fun x => ?_⟩
    rw [rhs, hsorted.dot_read_erase hget, herase, hqval, hsubval, eq_div_iff hne, mul_sub, mul_one,
      sub_eq_iff_eq_add]
    simp [Row.read, add_comm, mul_comm]

end Last

variable {R : Reading W ℝ} {e : EquationSystem W} {u : Nat → ℝ} {i : Nat}

/-- The last state of a sound system has a value. -/
theorem Sound.exists_initialValue (h : e.Sound R u) (i : Nat) :
    ∃ f, e.initialValue i = .ok f := by
  rw [initialValue]
  rcases hget : e.get? i i with _ | loop
  · exact ⟨_, rfl⟩
  · have hmem := Row.mem_of_get?_eq_some hget
    obtain ⟨hsub, hsubval⟩ := R.sub R.one.1 (h.defined i _ hmem)
    obtain ⟨f, hf, -⟩ := R.div (h.target_defined i) hsub (by
      rw [hsubval, R.one.2]
      exact (sub_pos.mpr (h.loop_lt_one hmem)).ne')
    exact ⟨f, by simp only [hf]⟩

/-- The value of the last state is that of any solution. -/
theorem Sound.initialValue_read (h : e.Sound R u) (hsorted : (e.row i).Sorted)
    (honly : ∀ d ∈ e.row i, d.1 = i) {f : W} (hf : e.initialValue i = .ok f) {x : Nat → ℝ}
    (hx : x i = e.rhs R x i) : R.Defined f ∧ R.value f = x i := by
  obtain ⟨hdef, hiff⟩ := h.readable.initialValue_read hsorted (h.hasPivot i) honly hf
  exact ⟨hdef, ((hiff x).mp hx).symm⟩

/-- A sound system determines the values of its states. -/
theorem Sound.eq_of_solvesOff {gone : Set Nat} (h : e.Sound R u) (hshape : e.Shape gone)
    {x y : Nat → ℝ} (hx : e.SolvesOff R gone x) (hy : e.SolvesOff R gone y) :
    ∀ i < e.states, i ∉ gone → x i = y i := by
  classical
  intro i hi hgone
  let S := (Finset.range e.states).filter fun s => s ∉ gone
  have hS : ∀ s ∈ S, s < e.states ∧ s ∉ gone := fun s hs =>
    ⟨Finset.mem_range.mp (Finset.mem_filter.mp hs).1, (Finset.mem_filter.mp hs).2⟩
  have hdrift : HasDrift S (fun s => Row.read R (e.row s)) u :=
    ⟨fun s _ => h.nonneg s, h.drift.nonneg,
      fun s hs => h.drift.pos s (Finset.mem_filter.mp hs).1,
      fun s hs => h.drift.falls s (Finset.mem_filter.mp hs).1⟩
  refine hdrift.eq_of_eq (b := fun s => R.value (e.target s))
    (fun s hs => hx s (hS s hs).1 (hS s hs).2)
    (fun s hs => hy s (hS s hs).1 (hS s hs).2) (fun s hs d hd hdS => ?_) i
    (Finset.mem_filter.mpr ⟨Finset.mem_range.mpr hi, hgone⟩)
  obtain ⟨d', hd', rfl⟩ := Row.mem_read.mp hd
  exact absurd (Finset.mem_filter.mpr ⟨Finset.mem_range.mpr (hshape.column_lt s d' hd'),
    hshape.column_notMem s d' hd'⟩) hdS

end EquationSystem

end MarkovRegion
