import MarkovRegion.Proofs.Analysis.Elimination
import MarkovRegion.Proofs.Analysis.Qualitative

/-!
# The equations that are left of a chain

`SimplifiedModel.ofChain` keeps the equations of the states whose probability is neither zero nor
one by the graph, eliminates those without parameters, and keeps what the initial state reaches.
Two of these steps renumber states; `Renumbered` says what a renumbered system is, and that it
inherits drift and solutions from the rows it was made of.

The main result is `SimplifiedModel.ofChain_eq_ok`: if there is an admissible point, then the model
exists, and at every admissible point the probabilities of the chain solve its equations
(`SimplifiedModel.Represents`).
-/

set_option linter.unusedSectionVars false

namespace MarkovRegion

open RationalFunction (pointReading)

/-! ## Renumbering -/

namespace Row

variable {W : Type} [Weight W] {F : Type} [Field F] {R : Reading W F}

/-- The entries at columns with a new number, moved there. -/
def renumber (index? : Nat → Option Nat) (row : Row W) : Row W :=
  row.filterMap fun e => (index? e.1).map fun i => (i, e.2)

theorem mem_renumber {index? : Nat → Option Nat} {row : Row W} {d : Nat × W} :
    d ∈ row.renumber index? ↔ ∃ e ∈ row, index? e.1 = some d.1 ∧ e.2 = d.2 := by
  simp only [renumber, List.mem_filterMap, Option.map_eq_some_iff]
  constructor
  · rintro ⟨e, he, i, hi, rfl⟩
    exact ⟨e, he, hi, rfl⟩
  · rintro ⟨e, he, hi, hw⟩
    exact ⟨e, he, d.1, hi, Prod.ext rfl hw⟩

theorem dot_read_renumber (index? : Nat → Option Nat) (row : Row W) (y : Nat → F) :
    (read R (row.renumber index?)).dot y =
      (read R row).dot fun t => ((index? t).map y).getD 0 := by
  induction row with
  | nil => rfl
  | cons e rest ih =>
      rw [read_cons, dot_cons, ← ih, renumber, List.filterMap_cons]
      rcases hi : index? e.1 with _ | i
      · simp [renumber]
      · simp [renumber, read_cons]

end Row

namespace EquationSystem

variable {W : Type} [Weight W] {keep : List Nat} {index? : Nat → Option Nat}
  {source : Nat → Row W} {oneStep : Nat → W} {e : EquationSystem W}

/-- The system made of the equations of some states, with new numbers. -/
structure Renumbered (keep : List Nat) (index? : Nat → Option Nat) (source : Nat → Row W)
    (oneStep : Nat → W) (e : EquationSystem W) : Prop where
  states_eq : e.states = keep.length
  size_eq : e.oneStep.size = keep.length
  row_eq : ∀ i s, keep[i]? = some s → e.row i = Row.ofEntries ((source s).renumber index?)
  target_eq : ∀ i s, keep[i]? = some s → e.target i = oneStep s
  /-- A new number is the place of the state. -/
  index_eq : ∀ t i, index? t = some i → keep[i]? = some t

namespace Renumbered

theorem exists_getElem? (h : Renumbered keep index? source oneStep e) {i : Nat}
    (hi : i < e.states) : ∃ s ∈ keep, keep[i]? = some s ∧ keep.getD i 0 = s := by
  rw [h.states_eq] at hi
  exact ⟨keep[i], List.getElem_mem hi, List.getElem?_eq_getElem hi, by simp [hi]⟩

theorem shape (h : Renumbered keep index? source oneStep e) : e.Shape ∅ := by
  have hrow : ∀ i, ∃ entries : Row W, e.row i = Row.ofEntries entries ∧
      ∀ d ∈ entries, d.1 < e.states := by
    intro i
    by_cases hi : i < e.states
    · obtain ⟨s, -, hs, -⟩ := h.exists_getElem? hi
      refine ⟨_, h.row_eq i s hs, fun d hd => ?_⟩
      obtain ⟨t, -, ht, -⟩ := Row.mem_renumber.mp hd
      obtain ⟨hlt, -⟩ := List.getElem?_eq_some_iff.mp (h.index_eq _ _ ht)
      exact h.states_eq ▸ hlt
    · exact ⟨[], e.row_eq_nil (not_lt.mp hi), by simp⟩
  refine ⟨h.size_eq.trans h.states_eq.symm, fun i => ?_, fun i d hd => ?_, by simp⟩
  · obtain ⟨entries, hentries, -⟩ := hrow i
    exact hentries ▸ Row.sorted_ofEntries _
  · obtain ⟨entries, hentries, hlt⟩ := hrow i
    rw [hentries] at hd
    exact Row.forall_ofEntries (P := fun c _ => c < e.states) (fun _ _ _ h _ => h) hlt d hd

section Values

variable {F : Type} [Field F] {R : Reading W F}

theorem defined_renumber (hdef : ∀ s ∈ keep, Row.Defined R (source s)) {s : Nat} (hs : s ∈ keep) :
    Row.Defined R ((source s).renumber index?) := by
  intro d hd
  obtain ⟨d', hd', -, hw⟩ := Row.mem_renumber.mp hd
  exact hw ▸ hdef s hs d' hd'

/-- The linear form of a renumbered row: columns without a number count as zero. -/
theorem dot_row (h : Renumbered keep index? source oneStep e)
    (hdef : ∀ s ∈ keep, Row.Defined R (source s)) {i s : Nat} (hi : keep[i]? = some s)
    (y : Nat → F) :
    (Row.read R (e.row i)).dot y =
      (Row.read R (source s)).dot fun t => ((index? t).map y).getD 0 := by
  rw [h.row_eq i s hi, Row.dot_read_ofEntries (defined_renumber hdef (List.mem_of_getElem? hi)),
    Row.dot_read_renumber]

/-- Values are inherited. -/
theorem readable (h : Renumbered keep index? source oneStep e)
    (hdef : ∀ s ∈ keep, Row.Defined R (source s)) (hone : ∀ s ∈ keep, R.Defined (oneStep s)) :
    e.Readable R := by
  refine ⟨fun i => ?_, fun i => ?_⟩
  · by_cases hi : i < e.states
    · obtain ⟨s, hs, hget, -⟩ := h.exists_getElem? hi
      rw [h.row_eq i s hget]
      exact Row.forall_ofEntries (P := fun _ w => R.Defined w) (fun _ _ _ ha hb => (R.add ha hb).1)
        (defined_renumber hdef hs)
    · rw [e.row_eq_nil (not_lt.mp hi)]
      exact fun d hd => absurd hd List.not_mem_nil
  · by_cases hi : i < e.states
    · obtain ⟨s, hs, hget, -⟩ := h.exists_getElem? hi
      exact h.target_eq i s hget ▸ hone s hs
    · have hzero : e.target i = Weight.zero :=
        getD_of_size_le _ (h.size_eq.trans h.states_eq.symm ▸ not_lt.mp hi) _
      exact hzero ▸ R.zero.1

end Values

variable {R : Reading W ℝ}

/-- Drift is inherited. -/
theorem sound (h : Renumbered keep index? source oneStep e)
    (hdef : ∀ s ∈ keep, Row.Defined R (source s)) (hone : ∀ s ∈ keep, R.Defined (oneStep s))
    {u : Nat → ℝ} (hu : HasDrift keep.toFinset (fun s => Row.read R (source s)) u) :
    e.Sound R fun i => u (keep.getD i 0) := by
  have hread := h.readable hdef hone
  refine ⟨hread.defined, hread.target_defined, fun i hi => ?_, fun i => hu.nonneg _,
    fun i hi => ?_, fun i hi => ?_⟩
  · obtain ⟨s, hs, hget, -⟩ := h.exists_getElem? (Finset.mem_range.mp hi)
    intro d hd
    obtain ⟨d', hd', rfl⟩ := Row.mem_read.mp hd
    rw [h.row_eq i s hget] at hd'
    refine (Row.forall_ofEntries (P := fun _ w => R.Defined w ∧ 0 ≤ R.value w)
      (fun _ a b ha hb => ⟨(R.add ha.1 hb.1).1, ?_⟩) (fun d hd => ?_) d' hd').2
    · rw [(R.add ha.1 hb.1).2]
      exact add_nonneg ha.2 hb.2
    · refine ⟨defined_renumber hdef hs d hd, ?_⟩
      obtain ⟨d'', hd'', -, hw⟩ := Row.mem_renumber.mp hd
      rw [← hw]
      exact hu.weights s (List.mem_toFinset.mpr hs) _ (Row.mem_read.mpr ⟨d'', hd'', rfl⟩)
  · obtain ⟨s, hs, -, hget⟩ := h.exists_getElem? (Finset.mem_range.mp hi)
    rw [hget]
    exact hu.pos s (List.mem_toFinset.mpr hs)
  · obtain ⟨s, hs, hget, hgetD⟩ := h.exists_getElem? (Finset.mem_range.mp hi)
    rw [h.dot_row hdef hget, hgetD]
    refine lt_of_le_of_lt (Row.dot_le_dot (hu.weights s (List.mem_toFinset.mpr hs)) ?_)
      (hu.falls s (List.mem_toFinset.mpr hs))
    intro d _
    rcases ht : index? d.1 with _ | j
    · exact hu.nonneg _
    · simp [List.getD_eq_getElem?_getD, h.index_eq _ _ ht]

/-- Solutions are inherited. -/
theorem solvesOff (h : Renumbered keep index? source oneStep e)
    (hdef : ∀ s ∈ keep, Row.Defined R (source s)) {x : Nat → ℝ}
    (hx : ∀ s ∈ keep, x s = (Row.read R (source s)).dot
      (fun t => if (index? t).isSome then x t else 0) + R.value (oneStep s)) :
    e.SolvesOff R ∅ fun i => x (keep.getD i 0) := by
  intro i hi _
  obtain ⟨s, hs, hget, hgetD⟩ := h.exists_getElem? hi
  show x (keep.getD i 0) = _
  rw [rhs, h.dot_row hdef hget, h.target_eq i s hget, hgetD, hx s hs]
  congr 1
  refine Row.dot_congr fun d _ => ?_
  rcases ht : index? d.1 with _ | j
  · simp
  · simp [List.getD_eq_getElem?_getD, h.index_eq _ _ ht]

end Renumbered

/-! ### Restriction -/

theorem getElem?_of_newIndex? {t i : Nat} (h : newIndex? keep t = some i) : keep[i]? = some t := by
  obtain ⟨p, hp, rfl⟩ := Option.map_eq_some_iff.mp h
  have hmem := List.mem_reverse.mp (List.mem_of_find?_eq_some hp)
  have hkey : p.1 = t := by simpa using List.find?_some hp
  rw [← hkey]
  exact List.mem_zipIdx_iff_getElem?.mp hmem

theorem isSome_newIndex? {t : Nat} (h : t ∈ keep) : (newIndex? keep t).isSome = true := by
  obtain ⟨i, hi, rfl⟩ := List.getElem_of_mem h
  rw [newIndex?, Option.isSome_map, List.find?_isSome]
  refine ⟨(keep[i], i), List.mem_reverse.mpr ?_, by simp⟩
  exact List.mem_zipIdx_iff_getElem?.mpr (List.getElem?_eq_getElem hi)

theorem renumbered_restrict (e : EquationSystem W) (keep : List Nat) :
    Renumbered keep (newIndex? keep) e.row e.target (e.restrict keep) where
  states_eq := by simp [restrict, restrictRows, states]
  size_eq := by simp [restrict]
  row_eq i s hs := by
    simp [restrict, restrictRows, row, hs, Row.renumber]
  target_eq i s hs := by
    simp [restrict, target, hs]
  index_eq _ _ := getElem?_of_newIndex?

section Closed

variable {gone : Set Nat} (hkeep : ∀ s ∈ keep, s < e.states ∧ s ∉ gone)
  (hclosed : ∀ s ∈ keep, ∀ d ∈ e.row s, d.1 ∈ keep) {R : Reading W ℝ}
include hkeep hclosed

/-- A part of a system that is closed under its steps inherits solutions. -/
theorem restrict_solvesOff (hread : e.Readable R) {x : Nat → ℝ} (hx : e.SolvesOff R gone x) :
    (e.restrict keep).SolvesOff R ∅ fun i => x (keep.getD i 0) := by
  refine (renumbered_restrict e keep).solvesOff (fun s _ => hread.defined s) fun s hs => ?_
  rw [hx s (hkeep s hs).1 (hkeep s hs).2, rhs]
  congr 1
  refine Row.dot_congr fun d hd => ?_
  obtain ⟨d', hd', rfl⟩ := Row.mem_read.mp hd
  simp [isSome_newIndex? (hclosed s hs d' hd')]

/-- It also inherits drift. -/
theorem restrict_inherits {u : Nat → ℝ} (hsound : e.Sound R u) :
    (e.restrict keep).Sound R (fun i => u (keep.getD i 0)) ∧
      ∀ x, e.SolvesOff R gone x → (e.restrict keep).SolvesOff R ∅ fun i => x (keep.getD i 0) := by
  have hrange : ∀ s ∈ keep.toFinset, s ∈ Finset.range e.states := fun s hs =>
    Finset.mem_range.mpr (hkeep s (List.mem_toFinset.mp hs)).1
  refine ⟨(renumbered_restrict e keep).sound (fun s _ => hsound.defined s)
    (fun s _ => hsound.target_defined s)
    ⟨fun s hs => hsound.drift.weights s (hrange s hs), hsound.drift.nonneg,
      fun s hs => hsound.drift.pos s (hrange s hs), fun s hs => hsound.drift.falls s (hrange s hs)⟩,
    fun x hx => restrict_solvesOff hkeep hclosed hsound.readable hx⟩

end Closed

open Qualitative in
/-- What a state reaches is closed under steps, and all of it is left. -/
theorem closed_reachableFrom {gone : Set Nat} {initial : Nat} (hshape : e.Shape gone)
    (hgone : initial ∉ gone) :
    (∀ s ∈ e.reachableFrom initial, s < e.states ∧ s ∉ gone) ∧
      ∀ s ∈ e.reachableFrom initial, ∀ d ∈ e.row s, d.1 ∈ e.reachableFrom initial := by
  refine ⟨fun s hs => ⟨lt_of_mem_reachableFrom hs, ?_⟩, fun s hs d hd =>
    mem_reachableFrom_of_step hs (Row.mem_columns.mpr ⟨d, hd, rfl⟩) (hshape.column_lt s d hd)⟩
  rcases mem_reachableFrom_cases hs with rfl | ⟨r, hr⟩
  · exact hgone
  · obtain ⟨d, hd, rfl⟩ := Row.mem_columns.mp hr
    exact hshape.column_notMem r d hd

end EquationSystem

/-! ## The equations of the open states -/

namespace SimplifiedModel

open EquationSystem Qualitative

/-- The number of an open state. -/
def openIndex? (openStates sure : List Nat) (t : Nat) : Option Nat :=
  if sure.contains t then none else openStates.idxOf? t

theorem renumbered_openSystem (c : ParametricChain) (openStates sure : List Nat) :
    Renumbered openStates (openIndex? openStates sure) c.row
      (fun s => ModelFile.rowSum ((c.row s).filter fun e => sure.contains e.1))
      (openSystem c openStates sure) where
  states_eq := by simp [openSystem, ofEntries, EquationSystem.states]
  size_eq := by simp [openSystem, ofEntries]
  row_eq i s hs := by
    have hentries : (equationOf openStates sure (c.row s)).1 =
        (c.row s).renumber (openIndex? openStates sure) := by
      rw [equationOf, Row.renumber]
      refine List.filterMap_congr fun e _ => ?_
      rw [openIndex?]
      split
      · rfl
      · rfl
    simp [openSystem, ofEntries, EquationSystem.row, hs, hentries]
  target_eq i s hs := by
    simp [openSystem, ofEntries, EquationSystem.target, hs, equationOf, ModelFile.rowSum]
  index_eq t i h := by
    rw [openIndex?] at h
    split at h
    · cases h
    · obtain ⟨hlt, hget, -⟩ := List.idxOf?_eq_some_iff.mp h
      rw [List.getElem?_eq_getElem hlt, hget]

/-- The states that are neither in the one class nor in the other. -/
def openStatesOf (c : ParametricChain) (never sure : List Nat) : List Nat :=
  (List.range c.states).filter fun s => !never.contains s && !sure.contains s

theorem mem_openStatesOf {c : ParametricChain} {never sure : List Nat} {s : Nat} :
    s ∈ openStatesOf c never sure ↔ s < c.states ∧ s ∉ never ∧ s ∉ sure := by
  simp [openStatesOf]

section Open

variable {c : ParametricChain} {targets never sure : List Nat} {v : Valuation}

/-- The sum of the weights into a class, as a linear form of the whole row. -/
theorem rowSum_filter_read (hv : c.Admissible v) (sure : List Nat) (s : Nat) :
    (pointReading v).Defined (ModelFile.rowSum ((c.row s).filter fun e => sure.contains e.1)) ∧
      (pointReading v).value (ModelFile.rowSum ((c.row s).filter fun e => sure.contains e.1)) =
        (Row.read (pointReading v) (c.row s)).dot fun t => if sure.contains t then 1 else 0 := by
  have hdef : Row.Defined (pointReading v) ((c.row s).filter fun e => sure.contains e.1) :=
    fun e he => hv.defined s e (List.mem_filter.mp he).1
  have hread : Row.read (pointReading v) ((c.row s).filter fun e => sure.contains e.1) =
      (Row.read (pointReading v) (c.row s)).filter fun e => sure.contains e.1 := by
    simp [Row.read, List.filter_map, Function.comp_def]
  obtain ⟨hsum, hval⟩ := ModelFile.rowSum_read hdef
  refine ⟨hsum, hval.trans ?_⟩
  rw [hread, Row.dot_filter]
  rfl

theorem exists_sound_openSystem (h : Classes c.transitions targets never sure) (hc : c.Regular)
    (hv : c.Admissible v) :
    ∃ u, (openSystem c (openStatesOf c never sure) sure).Sound (pointReading v) u := by
  obtain ⟨u, hu⟩ := h.exists_hasDrift_of_subset (weighs_rowsAt hc hv)
    (S := (openStatesOf c never sure).toFinset)
    (fun s hs => (mem_openStatesOf.mp (List.mem_toFinset.mp hs)).1)
    (fun s hs => by
      obtain ⟨-, hnever, hsure⟩ := mem_openStatesOf.mp (List.mem_toFinset.mp hs)
      exact ⟨hnever, fun ht => hsure (h.target_sure s ht)⟩)
  have hrows : c.rowsAt v = fun s => Row.read (pointReading v) (c.row s) := funext hv.rowsAt_eq
  rw [hrows] at hu
  exact ⟨_, (renumbered_openSystem c _ sure).sound (fun s _ => hv.defined s)
    (fun s _ => (rowSum_filter_read hv sure s).1) hu⟩

/-- The probabilities of the open states solve their equations: what is left out has probability
zero, and what is moved to the one-step weights has probability one. -/
theorem solvesOff_openSystem (h : Classes c.transitions targets never sure) (hc : c.Regular)
    (hv : c.Admissible v) {x : Nat → ℝ} (hx : c.IsProbability v {s | s ∈ targets} x) :
    (openSystem c (openStatesOf c never sure) sure).SolvesOff (pointReading v) ∅
      fun i => x ((openStatesOf c never sure).getD i 0) := by
  refine (renumbered_openSystem c _ sure).solvesOff (fun s _ => hv.defined s) fun s hs => ?_
  obtain ⟨-, -, hsure⟩ := mem_openStatesOf.mp hs
  rw [(rowSum_filter_read hv sure s).2, ← Row.dot_add,
    IsReachability.eq_dot hx (fun ht => hsure (h.target_sure s ht)), hv.rowsAt_eq]
  refine Row.dot_congr fun e he => ?_
  obtain ⟨d, hd, rfl⟩ := Row.mem_read.mp he
  rw [Pi.add_apply, openIndex?]
  by_cases hdsure : d.1 ∈ sure
  · simp [hdsure, h.eq_one_of_sure (weighs_rowsAt hc hv) hx hdsure]
  · by_cases hdnever : d.1 ∈ never
    · simp [hdsure, h.eq_zero_of_never (weighs_rowsAt hc hv) hx hdnever]
    · have hopen : d.1 ∈ openStatesOf c never sure :=
        mem_openStatesOf.mpr ⟨hc.column_lt s d hd, hdnever, hdsure⟩
      have hindex : ((openStatesOf c never sure).idxOf? d.1).isSome = true := by
        rw [Option.isSome_iff_ne_none, Ne, List.idxOf?_eq_none_iff, not_not]
        exact hopen
      simp [hdsure, hindex]

end Open

/-! ## Models -/

/-- The form of a simplified model. -/
structure WellFormed (m : SimplifiedModel) : Prop where
  shape : m.system.Shape ∅
  initial_lt : m.initial < m.system.states
  length_eq : m.states.length = m.system.states
  parameters_eq :
    m.parameters = orderedKeys ((weights m.system).flatMap RationalFunction.parameters)

/-- At a point, the values `x` of the states of a chain solve the equations of a model, which have
no other solution there. -/
structure Represents (m : SimplifiedModel) (v : Valuation) (x : Nat → ℝ) (initial : Nat) :
    Prop where
  exists_sound : ∃ u, m.system.Sound (pointReading v) u
  solvesOff : m.system.SolvesOff (pointReading v) ∅ fun i => x (m.states.getD i 0)
  initial_eq : m.states.getD m.initial 0 = initial
  constant_eq : ∀ q, m.constant? = some q → x initial = q

theorem mem_weights {e : EquationSystem RationalFunction} {w : RationalFunction} :
    w ∈ weights e ↔ ∃ s < e.states, (∃ d ∈ e.row s, d.2 = w) ∨ w = e.target s := by
  simp [weights]

/-- What a model represents depends on the values of its parameters only. -/
theorem Represents.congr_point {m : SimplifiedModel} (hm : m.WellFormed) {v w : Valuation}
    {x : Nat → ℝ} {initial : Nat} (h : m.Represents v x initial)
    (hw : ∀ p ∈ m.parameters, w.find? p = v.find? p) : m.Represents w x initial := by
  obtain ⟨u, hu⟩ := h.exists_sound
  have hread : ∀ f ∈ weights m.system, (pointReading v).Defined f →
      (pointReading w).Defined f ∧ (pointReading w).value f = (pointReading v).value f := by
    intro f hf
    refine RationalFunction.read_congr fun p hp => hw p ?_
    rw [hm.parameters_eq, mem_orderedKeys, List.mem_flatMap]
    exact ⟨f, hf, hp⟩
  have hentry : ∀ s, ∀ d ∈ m.system.row s, (pointReading w).Defined d.2 ∧
      (pointReading w).value d.2 = (pointReading v).value d.2 := fun s d hd =>
    hread d.2 (mem_weights.mpr ⟨s, lt_states_of_mem_row hd, Or.inl ⟨d, hd, rfl⟩⟩)
      (hu.defined s d hd)
  have htarget : ∀ s, (pointReading w).Defined (m.system.target s) ∧
      (pointReading w).value (m.system.target s) = (pointReading v).value (m.system.target s) := by
    intro s
    by_cases hs : s < m.system.states
    · exact hread _ (mem_weights.mpr ⟨s, hs, Or.inr rfl⟩) (hu.target_defined s)
    · have hzero : m.system.target s = Weight.zero :=
        getD_of_size_le _ (hm.shape.size_eq.symm ▸ not_lt.mp hs) _
      rw [hzero, (pointReading w).zero.2, (pointReading v).zero.2]
      exact ⟨(pointReading w).zero.1, rfl⟩
  have hrow : ∀ s, Row.read (pointReading w) (m.system.row s) =
      Row.read (pointReading v) (m.system.row s) := fun s =>
    List.map_congr_left fun d hd => by rw [(hentry s d hd).2]
  refine ⟨⟨u, fun s d hd => (hentry s d hd).1, fun s => (htarget s).1, ?_⟩, fun i hi hgone => ?_,
    h.initial_eq, h.constant_eq⟩
  · simpa only [hrow] using hu.drift
  · rw [rhs, hrow, (htarget i).2]
    exact h.solvesOff i hi hgone

theorem getElem?_newInitial {keep : List Nat} {initial : Nat} (h : initial ∈ keep) :
    keep[newInitial keep initial]? = some initial := by
  rcases hidx : keep.idxOf? initial with _ | i
  · exact absurd h (List.idxOf?_eq_none_iff.mp hidx)
  · obtain ⟨hlt, hget, -⟩ := List.idxOf?_eq_some_iff.mp hidx
    rw [newInitial, hidx, Option.getD_some, List.getElem?_eq_getElem hlt, hget]

theorem constantOf?_cases {e : EquationSystem RationalFunction} {R : Reading RationalFunction ℝ}
    {u : Nat → ℝ} (h : e.Sound R u) (i : Nat) :
    constantOf? e i = .ok none ∨
      ∃ f, e.initialValue i = .ok f ∧ (∀ d ∈ e.row i, d.1 = i) ∧
        constantOf? e i = .ok f.constantValue? := by
  rw [constantOf?]
  split
  · next hcond =>
      obtain ⟨f, hf⟩ := h.exists_initialValue i
      refine Or.inr ⟨f, hf, fun d hd => ?_, by rw [hf]; rfl⟩
      have hd' := List.all_eq_true.mp ((Bool.and_eq_true _ _).mp hcond).1 d hd
      simpa using ((Bool.and_eq_true _ _).mp hd').1
  · exact Or.inl rfl

theorem ofSystem_of_constantOf? (openStates : List Nat) {e : EquationSystem RationalFunction}
    {initial : Nat} {constant : Option ℚ}
    (h : constantOf? (e.restrict (e.reachableFrom initial))
      (newInitial (e.reachableFrom initial) initial) = .ok constant) :
    ∃ m, ofSystem openStates e initial = .ok m ∧
      m.states = (e.reachableFrom initial).map (fun s => openStates.getD s 0) ∧
      m.system = e.restrict (e.reachableFrom initial) ∧
      m.initial = newInitial (e.reachableFrom initial) initial ∧ m.constant? = constant ∧
      m.parameters = orderedKeys ((weights m.system).flatMap RationalFunction.parameters) := by
  rw [ofSystem, h]
  exact ⟨_, rfl, rfl, rfl, rfl, rfl, rfl⟩

/-- The model of a system: at every point where the system is sound, it has the solutions of the
system. -/
theorem ofSystem_eq_ok (openStates : List Nat) {e : EquationSystem RationalFunction}
    {gone : Set Nat} {initial : Nat} (hshape : e.Shape gone) (hlt : initial < e.states)
    (hgone : initial ∉ gone) {R : Reading RationalFunction ℝ} {u : Nat → ℝ} (hsound : e.Sound R u) :
    ∃ m, ofSystem openStates e initial = .ok m ∧ m.WellFormed ∧ ∀ v u x,
      e.Sound (pointReading v) u →
      e.SolvesOff (pointReading v) gone (fun i => x (openStates.getD i 0)) →
      m.Represents v x (openStates.getD initial 0) := by
  let keep := e.reachableFrom initial
  obtain ⟨hkeep, hclosed⟩ := closed_reachableFrom hshape hgone
  have hinherits := fun {R : Reading RationalFunction ℝ} {u} =>
    restrict_inherits (R := R) (u := u) hkeep hclosed
  have hren := renumbered_restrict e keep
  have hmem : initial ∈ keep := initial_mem_reachableFrom hlt
  have hnew : keep[newInitial keep initial]? = some initial := getElem?_newInitial hmem
  have hinitial_lt : newInitial keep initial < (e.restrict keep).states := by
    rw [hren.states_eq]
    exact (List.getElem?_eq_some_iff.mp hnew).1
  -- The constant is computed from the equation of the initial state alone.
  obtain ⟨constant, hconstant, hvalue⟩ : ∃ constant,
      constantOf? (e.restrict keep) (newInitial keep initial) = .ok constant ∧
      ∀ q, constant = some q → ∃ f,
        (e.restrict keep).initialValue (newInitial keep initial) = .ok f ∧
        (∀ d ∈ (e.restrict keep).row (newInitial keep initial), d.1 = newInitial keep initial) ∧
        f.constantValue? = some q := by
    rcases constantOf?_cases (hinherits hsound).1 (newInitial keep initial) with
      hnone | ⟨f, hf, honly, hok⟩
    · exact ⟨none, hnone, by simp⟩
    · exact ⟨_, hok, fun q hq => ⟨f, hf, honly, hq⟩⟩
  obtain ⟨m, hm, hstates, hsystem, hinitial, hmconstant, hparameters⟩ :=
    ofSystem_of_constantOf? openStates hconstant
  refine ⟨m, hm, ⟨?_, ?_, ?_, hparameters⟩, fun v u x hv hx => ?_⟩
  · rw [hsystem]
    exact hren.shape
  · rw [hsystem, hinitial]
    exact hinitial_lt
  · rw [hsystem, hstates, List.length_map, hren.states_eq]
  · clear hm
    obtain ⟨hrsound, hrsolves⟩ := hinherits hv
    have hplace : ∀ i < (e.restrict keep).states,
        openStates.getD (keep.getD i 0) 0 = m.states.getD i 0 := by
      intro i hi
      rw [hren.states_eq] at hi
      rw [hstates]
      simp [List.getD_eq_getElem?_getD, hi, keep]
    have hinit : m.states.getD m.initial 0 = openStates.getD initial 0 := by
      rw [hstates, hinitial, List.getD_eq_getElem?_getD, List.getElem?_map, hnew]
      rfl
    have hsolves := (hrsolves _ hx).congr hren.shape (y := fun i => x (m.states.getD i 0))
      fun i hi => congrArg x (hplace i hi)
    refine ⟨⟨_, hsystem ▸ hrsound⟩, hsystem ▸ hsolves, hinit, fun q hq => ?_⟩
    obtain ⟨f, hf, honly, hfq⟩ := hvalue q (hmconstant ▸ hq)
    have hread := hrsound.initialValue_read (x := fun i => x (m.states.getD i 0))
      (hren.shape.sorted _) honly hf
      (hsolves _ hinitial_lt (Set.notMem_empty _))
    rw [← RationalFunction.value_of_constantValue? hfq, hread.2, ← hinit, hinitial]

/-- The model of a probability that is known. -/
theorem wellFormed_ofConstant (initial : Nat) (q : ℚ) : (ofConstant initial q).WellFormed := by
  have hrow : ∀ i, (ofConstant initial q).system.row i = [] := by
    rintro (_ | i) <;> rfl
  have hnone : (RationalFunction.constant q).parameters = [] := by
    rw [List.eq_nil_iff_forall_not_mem]
    intro p hp
    simp [RationalFunction.mem_parameters, RationalFunction.constant,
      RationalFunction.ofPolynomial] at hp
  refine ⟨⟨rfl, fun i => ?_, fun i d hd => ?_, fun i d hd => ?_⟩, Nat.zero_lt_one, rfl, ?_⟩
  · rw [hrow i]
    exact List.Pairwise.nil
  · rw [hrow i] at hd
    cases hd
  · rw [hrow i] at hd
    cases hd
  · have hweights : weights (ofConstant initial q).system = [.constant q] := rfl
    rw [hweights, List.flatMap_singleton, hnone]
    rfl

theorem represents_ofConstant {initial : Nat} {q : ℚ} {v : Valuation} {x : Nat → ℝ}
    (hx : x initial = q) : (ofConstant initial q).Represents v x initial := by
  have hrow : ∀ i, (ofConstant initial q).system.row i = [] := by
    rintro (_ | i) <;> rfl
  have hnil : ∀ i, Row.read (pointReading v) ((ofConstant initial q).system.row i) = [] :=
    fun i => (congrArg _ (hrow i)).trans rfl
  have hconst := RationalFunction.constant_read v q
  refine ⟨⟨1, ⟨fun i => ?_, ?_, fun i _ => ?_, fun _ => zero_le_one, fun _ _ => zero_lt_one,
    fun i _ => ?_⟩⟩, fun i hi _ => ?_, rfl, fun q' hq' => ?_⟩
  · rw [hrow i]
    exact fun d hd => absurd hd List.not_mem_nil
  · rintro (_ | i)
    · exact hconst.1
    · exact (pointReading v).zero.1
  · rw [hnil i]
    exact fun d hd => absurd hd List.not_mem_nil
  · rw [hnil i]
    exact zero_lt_one
  · obtain rfl : i = 0 := Nat.lt_one_iff.mp hi
    rw [rhs, hnil 0, Row.dot_nil, zero_add]
    exact hx.trans hconst.2.symm
  · rw [hx]
    exact congrArg _ (Option.some.inj hq')

/-! ## Chains -/

theorem mem_eliminationOrder {W : Type} [Weight W] {e : EquationSystem W} {candidates : List Nat}
    {s : Nat} : s ∈ e.eliminationOrder candidates ↔ s ∈ candidates := by
  simp [eliminationOrder]

/-- The model of a chain whose initial state is open. -/
theorem exists_open_model {c : ParametricChain} (hc : c.Regular) {targets never sure : List Nat}
    (hclasses : Classes c.transitions targets never sure) {initial : Nat}
    (hidx : (openStatesOf c never sure).idxOf? c.initial = some initial) {v₀ : Valuation}
    (hv₀ : c.Admissible v₀) :
    ∃ system m, (openSystem c (openStatesOf c never sure) sure).eliminateStates none
        ((openSystem c (openStatesOf c never sure) sure).eliminationOrder
          (constantStates (openSystem c (openStatesOf c never sure) sure) initial)) = .ok system ∧
      ofSystem (openStatesOf c never sure) system initial = .ok m ∧ m.WellFormed ∧
      ∀ v x, c.Admissible v → c.IsProbability v {s | s ∈ targets} x →
        m.Represents v x c.initial := by
  obtain ⟨hlt, hget, -⟩ := List.idxOf?_eq_some_iff.mp hidx
  have hren := renumbered_openSystem c (openStatesOf c never sure) sure
  obtain ⟨u₀, hu₀⟩ := exists_sound_openSystem hclasses hc hv₀
  obtain ⟨system, hok, hreduces⟩ := (eliminateStates_cases none
    ((openSystem c (openStatesOf c never sure) sure).eliminationOrder
      (constantStates (openSystem c (openStatesOf c never sure) sure) initial))
    hren.shape hu₀).resolve_right (by simp)
  have hstates := hreduces.states_eq.trans hren.states_eq
  obtain ⟨m, hm, hwell, hrep⟩ := ofSystem_eq_ok (openStatesOf c never sure)
    hreduces.shape (hstates ▸ hlt) (by simp [mem_eliminationOrder, constantStates])
    (hreduces.sound hu₀)
  refine ⟨system, m, hok, hm, hwell, fun v x hv hx => ?_⟩
  obtain ⟨u, hu⟩ := exists_sound_openSystem hclasses hc hv
  have hsolves := solvesOff_openSystem hclasses hc hv hx
  have hplace : (openStatesOf c never sure).getD initial 0 = c.initial := by
    simp [List.getD_eq_getElem?_getD, hlt, hget]
  exact hplace ▸ hrep v u x (hreduces.sound hu) (hreduces.solvesOff hu hsolves)

/-- If there is an admissible point, then the equations of a chain can be simplified, and at every
admissible point the probabilities of the chain are their solution. -/
theorem ofChain_eq_ok {c : ParametricChain} (hc : c.Regular) {targets : List Nat}
    (htargets : ∀ s ∈ targets, s < c.states) {v₀ : Valuation} (hv₀ : c.Admissible v₀) :
    ∃ m, ofChain c targets = .ok m ∧ m.WellFormed ∧ ∀ v x, c.Admissible v →
      c.IsProbability v {s | s ∈ targets} x → m.Represents v x c.initial := by
  have hclasses := classes_ofChain hc htargets
  rw [ofChain]
  generalize neverReach c.transitions targets = never at hclasses ⊢
  generalize surelyReach c.transitions targets never = sure at hclasses ⊢
  by_cases hsure : c.initial ∈ sure
  · rw [if_pos (List.contains_iff_mem.mpr hsure)]
    refine ⟨_, rfl, wellFormed_ofConstant _ _, fun v x hv hx => represents_ofConstant ?_⟩
    rw [hclasses.eq_one_of_sure (weighs_rowsAt hc hv) hx hsure, Rat.cast_one]
  rw [if_neg (by simpa using hsure)]
  by_cases hnever : c.initial ∈ never
  · rw [if_pos (List.contains_iff_mem.mpr hnever)]
    refine ⟨_, rfl, wellFormed_ofConstant _ _, fun v x hv hx => represents_ofConstant ?_⟩
    rw [hclasses.eq_zero_of_never (weighs_rowsAt hc hv) hx hnever, Rat.cast_zero]
  rw [if_neg (by simpa using hnever)]
  rcases hidx : (openStatesOf c never sure).idxOf? c.initial with _ | initial
  · exact absurd (mem_openStatesOf.mpr ⟨hc.initial_lt, hnever, hsure⟩)
      (List.idxOf?_eq_none_iff.mp hidx)
  obtain ⟨system, m, hok, hm, hwell, hrep⟩ := exists_open_model hc hclasses hidx hv₀
  refine ⟨m, ?_, hwell, hrep⟩
  have hopen : (List.range c.states).filter (fun s => !never.contains s && !sure.contains s) =
      openStatesOf c never sure := rfl
  simp only [hopen, hidx, hok]
  show liftElimination (ofSystem (openStatesOf c never sure) system initial) = _
  rw [hm]
  rfl

end SimplifiedModel

end MarkovRegion
