import MarkovRegion.Model.File
import MarkovRegion.Proofs.Algebra.NormalForm
import MarkovRegion.Proofs.Logic.Formula
import MarkovRegion.Proofs.Model.Row

/-!
# The chains of model files

`Chain.Regular` collects what `ModelFile.toChain` establishes about the chains it accepts
(`ModelFile.toChain_regular`).  In particular the weights of a state add up to one in the field of
fractions; so they do at every admissible point, also where a weight of the file that cancelled out
has a pole (`Admissible.mass`).

`Chain.IsProbability` is the meaning of a chain at a point: the probabilities of reaching a set of
states, as the least non-negative solution of the equations of the whole chain.
-/

namespace MarkovRegion

open RationalFunction (fractionReading pointReading)

/-! ## Weights that were read -/

namespace ModelFile

/-- Weights that were read are built by the operations. -/
theorem weighFrom_built {states index : Nat} {ts : List Transition}
    {ws : List WeightedTransition} (h : weighFrom states index ts = .ok ws) :
    ∀ w ∈ ws, w.weight.Built := by
  induction ts generalizing index ws with
  | nil =>
      rw [weighFrom, Except.ok.injEq] at h
      simp [← h]
  | cons t rest ih =>
      obtain ⟨first, hfirst, h⟩ := bind_eq_ok_iff.mp h
      obtain ⟨others, hothers, h⟩ := bind_eq_ok_iff.mp h
      rw [pure_eq_ok_iff] at h
      subst h
      refine List.forall_mem_cons.mpr ⟨?_, ih hothers⟩
      obtain ⟨-, -, hweight⟩ := bind_eq_ok_iff.mp hfirst
      split at hweight
      · next f hf =>
          rw [pure_eq_ok_iff] at hweight
          obtain ⟨e, -, he⟩ := bind_eq_ok_iff.mp hf
          exact hweight ▸ Expression.built_of_toFunction he
      · cases hweight
      · cases hweight

theorem weighFrom_defined {states index : Nat} {ts : List Transition}
    {ws : List WeightedTransition} (h : weighFrom states index ts = .ok ws) :
    ∀ w ∈ ws, fractionReading.Defined w.weight := by
  intro w hw
  rw [RationalFunction.fractionReading_defined_iff]
  exact (weighFrom_built h w hw).normal.toRing_denominator_ne_zero

/-- The sum of the weights of a row, without a limit of exponents. -/
def rowSum (row : Row RationalFunction) : RationalFunction :=
  row.foldl (fun sum e => sum.add e.2) .zero

theorem refines_rowSumChecked (row : Row RationalFunction) :
    Refines (rowSumChecked row) (.ok (rowSum row)) := by
  have hstep : ∀ (sum : RationalFunction) (e : Nat × RationalFunction),
      Refines (sum.addChecked e.2) (.ok (sum.add e.2)) := fun sum e => sum.refines_addChecked e.2
  exact .foldlM hstep row RationalFunction.zero

/-- The sum of a row under a reading. -/
theorem rowSum_read {F : Type} [Field F] {R : Reading RationalFunction F}
    {row : Row RationalFunction} (h : Row.Defined R row) :
    R.Defined (rowSum row) ∧ R.value (rowSum row) = (Row.read R row).dot 1 := by
  have hfold : ∀ (row : Row RationalFunction) (sum : RationalFunction), Row.Defined R row →
      R.Defined sum → R.Defined (row.foldl (fun sum e => sum.add e.2) sum) ∧
        R.value (row.foldl (fun sum e => sum.add e.2) sum) =
          R.value sum + (Row.read R row).dot 1 := by
    intro row
    induction row with
    | nil => simp +contextual [Row.read]
    | cons e rest ih =>
        intro sum hrow hsum
        have hadd := R.add hsum (hrow e List.mem_cons_self)
        obtain ⟨hdef, hval⟩ := ih _ hrow.tail hadd.1
        refine ⟨hdef, hval.trans ?_⟩
        rw [hadd.2, Row.read_cons, Row.dot_cons, Pi.one_apply, mul_one, add_assoc]
  obtain ⟨hdef, hval⟩ := hfold row _ h R.zero.1
  exact ⟨hdef, hval.trans (by rw [R.zero.2, zero_add])⟩

/-- The outcomes of the check of a sum: it passes, the sum is not one, or the computation stops. -/
inductive SumOutcome (state : Nat) (row : Row RationalFunction) : Except ModelError Unit → Prop
  | passed (hsum : rowSumChecked row = .ok (rowSum row))
      (hone : row = [] ∨ (rowSum row).isOne = true) : SumOutcome state row (.ok ())
  | refused (hnil : row ≠ []) (hone : (rowSum row).isOne = false) (text : String) :
      SumOutcome state row (.error (.invalid ("outgoing weights of state " ++ toString state
        ++ " sum to " ++ text ++ " instead of 1")))
  | stopped (hsum : rowSumChecked row = .error .overflow ∨
      row ≠ [] ∧ (rowSum row).isOne = false) : SumOutcome state row (.error .overflow)

theorem checkSum_outcome (state : Nat) (row : Row RationalFunction) :
    SumOutcome state row (checkSum state row) := by
  rw [checkSum]
  rcases refines_rowSumChecked row with hsum | hstop
  · rw [hsum]
    change SumOutcome state row (if _ then _ else _)
    split
    · next hwrong =>
        obtain ⟨hnil, hone⟩ : row ≠ [] ∧ (rowSum row).isOne = false := by simpa using hwrong
        rw [RationalFunction.write_eq]
        by_cases hprint : (rowSum row).Printable
        · rw [stopUnless_of hprint]
          exact .refused hnil hone (rowSum row).text
        · rw [stopUnless_of_not hprint]
          exact .stopped (.inr ⟨hnil, hone⟩)
    · next hright =>
        refine .passed hsum ?_
        simpa [or_iff_not_imp_left] using hright
  · rw [hstop]
    exact .stopped (.inl hstop)

theorem isOne_of_checkSum {state : Nat} {row : Row RationalFunction}
    (h : checkSum state row = .ok ()) : row = [] ∨ (rowSum row).isOne = true := by
  have houtcome := checkSum_outcome state row
  rw [h] at houtcome
  cases houtcome with
  | passed _ hone => exact hone

end ModelFile

namespace TransitionMatrix

variable {W : Type} [Weight W] {columns : Nat}

theorem rowOfEntries_eq_ok_iff {entries row : Row W} : rowOfEntries columns entries = .ok row ↔
    (∀ e ∈ entries, e.1 < columns) ∧ Row.normalize entries = row := by
  unfold rowOfEntries
  split
  · next e he =>
      have hcolumn : columns ≤ e.1 := by simpa using List.find?_some he
      constructor
      · nofun
      · rintro ⟨hlt, -⟩
        exact absurd (hlt e (List.mem_of_find?_eq_some he)) (not_lt.mpr hcolumn)
  · next hnone =>
      have hlt : ∀ e ∈ entries, e.1 < columns := by simpa using hnone
      rw [Except.ok.injEq, and_iff_right hlt]

/-- A matrix holds the normalized rows, whose columns are in range. -/
theorem ofGroups_eq_ok_iff {groups : List (List (Row W))} {m : TransitionMatrix W} :
    ofGroups columns groups = .ok m ↔
      (∀ group ∈ groups, ∀ row ∈ group, ∀ e ∈ row, e.1 < columns) ∧
        m = ⟨columns, (groups.map fun group => group.map Row.normalize).toArray⟩ := by
  rw [ofGroups, bind_eq_ok_iff]
  simp only [mapM_eq_ok_iff_map (fun _ _ => mapM_eq_ok_iff_map fun _ _ => rowOfEntries_eq_ok_iff),
    pure_eq_ok_iff]
  constructor
  · rintro ⟨_, ⟨hlt, rfl⟩, rfl⟩
    exact ⟨hlt, rfl⟩
  · rintro ⟨hlt, rfl⟩
    exact ⟨_, ⟨hlt, rfl⟩, rfl⟩

/-- A matrix with one row for each state holds the normalized rows. -/
theorem ofRows_eq_ok {rows : List (Row W)} {m : TransitionMatrix W}
    (h : ofRows columns rows = .ok m) :
    (∀ row ∈ rows, ∀ e ∈ row, e.1 < columns) ∧ m.columns = columns ∧
      m.groups = (rows.map fun row => [Row.normalize row]).toArray := by
  obtain ⟨hlt, rfl⟩ := ofGroups_eq_ok_iff.mp h
  refine ⟨fun row hrow => ?_, rfl, ?_⟩
  · exact hlt [row] (List.mem_map_of_mem hrow) row (List.mem_singleton.mpr rfl)
  · rw [List.map_map]
    rfl

end TransitionMatrix

/-! ## The chains that are accepted -/

theorem checkState_eq_ok {states state : Nat} (h : checkState states state = .ok ()) :
    state < states := by
  unfold checkState at h
  split at h
  · assumption
  · cases h

namespace Chain

theorem validate_eq_ok {c : ParametricChain} (h : c.validate = .ok ()) :
    c.initial < c.states ∧ (∀ row ∈ c.transitions.rows, row ≠ []) ∧
      ∀ label ∈ c.labeling.labels, ∀ s ∈ label.2, s < c.states := by
  unfold validate at h
  dsimp only at h
  split at h
  · cases h
  · obtain ⟨-, -, h⟩ := bind_eq_ok_iff.mp h
    obtain ⟨_, hinitial, h⟩ := bind_eq_ok_iff.mp h
    refine ⟨checkState_eq_ok hinitial, ?_⟩
    split at h
    · cases h
    · next hnone =>
        refine ⟨fun row hrow => ?_, fun label hlabel s hs => ?_⟩
        · simpa using List.findIdx?_eq_none_iff.mp hnone row hrow
        · exact checkState_eq_ok (forM_eq_ok_iff.mp (forM_eq_ok_iff.mp h label hlabel) s hs)

/-- What holds of the chains of model files. -/
structure Regular (c : ParametricChain) : Prop where
  choices_eq : ∀ s < c.states, c.transitions.choices s = [c.row s]
  row_eq_nil : ∀ s, c.states ≤ s → c.row s = []
  sorted : ∀ s, (c.row s).Sorted
  column_lt : ∀ s, ∀ e ∈ c.row s, e.1 < c.states
  defined : ∀ s, Row.Defined fractionReading (c.row s)
  mass : ∀ s < c.states, (Row.read fractionReading (c.row s)).dot 1 = 1
  initial_lt : c.initial < c.states
  label_lt : ∀ label ∈ c.labeling.labels, ∀ s ∈ label.2, s < c.states

end Chain

/-- What a chain of a model file is made of. -/
theorem ModelFile.toChain_eq_ok {file : ModelFile} {c : ParametricChain}
    (h : file.toChain = .ok c) :
    ∃ entries : Nat → Row RationalFunction,
      (∀ s, Row.Defined fractionReading (entries s)) ∧
      (∀ s < file.states, checkSum s (entries s) = .ok ()) ∧
      (∀ s < file.states, ∀ e ∈ entries s, e.1 < file.states) ∧
      c.transitions.groups =
        ((List.range file.states).map fun s => [Row.normalize (entries s)]).toArray ∧
      c.validate = .ok () := by
  obtain ⟨ts, hts, h⟩ := bind_eq_ok_iff.mp h
  obtain ⟨⟨⟩, hsums, h⟩ := bind_eq_ok_iff.mp h
  obtain ⟨m, hm, h⟩ := bind_eq_ok_iff.mp h
  obtain ⟨⟨⟩, hvalid, h⟩ := bind_eq_ok_iff.mp h
  rw [pure_eq_ok_iff] at h
  subst h
  obtain ⟨hcolumns, -, hgroups⟩ := TransitionMatrix.ofRows_eq_ok hm
  refine ⟨entriesOf ts, ?_, ?_, ?_, ?_, hvalid⟩
  · intro s e he
    obtain ⟨t, ht, rfl⟩ := List.mem_map.mp he
    exact weighFrom_defined hts t (List.mem_filter.mp ht).1
  · intro s hs
    refine forM_eq_ok_iff.mp hsums (entriesOf ts s, s) ?_
    rw [List.mem_zipIdx_iff_getElem?]
    simp [hs]
  · intro s hs
    exact hcolumns _ (List.mem_map.mpr ⟨s, List.mem_range.mpr hs, rfl⟩)
  · rw [hgroups, List.map_map]
    rfl

namespace Chain

theorem row_of_groups {c : ParametricChain} {n : Nat} {rows : Nat → Row RationalFunction}
    (h : c.transitions.groups = ((List.range n).map fun s => [rows s]).toArray) :
    c.states = n ∧ (∀ s < n, c.row s = rows s ∧ c.transitions.choices s = [c.row s]) ∧
      (∀ s, n ≤ s → c.row s = []) ∧ ∀ s < n, c.row s ∈ c.transitions.rows := by
  have hrows : c.transitions.rows = (List.range n).map rows := by
    rw [TransitionMatrix.rows, h]
    generalize List.range n = l
    induction l with
    | nil => rfl
    | cons s rest ih => simpa using ih
  have hrow : ∀ s < n, c.row s = rows s := by
    intro s hs
    simp [Chain.row, hrows, hs]
  refine ⟨?_, fun s hs => ⟨hrow s hs, ?_⟩, fun s hs => ?_, fun s hs => ?_⟩
  · simp [states, TransitionMatrix.states, h]
  · rw [hrow s hs]
    simp [TransitionMatrix.choices, h, hs]
  · simp [Chain.row, hrows, hs]
  · rw [hrow s hs, hrows]
    exact List.mem_map.mpr ⟨s, List.mem_range.mpr hs, rfl⟩

/-- A state with a transition has a row of the matrix. -/
theorem row_mem_rows {c : ParametricChain} {s : Nat} {e : Nat × RationalFunction}
    (he : e ∈ c.row s) : c.row s ∈ c.transitions.rows := by
  rw [Chain.row, List.getD_eq_getElem?_getD] at he ⊢
  rcases hget : c.transitions.rows[s]? with _ | row
  · rw [hget] at he
    cases he
  · exact List.mem_of_getElem? hget

end Chain

theorem ModelFile.toChain_regular {file : ModelFile} {c : ParametricChain}
    (h : file.toChain = .ok c) : c.Regular := by
  obtain ⟨entries, hdefined, hsum, hcolumns, hgroups, hvalid⟩ := toChain_eq_ok h
  obtain ⟨hstates, hrow, hnil, hmem⟩ := Chain.row_of_groups hgroups
  obtain ⟨hinitial, hne, hlabels⟩ := Chain.validate_eq_ok hvalid
  -- Beyond the last state there is nothing to show.
  have hcases : ∀ {P : Row RationalFunction → Prop}, P [] →
      (∀ s < file.states, P (Row.normalize (entries s))) → ∀ s, P (c.row s) := by
    intro P h0 hP s
    by_cases hs : s < file.states
    · exact (hrow s hs).1 ▸ hP s hs
    · exact (hnil s (not_lt.mp hs)) ▸ h0
  refine ⟨fun s hs => (hrow s (hstates ▸ hs)).2, fun s hs => hnil s (hstates ▸ hs), ?_, ?_, ?_, ?_,
    hinitial, hlabels⟩
  · exact hcases List.Pairwise.nil fun s _ => Row.sorted_normalize _
  · rw [hstates]
    exact hcases (P := fun row => ∀ e ∈ row, e.1 < file.states) (by simp) fun s hs =>
      Row.forall_normalize (P := fun column _ => column < file.states) (fun _ _ _ h _ => h)
        (hcolumns s hs)
  · exact hcases (fun e he => absurd he List.not_mem_nil) fun s _ =>
      Row.forall_normalize (P := fun _ w => fractionReading.Defined w)
        (fun _ _ _ ha hb => (fractionReading.add ha hb).1) (hdefined s)
  · intro s hs
    rw [hstates] at hs
    have hentries : entries s ≠ [] := by
      intro hnil
      apply hne _ (hmem s hs)
      rw [(hrow s hs).1, hnil]
      simp [Row.normalize, Row.collapse]
    rw [(hrow s hs).1, Row.dot_read_normalize (hdefined s), ← (rowSum_read (hdefined s)).2,
      RationalFunction.eq_one_of_isOne
        ((isOne_of_checkSum (hsum s hs)).resolve_left hentries)]
    exact fractionReading.one.2

/-! ## Chains at a point -/

/-- The value of a function at a point, as a real number; zero where it has none. -/
noncomputable def RationalFunction.realValue (v : Valuation) (f : RationalFunction) : ℝ :=
  match f.evaluate v with
  | .ok w => w
  | .error _ => 0

theorem RationalFunction.realValue_eq {v : Valuation} {f : RationalFunction}
    (h : (pointReading v).Defined f) : f.realValue v = (pointReading v).value f := by
  obtain ⟨w, hw, hval⟩ := exists_evaluate_eq_ok h
  rw [realValue, hw]
  exact hval

namespace Chain

/-- The points at which every stored weight has a value that is positive and at most one. -/
def Admissible (c : ParametricChain) (v : Valuation) : Prop :=
  ∀ row ∈ c.transitions.rows, ∀ e ∈ row, ∃ w : ℚ, e.2.evaluate v = .ok w ∧ 0 < w ∧ w ≤ 1

/-- Whether a weight has such a value. -/
def isAdmissibleWeight (v : Valuation) (f : RationalFunction) : Bool :=
  match f.evaluate v with
  | .ok w => 0 < w && w ≤ 1
  | .error _ => false

theorem isAdmissibleWeight_iff {v : Valuation} {f : RationalFunction} :
    isAdmissibleWeight v f = true ↔ ∃ w : ℚ, f.evaluate v = .ok w ∧ 0 < w ∧ w ≤ 1 := by
  rw [isAdmissibleWeight]
  rcases f.evaluate v with _ | w
  · simp
  · simp

instance (c : ParametricChain) (v : Valuation) : Decidable (c.Admissible v) :=
  decidable_of_iff
    ((c.transitions.rows.all fun row => row.all fun e => isAdmissibleWeight v e.2) = true) (by
      simp only [List.all_eq_true, isAdmissibleWeight_iff, Admissible])

/-- The rows of a chain at a point. -/
noncomputable def rowsAt (c : ParametricChain) (v : Valuation) (s : Nat) : Row ℝ :=
  (c.row s).map fun e => (e.1, e.2.realValue v)

/-- The states in which the target of a formula holds. -/
def targetSet (c : ParametricChain) (target : StateFormula) : Set Nat :=
  {s | s < c.states ∧ target.HoldsIn c.labeling s}

/-- The vector `x` holds the probability of reaching `T` from each state of the chain at a point. -/
def IsProbability (c : ParametricChain) (v : Valuation) (T : Set Nat) (x : Nat → ℝ) : Prop :=
  IsReachability (c.rowsAt v) T x

namespace Admissible

variable {c : ParametricChain} {v : Valuation}

theorem of_mem (hv : c.Admissible v) {s : Nat} {e : Nat × RationalFunction} (he : e ∈ c.row s) :
    (pointReading v).Defined e.2 ∧ 0 < (pointReading v).value e.2 := by
  obtain ⟨w, hw, hpos, -⟩ := hv _ (row_mem_rows he) e he
  obtain ⟨hdef, hval⟩ := RationalFunction.evaluate_eq_ok_iff.mp hw
  exact ⟨hdef, hval ▸ Rat.cast_pos.mpr hpos⟩

theorem defined (hv : c.Admissible v) (s : Nat) : Row.Defined (pointReading v) (c.row s) :=
  fun _ he => (hv.of_mem he).1

theorem rowsAt_eq (hv : c.Admissible v) (s : Nat) :
    c.rowsAt v s = Row.read (pointReading v) (c.row s) := by
  refine List.map_congr_left fun e he => ?_
  rw [RationalFunction.realValue_eq (hv.of_mem he).1]

theorem pos (hv : c.Admissible v) {s : Nat} {e : Nat × ℝ} (he : e ∈ c.rowsAt v s) : 0 < e.2 := by
  rw [hv.rowsAt_eq] at he
  obtain ⟨d, hd, rfl⟩ := Row.mem_read.mp he
  exact (hv.of_mem hd).2

/-- The weights of a state add up to one at every admissible point. -/
theorem mass (hv : c.Admissible v) (hc : c.Regular) {s : Nat} (hs : s < c.states) :
    (c.rowsAt v s).dot 1 = 1 := by
  have hsum := ModelFile.rowSum_read (hv.defined s)
  have hfrac := ModelFile.rowSum_read (hc.defined s)
  rw [hv.rowsAt_eq, ← hsum.2]
  exact RationalFunction.value_eq_one_of_fraction hfrac.1 (hfrac.2.trans (hc.mass s hs)) hsum.1

theorem substochastic (hv : c.Admissible v) (hc : c.Regular) : Substochastic (c.rowsAt v) where
  nonneg _ _ he := (hv.pos he).le
  mass_le s := by
    by_cases hs : s < c.states
    · exact (hv.mass hc hs).le
    · rw [rowsAt, hc.row_eq_nil s (not_lt.mp hs)]
      exact zero_le_one

/-- At an admissible point every state has a probability. -/
theorem exists_isProbability (hv : c.Admissible v) (hc : c.Regular) (T : Set Nat) :
    ∃ x, c.IsProbability v T x :=
  (hv.substochastic hc).exists_isReachability T

theorem probability_mem_unit (hv : c.Admissible v) (hc : c.Regular) {T : Set Nat} {x : Nat → ℝ}
    (hx : c.IsProbability v T x) (s : Nat) : 0 ≤ x s ∧ x s ≤ 1 :=
  ⟨IsReachability.nonneg hx s, IsReachability.le_one hx (hv.substochastic hc) s⟩

end Admissible

theorem mem_labels_of_states? {labeling : Labeling} {name : String} {found : List Nat}
    (h : labeling.states? name = some found) : (name, found) ∈ labeling.labels := by
  obtain ⟨before, after, heq, -⟩ := List.lookup_eq_some_iff.mp h
  rw [heq]
  simp

theorem Regular.lt_of_states? {c : ParametricChain} (hc : c.Regular) {name : String}
    {found : List Nat} (h : c.labeling.states? name = some found) : ∀ s ∈ found, s < c.states :=
  hc.label_lt _ (mem_labels_of_states? h)

end Chain

end MarkovRegion
