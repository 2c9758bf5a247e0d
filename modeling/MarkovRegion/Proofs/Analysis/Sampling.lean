import MarkovRegion.Proofs.Analysis.Reachability
import MarkovRegion.Proofs.Region.Corners

/-!
# Models at a point

The weights of a state are lawful at a point if they have values there that form a distribution with
the sink (`Arena.Lawful`); exactly then the row of the state can be built
(`Arena.RowAt.lawful`, `Arena.Lawful.exists_rowAt`), and its linear form is the expectation of the
state at that point (`Arena.RowAt.dot_eq`).

`Arena.Instantiates m points` says that the rows of a state in the matrix `m` are those at the
points that are listed for it.  Chains at a point and bounding processes are both of this kind
(`Arena.instantiates_of_ofGroups`).
-/

namespace MarkovRegion

open RationalFunction (pointReading)

namespace Arena

variable {a : Arena} {s : Nat} {v : Valuation}

/-! ## Rows at a point -/

theorem evaluate_eq_ok_iff {f : RationalFunction} {q : ℚ} :
    evaluate f v = .ok q ↔ (pointReading v).Defined f ∧ (q : ℝ) = (pointReading v).value f := by
  rw [← RationalFunction.evaluate_eq_ok_iff, evaluate]
  split
  · next hq => rw [hq, Except.ok.injEq, Except.ok.injEq]
  · next hq => simp [hq]
  · next hq => simp [hq]

theorem weigh_eq_ok_iff {f : RationalFunction} {q : ℚ} :
    weigh f v = .ok q ↔
      ((pointReading v).Defined f ∧ (q : ℝ) = (pointReading v).value f) ∧ 0 ≤ q ∧ q ≤ 1 := by
  rw [← evaluate_eq_ok_iff, weigh, bind_eq_ok_iff]
  constructor
  · rintro ⟨value, hvalue, h⟩
    dsimp only at h
    split at h
    · cases h
    · next hrange =>
        obtain rfl := pure_eq_ok_iff.mp h
        simpa [hvalue] using hrange
  · rintro ⟨hq, h0, h1⟩
    refine ⟨q, hq, ?_⟩
    have hrange : (decide (q < 0) || decide (1 < q)) = false := by simpa using ⟨h0, h1⟩
    rw [hrange]
    rfl

/-- The weights of a row have been given their values. -/
def Weighed (v : Valuation) (row : Row RationalFunction) (entries : Row ℚ) : Prop :=
  List.Forall₂ (fun e d => d.1 = e.1 ∧ weigh e.2 v = .ok d.2) row entries

theorem mapM_weigh_eq_ok_iff {row : Row RationalFunction} {entries : Row ℚ} :
    (row.mapM fun e => return (e.1, ← weigh e.2 v) : Except CheckError (Row ℚ)) = .ok entries ↔
      Weighed v row entries := by
  have hentry : ∀ (e : Nat × RationalFunction) (d : Nat × ℚ),
      (do return (e.1, ← weigh e.2 v) : Except CheckError (Nat × ℚ)) = .ok d ↔
        d.1 = e.1 ∧ weigh e.2 v = .ok d.2 := by
    rintro e ⟨column, q⟩
    rw [bind_eq_ok_iff]
    simp only [pure_eq_ok_iff, Prod.mk.injEq]
    constructor
    · rintro ⟨value, hvalue, rfl, rfl⟩
      exact ⟨rfl, hvalue⟩
    · rintro ⟨rfl, hvalue⟩
      exact ⟨q, hvalue, rfl, rfl⟩
  simp only [mapM_eq_ok_iff, hentry, Weighed]

/-- The row of a state at a point lists the values of its weights, and what is missing to one. -/
theorem instantiateRow_eq_ok_iff {r : Row ℚ × ℚ} : a.instantiateRow s v = .ok r ↔
    Weighed v (a.row s) r.1 ∧
      r.2 = 1 - (r.1.map Prod.snd).sum ∧ 0 ≤ r.2 := by
  have hsum : ∀ entries : Row ℚ,
      entries.foldl (fun sum e => sum + e.2) 0 = (entries.map Prod.snd).sum := by
    intro entries
    rw [List.sum_eq_foldl, List.foldl_map]
  rw [instantiateRow, bind_eq_ok_iff]
  simp only [mapM_weigh_eq_ok_iff, hsum]
  constructor
  · rintro ⟨entries, hentries, h⟩
    split at h
    · cases h
    · next hmissing =>
        obtain rfl := pure_eq_ok_iff.mp h
        exact ⟨hentries, rfl, not_lt.mp hmissing⟩
  · obtain ⟨entries, missing⟩ := r
    rintro ⟨hentries, hmissing, h0⟩
    dsimp only at hentries hmissing h0
    subst hmissing
    refine ⟨entries, hentries, ?_⟩
    rw [if_neg (not_lt.mpr h0)]
    rfl

/-- The expected value of a state at a point: what is missing to one goes to the sink. -/
noncomputable def expectation (a : Arena) (s : Nat) (v : Valuation) (x : Nat → ℝ) : ℝ :=
  (Row.read (pointReading v) (a.row s)).dot x +
    (1 - (Row.read (pointReading v) (a.row s)).dot 1) * x a.sink

/-- The weights of a state form a distribution with the sink, and lead to states. -/
structure Lawful (a : Arena) (s : Nat) (v : Valuation) : Prop where
  defined : Row.Defined (pointReading v) (a.row s)
  nonneg : ∀ e ∈ a.row s, 0 ≤ (pointReading v).value e.2
  mass_le : (Row.read (pointReading v) (a.row s)).dot 1 ≤ 1
  column_lt : ∀ e ∈ a.row s, (pointReading v).value e.2 ≠ 0 → e.1 < a.states + 2

/-- The row of a state at a point, as a matrix holds it. -/
def RowAt (a : Arena) (s : Nat) (v : Valuation) (row : Row ℚ) : Prop :=
  ∃ r, a.instantiateRow s v = .ok r ∧
    TransitionMatrix.rowOfEntries (a.states + 2) (a.scalarRow r) = .ok row

theorem Weighed.read_eq {row : Row RationalFunction} {entries : Row ℚ} (h : Weighed v row entries) :
    Row.read realReading entries = Row.read (pointReading v) row := by
  induction h with
  | nil => rfl
  | cons hentry _ ih =>
      rw [Row.read_cons, Row.read_cons, ih, hentry.1, ← (weigh_eq_ok_iff.mp hentry.2).1.2]
      rfl

/-- The linear form of a row of scalars. -/
theorem dot_scalarRow (a : Arena) (r : Row ℚ × ℚ) (x : Nat → ℝ) :
    (Row.read realReading (a.scalarRow r)).dot x =
      (Row.read realReading r.1).dot x + r.2 * x a.sink := by
  have hfilter : ((r.1.filter fun e => e.2 ≠ 0).map fun e => (e.1, (Scalar.ofRat e.2 : ℚ))) =
      r.1.filter fun e => !Weight.isZero e.2 := by
    have hzero : (fun e : Nat × ℚ => decide (e.2 ≠ 0)) = fun e => !Weight.isZero e.2 :=
      funext fun e => decide_not
    rw [hzero]
    exact List.map_id _
  have hmissing : (Row.read realReading
      (if r.2 = 0 then [] else [(a.sink, Scalar.ofRat r.2)])).dot x =
      r.2 * x a.sink := by
    split
    · next h => simp [Row.read, h]
    · simp [Row.read, realReading, Scalar.ofRat]
  rw [scalarRow, hfilter, Row.read, List.map_append, Row.dot_append]
  exact congrArg₂ _ (Row.dot_read_filter_isZero r.1 x) hmissing

theorem mem_scalarRow {r : Row ℚ × ℚ} {e : Nat × ℚ} (he : e ∈ (a.scalarRow r : Row ℚ)) :
    e ∈ r.1 ∧ e.2 ≠ 0 ∨ e = (a.sink, r.2) := by
  rcases List.mem_append.mp he with he | he
  · obtain ⟨d, hd, rfl⟩ := List.mem_map.mp he
    obtain ⟨hmem, hne⟩ := List.mem_filter.mp hd
    exact Or.inl ⟨hmem, of_decide_eq_true hne⟩
  · split at he
    · cases he
    · exact Or.inr (List.mem_singleton.mp he)

namespace RowAt

variable {row : Row ℚ}

/-- The linear form of the row is the expectation of the state. -/
theorem dot_eq (h : a.RowAt s v row) (x : Nat → ℝ) :
    (Row.read realReading row).dot x = a.expectation s v x := by
  obtain ⟨r, hr, hrow⟩ := h
  obtain ⟨-, rfl⟩ := TransitionMatrix.rowOfEntries_eq_ok_iff.mp hrow
  obtain ⟨hentries, hmissing, -⟩ := instantiateRow_eq_ok_iff.mp hr
  rw [Row.dot_read_normalize fun _ _ => trivial, dot_scalarRow, hmissing, Rat.cast_sub,
    Row.cast_sum, hentries.read_eq, Rat.cast_one]
  rfl

theorem nonneg (h : a.RowAt s v row) : ∀ e ∈ row, 0 ≤ e.2 := by
  obtain ⟨r, hr, hrow⟩ := h
  obtain ⟨-, rfl⟩ := TransitionMatrix.rowOfEntries_eq_ok_iff.mp hrow
  obtain ⟨hentries, -, hmissing⟩ := instantiateRow_eq_ok_iff.mp hr
  refine Row.forall_normalize (P := fun _ w => 0 ≤ w) (fun _ _ _ ha hb => add_nonneg ha hb)
    fun e he => ?_
  rcases mem_scalarRow he with ⟨hmem, -⟩ | rfl
  · obtain ⟨d, -, hd⟩ := exists_mem_of_forall₂ (List.Forall₂.flip hentries) hmem
    exact (weigh_eq_ok_iff.mp hd.2).2.1
  · exact hmissing

theorem lawful (h : a.RowAt s v row) : a.Lawful s v := by
  obtain ⟨r, hr, hrow⟩ := h
  obtain ⟨hcolumns, -⟩ := TransitionMatrix.rowOfEntries_eq_ok_iff.mp hrow
  obtain ⟨hentries, hsum, hmissing⟩ := instantiateRow_eq_ok_iff.mp hr
  have hweigh : ∀ e ∈ a.row s, ∃ q, (e.1, q) ∈ r.1 ∧ weigh e.2 v = .ok q := by
    intro e he
    obtain ⟨⟨column, q⟩, hmem, rfl, hq⟩ := exists_mem_of_forall₂ hentries he
    exact ⟨q, hmem, hq⟩
  refine ⟨fun e he => ?_, fun e he => ?_, ?_, fun e he hne => ?_⟩
  · obtain ⟨q, -, hq⟩ := hweigh e he
    exact (weigh_eq_ok_iff.mp hq).1.1
  · obtain ⟨q, -, hq⟩ := hweigh e he
    obtain ⟨⟨-, hvalue⟩, h0, -⟩ := weigh_eq_ok_iff.mp hq
    exact hvalue ▸ Rat.cast_nonneg.mpr h0
  · rw [← hentries.read_eq, ← Row.cast_sum]
    rw [hsum, sub_nonneg] at hmissing
    exact_mod_cast hmissing
  · obtain ⟨q, hmem, hq⟩ := hweigh e he
    have hq0 : q ≠ 0 := by
      rintro rfl
      exact hne ((weigh_eq_ok_iff.mp hq).1.2.symm.trans Rat.cast_zero)
    refine hcolumns (e.1, q) (List.mem_append_left _ (List.mem_map.mpr ⟨(e.1, q), ?_, rfl⟩))
    exact List.mem_filter.mpr ⟨hmem, decide_eq_true hq0⟩

end RowAt

namespace Lawful

theorem read_nonneg (h : a.Lawful s v) : (Row.read (pointReading v) (a.row s)).Nonneg := by
  intro d hd
  obtain ⟨e, he, rfl⟩ := Row.mem_read.mp hd
  exact h.nonneg e he

theorem le_one (h : a.Lawful s v) {e : Nat × RationalFunction} (he : e ∈ a.row s) :
    (pointReading v).value e.2 ≤ 1 := by
  have hmem : (e.1, (pointReading v).value e.2) ∈ Row.read (pointReading v) (a.row s) :=
    Row.mem_read.mpr ⟨e, he, rfl⟩
  have hentry := Row.mul_le_dot (x := 1) h.read_nonneg (fun _ _ => zero_le_one) hmem
  rw [Pi.one_apply, mul_one] at hentry
  exact hentry.trans h.mass_le

theorem exists_weigh (h : a.Lawful s v) {e : Nat × RationalFunction} (he : e ∈ a.row s) :
    ∃ q, weigh e.2 v = .ok q := by
  obtain ⟨q, -, hvalue⟩ := RationalFunction.exists_evaluate_eq_ok (h.defined e he)
  refine ⟨q, weigh_eq_ok_iff.mpr ⟨⟨h.defined e he, hvalue⟩, ?_, ?_⟩⟩
  · exact_mod_cast hvalue.symm ▸ h.nonneg e he
  · exact_mod_cast hvalue.symm ▸ h.le_one he

/-- The row of a state can be built where its weights are lawful. -/
theorem exists_rowAt (h : a.Lawful s v) : ∃ row, a.RowAt s v row := by
  obtain ⟨entries, hmap⟩ : ∃ entries, ((a.row s).mapM fun e => return (e.1, ← weigh e.2 v) :
      Except CheckError (Row ℚ)) = .ok entries := by
    refine exists_mapM_eq_ok fun e he => ?_
    obtain ⟨q, hq⟩ := h.exists_weigh he
    exact ⟨_, bind_eq_ok_iff.mpr ⟨q, hq, rfl⟩⟩
  have hentries := mapM_weigh_eq_ok_iff.mp hmap
  have hmissing : 0 ≤ 1 - (entries.map Prod.snd).sum := by
    have hmass := h.mass_le
    rw [← hentries.read_eq, ← Row.cast_sum] at hmass
    exact sub_nonneg.mpr (by exact_mod_cast hmass)
  refine ⟨_, (entries, 1 - (entries.map Prod.snd).sum),
    instantiateRow_eq_ok_iff.mpr ⟨hentries, rfl, hmissing⟩,
    TransitionMatrix.rowOfEntries_eq_ok_iff.mpr ⟨fun d hd => ?_, rfl⟩⟩
  rcases mem_scalarRow hd with ⟨hmem, hne⟩ | rfl
  · obtain ⟨e, he, hcolumn, hq⟩ := exists_mem_of_forall₂ (List.Forall₂.flip hentries) hmem
    rw [hcolumn]
    refine h.column_lt e he fun hzero => hne ?_
    exact_mod_cast (weigh_eq_ok_iff.mp hq).1.2.trans hzero
  · exact Nat.lt_succ_self _

/-- The row of scalars can be built before its columns are checked. -/
theorem exists_scalarRow (h : a.Lawful s v) : ∃ row,
    (do return a.scalarRow (← a.instantiateRow s v) : Except CheckError (Row ℚ)) = .ok row := by
  obtain ⟨-, r, hr, -⟩ := h.exists_rowAt
  exact ⟨_, bind_eq_ok_iff.mpr ⟨r, hr, rfl⟩⟩

end Lawful

/-! ## Linear weights on a box -/

/-- All weights are linear. -/
def Linear (a : Arena) : Prop := ∀ s, ∀ e ∈ a.row s, e.2.isLinear = .ok true

theorem nodup_rowParameters (a : Arena) (s : Nat) : (a.rowParameters s).Nodup :=
  nodup_orderedKeys _

theorem mem_rowParameters {e : Nat × RationalFunction} (he : e ∈ a.row s) :
    ∀ p ∈ e.2.parameters, p ∈ a.rowParameters s :=
  fun _ hp => mem_orderedKeys.mpr (List.mem_flatMap.mpr ⟨e, he, hp⟩)

namespace Linear

variable (h : a.Linear)
include h

theorem linearOn_value {e : Nat × RationalFunction} (he : e ∈ a.row s) :
    LinearOn (a.rowParameters s) fun v => (pointReading v).value e.2 :=
  RationalFunction.linearOn_value (h s e he) (mem_rowParameters he)

theorem linearOn_dot (s : Nat) (x : Nat → ℝ) :
    LinearOn (a.rowParameters s) fun v => (Row.read (pointReading v) (a.row s)).dot x := by
  simp only [Row.dot, Row.read, List.map_map, Function.comp_def, mul_comm _ (x _)]
  exact LinearOn.list_sum fun e he => (h.linearOn_value he).const_mul (x e.1)

theorem linearOn_expectation (s : Nat) (x : Nat → ℝ) :
    LinearOn (a.rowParameters s) fun v => a.expectation s v x := by
  have hmissing := ((LinearOn.const _ 1).add (h.linearOn_dot s 1).neg).const_mul (x a.sink)
  simp only [expectation, sub_eq_add_neg, mul_comm _ (x a.sink)]
  exact (h.linearOn_dot s x).add hmissing

/-- Weights that are lawful at the corners are lawful in the whole box. -/
theorem lawful_of_vertices {b : Box} {points : List Valuation}
    (hvertices : b.vertices (a.rowParameters s) = .ok points)
    (hpoints : ∀ w ∈ points, a.Lawful s w) (hv : b.ContainsOn (a.rowParameters s) v) :
    a.Lawful s v := by
  have hnodup := a.nodup_rowParameters s
  have hnonneg : ∀ e ∈ a.row s, 0 ≤ (pointReading v).value e.2 := by
    intro e he
    obtain ⟨w, hw, hle⟩ := Box.exists_vertex_le hvertices hnodup (h.linearOn_value he) hv
    exact ((hpoints w hw).nonneg e he).trans hle
  refine ⟨fun e he => ?_, hnonneg, ?_, fun e he hne => ?_⟩
  · exact RationalFunction.defined_of_isLinear (h s e he) fun p hp =>
      hv.isSome p (mem_rowParameters he p hp)
  · obtain ⟨w, hw, hle⟩ := Box.exists_vertex_ge hvertices hnodup (h.linearOn_dot s 1) hv
    exact hle.trans (hpoints w hw).mass_le
  · -- A weight that is zero at all corners is zero.
    obtain ⟨w, hw, hle⟩ := Box.exists_vertex_ge hvertices hnodup (h.linearOn_value he) hv
    have hpos : 0 < (pointReading v).value e.2 := lt_of_le_of_ne (hnonneg e he) (Ne.symm hne)
    exact (hpoints w hw).column_lt e he (hpos.trans_le hle).ne'

end Linear

/-! ## The weights of a model -/

theorem states_ofModel (m : SimplifiedModel) : (ofModel m).states = m.system.states := by
  simp [ofModel, states]

/-- Storing each weight once loses nothing. -/
theorem row_ofModel {m : SimplifiedModel} (hs : s < m.system.states) :
    (ofModel m).row s = entriesOf m s := by
  have hstored : (ofModel m).rows.getD s [] =
      (entriesOf m s).map fun e => (e.1, (ofModel m).functions.idxOf e.2) := by
    simp [ofModel, hs]
  have hfound : ∀ e ∈ entriesOf m s,
      (ofModel m).function ((ofModel m).functions.idxOf e.2) = e.2 := by
    intro e he
    have hmem : e.2 ∈ (ofModel m).functions := by
      refine List.mem_eraseDups.mpr (List.mem_map_of_mem (List.mem_flatten.mpr ⟨_, ?_, he⟩))
      exact List.mem_map_of_mem (List.mem_range.mpr hs)
    rw [function, List.getD_eq_getElem?_getD, List.getElem?_idxOf hmem, Option.getD_some]
  rw [row, hstored, List.map_map]
  conv_rhs => rw [← List.map_id (entriesOf m s)]
  exact List.map_congr_left fun e he => Prod.ext rfl (hfound e he)

theorem mem_entriesOf_of_mem_row {m : SimplifiedModel} {e : Nat × RationalFunction}
    (he : e ∈ (ofModel m).row s) : s < m.system.states ∧ e ∈ entriesOf m s := by
  have hs : s < m.system.states := by
    by_contra hs
    have hsize : (ofModel m).rows.size = m.system.states := states_ofModel m
    rw [row, getD_of_size_le _ (hsize ▸ not_lt.mp hs)] at he
    cases he
  exact ⟨hs, row_ofModel hs ▸ he⟩

theorem mem_weights_of_mem_row {m : SimplifiedModel} {e : Nat × RationalFunction}
    (he : e ∈ (ofModel m).row s) : e.2 ∈ SimplifiedModel.weights m.system := by
  obtain ⟨hs, he⟩ := mem_entriesOf_of_mem_row he
  refine List.mem_flatMap.mpr ⟨s, List.mem_range.mpr hs, ?_⟩
  rcases List.mem_append.mp he with he | he
  · exact List.mem_append_left _ (List.mem_map_of_mem he)
  · split at he
    · cases he
    · rw [List.mem_singleton.mp he]
      exact List.mem_append_right _ (List.mem_singleton_self _)

theorem linear_ofModel {m : SimplifiedModel}
    (h : SimplifiedModel.areLinear (SimplifiedModel.weights m.system) = .ok true) :
    (ofModel m).Linear := by
  intro s e he
  obtain ⟨answers, hanswers, hall⟩ := bind_eq_ok_iff.mp h
  obtain ⟨answer, hmem, hanswer⟩ :=
    exists_mem_of_forall₂ (mapM_eq_ok_iff.mp hanswers) (mem_weights_of_mem_row he)
  rw [hanswer, show answer = true from List.all_eq_true.mp (pure_eq_ok_iff.mp hall) answer hmem]

/-! ## Matrices of rows at points -/

/-- The rows of a state in a matrix are those at the points listed for it; the target and the sink
stay where they are. -/
structure Instantiates (a : Arena) (m : TransitionMatrix ℚ) (points : Nat → List Valuation) :
    Prop where
  states_eq : m.states = a.states + 2
  exists_point : ∀ s < a.states, ∀ row ∈ m.choices s, ∃ w ∈ points s, a.RowAt s w row
  exists_row : ∀ s < a.states, ∀ w ∈ points s, ∃ row ∈ m.choices s, a.RowAt s w row
  choices_target : m.choices a.target = [[(a.target, 1)]]
  choices_sink : m.choices a.sink = [[(a.sink, 1)]]

/-- A group of rows for some points, before it enters a matrix. -/
structure RowsAt (a : Arena) (s : Nat) (points : List Valuation) (group : List (Row ℚ)) : Prop where
  exists_point : ∀ row ∈ group, ∃ w ∈ points, ∃ r, a.instantiateRow s w = .ok r ∧
    a.scalarRow r = row
  exists_row : ∀ w ∈ points, ∃ r, a.instantiateRow s w = .ok r ∧ a.scalarRow r ∈ group

theorem normalize_singleton (column : Nat) : Row.normalize [(column, (1 : ℚ))] = [(column, 1)] := by
  have hone : Weight.isZero (1 : ℚ) = false := rfl
  simp [Row.normalize, Row.collapse, Row.collapseFrom, hone]

/-- The linear form of the row that stays at a state. -/
theorem dot_stay (s : Nat) (x : Nat → ℝ) : (Row.read realReading [(s, 1)]).dot x = x s := by
  simp [Row.read, Row.dot, realReading]

/-- Rows that lead to the states of an arena make a matrix with its target and sink. -/
theorem exists_ofGroups_of_columns {α : Type} [Scalar α] (a : Arena) {groups : List (List (Row α))}
    (h : ∀ group ∈ groups, ∀ row ∈ group, ∀ d ∈ row, d.1 < a.states + 2) :
    ∃ m, TransitionMatrix.ofGroups (a.states + 2) (groups ++ a.finalRows.map fun row => [row]) =
      .ok m := by
  refine ⟨_, TransitionMatrix.ofGroups_eq_ok_iff.mpr ⟨fun group hgroup row hrow => ?_, rfl⟩⟩
  rcases List.mem_append.mp hgroup with hgroup | hgroup
  · exact h group hgroup row hrow
  · simp only [finalRows, List.map_cons, List.map_nil, List.mem_cons, List.not_mem_nil,
      or_false] at hgroup
    rcases hgroup with rfl | rfl
    · rw [List.mem_singleton.mp hrow]
      simp [target]
    · rw [List.mem_singleton.mp hrow]
      simp [sink]

section OfGroups

variable {groups : List (List (Row ℚ))} {points : Nat → List Valuation}
  (hgroups : List.Forall₂ (fun s group => a.RowsAt s (points s) group) (List.range a.states) groups)
include hgroups

theorem rowsAt_of_forall₂ (hs : s < a.states) :
    ∃ group, groups[s]? = some group ∧ a.RowsAt s (points s) group := by
  have hlength : groups.length = a.states := by
    rw [← hgroups.length_eq, List.length_range]
  have hget := hgroups.get (i := s) (by simpa using hs) (by simpa [hlength] using hs)
  refine ⟨_, List.getElem?_eq_getElem (by simpa [hlength] using hs), ?_⟩
  simpa using hget

/-- The matrix of groups of rows for some points. -/
theorem instantiates_of_ofGroups {m : TransitionMatrix ℚ} (hm : TransitionMatrix.ofGroups
    (a.states + 2) (groups ++ a.finalRows.map fun row => [row]) = .ok m) :
    a.Instantiates m points := by
  obtain ⟨hcolumns, hmatrix⟩ := TransitionMatrix.ofGroups_eq_ok_iff.mp hm
  have hlength : groups.length = a.states := by
    rw [← hgroups.length_eq, List.length_range]
  have hget : ∀ s, m.choices s =
      (((groups ++ a.finalRows.map fun row => [row])[s]?).getD []).map Row.normalize := by
    intro s
    rw [hmatrix, TransitionMatrix.choices, Array.getD_eq_getD_getElem?, List.getElem?_toArray,
      List.getElem?_map]
    cases (groups ++ a.finalRows.map fun row => [row])[s]? with
    | none => rfl
    | some group => rfl
  have hchoices : ∀ s < a.states, ∃ group ∈ groups, a.RowsAt s (points s) group ∧
      m.choices s = group.map Row.normalize := by
    intro s hs
    obtain ⟨group, hgroup, hrows⟩ := rowsAt_of_forall₂ hgroups hs
    refine ⟨group, List.mem_of_getElem? hgroup, hrows, ?_⟩
    rw [hget, List.getElem?_append_left (hlength.symm ▸ hs), hgroup, Option.getD_some]
  have hfinal : ∀ i, m.choices (a.states + i) =
      (((a.finalRows.map fun row => [row])[i]?).getD []).map Row.normalize := by
    intro i
    rw [hget, List.getElem?_append_right (hlength.trans_le (Nat.le_add_right _ _)), hlength,
      Nat.add_sub_cancel_left]
  have hrow : ∀ s w r, ∀ group ∈ groups, a.instantiateRow s w = .ok r → a.scalarRow r ∈ group →
      a.RowAt s w (Row.normalize (a.scalarRow r)) := by
    intro s w r group hgroup hr hmem
    refine ⟨r, hr, TransitionMatrix.rowOfEntries_eq_ok_iff.mpr ⟨?_, rfl⟩⟩
    exact hcolumns group (List.mem_append_left _ hgroup) _ hmem
  refine ⟨?_, fun s hs row hmem => ?_, fun s hs w hw => ?_, ?_, ?_⟩
  · rw [hmatrix]
    simp [TransitionMatrix.states, finalRows, hlength]
  · obtain ⟨group, hgroup, hrows, heq⟩ := hchoices s hs
    rw [heq] at hmem
    obtain ⟨entries, hentries, rfl⟩ := List.mem_map.mp hmem
    obtain ⟨w, hw, r, hr, rfl⟩ := hrows.exists_point entries hentries
    exact ⟨w, hw, hrow s w r group hgroup hr hentries⟩
  · obtain ⟨group, hgroup, hrows, heq⟩ := hchoices s hs
    obtain ⟨r, hr, hmem⟩ := hrows.exists_row w hw
    exact ⟨_, heq ▸ List.mem_map_of_mem hmem, hrow s w r group hgroup hr hmem⟩
  · exact (hfinal 0).trans (congrArg (fun row => [row]) (normalize_singleton a.target))
  · exact (hfinal 1).trans (congrArg (fun row => [row]) (normalize_singleton a.sink))

theorem exists_ofGroups (hlawful : ∀ s < a.states, ∀ w ∈ points s, a.Lawful s w) :
    ∃ m, TransitionMatrix.ofGroups (a.states + 2) (groups ++ a.finalRows.map fun row => [row]) =
      .ok m := by
  refine a.exists_ofGroups_of_columns fun group hgroup row hrow => ?_
  obtain ⟨s, hs, hrows⟩ := exists_mem_of_forall₂ hgroups.flip hgroup
  obtain ⟨w, hw, r, hr, rfl⟩ := hrows.exists_point row hrow
  obtain ⟨row', r', hr', hrow'⟩ := (hlawful s (List.mem_range.mp hs) w hw).exists_rowAt
  obtain rfl : r = r' := Except.ok.inj (hr.symm.trans hr')
  exact (TransitionMatrix.rowOfEntries_eq_ok_iff.mp hrow').1

end OfGroups

namespace Instantiates

variable {m : TransitionMatrix ℚ} {points : Nat → List Valuation}

/-- A choice is the row of a state at a point, or stays at the target or the sink. -/
theorem choices_cases (h : a.Instantiates m points) {row : Row ℚ} (hrow : row ∈ m.choices s) :
    (s < a.states ∧ ∃ w ∈ points s, a.RowAt s w row) ∨
      (s = a.target ∨ s = a.sink) ∧ m.choices s = [[(s, 1)]] := by
  have hs := TransitionMatrix.lt_states_of_mem_choices hrow
  rw [h.states_eq] at hs
  by_cases hstate : s < a.states
  · exact Or.inl ⟨hstate, h.exists_point s hstate row hrow⟩
  · obtain rfl | rfl : s = a.target ∨ s = a.sink := by
      rw [target, sink]
      omega
    · exact Or.inr ⟨Or.inl rfl, h.choices_target⟩
    · exact Or.inr ⟨Or.inr rfl, h.choices_sink⟩

theorem substochastic (h : a.Instantiates m points) : SubstochasticChoices m.realChoices := by
  refine ⟨fun s row hrow => ?_, fun s row hrow => ?_⟩
  · obtain ⟨entries, hentries, rfl⟩ := List.mem_map.mp hrow
    intro d hd
    obtain ⟨e, he, rfl⟩ := Row.mem_read.mp hd
    refine Rat.cast_nonneg.mpr ?_
    rcases h.choices_cases hentries with ⟨-, w, -, hw⟩ | ⟨-, hstay⟩
    · exact hw.nonneg e he
    · rw [hstay, List.mem_singleton] at hentries
      rw [hentries, List.mem_singleton] at he
      rw [he]
      exact zero_le_one
  · obtain ⟨entries, hentries, rfl⟩ := List.mem_map.mp hrow
    rcases h.choices_cases hentries with ⟨-, w, -, hw⟩ | ⟨-, hstay⟩
    · rw [hw.dot_eq, expectation, Pi.one_apply, mul_one, add_sub_cancel]
    · rw [hstay, List.mem_singleton] at hentries
      rw [hentries, dot_stay, Pi.one_apply]

theorem choices_ne_nil (h : a.Instantiates m points) (hpoints : ∀ s < a.states, points s ≠ [])
    (hs : s < m.states) : m.choices s ≠ [] := by
  by_cases hstate : s < a.states
  · obtain ⟨w, hw⟩ := List.exists_mem_of_ne_nil _ (hpoints s hstate)
    obtain ⟨row, hrow, -⟩ := h.exists_row s hstate w hw
    exact List.ne_nil_of_mem hrow
  · rw [h.states_eq] at hs
    obtain rfl | rfl : s = a.target ∨ s = a.sink := by
      rw [target, sink]
      omega
    · rw [h.choices_target]
      exact List.cons_ne_nil _ _
    · rw [h.choices_sink]
      exact List.cons_ne_nil _ _

theorem proper (h : a.Instantiates m points) (hpoints : ∀ s < a.states, points s ≠ []) :
    m.Proper :=
  ⟨h.substochastic, fun _ hs => h.choices_ne_nil hpoints hs⟩

theorem lawful (h : a.Instantiates m points) (hs : s < a.states) {w : Valuation}
    (hw : w ∈ points s) : a.Lawful s w := by
  obtain ⟨row, -, hrow⟩ := h.exists_row s hs w hw
  exact hrow.lawful

theorem choices_eq_nil (h : a.Instantiates m points) (hs : a.states + 2 ≤ s) :
    m.choices s = [] := by
  refine List.eq_nil_iff_forall_not_mem.mpr fun row hrow => ?_
  exact absurd (TransitionMatrix.lt_states_of_mem_choices hrow) (not_lt.mpr (h.states_eq ▸ hs))

section Encloses

variable {inner : TransitionMatrix ℚ} {samples : Nat → List Valuation}
  (h : a.Instantiates m points) (hinner : a.Instantiates inner samples)
include h hinner

/-- What holds between expectations at points holds between choices. -/
theorem exists_choice {R : ℝ → ℝ → Prop} (hrefl : ∀ y, R y y) {x : Nat → ℝ}
    (hpoint : ∀ s < a.states, ∀ w ∈ samples s, ∃ u ∈ points s,
      R (a.expectation s u x) (a.expectation s w x)) :
    ∀ s, ∀ row ∈ inner.realChoices s, ∃ outer ∈ m.realChoices s, R (outer.dot x) (row.dot x) := by
  intro s row hrow
  obtain ⟨entries, hentries, rfl⟩ := List.mem_map.mp hrow
  rcases hinner.choices_cases hentries with ⟨hs, w, hw, hat⟩ | ⟨hs, hstay⟩
  · obtain ⟨u, hu, hR⟩ := hpoint s hs w hw
    obtain ⟨outer, houter, hat'⟩ := h.exists_row s hs u hu
    refine ⟨_, List.mem_map_of_mem houter, ?_⟩
    rwa [hat'.dot_eq, hat.dot_eq]
  · have heq : m.choices s = inner.choices s := by
      rcases hs with rfl | rfl
      · rw [h.choices_target, hinner.choices_target]
      · rw [h.choices_sink, hinner.choices_sink]
    exact ⟨_, List.mem_map_of_mem (heq ▸ hentries), hrefl _⟩

/-- A matrix encloses another one if its points enclose those of the other in expectation. -/
theorem encloses (hsamples : ∀ s < a.states, samples s ≠ [])
    (hle : ∀ x, ∀ s < a.states, ∀ w ∈ samples s, ∃ u ∈ points s,
      a.expectation s u x ≤ a.expectation s w x)
    (hge : ∀ x, ∀ s < a.states, ∀ w ∈ samples s, ∃ u ∈ points s,
      a.expectation s w x ≤ a.expectation s u x) :
    Encloses m.realChoices inner.realChoices := by
  refine ⟨fun s row hrow x => ?_, fun s row hrow x => ?_, fun s hnil => ?_⟩
  · exact exists_choice h hinner (R := fun y z => y ≤ z) le_refl (hle x) s row hrow
  · exact exists_choice h hinner (R := fun y z => z ≤ y) le_refl (hge x) s row hrow
  · have hout : a.states + 2 ≤ s := by
      by_contra hs
      rw [← hinner.states_eq, not_le] at hs
      exact hinner.choices_ne_nil hsamples hs (List.map_eq_nil_iff.mp hnil)
    rw [TransitionMatrix.realChoices, h.choices_eq_nil hout, List.map_nil]

end Encloses

end Instantiates

/-- With linear weights, the rows at the corners of a box enclose those at points of the box. -/
theorem Linear.encloses (hlinear : a.Linear) {b : Box} {m inner : TransitionMatrix ℚ}
    {points samples : Nat → List Valuation} (h : a.Instantiates m points)
    (hpoints : ∀ s < a.states, b.vertices (a.rowParameters s) = .ok (points s))
    (hinner : a.Instantiates inner samples) (hsamples : ∀ s < a.states, samples s ≠ [])
    (hcontains : ∀ s < a.states, ∀ w ∈ samples s, b.ContainsOn (a.rowParameters s) w) :
    Encloses m.realChoices inner.realChoices :=
  h.encloses hinner hsamples
    (fun x s hs w hw => Box.exists_vertex_le (hpoints s hs) (a.nodup_rowParameters s)
      (hlinear.linearOn_expectation s x) (hcontains s hs w hw))
    fun x s hs w hw => Box.exists_vertex_ge (hpoints s hs) (a.nodup_rowParameters s)
      (hlinear.linearOn_expectation s x) (hcontains s hs w hw)

/-! ## The chain at a point -/

/-- The rows of a chain before they enter its matrix. -/
theorem rowsAt_singleton {rows : List (Row ℚ)}
    (h : ((List.range a.states).mapM fun s => return a.scalarRow (← a.instantiateRow s v) :
      Except CheckError (List (Row ℚ))) = .ok rows) :
    List.Forall₂ (fun s group => a.RowsAt s [v] group) (List.range a.states)
      (rows.map fun row => [row]) := by
  rw [mapM_eq_ok_iff] at h
  rw [List.forall₂_map_right_iff]
  refine h.imp fun s row hrow => ?_
  obtain ⟨r, hr, hpure⟩ := bind_eq_ok_iff.mp hrow
  obtain rfl := pure_eq_ok_iff.mp hpure
  refine ⟨fun row hrow => ?_, fun w hw => ?_⟩
  · exact ⟨v, List.mem_singleton_self v, r, hr, (List.mem_singleton.mp hrow).symm⟩
  · rw [List.mem_singleton.mp hw]
    exact ⟨r, hr, List.mem_singleton_self _⟩

theorem instantiates_of_instantiate {m : TransitionMatrix ℚ} (h : a.instantiate v = .ok m) :
    a.Instantiates m fun _ => [v] := by
  obtain ⟨rows, hrows, hmatrix⟩ := bind_eq_ok_iff.mp h
  rw [liftModel, mapError_eq_ok_iff, TransitionMatrix.ofRows, List.map_append] at hmatrix
  exact instantiates_of_ofGroups (rowsAt_singleton hrows) hmatrix

/-- The chain at a point exists if the weights of all states are lawful there. -/
theorem exists_instantiate (h : ∀ s < a.states, a.Lawful s v) :
    ∃ m : TransitionMatrix ℚ, a.instantiate v = .ok m := by
  obtain ⟨rows, hrows⟩ : ∃ rows, ((List.range a.states).mapM fun s =>
      return a.scalarRow (← a.instantiateRow s v) :
      Except CheckError (List (Row ℚ))) = .ok rows :=
    exists_mapM_eq_ok fun s hs => (h s (List.mem_range.mp hs)).exists_scalarRow
  obtain ⟨m, hm⟩ := exists_ofGroups (rowsAt_singleton hrows) fun s hs w hw =>
    List.mem_singleton.mp hw ▸ h s hs
  refine ⟨m, bind_eq_ok_iff.mpr ⟨rows, hrows, ?_⟩⟩
  rw [liftModel, mapError_eq_ok_iff, TransitionMatrix.ofRows, List.map_append]
  exact hm

/-- In the chain at a point there is nothing to choose. -/
theorem length_choices_le_one {m : TransitionMatrix ℚ} (h : a.instantiate v = .ok m) (s : Nat) :
    (m.choices s).length ≤ 1 := by
  obtain ⟨rows, -, hmatrix⟩ := bind_eq_ok_iff.mp h
  obtain ⟨-, -, hgroups⟩ := TransitionMatrix.ofRows_eq_ok (mapError_eq_ok_iff.mp hmatrix)
  rw [TransitionMatrix.choices, hgroups, Array.getD_eq_getD_getElem?, List.getElem?_toArray,
    List.getElem?_map]
  cases (rows ++ a.finalRows)[s]? with
  | none => exact Nat.zero_le 1
  | some row => exact le_rfl

theorem isReachability_realRow_iff {m : TransitionMatrix ℚ} (h : a.instantiate v = .ok m)
    (direction : Direction) {T : Set Nat} {x : Nat → ℝ} :
    IsReachability m.realRow T x ↔ IsOptimal direction m.realChoices T x := by
  refine isReachability_iff_isOptimal direction fun s => ?_
  have hlength := length_choices_le_one h s
  rw [TransitionMatrix.realChoices, TransitionMatrix.realRow]
  rcases hchoices : m.choices s with _ | ⟨row, _ | ⟨other, rest⟩⟩
  · exact Or.inr ⟨rfl, rfl⟩
  · exact Or.inl rfl
  · rw [hchoices, List.length_cons, List.length_cons] at hlength
    omega

end Arena

end MarkovRegion
