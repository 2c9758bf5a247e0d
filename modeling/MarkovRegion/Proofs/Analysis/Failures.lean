import MarkovRegion.Proofs.Analysis.Approximation
import MarkovRegion.Proofs.Analysis.Parameters

/-!
# How the analysis of a box can fail

If a box bounds all parameters of a model, then no value is ever missing and no parameter unknown.
What is left are failures that no check of parameters can foresee (`CheckError.Inherent`): the box
has too many corners, the model has no meaning at a point of the box, or a solver fails.  Apart from
these a computation may stop because a list of corners finds no room (`CheckError.OutOfRoom`).

A point at which a row is built, by sampling or for the bounding process, gives values to all
parameters of the row.  So the only failure there is that the point is ill-defined
(`Arena.IllDefinedAt`), whatever numbers the rows are made of.  Matrices can always be built, as the
rows of an arena lead to its states.
-/

namespace MarkovRegion

/-! ## Points of a box -/

namespace Box

variable {b : Box} {parameters : List Parameter} {points : List Valuation} {v : Valuation}

/-- All values that the point gives are values of the box. -/
def Bounds (b : Box) (v : Valuation) : Prop :=
  ∀ p x, v.find? p = some x →
    ∃ side, b.sides.find? p = some side ∧ side.lower ≤ x ∧ x ≤ side.upper

theorem bounds_of_chosen {sides : List (Parameter × Interval)} {values : List (Parameter × ℚ)}
    (hsides : ∀ s ∈ sides, b.sides.find? s.1 = some s.2) (hnodup : (sides.map Prod.fst).Nodup)
    (h : Chosen sides values) : b.Bounds (.ofList values) := by
  intro p x hx
  rw [OrderedMap.find?_ofList (h.map_fst_eq ▸ hnodup)] at hx
  obtain ⟨s, hs, rfl, hbounds⟩ := exists_mem_of_forall₂ (List.Forall₂.flip h) hx
  exact ⟨s.2, hsides s hs, hbounds⟩

theorem bounds_of_mem_vertices (hvertices : b.vertices parameters = .ok points)
    (hnodup : parameters.Nodup) (hv : v ∈ points) : b.Bounds v := by
  obtain ⟨sides, ⟨rfl, hsides⟩, -, rfl⟩ := vertices_eq_ok_iff.mp hvertices
  obtain ⟨corner, hcorner, rfl⟩ := List.mem_map.mp hv
  exact bounds_of_chosen hsides hnodup (Chosen.of_mem_corners hcorner)

theorem bounds_midpoint (b : Box) : b.Bounds b.midpoint := by
  have hchosen : Chosen b.sides.entries (b.sides.entries.map fun e => (e.1, e.2.middle)) := by
    rw [Chosen, List.forall₂_map_right_iff, List.forall₂_same]
    exact fun s _ => ⟨rfl, s.2.middle_mem⟩
  exact bounds_of_chosen (fun s hs => OrderedMap.find?_eq_some_iff.mpr hs) b.sides.nodup_keys
    hchosen

theorem mem_domain_midpoint (b : Box) : ∀ p ∈ b.parameters, p ∈ b.midpoint.domain :=
  (containsOn_of_contains b.contains_midpoint fun _ hp => hp).isSome

/-- The corners over parameters of the box cannot be listed only if they are too many. -/
theorem crowded_of_vertices {e : RegionError} (hparameters : ∀ p ∈ parameters, p ∈ b.parameters)
    (h : b.vertices parameters = .error e) : Crowded parameters.length e := by
  obtain ⟨sides, hsides⟩ := exists_sidesOf hparameters
  rcases vertices_cases hsides with ⟨-, hvertices⟩ | ⟨e', he', hvertices⟩
  · cases h.symm.trans hvertices
  · exact Except.error.inj (h.symm.trans hvertices) ▸ he'

/-- A sample point of a box lies in it, and gives a value to each of its parameters. -/
theorem bounds_of_mem_samplePoints (h : b.samplePoints = .ok points) (hv : v ∈ points) :
    b.Bounds v ∧ ∀ p ∈ b.parameters, p ∈ v.domain := by
  obtain ⟨corners, hcorners, h⟩ := bind_eq_ok_iff.mp h
  obtain rfl := pure_eq_ok_iff.mp h
  rcases List.mem_append.mp hv with hv | hv
  · exact ⟨bounds_of_mem_vertices hcorners b.sides.nodup_keys hv,
      (containsOn_of_mem_vertices hcorners b.sides.nodup_keys hv).isSome⟩
  · rw [List.mem_singleton.mp hv]
    exact ⟨b.bounds_midpoint, b.mem_domain_midpoint⟩

end Box

/-! ## Rows at a point -/

/-- A function whose parameters all have values can only fail to be evaluated at a pole. -/
theorem RationalFunction.evaluate_cases {f : RationalFunction} {v : Valuation}
    (h : ∀ p ∈ f.parameters, p ∈ v.domain) :
    (∃ x, f.evaluate v = .ok x) ∨ f.evaluate v = .error (.divisionByZero f.text) := by
  have hlower := Polynomial.evaluate_eq_ok_iff.mpr
    ⟨fun p hp => h p (mem_parameters.mpr (Or.inr hp)), rfl⟩
  have hupper := Polynomial.evaluate_eq_ok_iff.mpr
    ⟨fun p hp => h p (mem_parameters.mpr (Or.inl hp)), rfl⟩
  rw [evaluate, hlower, hupper]
  by_cases h0 : MvPolynomial.eval v.assignment f.denominator.toRing = 0
  · exact Or.inr (by rw [h0]; rfl)
  · exact Or.inl ⟨_, (if_neg h0 : _ = Except.ok (_ / _))⟩

namespace Arena

/-- The model has no meaning at the point. -/
def IllDefinedAt (v : Valuation) (e : CheckError) : Prop := ∃ reason, e = illDefined v reason

variable {a : Arena} {s : Nat} {v : Valuation} {e : CheckError} {f : RationalFunction}
  {parameters : List Parameter}

theorem illDefinedAt_of_evaluate (hf : ∀ p ∈ f.parameters, p ∈ v.domain)
    (h : evaluate f v = .error e) : IllDefinedAt v e := by
  rcases RationalFunction.evaluate_cases hf with ⟨x, hx⟩ | hpole
  · rw [evaluate, hx] at h
    cases h
  · rw [evaluate, hpole] at h
    exact ⟨_, (Except.error.inj h).symm⟩

theorem illDefinedAt_of_weigh (hf : ∀ p ∈ f.parameters, p ∈ v.domain)
    (h : weigh f v = .error e) : IllDefinedAt v e := by
  rcases bind_eq_error_iff.mp h with hvalue | ⟨x, -, hrange⟩
  · exact illDefinedAt_of_evaluate hf hvalue
  · dsimp only at hrange
    split at hrange
    · exact ⟨_, (Except.error.inj hrange).symm⟩
    · cases hrange

theorem illDefinedAt_of_instantiateRow (hv : ∀ p ∈ a.rowParameters s, p ∈ v.domain)
    (h : a.instantiateRow s v = .error e) : IllDefinedAt v e := by
  rcases bind_eq_error_iff.mp h with hentries | ⟨entries, -, hsum⟩
  · obtain ⟨d, hd, hentry⟩ := exists_mem_of_mapM_eq_error hentries
    rcases bind_eq_error_iff.mp hentry with hweigh | ⟨x, -, hpure⟩
    · exact illDefinedAt_of_weigh (fun p hp => hv p (mem_rowParameters hd p hp)) hweigh
    · cases hpure
  · dsimp only at hsum
    split at hsum
    · exact ⟨_, (Except.error.inj hsum).symm⟩
    · cases hsum

variable {α : Type} [Scalar α]

theorem column_lt_scalarRow (ha : a.Within parameters) {r : Row ℚ × ℚ}
    (h : a.instantiateRow s v = .ok r) : ∀ d ∈ (a.scalarRow r : Row α), d.1 < a.states + 2 := by
  obtain ⟨hweighed, -, -⟩ := instantiateRow_eq_ok_iff.mp h
  intro d hd
  rcases List.mem_append.mp hd with hd | hd
  · obtain ⟨d', hd', rfl⟩ := List.mem_map.mp hd
    obtain ⟨d'', hd'', hcolumn, -⟩ :=
      exists_mem_of_forall₂ (List.Forall₂.flip hweighed) (List.mem_filter.mp hd').1
    show d'.1 < _
    rw [hcolumn]
    exact ha.column_lt s d'' hd''
  · split at hd
    · cases hd
    · rw [List.mem_singleton.mp hd]
      exact Nat.lt_succ_self _

theorem illDefinedAt_of_instantiate (ha : a.Within parameters)
    (hv : ∀ p ∈ parameters, p ∈ v.domain)
    (h : (a.instantiate v : Except CheckError (TransitionMatrix α)) = .error e) :
    IllDefinedAt v e := by
  rcases bind_eq_error_iff.mp h with hrows | ⟨rows, hrows, hmatrix⟩
  · obtain ⟨s, -, hrow⟩ := exists_mem_of_mapM_eq_error hrows
    rcases bind_eq_error_iff.mp hrow with hrow | ⟨r, -, hpure⟩
    · exact illDefinedAt_of_instantiateRow (fun p hp => hv p (ha.mem_parameters s p hp)) hrow
    · cases hpure
  · have hcolumns : ∀ group ∈ rows.map fun row => [row], ∀ row ∈ group, ∀ d ∈ row,
        d.1 < a.states + 2 := by
      intro group hgroup row hrow
      obtain ⟨entries, hentries, rfl⟩ := List.mem_map.mp hgroup
      obtain rfl := List.mem_singleton.mp hrow
      obtain ⟨s, -, hs⟩ := exists_mem_of_forall₂ (mapM_eq_ok_iff.mp hrows).flip hentries
      obtain ⟨r, hr, hpure⟩ := bind_eq_ok_iff.mp hs
      exact pure_eq_ok_iff.mp hpure ▸ column_lt_scalarRow ha hr
    obtain ⟨m, hm⟩ := a.exists_ofGroups_of_columns hcolumns
    rw [TransitionMatrix.ofRows, List.map_append, hm] at hmatrix
    cases hmatrix

/-- Groups of such rows, one for each state, make a decision process. -/
theorem exists_build (a : Arena) (hinitial : a.initial < a.states + 2)
    {groups : List (List (Row α))} (hlength : groups.length = a.states)
    (hgroups : ∀ group ∈ groups, group ≠ [] ∧ ∀ row ∈ group, ∀ d ∈ row, d.1 < a.states + 2) :
    ∃ m d, TransitionMatrix.ofGroups (a.states + 2)
        (groups ++ a.finalRows.map fun row => [row]) = .ok m ∧
      DecisionProcess.build m a.initial = .ok d := by
  obtain ⟨m, hm⟩ := a.exists_ofGroups_of_columns fun group hmem => (hgroups group hmem).2
  obtain ⟨-, hmatrix⟩ := TransitionMatrix.ofGroups_eq_ok_iff.mp hm
  have hstates : m.states = a.states + 2 := by
    simp [hmatrix, TransitionMatrix.states, finalRows, hlength]
  have hchoices : ∀ s < m.states, m.choices s ≠ [] := by
    intro s hs hnil
    have hmem : [] ∈ m.groups.toList := by
      rw [← hnil, TransitionMatrix.choices, Array.getD_eq_getD_getElem?,
        Array.getElem?_eq_getElem hs, Option.getD_some, Array.mem_toList_iff]
      exact Array.getElem_mem hs
    rw [hmatrix] at hmem
    obtain ⟨group, hgroup, hempty⟩ := List.mem_map.mp hmem
    rcases List.mem_append.mp hgroup with hgroup | hgroup
    · exact (hgroups group hgroup).1 (List.map_eq_nil_iff.mp hempty)
    · obtain ⟨row, -, rfl⟩ := List.mem_map.mp hgroup
      cases hempty
  refine ⟨m, ⟨m, a.initial⟩, hm, DecisionProcess.build_eq_ok_iff.mpr ⟨?_, ?_, hchoices, rfl⟩⟩
  · rw [hstates, hmatrix]
  · exact hstates ▸ hinitial

end Arena

/-! ## Points and boxes -/

namespace Sampler

variable {α : Type} [Scalar α] {s : Sampler α} {parameters : List Parameter} {v : Valuation}
  {e : CheckError}

/-- A property cannot be decided at a point only if the model has no meaning there. -/
theorem illDefinedAt_of_holdsAt (hs : s.arena.Within parameters) {p : Property}
    (hfunction : ∀ f, p.reachFunction.get.function? = some f → ∀ q ∈ f.parameters, q ∈ parameters)
    (hv : ∀ q ∈ parameters, q ∈ v.domain) {viaFunction : Bool}
    (h : s.holdsAt p viaFunction v = .error e) : Arena.IllDefinedAt v e := by
  have hnumerically : s.holdsNumerically p.bound v = .error e → Arena.IllDefinedAt v e := by
    intro hfails
    rcases bind_eq_error_iff.mp hfails with hmatrix | ⟨matrix, -, hvalue⟩
    · exact Arena.illDefinedAt_of_instantiate hs hv hmatrix
    · dsimp only at hvalue
      split at hvalue <;> cases hvalue
  rw [holdsAt] at h
  split at h
  · exact hnumerically h
  · next f hf =>
      have hused : p.reachFunction.get.function? = some f := by
        split at hf
        · exact hf
        · cases hf
      have hcovered : ∀ q ∈ f.parameters, q ∈ v.domain := fun q hq => hv q (hfunction f hused q hq)
      split at h
      · cases h
      · exact hnumerically h
      · next _ hvalue =>
          rw [Except.error.inj h] at hvalue
          exact Arena.illDefinedAt_of_evaluate hcovered hvalue

end Sampler

/-- What can go wrong on a box that bounds all parameters of a model. -/
inductive CheckError.Inherent (b : Box) : CheckError → Prop
  /-- Some of the parameters have too many corners to be listed. -/
  | tooManyVertices {n : Nat} (limit : Box.vertexLimit ≤ n) (bounded : n ≤ b.parameters.length) :
    Inherent b (.region (.tooManyVertices n))
  /-- The model has no meaning at a point of the box. -/
  | illDefinedPoint {v : Valuation} (bounds : b.Bounds v) (reason : String) :
    Inherent b (.illDefinedPoint v.write reason)
  /-- A solver, or starting one, has failed. -/
  | solver (reason : String) : Inherent b (.solver reason)

/-- The computation stops, as there is no room for the corners over some of the parameters. -/
inductive CheckError.OutOfRoom (b : Box) : CheckError → Prop
  | capacityOverflow {n : Nat} (many : Box.roomLimit ≤ n) (few : n < Box.vertexLimit)
    (bounded : n ≤ b.parameters.length) : OutOfRoom b (.region (.capacityOverflow n))

/-- How a check of such a box ends without a result. -/
def CheckError.Unavoidable (b : Box) (e : CheckError) : Prop := e.Inherent b ∨ e.OutOfRoom b

namespace CheckError.Unavoidable

variable {b : Box} {e : CheckError}

theorem of_illDefinedAt {v : Valuation} (hv : b.Bounds v) (h : Arena.IllDefinedAt v e) :
    e.Unavoidable b := by
  obtain ⟨reason, rfl⟩ := h
  exact Or.inl (.illDefinedPoint hv reason)

theorem of_crowded {n : Nat} {cause : RegionError} (h : Box.Crowded n cause)
    (hbounded : n ≤ b.parameters.length) : (CheckError.region cause).Unavoidable b := by
  cases h with
  | refused many => exact Or.inl (.tooManyVertices many hbounded)
  | noRoom many few => exact Or.inr (.capacityOverflow many few hbounded)

/-- The inherent errors are those that are returned. -/
theorem stops_cases (h : e.Unavoidable b) :
    (e.stops = false → e.Inherent b) ∧ (e.stops = true → e.OutOfRoom b) := by
  rcases h with h | h
  · refine ⟨fun _ => h, fun hstops => ?_⟩
    cases h <;> cases hstops
  · refine ⟨fun hstops => ?_, fun _ => h⟩
    cases h
    cases hstops

end CheckError.Unavoidable

namespace Approximator

variable {α : Type} [Scalar α] {a : Approximator α} {parameters : List Parameter} {b : Box}
  {e : CheckError}

theorem addChoice_ne_nil (choices : List (Row α)) (row : Row α) : addChoice choices row ≠ [] := by
  rw [addChoice]
  split
  · next hany =>
      rintro rfl
      cases hany
  · simp

theorem foldl_addChoice_ne_nil {rows : List (Row α)} (h : rows ≠ []) :
    rows.foldl addChoice [] ≠ [] := by
  rcases List.eq_nil_or_concat' rows with rfl | ⟨rest, row, rfl⟩
  · exact absurd rfl h
  · rw [List.foldl_append]
    exact addChoice_ne_nil _ row

theorem mem_of_mem_foldl_addChoice {rows choices : List (Row α)} {row : Row α}
    (h : row ∈ rows.foldl addChoice choices) : row ∈ choices ∨ row ∈ rows := by
  induction rows generalizing choices with
  | nil => exact Or.inl h
  | cons r rest ih =>
      rcases ih h with hrow | hrow
      · rw [addChoice] at hrow
        split at hrow
        · exact Or.inl hrow
        · rcases List.mem_append.mp hrow with hrow | hrow
          · exact Or.inl hrow
          · exact Or.inr (List.mem_singleton.mp hrow ▸ List.mem_cons_self)
      · exact Or.inr (List.mem_cons_of_mem r hrow)

variable (ha : a.arena.Within parameters) {s : Nat}
include ha

/-- The choices of a state lead to states, and there is one. -/
theorem choices_of_choicesOf {group : List (Row α)} (h : a.choicesOf b s = .ok group) :
    group ≠ [] ∧ ∀ row ∈ group, ∀ d ∈ row, d.1 < a.arena.states + 2 := by
  obtain ⟨points, hpoints, h⟩ := bind_eq_ok_iff.mp h
  obtain ⟨rows, hrows, h⟩ := bind_eq_ok_iff.mp h
  obtain rfl := pure_eq_ok_iff.mp h
  rw [liftRegion, mapError_eq_ok_iff] at hpoints
  have hpoint := mapM_eq_ok_iff.mp hrows
  constructor
  · refine foldl_addChoice_ne_nil fun hnil => ?_
    rw [hnil, List.forall₂_nil_right_iff] at hpoint
    exact Box.vertices_ne_nil hpoints (a.arena.nodup_rowParameters s) hpoint
  · intro row hrow
    have hmem := (mem_of_mem_foldl_addChoice hrow).resolve_left List.not_mem_nil
    obtain ⟨w, -, hw⟩ := exists_mem_of_forall₂ hpoint.flip hmem
    obtain ⟨r, hr, hpure⟩ := bind_eq_ok_iff.mp hw
    exact pure_eq_ok_iff.mp hpure ▸ Arena.column_lt_scalarRow ha hr

variable (hb : ∀ p ∈ parameters, p ∈ b.parameters)
include hb

theorem unavoidable_of_choicesOf (h : a.choicesOf b s = .error e) : e.Unavoidable b := by
  have hrow : ∀ p ∈ a.arena.rowParameters s, p ∈ b.parameters := fun p hp =>
    hb p (ha.mem_parameters s p hp)
  rcases bind_eq_error_iff.mp h with hpoints | ⟨points, hpoints, h⟩
  · obtain ⟨cause, hcause, rfl⟩ := mapError_eq_error_iff.mp hpoints
    exact .of_crowded (Box.crowded_of_vertices hrow hcause)
      ((a.arena.nodup_rowParameters s).subperm hrow).length_le
  · rw [liftRegion, mapError_eq_ok_iff] at hpoints
    rcases bind_eq_error_iff.mp h with hrows | ⟨rows, -, hpure⟩
    · obtain ⟨v, hv, h⟩ := exists_mem_of_mapM_eq_error hrows
      have hnodup := a.arena.nodup_rowParameters s
      rcases bind_eq_error_iff.mp h with h | ⟨r, -, hpure⟩
      · refine .of_illDefinedAt (Box.bounds_of_mem_vertices hpoints hnodup hv) ?_
        exact Arena.illDefinedAt_of_instantiateRow
          (Box.containsOn_of_mem_vertices hpoints hnodup hv).isSome h
      · cases hpure
    · cases hpure

/-- The bounding process of a box cannot be built only if one of its rows cannot. -/
theorem unavoidable_of_process (h : a.process b = .error e) : e.Unavoidable b := by
  rcases bind_eq_error_iff.mp h with hgroups | ⟨groups, hgroups, h⟩
  · obtain ⟨s, -, hs⟩ := exists_mem_of_mapM_eq_error hgroups
    exact unavoidable_of_choicesOf ha hb hs
  · -- Rows that exist lead to states, so nothing is wrong with the matrix or with the process.
    have hchoices := mapM_eq_ok_iff.mp hgroups
    have hgroup : ∀ group ∈ groups, group ≠ [] ∧
        ∀ row ∈ group, ∀ d ∈ row, d.1 < a.arena.states + 2 := by
      intro group hmem
      obtain ⟨s, -, hs⟩ := exists_mem_of_forall₂ hchoices.flip hmem
      exact choices_of_choicesOf ha hs
    obtain ⟨m, d, hm, hd⟩ := a.arena.exists_build ha.initial_lt
      (hchoices.length_eq.symm.trans List.length_range) hgroup
    rw [hm] at h
    dsimp only [liftModel, Except.mapError, bind, Except.bind] at h
    rw [hd] at h
    cases h

end Approximator

end MarkovRegion
