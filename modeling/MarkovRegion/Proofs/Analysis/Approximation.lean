import MarkovRegion.Analysis.Approximation
import MarkovRegion.Proofs.Analysis.ClosedForm
import MarkovRegion.Proofs.Analysis.Sampling

/-!
# Bounds from a decision process

The bounding process of a box has, for each state, the rows at the corners over the parameters of
the state (`Approximator.represents_of_process`); it exists if the weights are lawful at these
corners (`Approximator.exists_process`).  Dropping repeated rows changes nothing
(`mem_foldl_addChoice`).

If all weights are linear, weights that are lawful at the corners are lawful in the whole box, and
the process encloses the chain at every point of the box and the process of every smaller box.
Hence the results of an iteration on the process are bounds on the probabilities at all points, and
the optimal values get no worse when the box shrinks.
-/

namespace MarkovRegion

/-! ## Decision processes -/

theorem DecisionProcess.build_eq_ok_iff {W : Type} {m : TransitionMatrix W} {initial : Nat}
    {d : DecisionProcess W} : DecisionProcess.build m initial = .ok d ↔
      m.columns = m.states ∧ initial < m.states ∧ (∀ s < m.states, m.choices s ≠ []) ∧
        d = ⟨m, initial⟩ := by
  have hempty : m.groups.toList.findIdx? List.isEmpty = none ↔
      ∀ s < m.states, m.choices s ≠ [] := by
    rw [List.findIdx?_eq_none_iff, List.forall_mem_iff_getElem]
    refine forall₂_congr fun s hs => ?_
    have hchoices : m.choices s = m.groups.toList[s] := by
      rw [TransitionMatrix.choices, Array.getD_eq_getD_getElem?,
        Array.getElem?_eq_getElem (by simpa using hs)]
      simp
    rw [hchoices]
    simp
  constructor
  · intro h
    obtain ⟨⟨⟩, hsquare, h⟩ := bind_eq_ok_iff.mp h
    obtain ⟨⟨⟩, hstate, h⟩ := bind_eq_ok_iff.mp h
    have hcolumns : m.columns = m.states := by
      rw [checkSquare] at hsquare
      split at hsquare
      · next heq => exact heq
      · cases hsquare
    split at h
    · cases h
    · next hnone =>
        exact ⟨hcolumns, checkState_eq_ok hstate, hempty.mp hnone, (pure_eq_ok_iff.mp h).symm⟩
  · rintro ⟨hcolumns, hstate, hgroups, rfl⟩
    rw [build, checkSquare, if_pos hcolumns, checkState, if_pos hstate, hempty.mpr hgroups]
    rfl

namespace Approximator

/-! ## The choices of a state -/

theorem sameRow_iff {r s : Row ℚ} : sameRow r s = true ↔ r = s := by
  induction r generalizing s with
  | nil =>
      cases s with
      | nil => simp [sameRow]
      | cons e rest => simp [sameRow]
  | cons d r ih =>
      cases s with
      | nil => simp [sameRow]
      | cons e rest =>
          have hentry : (d.1 == e.1 && Scalar.same d.2 e.2) = true ↔ d = e := by
            simp [Scalar.same, Prod.ext_iff]
          rw [List.cons.injEq, ← ih, ← hentry]
          simp only [sameRow, List.length_cons, List.zip_cons_cons, List.all_cons, Bool.and_eq_true,
            beq_iff_eq, Nat.add_right_cancel_iff]
          exact and_left_comm

theorem mem_addChoice {choices : List (Row ℚ)} {row other : Row ℚ} :
    other ∈ addChoice choices row ↔ other ∈ choices ∨ other = row := by
  rw [addChoice]
  split
  · next hany =>
      obtain ⟨choice, hchoice, hsame⟩ := List.any_eq_true.mp hany
      obtain rfl := sameRow_iff.mp hsame
      constructor
      · exact Or.inl
      · rintro (h | rfl)
        · exact h
        · exact hchoice
  · rw [List.mem_append, List.mem_singleton]

/-- Dropping repeated rows keeps all of them. -/
theorem mem_foldl_addChoice {rows choices : List (Row ℚ)} {row : Row ℚ} :
    row ∈ rows.foldl addChoice choices ↔ row ∈ choices ∨ row ∈ rows := by
  induction rows generalizing choices with
  | nil => simp
  | cons r rest ih => rw [List.foldl_cons, ih, mem_addChoice, List.mem_cons, or_assoc]

variable {a : Approximator ℚ} {b : Box} {s : Nat}

theorem mapM_scalarRow_eq_ok_iff {points : List Valuation} {rows : List (Row ℚ)} :
    (points.mapM fun w => return a.arena.scalarRow (← a.arena.instantiateRow s w) :
      Except CheckError (List (Row ℚ))) = .ok rows ↔
      List.Forall₂ (fun w row => ∃ r, a.arena.instantiateRow s w = .ok r ∧
        a.arena.scalarRow r = row) points rows := by
  simp only [mapM_eq_ok_iff, bind_eq_ok_iff, pure_eq_ok_iff]

/-- The choices of a state are its rows at the corners. -/
theorem rowsAt_of_choicesOf {group : List (Row ℚ)} (h : a.choicesOf b s = .ok group) :
    ∃ points, b.vertices (a.arena.rowParameters s) = .ok points ∧
      a.arena.RowsAt s points group := by
  obtain ⟨points, hpoints, h⟩ := bind_eq_ok_iff.mp h
  obtain ⟨rows, hrows, h⟩ := bind_eq_ok_iff.mp h
  obtain rfl := pure_eq_ok_iff.mp h
  rw [liftRegion, mapError_eq_ok_iff] at hpoints
  rw [mapM_scalarRow_eq_ok_iff] at hrows
  refine ⟨points, hpoints, fun row hrow => ?_, fun w hw => ?_⟩
  · have hmem := (mem_foldl_addChoice.mp hrow).resolve_left List.not_mem_nil
    exact exists_mem_of_forall₂ hrows.flip hmem
  · obtain ⟨row, hrow, r, hr, rfl⟩ := exists_mem_of_forall₂ hrows hw
    exact ⟨r, hr, mem_foldl_addChoice.mpr (Or.inr hrow)⟩

theorem exists_choicesOf {points : List Valuation}
    (hpoints : b.vertices (a.arena.rowParameters s) = .ok points)
    (hlawful : ∀ w ∈ points, a.arena.Lawful s w) : ∃ group, a.choicesOf b s = .ok group := by
  obtain ⟨rows, hrows⟩ : ∃ rows, (points.mapM fun w =>
      return a.arena.scalarRow (← a.arena.instantiateRow s w) :
      Except CheckError (List (Row ℚ))) = .ok rows :=
    exists_mapM_eq_ok fun w hw => (hlawful w hw).exists_scalarRow
  refine ⟨_, bind_eq_ok_iff.mpr ⟨points, ?_, bind_eq_ok_iff.mpr ⟨rows, hrows, rfl⟩⟩⟩
  rw [liftRegion, mapError_eq_ok_iff]
  exact hpoints

/-! ## The process of a box -/

/-- The corners of a box over the parameters of a state. -/
def corners (a : Approximator ℚ) (b : Box) (s : Nat) : List Valuation :=
  (b.vertices (a.arena.rowParameters s)).toOption.getD []

theorem corners_eq {points : List Valuation}
    (h : b.vertices (a.arena.rowParameters s) = .ok points) : a.corners b s = points := by
  rw [corners, h]
  rfl

theorem corners_ne_nil {points : List Valuation}
    (h : b.vertices (a.arena.rowParameters s) = .ok points) : a.corners b s ≠ [] :=
  corners_eq h ▸ Box.vertices_ne_nil h (a.arena.nodup_rowParameters s)

theorem rowsAt_corners {group : List (Row ℚ)} (h : a.choicesOf b s = .ok group) :
    a.arena.RowsAt s (a.corners b s) group := by
  obtain ⟨points, hpoints, hrows⟩ := rowsAt_of_choicesOf h
  exact corners_eq hpoints ▸ hrows

/-- The process of a box holds the rows of each state at its corners. -/
structure Represents (a : Approximator ℚ) (b : Box) (d : DecisionProcess ℚ) : Prop where
  vertices_eq : ∀ s < a.arena.states,
    b.vertices (a.arena.rowParameters s) = .ok (a.corners b s)
  instantiates : a.arena.Instantiates d.transitions (a.corners b)
  initial_eq : d.initial = a.arena.initial
  initial_lt : a.arena.initial < a.arena.states + 2

theorem represents_of_process {d : DecisionProcess ℚ} (h : a.process b = .ok d) :
    a.Represents b d := by
  obtain ⟨groups, hgroups, h⟩ := bind_eq_ok_iff.mp h
  obtain ⟨m, hm, hd⟩ := bind_eq_ok_iff.mp h
  rw [liftModel, mapError_eq_ok_iff] at hm hd
  rw [mapM_eq_ok_iff] at hgroups
  obtain ⟨-, hinitial, -, rfl⟩ := DecisionProcess.build_eq_ok_iff.mp hd
  have hinstantiates :=
    Arena.instantiates_of_ofGroups (hgroups.imp fun _ _ hgroup => rowsAt_corners hgroup) hm
  refine ⟨fun s hs => ?_, hinstantiates, rfl, hinstantiates.states_eq ▸ hinitial⟩
  obtain ⟨group, -, hgroup⟩ := exists_mem_of_forall₂ hgroups (List.mem_range.mpr hs)
  obtain ⟨points, hpoints, -⟩ := rowsAt_of_choicesOf hgroup
  rw [hpoints, corners_eq hpoints]

/-- The process of a box exists if the weights are lawful at all corners. -/
theorem exists_process
    (hvertices : ∀ s < a.arena.states, b.vertices (a.arena.rowParameters s) = .ok (a.corners b s))
    (hlawful : ∀ s < a.arena.states, ∀ w ∈ a.corners b s, a.arena.Lawful s w)
    (hinitial : a.arena.initial < a.arena.states + 2) : ∃ d, a.process b = .ok d := by
  obtain ⟨groups, hgroups⟩ : ∃ groups,
      (List.range a.arena.states).mapM (a.choicesOf b) = .ok groups := by
    refine exists_mapM_eq_ok fun s hs => ?_
    exact exists_choicesOf (hvertices s (List.mem_range.mp hs)) (hlawful s (List.mem_range.mp hs))
  have hrows : List.Forall₂ (fun s group => a.arena.RowsAt s (a.corners b s) group)
      (List.range a.arena.states) groups :=
    (mapM_eq_ok_iff.mp hgroups).imp fun _ _ hgroup => rowsAt_corners hgroup
  obtain ⟨m, hm⟩ := Arena.exists_ofGroups hrows hlawful
  have hinstantiates := Arena.instantiates_of_ofGroups hrows hm
  refine ⟨⟨m, a.arena.initial⟩, bind_eq_ok_iff.mpr ⟨groups, hgroups, bind_eq_ok_iff.mpr
    ⟨m, mapError_eq_ok_iff.mpr hm, mapError_eq_ok_iff.mpr ?_⟩⟩⟩
  refine DecisionProcess.build_eq_ok_iff.mpr ⟨?_, ?_, fun s hs => ?_, rfl⟩
  · rw [hinstantiates.states_eq, (TransitionMatrix.ofGroups_eq_ok_iff.mp hm).2]
  · rw [hinstantiates.states_eq]
    exact hinitial
  · exact hinstantiates.choices_ne_nil (fun s hs => corners_ne_nil (hvertices s hs)) hs

namespace Represents

variable {d : DecisionProcess ℚ} (h : a.Represents b d)
include h

theorem proper : d.transitions.Proper :=
  h.instantiates.proper fun s hs => corners_ne_nil (h.vertices_eq s hs)

theorem mem_parameters (hs : s < a.arena.states) :
    ∀ p ∈ a.arena.rowParameters s, p ∈ b.parameters :=
  (Box.exists_vertices_iff.mp ⟨_, h.vertices_eq s hs⟩).2

theorem lawful (hlinear : a.arena.Linear) (hs : s < a.arena.states) {v : Valuation}
    (hv : b.ContainsOn (a.arena.rowParameters s) v) : a.arena.Lawful s v :=
  hlinear.lawful_of_vertices (h.vertices_eq s hs) (fun _ hw => h.instantiates.lawful hs hw) hv

/-! ## What the process encloses -/

/-- The process encloses the chain at every point of the box. -/
theorem exists_instantiate (hlinear : a.arena.Linear) {v : Valuation} (hv : b.contains v = true) :
    ∃ m : TransitionMatrix ℚ, a.arena.instantiate v = .ok m ∧
      Encloses d.transitions.realChoices m.realChoices := by
  have hcontains : ∀ s < a.arena.states, b.ContainsOn (a.arena.rowParameters s) v :=
    fun s hs => Box.containsOn_of_contains hv (h.mem_parameters hs)
  obtain ⟨m, hm⟩ := Arena.exists_instantiate fun s hs => h.lawful hlinear hs (hcontains s hs)
  refine ⟨m, hm, hlinear.encloses h.instantiates h.vertices_eq
    (Arena.instantiates_of_instantiate hm) (fun _ _ => List.cons_ne_nil v []) fun s hs w hw => ?_⟩
  rw [List.mem_singleton.mp hw]
  exact hcontains s hs

/-- The process encloses that of every smaller box. -/
theorem exists_inner (hlinear : a.arena.Linear) {inner : Box}
    (hparameters : inner.parameters = b.parameters)
    (hsubset : ∀ v, inner.contains v = true → b.contains v = true) :
    ∃ d', a.process inner = .ok d' ∧
      Encloses d.transitions.realChoices d'.transitions.realChoices := by
  have hvertices : ∀ s < a.arena.states,
      inner.vertices (a.arena.rowParameters s) = .ok (a.corners inner s) := by
    intro s hs
    have hfew := Box.exists_vertices_iff.mp ⟨_, h.vertices_eq s hs⟩
    rw [← hparameters] at hfew
    obtain ⟨points, hpoints⟩ := Box.exists_vertices_iff.mpr hfew
    rw [hpoints, corners_eq hpoints]
  have hcontains : ∀ s < a.arena.states, ∀ w ∈ a.corners inner s,
      b.ContainsOn (a.arena.rowParameters s) w := by
    intro s hs w hw
    have hinner := Box.containsOn_of_mem_vertices (hvertices s hs)
      (a.arena.nodup_rowParameters s) hw
    exact hinner.of_subset hsubset (h.mem_parameters hs)
  obtain ⟨d', hd'⟩ := exists_process hvertices
    (fun s hs w hw => h.lawful hlinear hs (hcontains s hs w hw)) h.initial_lt
  have hinner := represents_of_process hd'
  exact ⟨d', hd', hlinear.encloses h.instantiates h.vertices_eq hinner.instantiates
    (fun s hs => corners_ne_nil (hvertices s hs)) hcontains⟩

/-! ## Iteration on the process -/

theorem solve_minimize_le {x : Nat → ℝ}
    (hx : IsOptimal .minimize d.transitions.realChoices {a.arena.target} x) :
    ((a.solve d .minimize : ℚ) : ℝ) ≤ x d.initial := by
  have htargets : {s | s ∈ [a.arena.target]} = {a.arena.target} := by simp
  exact Reachability.ofProcess_lower_le h.proper a.settings (htargets ▸ hx) d.initial

theorem le_solve_maximize {x : Nat → ℝ}
    (hx : IsOptimal .maximize d.transitions.realChoices {a.arena.target} x) :
    x d.initial ≤ ((a.solve d .maximize : ℚ) : ℝ) := by
  have htargets : {s | s ∈ [a.arena.target]} = {a.arena.target} := by simp
  refine Reachability.le_ofProcess_upper h.proper a.settings (fun t ht => ?_) (htargets ▸ hx)
    d.initial
  rw [List.mem_singleton.mp ht, h.instantiates.states_eq, Arena.target]
  omega

end Represents

/-! ## Bounds on the probabilities of a model -/

/-- The results of an iteration on the process of a box are bounds on the probabilities of the
chains at all points of the box.  A smaller box has a process too, and its optimal values lie
between those of the box. -/
theorem solve_encloses_probability {m : SimplifiedModel}
    (hlinear : SimplifiedModel.areLinear (SimplifiedModel.weights m.system) = .ok true)
    (settings : IterationSettings ℚ) {b : Box} {d : DecisionProcess ℚ}
    (hd : (ofModel m settings).process b = .ok d) :
    (∀ v, b.contains v = true → ∃ (chain : TransitionMatrix ℚ) (x : Nat → ℝ),
      (Arena.ofModel m).instantiate v = .ok chain ∧
      IsReachability chain.realRow {(Arena.ofModel m).target} x ∧
      (((ofModel m settings).solve d .minimize : ℚ) : ℝ) ≤ x m.initial ∧
      x m.initial ≤ (((ofModel m settings).solve d .maximize : ℚ) : ℝ)) ∧
    ∀ inner : Box, inner.parameters = b.parameters →
      (∀ v, inner.contains v = true → b.contains v = true) →
      ∃ (d' : DecisionProcess ℚ) (lower lower' upper' upper : Nat → ℝ),
        (ofModel m settings).process inner = .ok d' ∧
        IsOptimal .minimize d.transitions.realChoices {(Arena.ofModel m).target} lower ∧
        IsOptimal .minimize d'.transitions.realChoices {(Arena.ofModel m).target} lower' ∧
        IsOptimal .maximize d'.transitions.realChoices {(Arena.ofModel m).target} upper' ∧
        IsOptimal .maximize d.transitions.realChoices {(Arena.ofModel m).target} upper ∧
        lower ≤ lower' ∧ lower' ≤ upper' ∧ upper' ≤ upper := by
  have harena : (ofModel m settings).arena.Linear := Arena.linear_ofModel hlinear
  have h := represents_of_process hd
  have hchoices := h.proper.substochastic
  obtain ⟨lower, hlower⟩ := hchoices.exists_isOptimal .minimize {(Arena.ofModel m).target}
  obtain ⟨upper, hupper⟩ := hchoices.exists_isOptimal .maximize {(Arena.ofModel m).target}
  refine ⟨fun v hv => ?_, fun inner hparameters hsubset => ?_⟩
  · obtain ⟨chain, hchain, hencloses⟩ := h.exists_instantiate harena hv
    have hrows := (Arena.instantiates_of_instantiate hchain).substochastic
    obtain ⟨x, hx⟩ := hrows.exists_isOptimal .minimize {(Arena.ofModel m).target}
    obtain ⟨hle, hge⟩ := hencloses.optimal_le hchoices hrows hlower hx hupper
    have hinitial : d.initial = m.initial := h.initial_eq
    refine ⟨chain, x, hchain, (Arena.isReachability_realRow_iff hchain .minimize).mpr hx, ?_, ?_⟩
    · exact hinitial ▸ (h.solve_minimize_le hlower).trans (hle d.initial)
    · exact hinitial ▸ (hge d.initial).trans (h.le_solve_maximize hupper)
  · obtain ⟨d', hd', hencloses⟩ := h.exists_inner harena hparameters hsubset
    have hinner := (represents_of_process hd').proper.substochastic
    obtain ⟨lower', hlower'⟩ := hinner.exists_isOptimal .minimize {(Arena.ofModel m).target}
    obtain ⟨upper', hupper'⟩ := hinner.exists_isOptimal .maximize {(Arena.ofModel m).target}
    refine ⟨d', lower, lower', upper', upper, hd', hlower, hlower', hupper', hupper, ?_, ?_, ?_⟩
    · exact (hencloses.optimal_le hchoices hinner hlower hlower' hupper).1
    · exact ((Encloses.refl _).optimal_le hinner hinner hlower' hupper' hupper').1
    · exact (hencloses.optimal_le hchoices hinner hlower hupper' hupper).2

open Property in
/-- Bounds for the chain with the cycle, in a box around a point and in a smaller one. -/
theorem solve_encloses_resend : ∃ (c : ParametricChain) (m : SimplifiedModel)
    (settings : IterationSettings ℚ) (inner : Interval) (d d' : DecisionProcess ℚ),
    resendFile.toChain = .ok c ∧ SimplifiedModel.ofChain c [2] = .ok m ∧
    (ofModel m settings).process (resendBox resendSide) = .ok d ∧
    (∃ (chain : TransitionMatrix ℚ) (x : Nat → ℝ),
      (Arena.ofModel m).instantiate resendPoint = .ok chain ∧
      IsReachability chain.realRow {(Arena.ofModel m).target} x ∧
      (((ofModel m settings).solve d .minimize : ℚ) : ℝ) ≤ x m.initial ∧
      x m.initial ≤ (((ofModel m settings).solve d .maximize : ℚ) : ℝ)) ∧
    (resendSide.lower < inner.lower ∧ inner.upper < resendSide.upper) ∧
    (ofModel m settings).process (resendBox inner) = .ok d' ∧
    ∃ lower lower' upper' upper : Nat → ℝ,
      IsOptimal .minimize d.transitions.realChoices {(Arena.ofModel m).target} lower ∧
      IsOptimal .minimize d'.transitions.realChoices {(Arena.ofModel m).target} lower' ∧
      IsOptimal .maximize d'.transitions.realChoices {(Arena.ofModel m).target} upper' ∧
      IsOptimal .maximize d.transitions.realChoices {(Arena.ofModel m).target} upper ∧
      lower ≤ lower' ∧ lower' ≤ upper' ∧ upper' ≤ upper := by
  let settings : IterationSettings ℚ := ⟨mkRat 1 100, 10⟩
  let inner : Interval := ⟨mkRat 1 3, mkRat 1 2, by decide⟩
  have hinner : resendSide.lower < inner.lower ∧ inner.upper < resendSide.upper := by decide
  obtain ⟨c, hc, hmodel⟩ := exists_ok_of_map resendFile.toChain
    (fun c => decide ((SimplifiedModel.ofChain c [2]).toOption.map (fun m =>
      decide (SimplifiedModel.areLinear (SimplifiedModel.weights m.system) = .ok true) &&
        ((ofModel m settings).process (resendBox resendSide)).toOption.isSome) = some true))
    (by cbv)
  obtain ⟨m, hm, htest⟩ := exists_ok_of_map _ _ (of_decide_eq_true hmodel)
  obtain ⟨hlinear, hprocess⟩ := (Bool.and_eq_true _ _).mp htest
  obtain ⟨d, hd⟩ : ∃ d, (ofModel m settings).process (resendBox resendSide) = .ok d := by
    rcases h : (ofModel m settings).process (resendBox resendSide) with e | d
    · rw [h] at hprocess
      cases hprocess
    · exact ⟨d, rfl⟩
  obtain ⟨hpoint, hbox⟩ := solve_encloses_probability (of_decide_eq_true hlinear) settings hd
  have hsubset : ∀ v, (resendBox inner).contains v = true →
      (resendBox resendSide).contains v = true := by
    intro v hv
    rw [resendBox_contains_iff] at hv ⊢
    intro p hp
    obtain ⟨x, hx, hlower, hupper⟩ := hv p hp
    exact ⟨x, hx, hinner.1.le.trans hlower, hupper.trans hinner.2.le⟩
  obtain ⟨d', lower, lower', upper', upper, hd', hoptimal⟩ :=
    hbox (resendBox inner) (by cbv) hsubset
  exact ⟨c, m, settings, inner, d, d', hc, hm, hd, hpoint resendPoint (by cbv), hinner, hd',
    lower, lower', upper', upper, hoptimal⟩

end Approximator

end MarkovRegion
