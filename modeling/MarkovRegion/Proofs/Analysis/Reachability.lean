import MarkovRegion.Proofs.Analysis.Qualitative
import MarkovRegion.Proofs.Probability.DecisionProcess

/-!
# Soundness of interval iteration

In exact arithmetic the computed Bellman values are those of the Bellman operators
(`bellman_eq_optimalStep`).  Hence the improvement of a state keeps the lower vector below every
vector that the operator does not raise and the upper vector above every vector that it does not
lower (`Brackets.improve`), and by induction this is so after every sweep (`brackets_sweeps`).  An
iteration holds the vectors after some sweeps, whenever it ends (`exists_endsAfter_enclose`).

For the maximal probabilities the states that never reach a target are known to have value zero
(`eq_zero_of_notMem_canReach`); with this both results of an iteration on a decision process are
bounds (`ofProcess_lower_le`, `le_ofProcess_upper`).
-/

namespace MarkovRegion

/-! ## Exact rationals as weights -/

/-- The value of a rational in the real numbers. -/
noncomputable def realReading : Reading ℚ ℝ where
  Defined _ := True
  value q := q
  zero := ⟨trivial, Rat.cast_zero⟩
  one := ⟨trivial, Rat.cast_one⟩
  add _ _ := ⟨trivial, Rat.cast_add _ _⟩
  sub _ _ := ⟨trivial, Rat.cast_sub _ _⟩
  mul _ _ := ⟨trivial, Rat.cast_mul _ _⟩
  div _ _ hb := ⟨_, if_neg fun h => hb (congrArg Rat.cast h |>.trans Rat.cast_zero), trivial,
    Rat.cast_div _ _⟩
  eq_zero h := (congrArg _ (of_decide_eq_true h)).trans Rat.cast_zero

theorem Row.cast_sum (entries : Row ℚ) :
    (((entries.map Prod.snd).sum : ℚ) : ℝ) = (Row.read realReading entries).dot 1 := by
  rw [Rat.cast_list_sum]
  simp [Row.dot, Row.read, realReading, Function.comp_def]

/-- The choices of a state, with real weights. -/
noncomputable def TransitionMatrix.realChoices (m : TransitionMatrix ℚ) (s : Nat) : List (Row ℝ) :=
  (m.choices s).map (Row.read realReading)

/-- The row of a state in a matrix with one row for each state, with real weights. -/
noncomputable def TransitionMatrix.realRow (m : TransitionMatrix ℚ) (s : Nat) : Row ℝ :=
  Row.read realReading ((m.choices s).headD [])

/-- What holds of the matrix of a decision process: every state has a choice, and no choice has a
negative weight or more mass than one. -/
structure TransitionMatrix.Proper (m : TransitionMatrix ℚ) : Prop where
  substochastic : SubstochasticChoices m.realChoices
  nonempty : ∀ s < m.states, m.choices s ≠ []

theorem TransitionMatrix.lt_states_of_mem_choices {m : TransitionMatrix ℚ} {s : Nat} {row : Row ℚ}
    (h : row ∈ m.choices s) : s < m.states := by
  by_contra hs
  rw [choices, getD_of_size_le _ (not_lt.mp hs)] at h
  cases h

namespace Reachability

variable {m : TransitionMatrix ℚ} {direction : Direction} {values : Array ℚ} {s : Nat}

theorem scalar_max_eq (x y : ℚ) : Scalar.max x y = max x y := by
  show (if x < y then y else x) = _
  split
  · next h => exact (max_eq_right h.le).symm
  · next h => exact (max_eq_left (not_lt.mp h)).symm

theorem scalar_min_eq (x y : ℚ) : Scalar.min x y = min x y := by
  show (if y < x then y else x) = _
  split
  · next h => exact (min_eq_right h.le).symm
  · next h => exact (min_eq_left (not_lt.mp h)).symm

theorem clamp_eq_self {x : ℚ} (h0 : 0 ≤ x) (h1 : x ≤ 1) : clamp x = x := by
  have hlower : Scalar.lt x (Weight.zero : ℚ) = false := decide_eq_false (not_lt.mpr h0)
  have hupper : Scalar.lt (Weight.one : ℚ) x = false := decide_eq_false (not_lt.mpr h1)
  rw [clamp, hlower, hupper]
  rfl

/-- The values of a vector as real numbers. -/
noncomputable def realValues (values : Array ℚ) (s : Nat) : ℝ :=
  ((valueAt values s : ℚ) : ℝ)

theorem cast_rowValue (values : Array ℚ) (row : Row ℚ) :
    ((rowValue values row : ℚ) : ℝ) = (Row.read realReading row).dot (realValues values) := by
  have hfold : ∀ (row : Row ℚ) (sum : ℚ),
      ((row.foldl (fun sum e =>
        Weight.add sum (Weight.mul e.2 (valueAt values e.1))) sum : ℚ) : ℝ) =
        sum + (Row.read realReading row).dot (realValues values) := by
    intro row
    induction row with
    | nil => simp [Row.read]
    | cons e rest ih =>
        intro sum
        have hstep : ((Weight.add sum (Weight.mul e.2 (valueAt values e.1)) : ℚ) : ℝ) =
            sum + realReading.value e.2 * realValues values e.1 := by
          show ((sum + e.2 * valueAt values e.1 : ℚ) : ℝ) = _
          push_cast
          rfl
        rw [List.foldl_cons, ih, hstep, Row.read_cons, Row.dot_cons, add_assoc]
  have hzero : ((Weight.zero : ℚ) : ℝ) = 0 := Rat.cast_zero
  rw [rowValue, hfold, hzero, zero_add]

theorem cast_foldl_min {outcomes : List ℚ} (hne : outcomes ≠ []) (h1 : ∀ x ∈ outcomes, x ≤ 1) :
    ((outcomes.foldl Scalar.min Weight.one : ℚ) : ℝ) =
      Direction.minimize.best (outcomes.map fun x : ℚ => (x : ℝ)) := by
  have hmin : (1 :: outcomes).min? = some (outcomes.foldl Scalar.min Weight.one) := by
    rw [List.min?_cons', show (Scalar.min : ℚ → ℚ → ℚ) = min from funext₂ scalar_min_eq]
    rfl
  obtain ⟨hmem, hle⟩ := List.min?_eq_some_iff.mp hmin
  obtain ⟨x, hx, hbest⟩ := Direction.minimize.exists_eq_best (fun x : ℚ => (x : ℝ)) hne
  apply le_antisymm
  · rw [← hbest]
    exact_mod_cast hle x (List.mem_cons_of_mem _ hx)
  · rcases List.mem_cons.mp hmem with heq | hmem
    · rw [heq, ← hbest]
      exact_mod_cast h1 x hx
    · exact Direction.best_minimize_le (List.mem_map_of_mem hmem)

theorem cast_foldl_max {outcomes : List ℚ} (hne : outcomes ≠ []) (h0 : ∀ x ∈ outcomes, 0 ≤ x) :
    ((outcomes.foldl Scalar.max Weight.zero : ℚ) : ℝ) =
      Direction.maximize.best (outcomes.map fun x : ℚ => (x : ℝ)) := by
  have hmax : (0 :: outcomes).max? = some (outcomes.foldl Scalar.max Weight.zero) := by
    rw [List.max?_cons', show (Scalar.max : ℚ → ℚ → ℚ) = max from funext₂ scalar_max_eq]
    rfl
  obtain ⟨hmem, hle⟩ := List.max?_eq_some_iff.mp hmax
  obtain ⟨x, hx, hbest⟩ := Direction.maximize.exists_eq_best (fun x : ℚ => (x : ℝ)) hne
  apply le_antisymm
  · rcases List.mem_cons.mp hmem with heq | hmem
    · rw [heq, ← hbest]
      exact_mod_cast h0 x hx
    · exact Direction.le_best_maximize (List.mem_map_of_mem hmem)
  · rw [← hbest]
    exact_mod_cast hle x (List.mem_cons_of_mem _ hx)

/-- The computed value of a state is that of the Bellman operator. -/
theorem bellman_eq_optimalStep (direction : Direction) (hm : m.Proper) (hs : s < m.states)
    {T : Set Nat} (hT : s ∉ T)
    (hvalues : ∀ t, 0 ≤ realValues values t ∧ realValues values t ≤ 1) :
    ((bellman m direction values s : ℚ) : ℝ) =
      optimalStep direction m.realChoices T (realValues values) s := by
  have hne : (m.choices s).map (rowValue values) ≠ [] := by simpa using hm.nonempty s hs
  have hunit : ∀ x ∈ (m.choices s).map (rowValue values), 0 ≤ x ∧ x ≤ 1 := by
    intro x hx
    obtain ⟨row, hrow, rfl⟩ := List.mem_map.mp hx
    have hreal : Row.read realReading row ∈ m.realChoices s := List.mem_map_of_mem hrow
    have hnonneg := hm.substochastic.nonneg s _ hreal
    have hlower := Row.dot_nonneg hnonneg fun e _ => (hvalues e.1).1
    have hupper := (Row.dot_le_dot hnonneg fun e _ => (hvalues e.1).2).trans
      (hm.substochastic.mass_le s _ hreal)
    rw [← cast_rowValue] at hlower hupper
    exact ⟨by exact_mod_cast hlower, by exact_mod_cast hupper⟩
  have hmap : (m.realChoices s).map (fun row => row.dot (realValues values)) =
      ((m.choices s).map (rowValue values)).map fun x : ℚ => (x : ℝ) := by
    rw [TransitionMatrix.realChoices, List.map_map, List.map_map]
    exact List.map_congr_left fun row _ => (cast_rowValue values row).symm
  rw [optimalStep_of_notMem hT, hmap]
  have hbest : ∀ direction : Direction,
      0 ≤ direction.best (((m.choices s).map (rowValue values)).map fun x : ℚ => (x : ℝ)) ∧
      direction.best (((m.choices s).map (rowValue values)).map fun x : ℚ => (x : ℝ)) ≤ 1 := by
    intro direction
    refine Direction.best_induction (P := fun value => 0 ≤ value ∧ value ≤ 1)
      ⟨le_rfl, zero_le_one⟩ fun x hx => ?_
    exact_mod_cast hunit x hx
  cases direction with
  | minimize =>
      have hfold := cast_foldl_min hne fun x hx => (hunit x hx).2
      have hclamp := hbest .minimize
      rw [← hfold] at hclamp ⊢
      rw [bellman, clamp_eq_self]
      · exact_mod_cast hclamp.1
      · exact_mod_cast hclamp.2
  | maximize =>
      have hfold := cast_foldl_max hne fun x hx => (hunit x hx).1
      have hclamp := hbest .maximize
      rw [← hfold] at hclamp ⊢
      rw [bellman, clamp_eq_self]
      · exact_mod_cast hclamp.1
      · exact_mod_cast hclamp.2

/-! ## Sweeps -/

/-- The states whose values an iteration improves. -/
def openStates (m : TransitionMatrix ℚ) (zero one : List Nat) : List Nat :=
  (List.range m.states).filter fun s => !(zero.contains s || one.contains s)

/-- The vectors after some sweeps, and whether the last one has changed a value. -/
def sweeps (m : TransitionMatrix ℚ) (zero one : List Nat) (direction : Direction) : Nat → Sweep ℚ
  | 0 =>
    { lower := ((List.range m.states).map fun s =>
        if one.contains s then (Weight.one : ℚ) else Weight.zero).toArray
      upper := ((List.range m.states).map fun s =>
        if zero.contains s then (Weight.zero : ℚ) else Weight.one).toArray
      changed := true }
  | k + 1 =>
    (openStates m zero one).foldl (improve m direction)
      { sweeps m zero one direction k with changed := false }

theorem mem_openStates {zero one : List Nat} :
    s ∈ openStates m zero one ↔ s < m.states ∧ s ∉ zero ∧ s ∉ one := by
  simp [openStates]

/-- What the improvement of an open state keeps holds after every sweep. -/
theorem sweeps_induction {zero one : List Nat} {P : Array ℚ → Array ℚ → Prop}
    (hstart : P (sweeps m zero one direction 0).lower (sweeps m zero one direction 0).upper)
    (hstep : ∀ (sweep : Sweep ℚ) (s : Nat), s ∈ openStates m zero one →
      P sweep.lower sweep.upper →
      P (improve m direction sweep s).lower (improve m direction sweep s).upper) (k : Nat) :
    P (sweeps m zero one direction k).lower (sweeps m zero one direction k).upper := by
  have hfold : ∀ states : List Nat, (∀ s ∈ states, s ∈ openStates m zero one) →
      ∀ sweep : Sweep ℚ, P sweep.lower sweep.upper →
        P (states.foldl (improve m direction) sweep).lower
          (states.foldl (improve m direction) sweep).upper := by
    intro states
    induction states with
    | nil => exact fun _ _ h => h
    | cons s rest ih =>
        intro hopen sweep h
        exact ih (fun t ht => hopen t (List.mem_cons_of_mem s ht)) _
          (hstep sweep s (hopen s List.mem_cons_self) h)
  induction k with
  | zero => exact hstart
  | succ k ih => exact hfold _ (fun _ h => h) _ ih

/-- A result that holds the vectors after some sweeps. -/
structure EndsAfter (settings : IterationSettings ℚ) (vectors : Nat → Sweep ℚ) (limit k : Nat)
    (b : ReachabilityBounds ℚ) : Prop where
  le_limit : k ≤ limit
  iterations_eq : b.iterations = k
  lower_eq : b.lower = (vectors k).lower
  upper_eq : b.upper = (vectors k).upper
  converged_eq : b.converged = isNarrow settings b.lower b.upper
  /-- Why it ends there. -/
  stops : b.converged = true ∨ k = limit ∨ (vectors k).changed = false

theorem exists_endsAfter_iterate (m : TransitionMatrix ℚ) (zero one : List Nat)
    (direction : Direction) (settings : IterationSettings ℚ) (remaining j : Nat) :
    ∃ k, EndsAfter settings (sweeps m zero one direction) (j + remaining) k
      (iterate m direction settings (openStates m zero one) remaining j
        (sweeps m zero one direction j).lower (sweeps m zero one direction j).upper) := by
  induction remaining generalizing j with
  | zero => exact ⟨j, le_rfl, rfl, rfl, rfl, rfl, Or.inr (Or.inl rfl)⟩
  | succ remaining ih =>
      rw [iterate]
      split
      · next hnarrow => exact ⟨j, Nat.le_add_right _ _, rfl, rfl, rfl, hnarrow.symm, Or.inl rfl⟩
      · show ∃ k, EndsAfter settings _ _ k (if (sweeps m zero one direction (j + 1)).changed = true
          then _ else _)
        split
        · have hlimit : j + (remaining + 1) = j + 1 + remaining := by omega
          rw [hlimit]
          exact ih (j + 1)
        · next hsame =>
            exact ⟨j + 1, by omega, rfl, rfl, rfl, rfl, Or.inr (Or.inr (by simpa using hsame))⟩

/-- An iteration ends after some sweeps, at most as many as are allowed. -/
theorem exists_endsAfter_enclose (m : TransitionMatrix ℚ) (zero one : List Nat)
    (direction : Direction) (settings : IterationSettings ℚ) :
    ∃ k, EndsAfter settings (sweeps m zero one direction) settings.maxIterations k
      (enclose m zero one direction settings) := by
  have h := exists_endsAfter_iterate m zero one direction settings settings.maxIterations 0
  rwa [Nat.zero_add] at h

/-- The lower vector stays below `y` and the upper one above `z`. -/
structure Brackets (y z : Nat → ℝ) (lower upper : Array ℚ) : Prop where
  lower_nonneg : ∀ s, 0 ≤ realValues lower s
  lower_le : ∀ s, realValues lower s ≤ y s
  le_upper : ∀ s, z s ≤ realValues upper s
  upper_le_one : ∀ s, realValues upper s ≤ 1

theorem realValues_setIfInBounds {P : Nat → ℝ → Prop} {x : ℚ} (hnew : P s x)
    (hold : ∀ t, P t (realValues values t)) (t : Nat) :
    P t (realValues (values.setIfInBounds s x) t) := by
  rw [realValues, valueAt, getD_setIfInBounds]
  split
  · next h => exact h.1 ▸ hnew
  · exact hold t

theorem realValues_range_map (n : Nat) (f : Nat → ℚ) (s : Nat) :
    realValues ((List.range n).map f).toArray s = if s < n then (f s : ℝ) else 0 := by
  have hzero : ((Weight.zero : ℚ) : ℝ) = 0 := Rat.cast_zero
  by_cases hs : s < n
  · simp [realValues, valueAt, hs]
  · simp [realValues, valueAt, hs, hzero]

/-- The vectors at the start of an iteration. -/
theorem brackets_start {n : Nat} {zero one : List Nat} {y z : Nat → ℝ} (hy0 : 0 ≤ y) (hz1 : z ≤ 1)
    (hone : ∀ s ∈ one, 1 ≤ y s) (hzero : ∀ s ∈ zero, z s = 0) (hout : ∀ s, n ≤ s → z s = 0) :
    Brackets y z
      ((List.range n).map fun s =>
        if one.contains s then (Weight.one : ℚ) else Weight.zero).toArray
      ((List.range n).map fun s =>
        if zero.contains s then (Weight.zero : ℚ) else Weight.one).toArray := by
  have hlower : ∀ t, 0 ≤ (if one.contains t then (Weight.one : ℚ) else Weight.zero : ℚ) ∧
      (((if one.contains t then Weight.one else Weight.zero : ℚ)) : ℝ) ≤ y t := by
    intro t
    split
    · next ht => exact ⟨zero_le_one, Rat.cast_one.trans_le (hone t (by simpa using ht))⟩
    · exact ⟨le_rfl, Rat.cast_zero.trans_le (hy0 t)⟩
  have hupper : ∀ t, (if zero.contains t then (Weight.zero : ℚ) else Weight.one : ℚ) ≤ 1 ∧
      z t ≤ (((if zero.contains t then Weight.zero else Weight.one : ℚ)) : ℝ) := by
    intro t
    split
    · next ht => exact ⟨zero_le_one, (hzero t (by simpa using ht)).trans_le Rat.cast_zero.ge⟩
    · exact ⟨le_rfl, (hz1 t).trans_eq Rat.cast_one.symm⟩
  refine ⟨fun t => ?_, fun t => ?_, fun t => ?_, fun t => ?_⟩
  · rw [realValues_range_map]
    split
    · exact_mod_cast (hlower t).1
    · exact le_rfl
  · rw [realValues_range_map]
    split
    · exact (hlower t).2
    · exact hy0 t
  · rw [realValues_range_map]
    split
    · exact (hupper t).2
    · next ht => exact (hout t (not_lt.mp ht)).le
  · rw [realValues_range_map]
    split
    · exact_mod_cast (hupper t).1
    · exact zero_le_one

section Iteration

variable {one : List Nat} {y z : Nat → ℝ} (hm : m.Proper) (hy1 : y ≤ 1) (hz0 : 0 ≤ z)
  (hy : optimalStep direction m.realChoices {s | s ∈ one} y ≤ y)
  (hz : z ≤ optimalStep direction m.realChoices {s | s ∈ one} z)
include hm hy1 hz0 hy hz

/-- One step of a sweep: an open state gets new values. -/
theorem Brackets.improve {sweep : Sweep ℚ} (h : Brackets y z sweep.lower sweep.upper)
    (hs : s < m.states) (hone : s ∉ one) :
    Brackets y z (improve m direction sweep s).lower (improve m direction sweep s).upper := by
  have hlower : ((bellman m direction sweep.lower s : ℚ) : ℝ) ≤ y s := by
    calc ((bellman m direction sweep.lower s : ℚ) : ℝ)
        = optimalStep direction m.realChoices {s | s ∈ one} (realValues sweep.lower) s :=
          bellman_eq_optimalStep direction hm hs hone fun t =>
            ⟨h.lower_nonneg t, (h.lower_le t).trans (hy1 t)⟩
      _ ≤ optimalStep direction m.realChoices {s | s ∈ one} y s :=
          hm.substochastic.optimalStep_mono h.lower_le s
      _ ≤ y s := hy s
  have hupper : z s ≤ ((bellman m direction sweep.upper s : ℚ) : ℝ) := by
    calc z s ≤ optimalStep direction m.realChoices {s | s ∈ one} z s := hz s
      _ ≤ optimalStep direction m.realChoices {s | s ∈ one} (realValues sweep.upper) s :=
          hm.substochastic.optimalStep_mono h.le_upper s
      _ = ((bellman m direction sweep.upper s : ℚ) : ℝ) :=
          (bellman_eq_optimalStep direction hm hs hone fun t =>
            ⟨(hz0 t).trans (h.le_upper t), h.upper_le_one t⟩).symm
  unfold Reachability.improve
  dsimp only
  rw [scalar_max_eq, scalar_min_eq]
  refine ⟨fun t => ?_, fun t => ?_, fun t => ?_, fun t => ?_⟩
  · refine realValues_setIfInBounds (P := fun _ x => 0 ≤ x) ?_ h.lower_nonneg t
    rw [Rat.cast_max]
    exact (h.lower_nonneg s).trans (le_max_right _ _)
  · refine realValues_setIfInBounds (P := fun t x => x ≤ y t) ?_ h.lower_le t
    rw [Rat.cast_max]
    exact max_le hlower (h.lower_le s)
  · refine realValues_setIfInBounds (P := fun t x => z t ≤ x) ?_ h.le_upper t
    rw [Rat.cast_min]
    exact le_min hupper (h.le_upper s)
  · refine realValues_setIfInBounds (P := fun _ x => x ≤ 1) ?_ h.upper_le_one t
    rw [Rat.cast_min]
    exact (min_le_right _ _).trans (h.upper_le_one s)

/-- The vectors are brackets after every sweep. -/
theorem brackets_sweeps {zero : List Nat} (hy0 : 0 ≤ y) (hz1 : z ≤ 1) (hzero : ∀ s ∈ zero, z s = 0)
    (hout : ∀ s, m.states ≤ s → z s = 0) (k : Nat) :
    Brackets y z (sweeps m zero one direction k).lower (sweeps m zero one direction k).upper := by
  have hone : ∀ t ∈ one, 1 ≤ y t := by
    intro t ht
    have htarget := hy t
    rwa [optimalStep_of_mem (show t ∈ {s | s ∈ one} from ht)] at htarget
  refine sweeps_induction (P := Brackets y z) (brackets_start hy0 hz1 hone hzero hout)
    (fun sweep s hs h => ?_) k
  obtain ⟨hlt, -, hnot⟩ := mem_openStates.mp hs
  exact h.improve hm hy1 hz0 hy hz hlt hnot

/-- Interval iteration is sound. -/
theorem enclose_bounds {zero : List Nat} (hy0 : 0 ≤ y) (hz1 : z ≤ 1) (hzero : ∀ s ∈ zero, z s = 0)
    (hout : ∀ s, m.states ≤ s → z s = 0) (settings : IterationSettings ℚ) (s : Nat) :
    realValues (enclose m zero one direction settings).lower s ≤ y s ∧
      z s ≤ realValues (enclose m zero one direction settings).upper s := by
  obtain ⟨k, hend⟩ := exists_endsAfter_enclose m zero one direction settings
  have hbrackets := brackets_sweeps hm hy1 hz0 hy hz hy0 hz1 hzero hout k
  rw [hend.lower_eq, hend.upper_eq]
  exact ⟨hbrackets.lower_le s, hbrackets.le_upper s⟩

end Iteration

/-! ## Decision processes -/

/-- The states that never reach a target have maximal probability zero. -/
theorem eq_zero_of_notMem_canReach (hm : SubstochasticChoices m.realChoices) {targets : List Nat}
    (htargets : ∀ t ∈ targets, t < m.states) {x : Nat → ℝ}
    (hx : IsOptimal .maximize m.realChoices {s | s ∈ targets} x)
    (hs : s ∉ Qualitative.canReach m targets fun _ => true) : x s = 0 := by
  refine hx.eq_zero_of_closed (S := {s | s ∉ Qualitative.canReach m targets fun _ => true}) hm
    (fun t ht htarget => ?_) (fun t ht row hrow e he hreach => ?_) s hs
  · exact ht (Qualitative.mem_canReach_of_mem (htargets t htarget) htarget)
  · obtain ⟨r, hr, rfl⟩ := List.mem_map.mp hrow
    obtain ⟨d, hd, rfl⟩ := Row.mem_read.mp he
    refine ht (Qualitative.mem_canReach_of_step
      (TransitionMatrix.lt_states_of_mem_choices hr) rfl ?_ hreach)
    exact List.mem_flatMap.mpr ⟨r, hr, Row.mem_columns.mpr ⟨d, hd, rfl⟩⟩

section Process

variable (hm : m.Proper) {targets : List Nat} {x : Nat → ℝ} (settings : IterationSettings ℚ)
include hm

/-- The lower values are below the minimal probabilities. -/
theorem ofProcess_lower_le (hx : IsOptimal .minimize m.realChoices {s | s ∈ targets} x) (s : Nat) :
    realValues (ofProcess m targets .minimize settings).lower s ≤ x s := by
  have hzero : 0 ≤ optimalStep .minimize m.realChoices {s | s ∈ targets} 0 :=
    hm.substochastic.optimalStep_nonneg le_rfl
  exact (enclose_bounds hm (hx.le_one hm.substochastic) le_rfl hx.optimalStep_eq.le hzero hx.nonneg
    zero_le_one (fun _ _ => rfl) (fun _ _ => rfl) settings s).1

/-- The upper values are above the maximal probabilities. -/
theorem le_ofProcess_upper (htargets : ∀ t ∈ targets, t < m.states)
    (hx : IsOptimal .maximize m.realChoices {s | s ∈ targets} x) (s : Nat) :
    x s ≤ realValues (ofProcess m targets .maximize settings).upper s := by
  have hzero := fun s (hs : s ∉ Qualitative.canReach m targets fun _ => true) =>
    eq_zero_of_notMem_canReach hm.substochastic htargets hx hs
  refine (enclose_bounds hm le_rfl hx.nonneg hm.substochastic.optimalStep_one_le
    hx.optimalStep_eq.ge zero_le_one (hx.le_one hm.substochastic) (fun s hs => ?_) (fun s hs => ?_)
    settings s).2
  · exact hzero s (Qualitative.mem_complement.mp hs).2
  · exact hzero s fun h => absurd (Qualitative.lt_states_of_mem_canReach h) (not_lt.mpr hs)

end Process

end Reachability

end MarkovRegion
