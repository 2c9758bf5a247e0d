import MarkovRegion.Proofs.Analysis.Reachability

/-!
# Interval iteration on stochastic matrices

On the matrix of a decision process, interval iteration encloses the minimal and the maximal
probabilities of reaching the targets; on that of a chain, the probabilities.  This holds after any
number of sweeps, and does not depend on why the iteration ends.

* The values of an iteration with known zeros and ones (`KnownValues`) lie between its vectors after
  every sweep.  What remains is that the graph analyses find zeros and ones: the states that never
  reach a target or, for minimal probabilities, can avoid them (`ofProcess_encloses`), and for a
  chain also those that surely reach one (`knownValues_ofChain`).
* A sweep without a change shows that the lower vector is not raised and the upper vector is not
  lowered by the Bellman operator at any open state (`bellman_of_unchanged`).  So the lower vector
  is above the least fixed point.  In a chain the upper vector is below it as well, since the
  equations of the open states have drift (`eq_probability_of_unchanged`); with choices it need not
  be, because choices may keep a run among open states for ever.
-/

namespace MarkovRegion

open Qualitative (neverReach surelyReach canAvoid Weighs Classes)

/-! ## Stochastic matrices -/

/-- The matrix of a decision process: every state has a choice, and each choice is a distribution on
the states with positive weights. -/
structure TransitionMatrix.Stochastic (m : TransitionMatrix ℚ) : Prop where
  nonempty : ∀ s < m.states, m.choices s ≠ []
  column_lt : ∀ s < m.states, ∀ row ∈ m.choices s, ∀ e ∈ row, e.1 < m.states
  pos : ∀ s < m.states, ∀ row ∈ m.choices s, ∀ e ∈ row, 0 < e.2
  mass : ∀ s < m.states, ∀ row ∈ m.choices s, (row.map Prod.snd).sum = 1

/-- The matrix of a chain has one row for each state. -/
def TransitionMatrix.IsChain (m : TransitionMatrix ℚ) : Prop :=
  ∀ s < m.states, ∃ row, m.choices s = [row]

namespace TransitionMatrix

variable {m : TransitionMatrix ℚ}

theorem choices_eq_nil {s : Nat} (hs : m.states ≤ s) : m.choices s = [] := getD_of_size_le _ hs _

theorem IsChain.choices_cases (h : m.IsChain) (s : Nat) :
    (∃ row, m.choices s = [row]) ∨ m.choices s = [] := by
  by_cases hs : s < m.states
  · exact Or.inl (h s hs)
  · exact Or.inr (choices_eq_nil (not_lt.mp hs))

theorem IsChain.realChoices_cases (h : m.IsChain) (s : Nat) :
    m.realChoices s = [m.realRow s] ∨ m.realChoices s = [] ∧ m.realRow s = [] := by
  rw [realChoices, realRow]
  rcases h.choices_cases s with ⟨row, hrow⟩ | hnil
  · rw [hrow]
    exact Or.inl rfl
  · rw [hnil]
    exact Or.inr ⟨rfl, rfl⟩

namespace Stochastic

variable (hm : m.Stochastic)
include hm

theorem mass_read {s : Nat} {row : Row ℚ} (hrow : row ∈ m.choices s) :
    (Row.read realReading row).dot 1 = 1 := by
  rw [← Row.cast_sum, hm.mass s (lt_states_of_mem_choices hrow) row hrow, Rat.cast_one]

theorem pos_read {s : Nat} {row : Row ℚ} (hrow : row ∈ m.choices s) :
    ∀ e ∈ Row.read realReading row, 0 < e.2 := by
  intro e he
  obtain ⟨d, hd, rfl⟩ := Row.mem_read.mp he
  exact Rat.cast_pos.mpr (hm.pos s (lt_states_of_mem_choices hrow) row hrow d hd)

theorem proper : m.Proper := by
  refine ⟨⟨fun s _ hchoice => ?_, fun s _ hchoice => ?_⟩, hm.nonempty⟩
  · obtain ⟨row, hrow, rfl⟩ := List.mem_map.mp hchoice
    exact fun e he => (hm.pos_read hrow e he).le
  · obtain ⟨row, hrow, rfl⟩ := List.mem_map.mp hchoice
    exact (hm.mass_read hrow).le

theorem successors_lt : ∀ s, ∀ t ∈ m.successors s, t < m.states := by
  intro s t ht
  obtain ⟨row, hrow, hcolumn⟩ := List.mem_flatMap.mp ht
  obtain ⟨e, he, rfl⟩ := Row.mem_columns.mp hcolumn
  exact hm.column_lt s (lt_states_of_mem_choices hrow) row hrow e he

theorem weighs_realRow (hchain : m.IsChain) : Weighs m m.realRow := by
  refine ⟨fun s t => ?_, fun s e he => ?_, fun s hs => ?_⟩
  · rw [successors, realRow]
    rcases hchain.choices_cases s with ⟨row, hrow⟩ | hnil
    · rw [hrow, List.flatMap_singleton]
      simp [Row.mem_columns, Row.read]
    · rw [hnil]
      simp [Row.read]
  · rw [realRow] at he
    rcases hchain.choices_cases s with ⟨row, hrow⟩ | hnil
    · rw [hrow] at he
      exact hm.pos_read (hrow.symm ▸ List.mem_singleton_self row) e he
    · rw [hnil] at he
      cases he
  · obtain ⟨row, hrow⟩ := hchain s hs
    rw [realRow, hrow]
    exact hm.mass_read (hrow.symm ▸ List.mem_singleton_self row)

end Stochastic

end TransitionMatrix

/-! ## Enclosures -/

namespace ReachabilityBounds

open Reachability (realValues valueAt)

/-- The bounds of every state enclose its value, and are as close to each other as asked for if the
iteration has converged. -/
structure Encloses (b : ReachabilityBounds ℚ) (n : Nat) (precision : ℚ) (x : Nat → ℝ) : Prop where
  lower_size : b.lower.size = n
  upper_size : b.upper.size = n
  lower_le : ∀ s < n, realValues b.lower s ≤ x s
  le_upper : ∀ s < n, x s ≤ realValues b.upper s
  narrow : b.converged = true → ∀ s < n, valueAt b.upper s - valueAt b.lower s ≤ precision

end ReachabilityBounds

namespace Reachability

variable {m : TransitionMatrix ℚ} {zero one : List Nat} {direction : Direction} {x : Nat → ℝ}
  {s : Nat}

/-- The widest of some intervals. -/
theorem le_foldl_widest (pairs : List (ℚ × ℚ)) (widest : ℚ) :
    let result := pairs.foldl (fun widest e => Scalar.max widest (Weight.sub e.2 e.1)) widest
    widest ≤ result ∧ ∀ e ∈ pairs, e.2 - e.1 ≤ result := by
  induction pairs generalizing widest with
  | nil => simp
  | cons e rest ih =>
      obtain ⟨hwidest, hrest⟩ := ih (Scalar.max widest (Weight.sub e.2 e.1))
      have hmax := (scalar_max_eq widest (Weight.sub e.2 e.1)).ge.trans hwidest
      refine ⟨(le_max_left _ _).trans hmax, List.forall_mem_cons.mpr ⟨?_, hrest⟩⟩
      exact (le_max_right widest (Weight.sub e.2 e.1)).trans hmax

/-- No distance is larger than the largest one. -/
theorem sub_le_gap {lower upper : Array ℚ} (hsize : lower.size = upper.size)
    (hs : s < lower.size) : valueAt upper s - valueAt lower s ≤ gap lower upper := by
  have hs' : s < upper.size := hsize ▸ hs
  have hmem : (lower[s], upper[s]) ∈ lower.toList.zip upper.toList := by
    rw [List.mem_iff_getElem]
    exact ⟨s, by simpa using ⟨hs, hs'⟩, by simp⟩
  have hlower : valueAt lower s = lower[s] := by simp [valueAt, hs]
  have hupper : valueAt upper s = upper[s] := by simp [valueAt, hs']
  rw [hlower, hupper]
  exact (le_foldl_widest _ Weight.zero).2 _ hmem

/-- Sweeps keep the sizes of the vectors. -/
theorem size_sweeps (m : TransitionMatrix ℚ) (zero one : List Nat) (direction : Direction)
    (k : Nat) : (sweeps m zero one direction k).lower.size = m.states ∧
      (sweeps m zero one direction k).upper.size = m.states := by
  refine sweeps_induction (P := fun lower upper => lower.size = m.states ∧ upper.size = m.states)
    ?_ (fun sweep s _ h => ?_) k
  · simp [sweeps]
  · simpa [improve] using h

/-- Sweeps keep the values of the other states than the open ones. -/
theorem realValues_sweeps_of_notMem (direction : Direction) (hs : s ∉ openStates m zero one)
    (k : Nat) :
    realValues (sweeps m zero one direction k).lower s =
        realValues (sweeps m zero one direction 0).lower s ∧
      realValues (sweeps m zero one direction k).upper s =
        realValues (sweeps m zero one direction 0).upper s := by
  refine sweeps_induction (P := fun lower upper =>
    realValues lower s = realValues (sweeps m zero one direction 0).lower s ∧
    realValues upper s = realValues (sweeps m zero one direction 0).upper s)
    ⟨rfl, rfl⟩ (fun sweep t ht h => ?_) k
  have hne : t ≠ s := fun hts => hs (hts ▸ ht)
  simp only [improve, realValues, valueAt, getD_setIfInBounds, hne, false_and, if_false]
  exact h

theorem realValues_start (m : TransitionMatrix ℚ) (zero one : List Nat) (direction : Direction)
    (s : Nat) :
    realValues (sweeps m zero one direction 0).lower s =
        (if s < m.states ∧ s ∈ one then 1 else 0) ∧
      realValues (sweeps m zero one direction 0).upper s =
        if s < m.states ∧ s ∉ zero then 1 else 0 := by
  have hzero : ((Weight.zero : ℚ) : ℝ) = 0 := Rat.cast_zero
  have hone : ((Weight.one : ℚ) : ℝ) = 1 := Rat.cast_one
  rw [sweeps, realValues_range_map, realValues_range_map]
  constructor
  · by_cases hs : s ∈ one
    · simp [hs, hone]
    · simp [hs, hzero]
  · by_cases hs : s ∈ zero
    · simp [hs, hzero]
    · simp [hs, hone]

/-- A vector of values with known zeros and ones: the exact result of an iteration. -/
structure KnownValues (m : TransitionMatrix ℚ) (zero one : List Nat) (direction : Direction)
    (x : Nat → ℝ) : Prop where
  nonneg : 0 ≤ x
  le_one : x ≤ 1
  step_eq : optimalStep direction m.realChoices {s | s ∈ one} x = x
  zero_eq : ∀ s ∈ zero, x s = 0
  out_eq : ∀ s, m.states ≤ s → x s = 0

namespace KnownValues

theorem one_eq (h : KnownValues m zero one direction x) (hs : s ∈ one) : x s = 1 := by
  rw [← h.step_eq, optimalStep_of_mem (show s ∈ {s | s ∈ one} from hs)]

theorem brackets (h : KnownValues m zero one direction x) (hm : m.Proper) (k : Nat) :
    Brackets x x (sweeps m zero one direction k).lower (sweeps m zero one direction k).upper :=
  brackets_sweeps hm h.le_one h.nonneg h.step_eq.le h.step_eq.ge h.nonneg h.le_one h.zero_eq
    h.out_eq k

/-- An iteration encloses its exact result. -/
theorem encloses (h : KnownValues m zero one direction x) (hm : m.Proper)
    (settings : IterationSettings ℚ) :
    (enclose m zero one direction settings).Encloses m.states settings.precision x := by
  obtain ⟨k, hend⟩ := exists_endsAfter_enclose m zero one direction settings
  obtain ⟨hlower, hupper⟩ := size_sweeps m zero one direction k
  have hbrackets := h.brackets hm k
  refine ⟨hend.lower_eq ▸ hlower, hend.upper_eq ▸ hupper, fun s _ => ?_, fun s _ => ?_,
    fun hconverged s hs => ?_⟩
  · rw [hend.lower_eq]
    exact hbrackets.lower_le s
  · rw [hend.upper_eq]
    exact hbrackets.le_upper s
  · rw [hend.converged_eq, isNarrow] at hconverged
    rw [hend.lower_eq, hend.upper_eq] at hconverged ⊢
    exact (sub_le_gap (hlower.trans hupper.symm) (hlower.symm ▸ hs)).trans
      (of_decide_eq_true hconverged)

/-- The values of the other states than the open ones are exact from the start. -/
theorem eq_of_notMem_openStates (h : KnownValues m zero one direction x) (hm : m.Proper)
    (hs : s ∉ openStates m zero one) (k : Nat) :
    realValues (sweeps m zero one direction k).lower s = x s ∧
      realValues (sweeps m zero one direction k).upper s = x s := by
  have hb := h.brackets hm 0
  obtain ⟨hlower, hupper⟩ := realValues_sweeps_of_notMem direction hs k
  obtain ⟨hlower0, hupper0⟩ := realValues_start m zero one direction s
  rw [hlower, hupper]
  by_cases hone : s < m.states ∧ s ∈ one
  · rw [h.one_eq hone.2]
    refine ⟨by rw [hlower0, if_pos hone], le_antisymm (hb.upper_le_one s) ?_⟩
    exact (h.one_eq hone.2).ge.trans (hb.le_upper s)
  · have hzero : ¬(s < m.states ∧ s ∉ zero) := fun hnot =>
      hs (mem_openStates.mpr ⟨hnot.1, hnot.2, fun hmem => hone ⟨hnot.1, hmem⟩⟩)
    have hx : x s = 0 := by
      by_cases hlt : s < m.states
      · exact h.zero_eq s (not_not.mp fun hnot => hzero ⟨hlt, hnot⟩)
      · exact h.out_eq s (not_lt.mp hlt)
    rw [hlower0, hupper0, if_neg hone, if_neg hzero, hx]
    exact ⟨rfl, rfl⟩

end KnownValues

/-! ## Sweeps without a change -/

theorem setIfInBounds_valueAt (values : Array ℚ) (s : Nat) :
    values.setIfInBounds s (valueAt values s) = values := by
  refine Array.ext (by simp) fun i hi hi' => ?_
  rw [Array.getElem_setIfInBounds]
  split
  · next his =>
      subst his
      simp [valueAt, hi']
  · rfl

/-- An improvement that changes nothing. -/
theorem improve_eq_self {sweep : Sweep ℚ} (h : (improve m direction sweep s).changed = false) :
    improve m direction sweep s = sweep ∧
      bellman m direction sweep.lower s ≤ valueAt sweep.lower s ∧
      valueAt sweep.upper s ≤ bellman m direction sweep.upper s := by
  simp only [improve, Bool.or_eq_false_iff, Bool.not_eq_false'] at h
  obtain ⟨⟨hchanged, hlower⟩, hupper⟩ := h
  have hlower' := of_decide_eq_true hlower
  have hupper' := of_decide_eq_true hupper
  have hsame : ∀ q : ℚ, Scalar.same q q = true := fun q => decide_eq_true rfl
  refine ⟨?_, ?_, ?_⟩
  · rw [improve, hlower', hupper', setIfInBounds_valueAt, setIfInBounds_valueAt, hsame, hsame]
    simp
  · rw [scalar_max_eq] at hlower'
    exact max_eq_right_iff.mp hlower'
  · rw [scalar_min_eq] at hupper'
    exact min_eq_right_iff.mp hupper'

theorem changed_foldl_improve (states : List Nat) {sweep : Sweep ℚ} (h : sweep.changed = true) :
    (states.foldl (improve m direction) sweep).changed = true := by
  induction states generalizing sweep with
  | nil => exact h
  | cons s rest ih => exact ih (by simp [improve, h])

theorem foldl_improve_eq_self {states : List Nat} {sweep : Sweep ℚ}
    (h : (states.foldl (improve m direction) sweep).changed = false) :
    states.foldl (improve m direction) sweep = sweep ∧ ∀ s ∈ states,
      bellman m direction sweep.lower s ≤ valueAt sweep.lower s ∧
      valueAt sweep.upper s ≤ bellman m direction sweep.upper s := by
  induction states with
  | nil => exact ⟨rfl, by simp⟩
  | cons s rest ih =>
      rw [List.foldl_cons] at h ⊢
      have hfirst : (improve m direction sweep s).changed = false := by
        rw [Bool.eq_false_iff]
        intro htrue
        rw [changed_foldl_improve rest htrue] at h
        cases h
      obtain ⟨hsame, hs⟩ := improve_eq_self hfirst
      rw [hsame] at h ⊢
      obtain ⟨hrest, hall⟩ := ih h
      exact ⟨hrest, List.forall_mem_cons.mpr ⟨hs, hall⟩⟩

/-- After a sweep without a change the Bellman operator raises the lower vector nowhere and lowers
the upper one nowhere. -/
theorem bellman_of_unchanged {k : Nat} (h : (sweeps m zero one direction k).changed = false)
    (hs : s ∈ openStates m zero one) :
    bellman m direction (sweeps m zero one direction k).lower s ≤
        valueAt (sweeps m zero one direction k).lower s ∧
      valueAt (sweeps m zero one direction k).upper s ≤
        bellman m direction (sweeps m zero one direction k).upper s := by
  cases k with
  | zero => cases h
  | succ k =>
      obtain ⟨hsame, hall⟩ := foldl_improve_eq_self h
      rw [sweeps, hsame]
      exact hall s hs

namespace KnownValues

variable (h : KnownValues m zero one direction x) (hm : m.Proper) {k : Nat}
  (hk : (sweeps m zero one direction k).changed = false)
include h hm hk

/-- After a sweep without a change the lower vector holds the optimal probabilities: the Bellman
operator does not raise it. -/
theorem lower_eq_of_unchanged {T : Set Nat} (hx : IsOptimal direction m.realChoices T x)
    (hT : ∀ s ∈ T, s ∈ one) : realValues (sweeps m zero one direction k).lower = x := by
  have hb := h.brackets hm k
  refine le_antisymm hb.lower_le
    (hx.le_of_optimalStep_le hm.substochastic hb.lower_nonneg fun s => ?_)
  by_cases hs : s ∈ openStates m zero one
  · obtain ⟨hlt, -, hnot⟩ := mem_openStates.mp hs
    rw [← bellman_eq_optimalStep direction hm hlt (fun hmem => hnot (hT s hmem)) fun t =>
      ⟨hb.lower_nonneg t, (hb.lower_le t).trans (h.le_one t)⟩]
    exact Rat.cast_le.mpr (bellman_of_unchanged hk hs).1
  · -- the vector is exact here, and the operator is monotone
    rw [(h.eq_of_notMem_openStates hm hs k).1, ← congrFun hx.optimalStep_eq s]
    exact hm.substochastic.optimalStep_mono hb.lower_le s

section Rows

variable {rows : Nat → Row ℝ}
  (hrows : ∀ s, m.realChoices s = [rows s] ∨ m.realChoices s = [] ∧ rows s = [])
include hrows

omit hm hk in
/-- If there is nothing to choose, then the values satisfy linear equations. -/
theorem dot_eq (hs : s ∉ one) : (rows s).dot x = x s := by
  have hstep := congrFun h.step_eq s
  rwa [optimalStep_eq_reachStep direction hrows, reachStep_of_notMem hs] at hstep

/-- Their right sides do not lower the upper vector. -/
theorem upper_le_dot_of_unchanged (hs : s ∈ openStates m zero one) :
    realValues (sweeps m zero one direction k).upper s ≤
      (rows s).dot (realValues (sweeps m zero one direction k).upper) := by
  have hb := h.brackets hm k
  obtain ⟨hlt, -, hnot⟩ := mem_openStates.mp hs
  have hbellman := bellman_eq_optimalStep direction hm hlt
    (show s ∉ {s | s ∈ one} from hnot) fun t =>
      ⟨(h.nonneg t).trans (hb.le_upper t), hb.upper_le_one t⟩
  rw [optimalStep_eq_reachStep direction hrows, reachStep_of_notMem hnot] at hbellman
  rw [← hbellman]
  exact Rat.cast_le.mpr (bellman_of_unchanged hk hs).2

/-- So the upper vector holds the values as well, if the equations of the open states have
drift. -/
theorem upper_eq_of_unchanged {u : Nat → ℝ}
    (hu : HasDrift (openStates m zero one).toFinset rows u) :
    realValues (sweeps m zero one direction k).upper = x := by
  have hexact := fun {s} hs => (h.eq_of_notMem_openStates hm (s := s) hs k).2
  -- how far the upper vector is above the values: by drift, not at all
  have hdiff := hu.nonpos_of_le
    (z := realValues (sweeps m zero one direction k).upper + (-1 : ℝ) • x) (fun s hs => ?_)
    fun s _ e _ he => ?_
  · refine le_antisymm (fun s => ?_) (h.brackets hm k).le_upper
    by_cases hs : s ∈ openStates m zero one
    · have hs' := hdiff s (List.mem_toFinset.mpr hs)
      rw [Pi.add_apply, Pi.smul_apply, smul_eq_mul] at hs'
      linarith
    · exact (hexact hs).le
  · rw [List.mem_toFinset] at hs
    have hupper := h.upper_le_dot_of_unchanged hm hk hrows hs
    rw [Row.dot_add, Row.dot_smul, h.dot_eq hrows (mem_openStates.mp hs).2.2, Pi.add_apply,
      Pi.smul_apply, smul_eq_mul]
    linarith
  · rw [Pi.add_apply, Pi.smul_apply, smul_eq_mul,
      hexact fun hmem => he (List.mem_toFinset.mpr hmem)]
    linarith

end Rows

end KnownValues

/-! ## Decision processes -/

section Process

variable {targets : List Nat}

theorem eq_zero_of_states_le (htargets : ∀ t ∈ targets, t < m.states)
    (hx : IsOptimal direction m.realChoices {s | s ∈ targets} x) (hs : m.states ≤ s) :
    x s = 0 := by
  have hnot : s ∉ {s | s ∈ targets} := fun h => absurd (htargets s h) (not_lt.mpr hs)
  rw [← hx.optimalStep_eq, optimalStep_of_notMem hnot, TransitionMatrix.realChoices,
    TransitionMatrix.choices_eq_nil hs]
  cases direction with
  | minimize => rfl
  | maximize => rfl

/-- The states that can avoid the targets have minimal probability zero. -/
theorem eq_zero_of_mem_canAvoid (hm : SubstochasticChoices m.realChoices)
    (hx : IsOptimal .minimize m.realChoices {s | s ∈ targets} x) (hs : s ∈ canAvoid m targets) :
    x s = 0 := by
  refine hx.eq_zero_of_avoiding hm (S := {s | s ∈ canAvoid m targets})
    (fun t ht => (Qualitative.canAvoid_stays ht).1) (fun t ht => ?_) s hs
  obtain ⟨row, hrow, hstay⟩ := (Qualitative.canAvoid_stays ht).2
  refine ⟨_, List.mem_map_of_mem hrow, fun e he => ?_⟩
  obtain ⟨d, hd, rfl⟩ := Row.mem_read.mp he
  exact hstay d hd

variable (hm : m.Stochastic) (htargets : ∀ t ∈ targets, t < m.states)
include hm htargets

/-- An iteration on a decision process encloses the optimal probabilities. -/
theorem ofProcess_encloses (hx : IsOptimal direction m.realChoices {s | s ∈ targets} x)
    (settings : IterationSettings ℚ) :
    (ofProcess m targets direction settings).Encloses m.states settings.precision x := by
  have hsub := hm.proper.substochastic
  have hknown : ∀ zero : List Nat, (∀ s ∈ zero, x s = 0) →
      KnownValues m zero targets direction x := fun zero hzero =>
    ⟨hx.nonneg, hx.le_one hsub, hx.optimalStep_eq, hzero,
      fun s hs => eq_zero_of_states_le htargets hx hs⟩
  cases direction with
  | minimize =>
      exact (hknown _ fun s hs => eq_zero_of_mem_canAvoid hsub hx hs).encloses hm.proper settings
  | maximize =>
      refine (hknown _ fun s hs => ?_).encloses hm.proper settings
      exact eq_zero_of_notMem_canReach hsub htargets hx (Qualitative.mem_complement.mp hs).2

end Process

/-! ## Chains -/

/-- The sweeps of an iteration on a chain. -/
def chainSweeps (m : TransitionMatrix ℚ) (targets : List Nat) : Nat → Sweep ℚ :=
  sweeps m (neverReach m targets) (surelyReach m targets (neverReach m targets)) .maximize

section Chain

variable {targets : List Nat} (hm : m.Stochastic) (htargets : ∀ t ∈ targets, t < m.states)
  (hchain : m.IsChain) (hx : IsReachability m.realRow {s | s ∈ targets} x)
include hm htargets hchain hx

/-- The probabilities of a chain are the exact result of an iteration with the states that never
reach a target and those that surely do. -/
theorem knownValues_ofChain : KnownValues m (neverReach m targets)
    (surelyReach m targets (neverReach m targets)) .maximize x := by
  have hoptimal := (isReachability_iff_isOptimal .maximize hchain.realChoices_cases).mp hx
  have hrows := hm.weighs_realRow hchain
  have hclasses := Qualitative.classes_of_matrix hm.successors_lt htargets
  refine ⟨hoptimal.nonneg, hoptimal.le_one hm.proper.substochastic, funext fun s => ?_,
    fun s hs => hclasses.eq_zero_of_never hrows hx hs,
    fun s hs => eq_zero_of_states_le htargets hoptimal hs⟩
  -- probabilities are also a fixed point with the sure states as targets
  by_cases hs : s ∈ {s | s ∈ surelyReach m targets (neverReach m targets)}
  · rw [optimalStep_of_mem hs, hclasses.eq_one_of_sure hrows hx hs]
  · have hnot : s ∉ {s | s ∈ targets} := fun ht => hs (hclasses.target_sure s ht)
    rw [optimalStep_of_notMem hs, ← optimalStep_of_notMem hnot]
    exact congrFun hoptimal.optimalStep_eq s

/-- After a sweep without a change both vectors of an iteration on a chain hold the
probabilities. -/
theorem eq_probability_of_unchanged {k : Nat} (hk : (chainSweeps m targets k).changed = false) :
    realValues (chainSweeps m targets k).lower = x ∧
      realValues (chainSweeps m targets k).upper = x := by
  have hknown := knownValues_ofChain hm htargets hchain hx
  have hoptimal := (isReachability_iff_isOptimal .maximize hchain.realChoices_cases).mp hx
  have hclasses := Qualitative.classes_of_matrix hm.successors_lt htargets
  obtain ⟨u, hu⟩ := hclasses.exists_hasDrift_of_subset (hm.weighs_realRow hchain)
    (S := (openStates m (neverReach m targets)
      (surelyReach m targets (neverReach m targets))).toFinset)
    (fun s hs => (mem_openStates.mp (List.mem_toFinset.mp hs)).1)
    (fun s hs => by
      obtain ⟨-, hnever, hsure⟩ := mem_openStates.mp (List.mem_toFinset.mp hs)
      exact ⟨hnever, fun ht => hsure (hclasses.target_sure s ht)⟩)
  exact ⟨hknown.lower_eq_of_unchanged hm.proper hk hoptimal hclasses.target_sure,
    hknown.upper_eq_of_unchanged hm.proper hk hchain.realChoices_cases hu⟩

end Chain

/-- Interval iteration is sound, whatever ends it.  On a decision process it encloses the optimal
probabilities, on a chain the probabilities; where it has converged, the bounds are as close as
asked for.  On a chain it holds the vectors after some sweeps, and a sweep without a change leaves
the exact probabilities in both of them. -/
theorem interval_iteration_encloses {m : TransitionMatrix ℚ} (hm : m.Stochastic)
    {targets : List Nat} (htargets : ∀ t ∈ targets, t < m.states)
    (settings : IterationSettings ℚ) :
    (∀ direction, ∃ x, IsOptimal direction m.realChoices {s | s ∈ targets} x ∧
      (ofProcess m targets direction settings).Encloses m.states settings.precision x) ∧
    (m.IsChain → ∃ x, IsReachability m.realRow {s | s ∈ targets} x ∧
      (ofChain m targets settings).Encloses m.states settings.precision x ∧
      (∃ k, EndsAfter settings (chainSweeps m targets) settings.maxIterations k
        (ofChain m targets settings)) ∧
      ∀ k, (chainSweeps m targets k).changed = false →
        realValues (chainSweeps m targets k).lower = x ∧
          realValues (chainSweeps m targets k).upper = x) := by
  refine ⟨fun direction => ?_, fun hchain => ?_⟩
  · obtain ⟨x, hx⟩ := hm.proper.substochastic.exists_isOptimal direction {s | s ∈ targets}
    exact ⟨x, hx, ofProcess_encloses hm htargets hx settings⟩
  · obtain ⟨x, hx⟩ :=
      (hm.weighs_realRow hchain).substochastic.exists_isReachability {s | s ∈ targets}
    refine ⟨x, hx, ?_, ?_, fun k hk => eq_probability_of_unchanged hm htargets hchain hx hk⟩
    · exact (knownValues_ofChain hm htargets hchain hx).encloses hm.proper settings
    · exact exists_endsAfter_enclose m _ _ .maximize settings

/-- A fair coin is tossed once. -/
def coinMatrix : TransitionMatrix ℚ where
  columns := 3
  groups := #[[[(1, 1 / 2), (2, 1 / 2)]], [[(1, 1)]], [[(2, 1)]]]

/-- The toss may be put off for ever. -/
def waitingMatrix : TransitionMatrix ℚ where
  columns := 3
  groups := #[[[(0, 1)], [(1, 1 / 2), (2, 1 / 2)]], [[(1, 1)]], [[(2, 1)]]]

/-- Of the matrix of the coin the second sweep changes nothing.  If the toss may be put off, then
upper bounds of the maximal probabilities hold also where the iteration gets stuck. -/
theorem interval_iteration_coin :
    (∃ x, IsReachability coinMatrix.realRow {s | s ∈ [1]} x ∧
      (chainSweeps coinMatrix [1] 2).changed = false ∧
      realValues (chainSweeps coinMatrix [1] 2).lower = x ∧
      realValues (chainSweeps coinMatrix [1] 2).upper = x) ∧
    ∃ x, IsOptimal .maximize waitingMatrix.realChoices {s | s ∈ [1]} x ∧
      (ofProcess waitingMatrix [1] .maximize ⟨1 / 10, 5⟩).converged = false ∧
      (ofProcess waitingMatrix [1] .maximize ⟨1 / 10, 5⟩).Encloses 3 (1 / 10) x := by
  have hcoin : coinMatrix.Stochastic :=
    ⟨by decide, by decide, by decide +kernel, by decide +kernel⟩
  have hwaiting : waitingMatrix.Stochastic :=
    ⟨by decide, by decide, by decide +kernel, by decide +kernel⟩
  have hchain : coinMatrix.IsChain := by
    intro s hs
    match s, hs with
    | 0, _ => exact ⟨_, rfl⟩
    | 1, _ => exact ⟨_, rfl⟩
    | 2, _ => exact ⟨_, rfl⟩
  have hstill : (chainSweeps coinMatrix [1] 2).changed = false := by decide +kernel
  have htargets : ∀ t ∈ [1], t < 3 := by decide
  obtain ⟨x, hx, -, -, hexact⟩ :=
    (interval_iteration_encloses hcoin htargets ⟨1 / 10, 5⟩).2 hchain
  obtain ⟨y, hy, hencloses⟩ :=
    (interval_iteration_encloses hwaiting htargets ⟨1 / 10, 5⟩).1 .maximize
  exact ⟨⟨x, hx, hstill, hexact 2 hstill⟩, y, hy, by decide +kernel, hencloses⟩

end Reachability

end MarkovRegion
