import Mathlib.Data.Finset.Card
import MarkovRegion.Analysis.Qualitative
import MarkovRegion.Proofs.Model.Chain
import MarkovRegion.Proofs.Probability.DecisionProcess

/-!
# Correctness of the qualitative analysis

The sets of the qualitative analysis are fixed points: a step that only sets marks, or only removes
them, is repeated as often as there are states, and each repetition that is not the last changes
the number of marks (`Inflationary.step_stabilize`, `Deflationary.step_stabilize`).

* The states found backwards are closed under predecessors that may be passed
  (`mem_canReach_of_step`), no more of them than that (`canReach_induction`), and lead down in rank
  to the set they were found from (`exists_rank_canReach`).
* The states that can avoid the targets have a choice that stays among them (`canAvoid_stays`).
* The states found forwards are closed under successors (`mem_reachableFrom_of_step`).

This splits the states of a matrix in three (`Classes`).  If positive weights are put on its steps,
one row for each state, then the probability of reaching a target is zero on the first class and one
on the second (`Classes.eq_zero_of_never`, `Classes.eq_one_of_sure`).
-/

namespace MarkovRegion

namespace Qualitative

variable {W : Type}

/-! ## Marks -/

@[simp] theorem marked_map_range (n : Nat) (f : Nat → Bool) (s : Nat) :
    marked ((Array.range n).map f) s = (decide (s < n) && f s) := by
  by_cases h : s < n
  · simp [marked, h]
  · simp [marked, h]

theorem lt_size_of_marked {marks : Array Bool} {s : Nat} (h : marked marks s = true) :
    s < marks.size := by
  by_contra hs
  simp [marked, Array.getD, hs] at h

theorem mem_members {marks : Array Bool} {s : Nat} : s ∈ members marks ↔ marked marks s = true := by
  rw [members, List.mem_filter, List.mem_range]
  exact and_iff_right_of_imp lt_size_of_marked

theorem mem_complement {n s : Nat} {set : List Nat} :
    s ∈ complement n set ↔ s < n ∧ s ∉ set := by
  simp [complement]

theorem marks_ext {a b : Array Bool} (hsize : a.size = b.size)
    (h : ∀ s, marked a s = marked b s) : a = b := by
  refine Array.ext hsize fun i hi hj => ?_
  simpa [marked, Array.getD, hi, hj] using h i

/-- The number of marks. -/
def markCount (marks : Array Bool) : Nat :=
  ((Finset.range marks.size).filter fun s => marked marks s = true).card

theorem markCount_le_size (marks : Array Bool) : markCount marks ≤ marks.size :=
  (Finset.card_filter_le _ _).trans_eq (Finset.card_range _)

/-- Fewer marks are fewer in number. -/
theorem markCount_lt {a b : Array Bool} (hsize : a.size = b.size)
    (hsub : ∀ s, marked a s = true → marked b s = true) (hne : a ≠ b) :
    markCount a < markCount b := by
  refine Finset.card_lt_card (Finset.ssubset_iff_subset_ne.mpr ⟨?_, ?_⟩)
  · intro s hs
    rw [Finset.mem_filter, Finset.mem_range] at hs ⊢
    exact ⟨hsize ▸ hs.1, hsub s hs.2⟩
  · intro heq
    refine hne (marks_ext hsize fun s => ?_)
    rw [Bool.eq_iff_iff]
    refine ⟨hsub s, fun hs => ?_⟩
    have hmem : s ∈ (Finset.range b.size).filter fun s => marked b s = true :=
      Finset.mem_filter.mpr ⟨Finset.mem_range.mpr (lt_size_of_marked hs), hs⟩
    rw [← heq, Finset.mem_filter] at hmem
    exact hmem.2

section Stabilize

variable {step : Array Bool → Array Bool} {P : Array Bool → Prop}
  (hstep : ∀ marks, P marks → P (step marks))
include hstep

/-- What the steps keep holds of the result. -/
theorem stabilize_induction (fuel : Nat) {marks : Array Bool} (hmarks : P marks) :
    P (stabilize step fuel marks) := by
  induction fuel generalizing marks with
  | zero => exact hmarks
  | succ fuel ih =>
      rw [stabilize]
      split
      · exact hmarks
      · exact ih (hstep _ hmarks)

/-- Enough repetitions of a step lead to a fixed point, if each one that changes something lowers a
measure. -/
theorem step_stabilize_of_measure (μ : Array Bool → Nat)
    (hμ : ∀ marks, P marks → step marks ≠ marks → μ (step marks) < μ marks) {fuel : Nat}
    {marks : Array Bool} (hmarks : P marks) (hfuel : μ marks ≤ fuel) :
    step (stabilize step fuel marks) = stabilize step fuel marks := by
  induction fuel generalizing marks with
  | zero =>
      by_contra hne
      rw [stabilize] at hne
      exact absurd (hμ marks hmarks hne) (not_lt.mpr (hfuel.trans (Nat.zero_le _)))
  | succ fuel ih =>
      rw [stabilize]
      split
      · assumption
      · next hne => exact ih (hstep _ hmarks) (by have := hμ marks hmarks hne; omega)

end Stabilize

/-- A step on the marks of `n` states that keeps all of them. -/
structure Inflationary (n : Nat) (step : Array Bool → Array Bool) : Prop where
  size_eq : ∀ marks, marks.size = n → (step marks).size = n
  keeps : ∀ marks s, marks.size = n → marked marks s = true → marked (step marks) s = true

/-- A step on the marks of `n` states that sets none. -/
structure Deflationary (n : Nat) (step : Array Bool → Array Bool) : Prop where
  size_eq : ∀ marks, marks.size = n → (step marks).size = n
  keeps_unmarked : ∀ marks s, marks.size = n → marked (step marks) s = true →
    marked marks s = true

theorem Deflationary.step_stabilize {n : Nat} {step : Array Bool → Array Bool}
    (h : Deflationary n step) {marks : Array Bool} (hsize : marks.size = n) :
    step (stabilize step n marks) = stabilize step n marks := by
  refine step_stabilize_of_measure (P := fun marks => marks.size = n) h.size_eq markCount
    (fun marks hmarks hne => ?_) hsize (hsize ▸ markCount_le_size marks)
  exact markCount_lt ((h.size_eq marks hmarks).trans hmarks.symm)
    (fun s => h.keeps_unmarked marks s hmarks) hne

namespace Inflationary

variable {n fuel s : Nat} {step : Array Bool → Array Bool} {marks : Array Bool}

theorem step_stabilize (h : Inflationary n step) (hsize : marks.size = n) :
    step (stabilize step n marks) = stabilize step n marks := by
  refine step_stabilize_of_measure (P := fun marks => marks.size = n) h.size_eq
    (fun marks => n - markCount marks) (fun marks hmarks hne => ?_) hsize (Nat.sub_le _ _)
  have hstep := h.size_eq marks hmarks
  have hlt := markCount_lt (hmarks.trans hstep.symm) (fun s => h.keeps marks s hmarks) hne.symm
  have hle := markCount_le_size (step marks)
  rw [hstep] at hle
  omega

theorem size_stabilize (h : Inflationary n step) (hsize : marks.size = n) :
    (stabilize step fuel marks).size = n :=
  stabilize_induction h.size_eq _ hsize

theorem marked_stabilize (h : Inflationary n step) (hsize : marks.size = n)
    (hs : marked marks s = true) : marked (stabilize step fuel marks) s = true := by
  have hboth : (stabilize step fuel marks).size = n ∧ marked (stabilize step fuel marks) s = true :=
    stabilize_induction (P := fun m => m.size = n ∧ marked m s = true)
      (fun m hm => ⟨h.size_eq m hm.1, h.keeps m s hm.1 hm.2⟩) _ ⟨hsize, hs⟩
  exact hboth.2

end Inflationary

theorem size_marksOf (n : Nat) (set : List Nat) : (marksOf n set).size = n := by simp [marksOf]

theorem marked_marksOf {n s : Nat} {set : List Nat} :
    marked (marksOf n set) s = true ↔ s < n ∧ s ∈ set := by
  simp [marksOf]

/-! ## Backwards -/

section Backwards

variable {m : TransitionMatrix W} {set : List Nat} {passes : Nat → Bool} {s t : Nat}

theorem marked_backwardStep {marks : Array Bool} :
    marked (backwardStep m passes marks) s = true ↔
      s < m.states ∧ (marked marks s = true ∨
        passes s = true ∧ ∃ t ∈ m.successors s, marked marks t = true) := by
  simp [backwardStep]

theorem inflationary_backwardStep (m : TransitionMatrix W) (passes : Nat → Bool) :
    Inflationary m.states (backwardStep m passes) where
  size_eq marks _ := by simp [backwardStep]
  keeps marks s hsize hs := marked_backwardStep.mpr ⟨hsize ▸ lt_size_of_marked hs, Or.inl hs⟩

theorem lt_states_of_mem_canReach (h : s ∈ canReach m set passes) : s < m.states := by
  rw [canReach, mem_members] at h
  rw [← (inflationary_backwardStep m passes).size_stabilize (size_marksOf m.states set)]
  exact lt_size_of_marked h

theorem mem_canReach_of_mem (hs : s < m.states) (h : s ∈ set) : s ∈ canReach m set passes := by
  rw [canReach, mem_members]
  exact (inflationary_backwardStep m passes).marked_stabilize (size_marksOf _ _)
    (marked_marksOf.mpr ⟨hs, h⟩)

theorem mem_canReach_of_step (hs : s < m.states) (hpass : passes s = true)
    (ht : t ∈ m.successors s) (h : t ∈ canReach m set passes) : s ∈ canReach m set passes := by
  rw [canReach, mem_members] at h ⊢
  rw [← (inflationary_backwardStep m passes).step_stabilize (size_marksOf m.states set)]
  exact marked_backwardStep.mpr ⟨hs, Or.inr ⟨hpass, t, ht, h⟩⟩

/-- What holds on the set, and of a state that may be passed if it holds of a successor, holds of
all states found backwards. -/
theorem canReach_induction {P : Nat → Prop} (hset : ∀ s ∈ set, P s)
    (hstep : ∀ s t, passes s = true → t ∈ m.successors s → P t → P s)
    (h : s ∈ canReach m set passes) : P s := by
  rw [canReach, mem_members] at h
  refine stabilize_induction (P := fun marks => ∀ s, marked marks s = true → P s)
    (fun marks hmarks s hs => ?_) m.states (fun s hs => hset s (marked_marksOf.mp hs).2) s h
  rcases (marked_backwardStep.mp hs).2 with hold | ⟨hpass, t, ht, htm⟩
  · exact hmarks s hold
  · exact hstep s t hpass ht (hmarks t htm)

/-- Marks with bounded ranks: a mark outside the set has a marked successor of lower rank. -/
structure Ranked (m : TransitionMatrix W) (set : List Nat) (passes : Nat → Bool)
    (rank : Nat → Nat) (bound : Nat) (marks : Array Bool) : Prop where
  size_eq : marks.size = m.states
  rank_le : ∀ s, rank s ≤ bound
  descends : ∀ s, marked marks s = true → s ∈ set ∨
    passes s = true ∧ ∃ t ∈ m.successors s, marked marks t = true ∧ rank t < rank s

/-- A new mark gets a rank above all ranks so far. -/
theorem Ranked.step {rank : Nat → Nat} {bound : Nat} {marks : Array Bool}
    (h : Ranked m set passes rank bound marks) :
    Ranked m set passes (fun s => if marked marks s = true then rank s else bound + 1) (bound + 1)
      (backwardStep m passes marks) := by
  have hkeep := fun s => (inflationary_backwardStep m passes).keeps marks s h.size_eq
  refine ⟨(inflationary_backwardStep m passes).size_eq marks h.size_eq, fun s => ?_, fun s hs => ?_⟩
  · split
    · exact (h.rank_le s).trans (Nat.le_succ _)
    · exact le_rfl
  · obtain ⟨-, hstep⟩ := marked_backwardStep.mp hs
    by_cases hold : marked marks s = true
    · refine (h.descends s hold).imp_right ?_
      rintro ⟨hpass, t, ht, htm, hlt⟩
      exact ⟨hpass, t, ht, hkeep t htm, by simpa [hold, htm] using hlt⟩
    · obtain ⟨hpass, t, ht, htm⟩ := hstep.resolve_left hold
      refine Or.inr ⟨hpass, t, ht, hkeep t htm, ?_⟩
      simpa [hold, htm] using Nat.lt_succ_of_le (h.rank_le t)

/-- The states found backwards lead down in rank to the set they were found from. -/
theorem exists_rank_canReach (m : TransitionMatrix W) (set : List Nat) (passes : Nat → Bool) :
    ∃ rank : Nat → Nat, ∀ s ∈ canReach m set passes, s ∈ set ∨
      passes s = true ∧ ∃ t ∈ m.successors s, t ∈ canReach m set passes ∧ rank t < rank s := by
  have hstart : ∃ rank bound, Ranked m set passes rank bound (marksOf m.states set) :=
    ⟨fun _ => 0, 0, size_marksOf _ _, fun _ => le_rfl, fun s hs => Or.inl (marked_marksOf.mp hs).2⟩
  have hstep : ∀ marks, (∃ rank bound, Ranked m set passes rank bound marks) →
      ∃ rank bound, Ranked m set passes rank bound (backwardStep m passes marks) :=
    fun marks ⟨rank, bound, h⟩ => ⟨_, _, h.step⟩
  obtain ⟨rank, bound, hrank⟩ := stabilize_induction hstep m.states hstart
  refine ⟨rank, fun s hs => ?_⟩
  refine (hrank.descends s (mem_members.mp hs)).imp_right ?_
  rintro ⟨hpass, t, ht, htm, hlt⟩
  exact ⟨hpass, t, ht, mem_members.mpr htm, hlt⟩

end Backwards

/-! ## Avoiding -/

section Avoiding

variable {m : TransitionMatrix W} {targets : List Nat} {s : Nat}

theorem marked_avoidStep {marks : Array Bool} :
    marked (avoidStep m marks) s = true ↔ s < m.states ∧ marked marks s = true ∧
      ∃ row ∈ m.choices s, ∀ e ∈ row, marked marks e.1 = true := by
  simp [avoidStep]

theorem deflationary_avoidStep (m : TransitionMatrix W) : Deflationary m.states (avoidStep m) where
  size_eq marks _ := by simp [avoidStep]
  keeps_unmarked _ _ _ hs := (marked_avoidStep.mp hs).2.1

/-- The states that can avoid the targets are none of them, and have a choice that stays among
them. -/
theorem canAvoid_stays (h : s ∈ canAvoid m targets) :
    s ∉ targets ∧ ∃ row ∈ m.choices s, ∀ e ∈ row, e.1 ∈ canAvoid m targets := by
  have hdeflationary := deflationary_avoidStep m
  rw [canAvoid, mem_members] at h
  constructor
  · have hstart : ∀ marks, (∀ t, marked marks t = true → t ∉ targets) →
        ∀ t, marked (avoidStep m marks) t = true → t ∉ targets :=
      fun marks hmarks t ht => hmarks t (marked_avoidStep.mp ht).2.1
    refine stabilize_induction hstart m.states (fun t ht => ?_) s h
    exact (mem_complement.mp (marked_marksOf.mp ht).2).2
  · rw [← hdeflationary.step_stabilize (size_marksOf _ _)] at h
    obtain ⟨-, -, row, hrow, hstay⟩ := marked_avoidStep.mp h
    exact ⟨row, hrow, fun e he => mem_members.mpr (hstay e he)⟩

end Avoiding

/-! ## Forwards -/

section Forwards

variable {successors : Nat → List Nat} {n initial s t : Nat}

theorem marked_setIfInBounds {marks : Array Bool} :
    marked (marks.setIfInBounds t true) s = true ↔
      marked marks s = true ∨ s = t ∧ t < marks.size := by
  rw [marked, getD_setIfInBounds, marked]
  split
  · next h => exact iff_of_true rfl (Or.inr ⟨h.1.symm, h.1.symm ▸ h.2⟩)
  · next h =>
      refine (or_iff_left ?_).symm
      rintro ⟨rfl, hs⟩
      exact h ⟨rfl, hs⟩

/-- Setting the marks of a list of states. -/
theorem marked_foldl_set (list : List Nat) (marks : Array Bool) :
    (list.foldl (fun next t => next.setIfInBounds t true) marks).size = marks.size ∧
      (marked (list.foldl (fun next t => next.setIfInBounds t true) marks) s = true ↔
        marked marks s = true ∨ s ∈ list ∧ s < marks.size) := by
  induction list generalizing marks with
  | nil => simp
  | cons t rest ih =>
      obtain ⟨hsize, hmarked⟩ := ih (marks.setIfInBounds t true)
      rw [List.foldl_cons]
      refine ⟨hsize.trans Array.size_setIfInBounds, hmarked.trans ?_⟩
      rw [marked_setIfInBounds, Array.size_setIfInBounds, List.mem_cons]
      grind

theorem marked_forwardStep {marks : Array Bool} :
    (forwardStep successors marks).size = marks.size ∧
      (marked (forwardStep successors marks) t = true ↔ marked marks t = true ∨
        t < marks.size ∧ ∃ s, marked marks s = true ∧ t ∈ successors s) := by
  have hfold : ∀ (list : List Nat) (next : Array Bool),
      (list.foldl (fun next s =>
        (successors s).foldl (fun next t => next.setIfInBounds t true) next) next).size =
          next.size ∧
      (marked (list.foldl (fun next s =>
        (successors s).foldl (fun next t => next.setIfInBounds t true) next) next) t = true ↔
          marked next t = true ∨ t < next.size ∧ ∃ s ∈ list, t ∈ successors s) := by
    intro list
    induction list with
    | nil => simp
    | cons s rest ih =>
        intro next
        obtain ⟨hsize, hmarked⟩ := marked_foldl_set (s := t) (successors s) next
        obtain ⟨hrest, hiff⟩ := ih
          ((successors s).foldl (fun next t => next.setIfInBounds t true) next)
        rw [List.foldl_cons]
        refine ⟨hrest.trans hsize, hiff.trans ?_⟩
        rw [hmarked, hsize, List.exists_mem_cons_iff]
        grind
  obtain ⟨hsize, hiff⟩ := hfold (members marks) marks
  refine ⟨hsize, hiff.trans ?_⟩
  simp only [mem_members]

theorem inflationary_forwardStep (n : Nat) (successors : Nat → List Nat) :
    Inflationary n (forwardStep successors) where
  size_eq _ hsize := marked_forwardStep (t := 0).1.trans hsize
  keeps _ _ _ hs := marked_forwardStep.2.mpr (Or.inl hs)

theorem lt_of_mem_reachableFrom (h : s ∈ reachableFrom n successors initial) : s < n := by
  rw [reachableFrom, mem_members] at h
  rw [← (inflationary_forwardStep n successors).size_stabilize (size_marksOf n [initial])]
  exact lt_size_of_marked h

theorem initial_mem_reachableFrom (h : initial < n) :
    initial ∈ reachableFrom n successors initial := by
  rw [reachableFrom, mem_members]
  exact (inflationary_forwardStep n successors).marked_stabilize (size_marksOf _ _)
    (marked_marksOf.mpr ⟨h, List.mem_singleton_self _⟩)

theorem mem_reachableFrom_of_step (hs : s ∈ reachableFrom n successors initial)
    (hst : t ∈ successors s) (ht : t < n) : t ∈ reachableFrom n successors initial := by
  have hinfl := inflationary_forwardStep n successors
  rw [reachableFrom, mem_members] at hs ⊢
  rw [← hinfl.step_stabilize (size_marksOf n [initial])]
  refine marked_forwardStep.2.mpr (Or.inr ⟨?_, s, hs, hst⟩)
  rwa [hinfl.size_stabilize (size_marksOf n [initial])]

/-- Only the initial state and successors are found. -/
theorem mem_reachableFrom_cases (h : t ∈ reachableFrom n successors initial) :
    t = initial ∨ ∃ s, t ∈ successors s := by
  rw [reachableFrom, mem_members] at h
  have hstep : ∀ marks, (∀ t, marked marks t = true → t = initial ∨ ∃ s, t ∈ successors s) →
      ∀ t, marked (forwardStep successors marks) t = true →
        t = initial ∨ ∃ s, t ∈ successors s := by
    intro marks hmarks t ht
    rcases marked_forwardStep.2.mp ht with ht | ⟨-, s, -, hst⟩
    · exact hmarks t ht
    · exact Or.inr ⟨s, hst⟩
  refine stabilize_induction hstep n (fun t ht => ?_) t h
  exact Or.inl (List.mem_singleton.mp (marked_marksOf.mp ht).2)

end Forwards

/-! ## The classes of states -/

/-- A split of the states of a matrix: those that never reach a target, those that surely do, and
the others, from which both are possible. -/
structure Classes (m : TransitionMatrix W) (targets never sure : List Nat) : Prop where
  target_sure : ∀ s ∈ targets, s ∈ sure
  never_not_sure : ∀ s ∈ never, s ∉ sure
  sure_lt : ∀ s ∈ sure, s < m.states
  never_closed : ∀ s ∈ never, ∀ t ∈ m.successors s, t ∈ never
  sure_closed : ∀ s ∈ sure, s ∉ targets → ∀ t ∈ m.successors s, t ∈ sure
  /-- Where a target can be reached, a step leads closer to it. -/
  descends : ∃ rank : Nat → Nat, ∀ s < m.states, s ∉ never → s ∉ targets →
    ∃ t ∈ m.successors s, t ∉ never ∧ rank t < rank s

/-- The analysis finds the classes. -/
theorem classes_of_matrix {m : TransitionMatrix W}
    (hsuccessors : ∀ s, ∀ t ∈ m.successors s, t < m.states) {targets : List Nat}
    (htargets : ∀ s ∈ targets, s < m.states) :
    Classes m targets (neverReach m targets) (surelyReach m targets (neverReach m targets)) := by
  obtain ⟨rank, hrank⟩ := exists_rank_canReach m targets fun _ => true
  obtain ⟨_, havoid⟩ := exists_rank_canReach m (neverReach m targets) fun s => !targets.contains s
  constructor
  · intro s hs
    refine mem_complement.mpr ⟨htargets s hs, fun hmem => ?_⟩
    rcases havoid s hmem with hnever | ⟨hpass, -⟩
    · exact (mem_complement.mp hnever).2 (mem_canReach_of_mem (htargets s hs) hs)
    · simp [hs] at hpass
  · intro s hs hsure
    have hlt := (mem_complement.mp hs).1
    exact (mem_complement.mp hsure).2 (mem_canReach_of_mem hlt hs)
  · intro s hs
    exact (mem_complement.mp hs).1
  · intro s hs t ht
    obtain ⟨hlt, hnot⟩ := mem_complement.mp hs
    refine mem_complement.mpr ⟨hsuccessors s t ht, fun hmem => hnot ?_⟩
    exact mem_canReach_of_step hlt rfl ht hmem
  · intro s hs htarget t ht
    obtain ⟨hlt, hnot⟩ := mem_complement.mp hs
    refine mem_complement.mpr ⟨hsuccessors s t ht, fun hmem => hnot ?_⟩
    exact mem_canReach_of_step hlt (by simpa using htarget) ht hmem
  · refine ⟨rank, fun s hs hnever htarget => ?_⟩
    have hmem : s ∈ canReach m targets fun _ => true := by
      by_contra hnot
      exact hnever (mem_complement.mpr ⟨hs, hnot⟩)
    obtain ⟨-, t, ht, htm, hlt⟩ := (hrank s hmem).resolve_left htarget
    exact ⟨t, ht, fun hn => (mem_complement.mp hn).2 htm, hlt⟩

/-- Rows with positive weights on the steps of a matrix, without loss of mass. -/
structure Weighs (m : TransitionMatrix W) (rows : Nat → Row ℝ) : Prop where
  mem_successors : ∀ s t, t ∈ m.successors s ↔ ∃ e ∈ rows s, e.1 = t
  pos : ∀ s, ∀ e ∈ rows s, 0 < e.2
  mass : ∀ s < m.states, (rows s).dot 1 = 1

theorem successors_eq_nil {m : TransitionMatrix W} {s : Nat} (hs : m.states ≤ s) :
    m.successors s = [] := by
  rw [TransitionMatrix.successors, TransitionMatrix.choices, getD_of_size_le _ hs]
  rfl

theorem Weighs.substochastic {m : TransitionMatrix W} {rows : Nat → Row ℝ} (h : Weighs m rows) :
    Substochastic rows where
  nonneg s e he := (h.pos s e he).le
  mass_le s := by
    by_cases hs : s < m.states
    · exact (h.mass s hs).le
    · have hnil : rows s = [] := by
        rw [List.eq_nil_iff_forall_not_mem]
        intro e he
        have hmem := (h.mem_successors s e.1).mpr ⟨e, he, rfl⟩
        rw [successors_eq_nil (not_lt.mp hs)] at hmem
        cases hmem
      rw [hnil]
      exact zero_le_one

/-- At an admissible point a chain has positive weights on its steps. -/
theorem weighs_rowsAt {c : ParametricChain} (hc : c.Regular) {v : Valuation}
    (hv : c.Admissible v) : Weighs c.transitions (c.rowsAt v) where
  mem_successors s t := by
    have hcolumns : (∃ e ∈ c.rowsAt v s, e.1 = t) ↔ t ∈ Row.columns (c.row s) := by
      simp [Chain.rowsAt, Row.mem_columns]
    rw [hcolumns]
    by_cases hs : s < c.states
    · rw [TransitionMatrix.successors, hc.choices_eq s hs, List.flatMap_singleton]
    · rw [successors_eq_nil (not_lt.mp hs), hc.row_eq_nil s (not_lt.mp hs)]
      rfl
  pos _ _ he := hv.pos he
  mass _ hs := hv.mass hc hs

/-- The classes of a chain. -/
theorem classes_ofChain {c : ParametricChain} (hc : c.Regular) {targets : List Nat}
    (htargets : ∀ s ∈ targets, s < c.states) :
    Classes c.transitions targets (neverReach c.transitions targets)
      (surelyReach c.transitions targets (neverReach c.transitions targets)) := by
  refine classes_of_matrix (fun s t ht => ?_) htargets
  by_cases hs : s < c.states
  · rw [TransitionMatrix.successors, hc.choices_eq s hs, List.flatMap_singleton] at ht
    obtain ⟨e, he, rfl⟩ := Row.mem_columns.mp ht
    exact hc.column_lt s e he
  · rw [successors_eq_nil (not_lt.mp hs)] at ht
    cases ht

namespace Classes

variable {m : TransitionMatrix W} {targets never sure : List Nat} {rows : Nat → Row ℝ}
  {x : Nat → ℝ} {s : Nat}

/-- The probability is zero where no run reaches a target. -/
theorem eq_zero_of_never (h : Classes m targets never sure) (hrows : Weighs m rows)
    (hx : IsReachability rows {s | s ∈ targets} x) (hs : s ∈ never) : x s = 0 := by
  refine hx.eq_zero_of_closed hrows.substochastic (S := {s | s ∈ never}) (fun t ht htarget => ?_)
    (fun t ht e he => ?_) s hs
  · exact h.never_not_sure t ht (h.target_sure t htarget)
  · exact h.never_closed t ht e.1 ((hrows.mem_successors t e.1).mpr ⟨e, he, rfl⟩)

/-- A set of states from which a step to a lower rank exists has drift. -/
theorem exists_hasDrift_of_subset (h : Classes m targets never sure) (hrows : Weighs m rows)
    {S : Finset Nat} (hlt : ∀ s ∈ S, s < m.states) (hS : ∀ s ∈ S, s ∉ never ∧ s ∉ targets) :
    ∃ u, HasDrift S rows u := by
  have hsub := hrows.substochastic
  obtain ⟨rank, hrank⟩ := h.descends
  refine exists_hasDrift rank (fun s _ => hsub.nonneg s) (fun s _ => hsub.mass_le s) fun s hs => ?_
  obtain ⟨t, ht, -, hlow⟩ := hrank s (hlt s hs) (hS s hs).1 (hS s hs).2
  obtain ⟨e, he, rfl⟩ := (hrows.mem_successors s t).mp ht
  exact ⟨e, he, hrows.pos s e he, Or.inr hlow⟩

/-- The probability is one where every run reaches a target. -/
theorem eq_one_of_sure (h : Classes m targets never sure) (hrows : Weighs m rows)
    (hx : IsReachability rows {s | s ∈ targets} x) (hs : s ∈ sure) : x s = 1 := by
  by_cases hT : s ∈ targets
  · exact hx.eq_one hT
  let S : Finset Nat := sure.toFinset.filter fun s => s ∉ targets
  have hS : ∀ t, t ∈ S ↔ t ∈ sure ∧ t ∉ targets := by
    intro t
    rw [Finset.mem_filter, List.mem_toFinset]
  obtain ⟨u, hu⟩ := h.exists_hasDrift_of_subset hrows (S := S)
    (fun t ht => h.sure_lt t ((hS t).mp ht).1)
    (fun t ht => ⟨fun hn => h.never_not_sure t hn ((hS t).mp ht).1, ((hS t).mp ht).2⟩)
  refine hx.eq_one_of_hasDrift hu (fun t ht => ((hS t).mp ht).2)
    (fun t ht => hrows.mass t (h.sure_lt t ((hS t).mp ht).1)) (fun t ht e he => ?_) s
    ((hS s).mpr ⟨hs, hT⟩)
  obtain ⟨hsure, hnot⟩ := (hS t).mp ht
  have hmem := h.sure_closed t hsure hnot e.1 ((hrows.mem_successors t e.1).mpr ⟨e, he, rfl⟩)
  by_cases htarget : e.1 ∈ targets
  · exact Or.inr htarget
  · exact Or.inl ((hS e.1).mpr ⟨hmem, htarget⟩)

end Classes

end Qualitative

end MarkovRegion
