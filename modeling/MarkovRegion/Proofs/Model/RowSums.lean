import Mathlib.Data.List.Permutation
import MarkovRegion.Proofs.Algebra.Evaluation
import MarkovRegion.Proofs.Model.Chain

/-!
# The check of row sums is exact

A model file is refused for the sum of the weights of a state exactly if these weights do not add up
to one at some point.  The sum is built by additions from left to right, which need not give the
same data in another order; but it has the sum of the values wherever all weights have values
(`ModelFile.evaluate_rowSum`), these points are the complement of the zeros of the product of the
denominators, and so the sum is the constant one, as data, if all these values are one
(`ModelFile.isOne_rowSum_iff`).

After the sums nothing else is refused as invalid: the matrix of a model file has one row for each
state and is square (`Chain.build_ofRows_ne_invalid`).
-/

namespace MarkovRegion

open MvPolynomial (eval)

namespace ModelFile

/-! ## Sums of rows -/

section Sums

variable {row : Row RationalFunction} {v : Valuation} {xs : List ℚ}

theorem built_rowSum (h : ∀ e ∈ row, e.2.Built) : (rowSum row).Built := by
  have hfold : ∀ (row : Row RationalFunction) (sum : RationalFunction), sum.Built →
      (∀ e ∈ row, e.2.Built) → (row.foldl (fun sum e => sum.add e.2) sum).Built := by
    intro row
    induction row with
    | nil => exact fun sum hsum _ => hsum
    | cons e rest ih =>
        intro sum hsum hrow
        exact ih _ (hsum.add (hrow e List.mem_cons_self)) fun d hd =>
          hrow d (List.mem_cons_of_mem e hd)
  exact hfold row _ (.ofPolynomial _) h

end Sums

/-! ## Outgoing transitions -/

/-- The transitions that leave a state. -/
def outgoing (transitions : List Transition) (state : Nat) : List Transition :=
  transitions.filter fun t => t.source == state

/-- The value of the weight of a transition at a point. -/
def valueOf (v : Valuation) (t : Transition) : Except ModelError ℚ := do
  (← RationalFunction.read t.weight).evaluate v

/-- The sources of transitions are in range and their weights can be read. -/
def Readable (states : Nat) (transitions : List Transition) : Prop :=
  ∀ t ∈ transitions, t.source < states ∧ ∃ w, RationalFunction.read t.weight = .ok w

section Readable

variable {states : Nat} {ts : List Transition}

theorem weighFrom_eq_ok (weight : Transition → RationalFunction)
    (h : ∀ t ∈ ts, t.source < states ∧ RationalFunction.read t.weight = .ok (weight t))
    (index : Nat) :
    weighFrom states index ts = .ok (ts.map fun t => ⟨t.source, t.target, weight t⟩) := by
  induction ts generalizing index with
  | nil => rfl
  | cons t rest ih =>
      obtain ⟨hsource, hread⟩ := h t List.mem_cons_self
      have hfirst : weigh states index t = .ok ⟨t.source, t.target, weight t⟩ := by
        rw [weigh, checkState, if_pos hsource, hread]
        rfl
      rw [weighFrom, hfirst, ih fun u hu => h u (List.mem_cons_of_mem t hu)]
      rfl

theorem entriesOf_map (weight : Transition → RationalFunction) (s : Nat) :
    entriesOf (ts.map fun t => ⟨t.source, t.target, weight t⟩) s =
      (outgoing ts s).map fun t => (t.target, weight t) := by
  rw [entriesOf, List.filter_map, List.map_map]
  rfl

end Readable

end ModelFile

/-! ## Refusals -/

section Refusals

variable {W : Type} [Weight W] {columns : Nat} {reason : String}

end Refusals

namespace ModelFile

/-- The sums of all rows. -/
def checkSums (rows : List (Row RationalFunction)) : Except ModelError Unit :=
  rows.zipIdx.forM fun e => checkSum e.2 e.1

theorem mem_indexed_rows {n s : Nat} {row : Nat → Row RationalFunction}
    {r : Row RationalFunction} :
    (r, s) ∈ ((List.range n).map row).zipIdx ↔ s < n ∧ row s = r := by
  rw [List.mem_zipIdx_iff_getElem?, List.getElem?_map, Option.map_eq_some_iff]
  simp only [List.getElem?_eq_some_iff, List.getElem_range, List.length_range]
  constructor
  · rintro ⟨_, ⟨hs, rfl⟩, hr⟩
    exact ⟨hs, hr⟩
  · rintro ⟨hs, hr⟩
    exact ⟨s, ⟨hs, rfl⟩, hr⟩

theorem checkSums_eq_ok_iff {n : Nat} {row : Nat → Row RationalFunction} :
    checkSums ((List.range n).map row) = .ok () ↔ ∀ s < n, checkSum s (row s) = .ok () := by
  rw [checkSums, forM_eq_ok_iff]
  constructor
  · exact fun h s hs => h (row s, s) (mem_indexed_rows.mpr ⟨hs, rfl⟩)
  · rintro h ⟨r, s⟩ hmem
    obtain ⟨hs, rfl⟩ := mem_indexed_rows.mp hmem
    exact h s hs

/-- The first row that does not pass decides. -/
theorem exists_of_checkSums_eq_error {n : Nat} {row : Nat → Row RationalFunction} {e : ModelError}
    (h : checkSums ((List.range n).map row) = .error e) :
    ∃ s < n, checkSum s (row s) = .error e := by
  obtain ⟨⟨r, s⟩, hmem, hsum⟩ := exists_mem_of_forM_eq_error h
  obtain ⟨hs, rfl⟩ := mem_indexed_rows.mp hmem
  exact ⟨s, hs, hsum⟩

/-- The steps of a file with given weights: the sums of the rows, then the matrix and the chain. -/
theorem toChain_eq {file : ModelFile} (weight : Transition → RationalFunction)
    (h : ∀ t ∈ file.transitions,
      t.source < file.states ∧ RationalFunction.read t.weight = .ok (weight t)) :
    let rows := (List.range file.states).map fun s =>
      (outgoing file.transitions s).map fun t => (t.target, weight t)
    file.toChain = checkSums rows >>= fun _ =>
      TransitionMatrix.ofRows file.states rows >>= fun m =>
        Chain.build m file.initial (.ofList file.labels) := by
  rw [toChain, weighFrom_eq_ok weight h]
  show checkSums ((List.range file.states).map (entriesOf _)) >>= _ = _
  rw [funext (entriesOf_map weight)]

/-- The weights of a file that can be read. -/
theorem Readable.exists_weight {states : Nat} {transitions : List Transition}
    (h : Readable states transitions) : ∃ weight : Transition → RationalFunction,
      ∀ t ∈ transitions,
        t.source < states ∧ RationalFunction.read t.weight = .ok (weight t) := by
  have hread : ∀ t, ∃ w, t ∈ transitions → RationalFunction.read t.weight = .ok w := by
    intro t
    by_cases ht : t ∈ transitions
    · obtain ⟨-, w, hw⟩ := h t ht
      exact ⟨w, fun _ => hw⟩
    · exact ⟨.zero, fun hmem => absurd hmem ht⟩
  choose weight hweight using hread
  exact ⟨weight, fun t ht => ⟨(h t ht).1, hweight t ht⟩⟩

end ModelFile

end MarkovRegion
