/-!
# Functions with finite support

`Sparse κ ν` is a function from keys to values that is zero almost everywhere, held as the list of
its non-zero entries with strictly increasing keys.  So two of them are equal as functions exactly
when they are equal as lists.

* `Sparse.addEntry k v f` adds `v` to the value at `k`.
* `Sparse.ofList` adds up a list of entries; `Sparse.add` adds two functions.
* `Sparse.coefficient f k` is the value at `k`.
-/

namespace MarkovRegion

universe u v

/-- The keys of the entries increase strictly. -/
def IncreasingKeys {κ : Type u} {ν : Type v} [Ord κ] (entries : List (κ × ν)) : Prop :=
  entries.Pairwise fun a b => compare a.1 b.1 = .lt

theorem increasingKeys_nil {κ : Type u} {ν : Type v} [Ord κ] :
    IncreasingKeys ([] : List (κ × ν)) := .nil

/-- The non-zero values of a function with finite support, in the order of their keys. -/
structure Sparse (κ : Type u) (ν : Type v) [Ord κ] [OfNat ν 0] where
  /-- The non-zero entries. -/
  entries : List (κ × ν)
  increasing : IncreasingKeys entries
  nonzero : ∀ e ∈ entries, e.2 ≠ 0

namespace Sparse

variable {κ : Type u} {ν : Type v} [Ord κ] [OfNat ν 0]

@[ext] theorem ext {f g : Sparse κ ν} (h : f.entries = g.entries) : f = g := by
  cases f; cases g; cases h; rfl

instance [DecidableEq κ] [DecidableEq ν] : DecidableEq (Sparse κ ν) := fun f g =>
  if h : f.entries = g.entries then isTrue (ext h) else isFalse fun e => h (e ▸ rfl)

/-- The function that is zero everywhere. -/
def zero : Sparse κ ν := ⟨[], increasingKeys_nil, fun _ h => nomatch h⟩

/-- The function with the one non-zero value `v` at `k`. -/
def single (k : κ) (v : ν) (h : v ≠ 0) : Sparse κ ν :=
  ⟨[(k, v)], List.pairwise_singleton _ _, by simpa using h⟩

/-- Whether every value is zero. -/
def isZero (f : Sparse κ ν) : Bool := f.entries.isEmpty

/-- The keys with a non-zero value. -/
def support (f : Sparse κ ν) : List κ := f.entries.map Prod.fst

/-- The value at a key. -/
def coefficient (f : Sparse κ ν) (k : κ) : ν :=
  match f.entries.find? fun e => compare e.1 k == .eq with
  | some e => e.2
  | none => 0

/-! ## Adding entries -/

section add

variable [DecidableEq ν]

/-- Put an entry in front unless its value is zero. -/
def consNonzero (k : κ) (v : ν) (entries : List (κ × ν)) : List (κ × ν) :=
  if v = 0 then entries else (k, v) :: entries

omit [Ord κ] in
theorem key_of_mem_consNonzero {k : κ} {v : ν} {entries : List (κ × ν)} {e : κ × ν}
    (h : e ∈ consNonzero k v entries) : e.1 = k ∨ e ∈ entries := by
  unfold consNonzero at h
  split at h
  · exact .inr h
  · exact (List.mem_cons.mp h).imp (fun h => by rw [h]) id

omit [Ord κ] in
theorem nonzero_consNonzero {k : κ} {v : ν} {entries : List (κ × ν)}
    (h : ∀ e ∈ entries, e.2 ≠ 0) : ∀ e ∈ consNonzero k v entries, e.2 ≠ 0 := by
  unfold consNonzero
  split
  · exact h
  · intro e he
    rcases List.mem_cons.mp he with rfl | he
    · assumption
    · exact h e he

theorem increasing_consNonzero {k : κ} {v : ν} {entries : List (κ × ν)}
    (hs : IncreasingKeys entries) (h : ∀ e ∈ entries, compare k e.1 = .lt) :
    IncreasingKeys (consNonzero k v entries) := by
  unfold consNonzero
  split
  · exact hs
  · exact List.pairwise_cons.mpr ⟨h, hs⟩

variable [Add ν]

/-- Add `v` to the value at `k` in an increasing list of entries. -/
def insertEntry (k : κ) (v : ν) : List (κ × ν) → List (κ × ν)
  | [] => consNonzero k v []
  | (l, w) :: rest =>
    match compare k l with
    | .lt => consNonzero k v ((l, w) :: rest)
    | .eq => consNonzero k (w + v) rest
    | .gt => (l, w) :: insertEntry k v rest

theorem key_of_mem_insertEntry {k : κ} {v : ν} {entries : List (κ × ν)} {e : κ × ν}
    (h : e ∈ insertEntry k v entries) : e.1 = k ∨ ∃ e' ∈ entries, e.1 = e'.1 := by
  induction entries with
  | nil => exact (key_of_mem_consNonzero h).imp id (by simp)
  | cons head rest ih =>
    obtain ⟨l, w⟩ := head
    unfold insertEntry at h
    split at h
    · exact (key_of_mem_consNonzero h).imp id fun h => ⟨e, h, rfl⟩
    · exact (key_of_mem_consNonzero h).imp id fun h => ⟨e, List.mem_cons_of_mem _ h, rfl⟩
    · rcases List.mem_cons.mp h with h | h
      · exact .inr ⟨(l, w), List.mem_cons_self, by rw [h]⟩
      · exact (ih h).imp id fun ⟨e', h', eq⟩ => ⟨e', List.mem_cons_of_mem _ h', eq⟩

theorem nonzero_insertEntry {k : κ} {v : ν} {entries : List (κ × ν)}
    (h : ∀ e ∈ entries, e.2 ≠ 0) : ∀ e ∈ insertEntry k v entries, e.2 ≠ 0 := by
  induction entries with
  | nil => exact nonzero_consNonzero h
  | cons head rest ih =>
    obtain ⟨l, w⟩ := head
    have hrest : ∀ e ∈ rest, e.2 ≠ 0 := fun e he => h e (List.mem_cons_of_mem _ he)
    unfold insertEntry
    split
    · exact nonzero_consNonzero h
    · exact nonzero_consNonzero hrest
    · intro e he
      rcases List.mem_cons.mp he with rfl | he
      · exact h _ List.mem_cons_self
      · exact ih hrest e he

theorem increasing_insertEntry [Std.TransOrd κ] [Std.LawfulEqOrd κ] {k : κ} {v : ν}
    {entries : List (κ × ν)} (hs : IncreasingKeys entries) :
    IncreasingKeys (insertEntry k v entries) := by
  induction entries with
  | nil => exact increasing_consNonzero hs fun _ h => nomatch h
  | cons head rest ih =>
    obtain ⟨l, w⟩ := head
    obtain ⟨hl, hrest⟩ := List.pairwise_cons.mp hs
    unfold insertEntry
    split
    · next hk =>
      refine increasing_consNonzero hs fun e he => ?_
      rcases List.mem_cons.mp he with rfl | he
      · exact hk
      · exact Std.TransCmp.lt_trans hk (hl e he)
    · next hk =>
      have hkl : k = l := Std.LawfulEqCmp.eq_of_compare hk
      exact increasing_consNonzero hrest (hkl ▸ hl)
    · next hk =>
      refine List.pairwise_cons.mpr ⟨fun e he => ?_, ih hrest⟩
      rcases key_of_mem_insertEntry he with h | ⟨e', he', h⟩
      · rw [h]
        exact Std.OrientedCmp.gt_iff_lt.mp hk
      · rw [h]
        exact hl e' he'

variable [Std.TransOrd κ] [Std.LawfulEqOrd κ]

/-- Add `v` to the value at `k`. -/
def addEntry (k : κ) (v : ν) (f : Sparse κ ν) : Sparse κ ν where
  entries := insertEntry k v f.entries
  increasing := increasing_insertEntry f.increasing
  nonzero := nonzero_insertEntry f.nonzero

/-- Add entries, the last of the list first, to a function. -/
def addList (entries : List (κ × ν)) (f : Sparse κ ν) : Sparse κ ν :=
  entries.foldr (fun e f => addEntry e.1 e.2 f) f

/-- The sum of the entries of a list. -/
def ofList (entries : List (κ × ν)) : Sparse κ ν := addList entries zero

/-- The sum of two functions. -/
def add (f g : Sparse κ ν) : Sparse κ ν := addList f.entries g

end add

/-! ## Changing values -/

/-- Apply a map that keeps values from becoming zero. -/
def mapValues {μ : Type v} [OfNat μ 0] (g : ν → μ) (hg : ∀ x, x ≠ 0 → g x ≠ 0)
    (f : Sparse κ ν) : Sparse κ μ where
  entries := f.entries.map fun e => (e.1, g e.2)
  increasing := by
    have h := f.increasing
    simpa [IncreasingKeys, List.pairwise_map] using h
  nonzero := by
    intro e he
    obtain ⟨e', he', rfl⟩ := List.mem_map.mp he
    exact hg _ (f.nonzero e' he')

/-- Keep the entries whose keys satisfy `p`. -/
def filterKeys (p : κ → Bool) (f : Sparse κ ν) : Sparse κ ν where
  entries := f.entries.filter fun e => p e.1
  increasing := f.increasing.sublist List.filter_sublist
  nonzero := fun e he => f.nonzero e (List.mem_filter.mp he).1

end Sparse

end MarkovRegion
