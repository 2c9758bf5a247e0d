import MarkovRegion.Algebra.Sparse

/-!
# Finite maps in the order of their keys

`OrderedMap κ ν` is a finite map held as a list of entries with strictly increasing keys.  Equal
maps are equal lists, and walking the entries visits the keys in their order.
-/

namespace MarkovRegion

universe u v

/-- A finite map, as its entries in the order of their keys. -/
structure OrderedMap (κ : Type u) (ν : Type v) [Ord κ] where
  /-- The entries of the map. -/
  entries : List (κ × ν)
  increasing : IncreasingKeys entries

namespace OrderedMap

variable {κ : Type u} {ν : Type v} [Ord κ]

@[ext] theorem ext {f g : OrderedMap κ ν} (h : f.entries = g.entries) : f = g := by
  cases f; cases g; cases h; rfl

instance [DecidableEq κ] [DecidableEq ν] : DecidableEq (OrderedMap κ ν) := fun f g =>
  if h : f.entries = g.entries then isTrue (ext h) else isFalse fun e => h (e ▸ rfl)

/-- The map without entries. -/
def empty : OrderedMap κ ν := ⟨[], increasingKeys_nil⟩

/-- Whether the map has no entries. -/
def isEmpty (f : OrderedMap κ ν) : Bool := f.entries.isEmpty

/-- The keys in their order. -/
def keys (f : OrderedMap κ ν) : List κ := f.entries.map Prod.fst

/-- The value at a key. -/
def find? (f : OrderedMap κ ν) (k : κ) : Option ν :=
  (f.entries.find? fun e => compare e.1 k == .eq).map Prod.snd

/-- Set the value at `k` in an increasing list of entries. -/
def insertEntry (k : κ) (v : ν) : List (κ × ν) → List (κ × ν)
  | [] => [(k, v)]
  | (l, w) :: rest =>
    match compare k l with
    | .lt => (k, v) :: (l, w) :: rest
    | .eq => (k, v) :: rest
    | .gt => (l, w) :: insertEntry k v rest

theorem key_of_mem_insertEntry {k : κ} {v : ν} {entries : List (κ × ν)} {e : κ × ν}
    (h : e ∈ insertEntry k v entries) : e.1 = k ∨ e ∈ entries := by
  induction entries with
  | nil => simp_all [insertEntry]
  | cons head rest ih =>
    obtain ⟨l, w⟩ := head
    unfold insertEntry at h
    split at h
    · exact (List.mem_cons.mp h).imp (fun h => by rw [h]) id
    · exact (List.mem_cons.mp h).imp (fun h => by rw [h]) (List.mem_cons_of_mem _)
    · rcases List.mem_cons.mp h with h | h
      · exact .inr (by rw [h]; exact List.mem_cons_self)
      · exact (ih h).imp id (List.mem_cons_of_mem _)

theorem increasing_insertEntry [Std.TransOrd κ] [Std.LawfulEqOrd κ] {k : κ} {v : ν}
    {entries : List (κ × ν)} (hs : IncreasingKeys entries) :
    IncreasingKeys (insertEntry k v entries) := by
  induction entries with
  | nil => exact List.pairwise_singleton _ _
  | cons head rest ih =>
    obtain ⟨l, w⟩ := head
    obtain ⟨hl, hrest⟩ := List.pairwise_cons.mp hs
    unfold insertEntry
    split
    · next hk =>
      refine List.pairwise_cons.mpr ⟨fun e he => ?_, hs⟩
      rcases List.mem_cons.mp he with rfl | he
      · exact hk
      · exact Std.TransCmp.lt_trans hk (hl e he)
    · next hk =>
      have hkl : k = l := Std.LawfulEqCmp.eq_of_compare hk
      exact List.pairwise_cons.mpr ⟨hkl ▸ hl, hrest⟩
    · next hk =>
      refine List.pairwise_cons.mpr ⟨fun e he => ?_, ih hrest⟩
      rcases key_of_mem_insertEntry he with h | h
      · rw [h]
        exact Std.OrientedCmp.gt_iff_lt.mp hk
      · exact hl e h

variable [Std.TransOrd κ] [Std.LawfulEqOrd κ]

/-- Set the value at a key. -/
def insert (f : OrderedMap κ ν) (k : κ) (v : ν) : OrderedMap κ ν where
  entries := insertEntry k v f.entries
  increasing := increasing_insertEntry f.increasing

/-- The map of a list of entries; a later entry wins over an earlier one. -/
def ofList (entries : List (κ × ν)) : OrderedMap κ ν :=
  entries.foldl (fun f e => f.insert e.1 e.2) empty

end OrderedMap

/-- The distinct keys of a list, in their order. -/
def orderedKeys {κ : Type u} [Ord κ] [Std.TransOrd κ] [Std.LawfulEqOrd κ] (ks : List κ) :
    List κ :=
  (OrderedMap.ofList (ks.map fun k => (k, ()))).keys

end MarkovRegion
