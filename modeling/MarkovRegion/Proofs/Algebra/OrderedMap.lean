import Mathlib.Data.List.Nodup
import MarkovRegion.Algebra.OrderedMap

/-!
# Reading finite maps

What is found in a map after an insertion, and which keys a map has.
-/

set_option linter.unusedSectionVars false

namespace MarkovRegion

universe u v

namespace OrderedMap

variable {κ : Type u} {ν : Type v} [Ord κ] [Std.TransOrd κ] [Std.LawfulEqOrd κ]

theorem compare_beq_eq_true_iff {k l : κ} : (compare k l == .eq) = true ↔ k = l := by
  rw [beq_iff_eq]
  exact Std.LawfulEqCmp.compare_eq_iff_eq

theorem ne_of_compare_eq_lt {k l : κ} (h : compare k l = .lt) : k ≠ l := by
  rintro rfl
  simp at h

theorem find?_eq_some_iff {f : OrderedMap κ ν} {k : κ} {v : ν} :
    f.find? k = some v ↔ (k, v) ∈ f.entries := by
  have hs := f.increasing
  unfold find?
  generalize f.entries = entries at hs
  induction entries with
  | nil => simp
  | cons e rest ih =>
      obtain ⟨hl, hrest⟩ := List.pairwise_cons.mp hs
      rw [List.find?_cons]
      by_cases hk : e.1 = k
      · subst hk
        have hnot : (e.1, v) ∉ rest := fun hmem => ne_of_compare_eq_lt (hl _ hmem) rfl
        simp [hnot, Prod.ext_iff, eq_comm]
      · have hne : (compare e.1 k == .eq) = false := by
          rw [Bool.eq_false_iff, Ne, compare_beq_eq_true_iff]
          exact hk
        have hcons : (k, v) ∈ e :: rest ↔ (k, v) ∈ rest := by
          rw [List.mem_cons, or_iff_right]
          rintro rfl
          exact hk rfl
        rw [hne, hcons]
        exact ih hrest

theorem mem_keys_iff {f : OrderedMap κ ν} {k : κ} : k ∈ f.keys ↔ (f.find? k).isSome = true := by
  rw [Option.isSome_iff_exists, keys]
  simp [find?_eq_some_iff]

theorem nodup_keys (f : OrderedMap κ ν) : f.keys.Nodup :=
  List.pairwise_map.mpr (List.Pairwise.imp ne_of_compare_eq_lt f.increasing)

theorem mem_insertEntry_iff {k : κ} {v : ν} {entries : List (κ × ν)} (hs : IncreasingKeys entries)
    {e : κ × ν} : e ∈ insertEntry k v entries ↔ e = (k, v) ∨ e.1 ≠ k ∧ e ∈ entries := by
  induction entries with
  | nil => simp [insertEntry]
  | cons head rest ih =>
      obtain ⟨l, w⟩ := head
      obtain ⟨hl, hrest⟩ := List.pairwise_cons.mp hs
      unfold insertEntry
      split
      · next hk =>
          have hne : ∀ d ∈ (l, w) :: rest, d.1 ≠ k := by
            intro d hd
            rcases List.mem_cons.mp hd with rfl | hd
            · exact (ne_of_compare_eq_lt hk).symm
            · exact (ne_of_compare_eq_lt (Std.TransCmp.lt_trans hk (hl d hd))).symm
          rw [List.mem_cons]
          refine or_congr_right ?_
          exact ⟨fun he => ⟨hne e he, he⟩, fun he => he.2⟩
      · next hk =>
          obtain rfl : k = l := Std.LawfulEqCmp.eq_of_compare hk
          have hne : ∀ d ∈ rest, d.1 ≠ k := fun d hd => (ne_of_compare_eq_lt (hl d hd)).symm
          rw [List.mem_cons, List.mem_cons]
          grind
      · next hk =>
          have hlk : l ≠ k := ne_of_compare_eq_lt (Std.OrientedCmp.gt_iff_lt.mp hk)
          rw [List.mem_cons, ih hrest, List.mem_cons]
          grind

theorem find?_insert (f : OrderedMap κ ν) {k l : κ} {v w : ν} :
    (f.insert k v).find? l = some w ↔ l = k ∧ w = v ∨ l ≠ k ∧ f.find? l = some w := by
  rw [find?_eq_some_iff, find?_eq_some_iff, insert, mem_insertEntry_iff f.increasing, Prod.mk.injEq]

/-- What is found after several insertions, if no key is inserted twice. -/
theorem find?_foldl_insert (f : OrderedMap κ ν) {entries : List (κ × ν)}
    (h : (entries.map Prod.fst).Nodup) {k : κ} {v : ν} :
    (entries.foldl (fun f e => f.insert e.1 e.2) f).find? k = some v ↔
      (k, v) ∈ entries ∨ k ∉ entries.map Prod.fst ∧ f.find? k = some v := by
  induction entries generalizing f with
  | nil => simp
  | cons e rest ih =>
      obtain ⟨hnot, hrest⟩ := List.nodup_cons.mp h
      rw [List.foldl_cons, ih _ hrest, find?_insert, List.mem_cons, List.map_cons, List.mem_cons]
      have hmem : (k, v) ∈ rest → k ∈ rest.map Prod.fst := fun h => List.mem_map.mpr ⟨_, h, rfl⟩
      grind

/-- A map is found as it was listed, if no key is listed twice. -/
theorem find?_ofList {entries : List (κ × ν)} (h : (entries.map Prod.fst).Nodup) {k : κ} {v : ν} :
    (ofList entries).find? k = some v ↔ (k, v) ∈ entries := by
  rw [ofList, find?_foldl_insert _ h]
  simp [empty, find?]

theorem insertEntry_of_lt {k : κ} {v : ν} {entries : List (κ × ν)}
    (h : ∀ e ∈ entries, compare e.1 k = .lt) : insertEntry k v entries = entries ++ [(k, v)] := by
  induction entries with
  | nil => rfl
  | cons head rest ih =>
      obtain ⟨l, w⟩ := head
      have hgt : compare k l = .gt := Std.OrientedCmp.gt_iff_lt.mpr (h _ List.mem_cons_self)
      simp only [insertEntry, hgt, List.cons_append]
      rw [ih fun e he => h e (List.mem_cons_of_mem _ he)]

/-- A map that is listed in the order of its keys has these entries. -/
theorem entries_ofList {entries : List (κ × ν)} (h : IncreasingKeys entries) :
    (ofList entries).entries = entries := by
  have hfold : ∀ (entries : List (κ × ν)) (f : OrderedMap κ ν),
      IncreasingKeys (f.entries ++ entries) →
        (entries.foldl (fun f e => f.insert e.1 e.2) f).entries = f.entries ++ entries := by
    intro entries
    induction entries with
    | nil => simp
    | cons e rest ih =>
        intro f hf
        have hinsert : (f.insert e.1 e.2).entries = f.entries ++ [e] :=
          insertEntry_of_lt fun d hd => (List.pairwise_append.mp hf).2.2 d hd e List.mem_cons_self
        rw [List.foldl_cons, ih _ (by rw [hinsert, List.append_assoc]; exact hf), hinsert,
          List.append_assoc, List.singleton_append]
  exact hfold entries empty h

theorem mem_keys_ofList {entries : List (κ × ν)} {k : κ} :
    k ∈ (ofList entries).keys ↔ k ∈ entries.map Prod.fst := by
  have hfold : ∀ (entries : List (κ × ν)) (f : OrderedMap κ ν),
      k ∈ (entries.foldl (fun f e => f.insert e.1 e.2) f).keys ↔
        k ∈ entries.map Prod.fst ∨ k ∈ f.keys := by
    intro entries
    induction entries with
    | nil => simp
    | cons e rest ih =>
        intro f
        have hinsert : k ∈ (f.insert e.1 e.2).keys ↔ k = e.1 ∨ k ∈ f.keys := by
          simp only [mem_keys_iff, Option.isSome_iff_exists, find?_insert]
          by_cases hk : k = e.1
          · simp [hk]
          · simp [hk]
        rw [List.foldl_cons, ih, hinsert, List.map_cons, List.mem_cons]
        tauto
  rw [ofList, hfold]
  simp [empty, keys]

end OrderedMap

variable {κ : Type u} [Ord κ] [Std.TransOrd κ] [Std.LawfulEqOrd κ]

@[simp] theorem mem_orderedKeys {ks : List κ} {k : κ} : k ∈ orderedKeys ks ↔ k ∈ ks := by
  rw [orderedKeys, OrderedMap.mem_keys_ofList]
  simp

theorem nodup_orderedKeys (ks : List κ) : (orderedKeys ks).Nodup := OrderedMap.nodup_keys _

end MarkovRegion
