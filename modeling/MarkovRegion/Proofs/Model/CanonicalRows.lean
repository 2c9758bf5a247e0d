import MarkovRegion.Proofs.Model.Row

/-!
# Canonical rows

A row in canonical form has strictly increasing columns and no weight zero (`Row.Canonical`).  Two
such rows with the same weights at all columns are the same list (`Sorted.ext_get?`).

* The two ways to a canonical row are the same function, if adding to a zero gives back what was
  added (`ExactWeight`).  Sorting is stable and folds the weights given for a column from left to
  right.  Insertion removes an entry as soon as the sum so far is zero and starts again with the next
  weight.  Both have the sum of the given weights at a column, unless it is zero
  (`get?_normalize`, `get?_ofEntries`, `normalize_eq_ofEntries`).
* A column of a sorted row is found by halving (`locate`, `search?`), and insertion at the place
  that halving finds is insertion (`mergeAt_eq_addAt`).
-/

namespace MarkovRegion

/-- Weights for which adding to a zero gives back what was added. -/
class ExactWeight (W : Type) [Weight W] : Prop where
  isZero_zero : Weight.isZero (Weight.zero : W) = true
  add_of_isZero {a : W} (b : W) : Weight.isZero a = true → Weight.add a b = b

instance : ExactWeight ℚ where
  isZero_zero := rfl
  add_of_isZero b ha := by
    rw [of_decide_eq_true ha]
    exact zero_add b

instance : ExactWeight RationalFunction where
  isZero_zero := rfl
  add_of_isZero _ ha := if_pos ha

namespace Row

variable {W : Type}

/-! ## Rows around a column -/

section Around

variable {c : Nat} {a : W} {before after : Row W}

theorem get?_append_cons (hbefore : ∀ e ∈ before, e.1 < c) :
    get? (before ++ (c, a) :: after) c = some a := by
  have hnone : before.get? c = none := get?_eq_none_iff.mpr fun e he => (hbefore e he).ne
  unfold get? at hnone ⊢
  rw [List.lookup_append, hnone]
  simp

theorem get?_append_eq_none (hbefore : ∀ e ∈ before, e.1 < c) (hafter : ∀ e ∈ after, c < e.1) :
    get? (before ++ after) c = none := by
  refine get?_eq_none_iff.mpr fun e he => ?_
  rcases List.mem_append.mp he with he | he
  · exact (hbefore e he).ne
  · exact (hafter e he).ne'

theorem get?_append_cons_of_ne {d : Nat} (hd : d ≠ c) :
    get? (before ++ (c, a) :: after) d = get? (before ++ after) d := by
  have hbeq : (d == c) = false := by simpa using hd
  simp only [get?, List.lookup_append, List.lookup_cons, hbeq]

variable [Weight W] {w : W}

theorem addAt_append (hbefore : ∀ e ∈ before, e.1 < c) :
    addAt c w (before ++ after) = before ++ addAt c w after := by
  induction before with
  | nil => rfl
  | cons e rest ih =>
      have hlt := hbefore e List.mem_cons_self
      rw [List.cons_append, addAt, if_neg (not_lt.mpr hlt.le), if_neg hlt.ne',
        ih fun d hd => hbefore d (List.mem_cons_of_mem _ hd), List.cons_append]

/-- Insertion at a column that is there. -/
theorem addAt_append_cons (hbefore : ∀ e ∈ before, e.1 < c) :
    addAt c w (before ++ (c, a) :: after) =
      if Weight.isZero (Weight.add a w) then before ++ after
      else before ++ (c, Weight.add a w) :: after := by
  rw [addAt_append hbefore, addAt, if_neg (lt_irrefl c), if_pos rfl]
  split <;> rfl

/-- Insertion at a column that is not there. -/
theorem addAt_append_of_lt (hbefore : ∀ e ∈ before, e.1 < c) (hafter : ∀ e ∈ after, c < e.1) :
    addAt c w (before ++ after) =
      if Weight.isZero w then before ++ after else before ++ (c, w) :: after := by
  rw [addAt_append hbefore]
  cases after with
  | nil =>
      rw [addAt]
      split <;> rfl
  | cons e rest =>
      rw [addAt, if_pos (hafter e List.mem_cons_self)]
      split <;> rfl

end Around

/-! ## Search by halving -/

/-- Look for a column between two places, by halving: the place of the column, or else the place
where it belongs. -/
def locateIn (row : Row W) (c low high : Nat) : Except Nat Nat :=
  if low < high then
    match row[(low + high) / 2]? with
    | none => .error low
    | some e =>
      if e.1 = c then .ok ((low + high) / 2)
      else if e.1 < c then locateIn row c ((low + high) / 2 + 1) high
      else locateIn row c low ((low + high) / 2)
  else .error low
termination_by high - low

/-- Look for a column in the whole row. -/
def locate (row : Row W) (c : Nat) : Except Nat Nat := locateIn row c 0 row.length

/-- The weight at the place that halving finds. -/
def search? (row : Row W) (c : Nat) : Option W :=
  match row.locate c with
  | .ok i => row[i]?.map Prod.snd
  | .error _ => none

/-- Add a weight at the place that halving finds; an entry that cancels is removed. -/
def mergeAt [Weight W] (row : Row W) (c : Nat) (w : W) : Row W :=
  match row.locate c with
  | .ok i =>
    match row[i]? with
    | none => row
    | some e =>
      if Weight.isZero (Weight.add e.2 w) then row.eraseIdx i
      else row.set i (c, Weight.add e.2 w)
  | .error i => if Weight.isZero w then row else row.insertIdx i (c, w)

/-- Add all entries to a row, each at the place that halving finds. -/
def mergeAll [Weight W] (row : Row W) (entries : Row W) : Row W :=
  entries.foldl (fun row e => row.mergeAt e.1 e.2) row

/-- The place of a column in a row: where it is, or where it belongs. -/
inductive Located (row : Row W) (c : Nat) (place : Except Nat Nat) : Prop
  | found (before after : Row W) (a : W) (hrow : row = before ++ (c, a) :: after)
      (hplace : place = .ok before.length) (hbefore : ∀ e ∈ before, e.1 < c)
      (hafter : ∀ e ∈ after, c < e.1)
  | absent (before after : Row W) (hrow : row = before ++ after)
      (hplace : place = .error before.length) (hbefore : ∀ e ∈ before, e.1 < c)
      (hafter : ∀ e ∈ after, c < e.1)

/-- A sorted row around one of its entries. -/
theorem Sorted.around {row : Row W} (h : row.Sorted) {i : Nat} {e : Nat × W}
    (hi : row[i]? = some e) :
    row = row.take i ++ e :: row.drop (i + 1) ∧ i = (row.take i).length ∧
      (∀ d ∈ row.take i, d.1 < e.1) ∧ ∀ d ∈ row.drop (i + 1), e.1 < d.1 := by
  obtain ⟨hlt, rfl⟩ := List.getElem?_eq_some_iff.mp hi
  have hrow : row = row.take i ++ row[i] :: row.drop (i + 1) := by
    rw [← List.drop_eq_getElem_cons hlt, List.take_append_drop]
  have hsorted := h
  rw [hrow] at hsorted
  obtain ⟨-, hrest, hbefore⟩ := List.pairwise_append.mp hsorted
  refine ⟨hrow, (List.length_take_of_le hlt.le).symm, fun d hd => ?_, fun d hd => ?_⟩
  · exact hbefore d hd _ List.mem_cons_self
  · exact (List.pairwise_cons.mp hrest).1 d hd

/-- Halving keeps the column between the two places, so it ends at its place. -/
theorem Sorted.located_locateIn {row : Row W} (h : row.Sorted) {c low high : Nat}
    (hle : low ≤ high) (hlength : high ≤ row.length) (hlow : ∀ e ∈ row.take low, e.1 < c)
    (hhigh : ∀ e ∈ row.drop high, c < e.1) : Located row c (locateIn row c low high) := by
  fun_induction locateIn row c low high with
  | case1 low high hlt hnone =>
      -- The middle of two places of the row is one too.
      have hout := List.getElem?_eq_none_iff.mp hnone
      omega
  | case2 low high hlt e hget heq =>
      obtain ⟨hrow, hplace, hbefore, hafter⟩ := h.around hget
      obtain ⟨d, a⟩ := e
      subst heq
      exact .found _ _ a hrow (congrArg Except.ok hplace) hbefore hafter
  | case3 low high hlt e hget hne hsmall ih =>
      refine ih (by omega) hlength (fun d hd => ?_) hhigh
      rw [List.take_add_one, hget] at hd
      rcases List.mem_append.mp hd with hd | hd
      · exact ((h.around hget).2.2.1 d hd).trans hsmall
      · rwa [List.mem_singleton.mp hd]
  | case4 low high hlt e hget hne hsmall ih =>
      have hgreat : c < e.1 := lt_of_le_of_ne (not_lt.mp hsmall) (Ne.symm hne)
      refine ih (by omega) (by omega) hlow fun d hd => ?_
      obtain ⟨hbound, rfl⟩ := List.getElem?_eq_some_iff.mp hget
      rw [List.drop_eq_getElem_cons hbound] at hd
      rcases List.mem_cons.mp hd with rfl | hd
      · exact hgreat
      · exact hgreat.trans ((h.around hget).2.2.2 d hd)
  | case5 low high hlt =>
      obtain rfl : low = high := hle.antisymm (not_lt.mp hlt)
      have hplace : low = (row.take low).length := (List.length_take_of_le hlength).symm
      exact .absent _ _ (List.take_append_drop low row).symm (congrArg Except.error hplace) hlow
        hhigh

theorem Sorted.located_locate {row : Row W} (h : row.Sorted) (c : Nat) :
    Located row c (row.locate c) :=
  h.located_locateIn (Nat.zero_le _) le_rfl (by simp) (by simp)

/-- Halving finds an entry exactly if one is stored. -/
theorem Sorted.search?_eq_get? {row : Row W} (h : row.Sorted) (c : Nat) :
    row.search? c = row.get? c := by
  unfold search?
  rcases h.located_locate c with ⟨before, after, a, rfl, hplace, hbefore, hafter⟩ |
    ⟨before, after, rfl, hplace, hbefore, hafter⟩
  · rw [get?_append_cons hbefore, hplace]
    simp
  · rw [get?_append_eq_none hbefore hafter, hplace]

section Insertion

variable [Weight W]

/-- Insertion at the place that halving finds is insertion. -/
theorem Sorted.mergeAt_eq_addAt {row : Row W} (h : row.Sorted) (c : Nat) (w : W) :
    row.mergeAt c w = Row.addAt c w row := by
  unfold mergeAt
  rcases h.located_locate c with ⟨before, after, a, rfl, hplace, hbefore, hafter⟩ |
    ⟨before, after, rfl, hplace, hbefore, hafter⟩
  · have herase := List.eraseIdx_append_of_length_le (le_refl before.length) ((c, a) :: after)
    rw [addAt_append_cons hbefore, hplace]
    simp [herase]
  · have hinsert : (before ++ after).insertIdx before.length (c, w) = before ++ (c, w) :: after :=
      List.modifyTailIdx_add (List.cons (c, w)) 0 before after
    rw [addAt_append_of_lt hbefore hafter, hplace, ← hinsert]

theorem Sorted.mergeAll_eq_addEntries {row : Row W} (h : row.Sorted) (entries : Row W) :
    row.mergeAll entries = Row.addEntries row entries := by
  unfold mergeAll
  induction entries generalizing row with
  | nil => rfl
  | cons e rest ih =>
      rw [List.foldl_cons, h.mergeAt_eq_addAt, ih (h.addAt e.1 e.2)]
      rfl

/-! ## The form of a canonical row -/

/-- Increasing columns and no weight zero. -/
structure Canonical (row : Row W) : Prop where
  sorted : row.Sorted
  nonzero : ∀ e ∈ row, Weight.isZero e.2 = false

/-- What a canonical row stores of a weight. -/
def stored (w : W) : Option W := if Weight.isZero w then none else some w

theorem stored_eq_some_iff {a w : W} :
    stored a = some w ↔ Weight.isZero w = false ∧ a = w := by
  unfold stored
  split <;> grind

/-- A canonical row around a weight that it stores or not. -/
theorem get?_append_stored {c : Nat} {before after : Row W} (hbefore : ∀ e ∈ before, e.1 < c)
    (hafter : ∀ e ∈ after, c < e.1) (w : W) (d : Nat) :
    get? (if Weight.isZero w then before ++ after else before ++ (c, w) :: after) d =
      if d = c then stored w else get? (before ++ after) d := by
  unfold stored
  by_cases hd : d = c
  · subst hd
    rw [if_pos rfl]
    split
    · exact get?_append_eq_none hbefore hafter
    · exact get?_append_cons hbefore
  · rw [if_neg hd]
    split
    · rfl
    · exact get?_append_cons_of_ne hd

/-- The weights of a row after insertion. -/
theorem Sorted.get?_addAt {row : Row W} (h : row.Sorted) (c : Nat) (w : W) (d : Nat) :
    (Row.addAt c w row).get? d =
      if d = c then stored ((row.get? c).elim w (Weight.add · w)) else row.get? d := by
  rcases h.located_locate c with ⟨before, after, a, rfl, -, hbefore, hafter⟩ |
    ⟨before, after, rfl, -, hbefore, hafter⟩
  · rw [addAt_append_cons hbefore, get?_append_stored hbefore hafter, get?_append_cons hbefore,
      Option.elim_some]
    exact if_ctx_congr Iff.rfl (fun _ => rfl) fun hd => (get?_append_cons_of_ne hd).symm
  · rw [addAt_append_of_lt hbefore hafter, get?_append_stored hbefore hafter,
      get?_append_eq_none hbefore hafter, Option.elim_none]

theorem canonical_nil : Canonical ([] : Row W) := ⟨List.Pairwise.nil, by simp⟩

theorem Canonical.erase {row : Row W} (h : row.Canonical) (c : Nat) : (row.erase c).Canonical :=
  ⟨h.sorted.erase c, fun e he => h.nonzero e (mem_erase.mp he).1⟩

theorem Canonical.addAt {row : Row W} (h : row.Canonical) (c : Nat) (w : W) :
    (Row.addAt c w row).Canonical := by
  refine ⟨h.sorted.addAt c w, fun e he => ?_⟩
  have hget := (h.sorted.addAt c w).get?_eq_some he
  rw [h.sorted.get?_addAt] at hget
  split at hget
  · exact (stored_eq_some_iff.mp hget).1
  · exact h.nonzero e (mem_of_get?_eq_some hget)

theorem Canonical.addEntries {row : Row W} (h : row.Canonical) (entries : Row W) :
    (Row.addEntries row entries).Canonical := by
  induction entries generalizing row with
  | nil => exact h
  | cons e rest ih => exact ih (h.addAt e.1 e.2)

theorem canonical_ofEntries (entries : Row W) : (ofEntries entries).Canonical :=
  canonical_nil.addEntries entries

/-- Halving may be used in a row: it finds what is stored, and insertion at the places that it finds
is insertion, also after an entry was taken out. -/
structure Searchable (row : Row W) : Prop where
  search?_eq : ∀ c, row.search? c = row.get? c
  search?_eq_some_iff : ∀ c w, row.search? c = some w ↔ (c, w) ∈ row
  mergeAt_eq : ∀ c w, row.mergeAt c w = Row.addAt c w row
  mergeAll_erase : ∀ c entries, (row.erase c).mergeAll entries =
    Row.addEntries (row.erase c) entries

theorem Sorted.searchable {row : Row W} (h : row.Sorted) : row.Searchable where
  search?_eq := h.search?_eq_get?
  search?_eq_some_iff c w := by rw [h.search?_eq_get?, h.get?_eq_some_iff]
  mergeAt_eq := h.mergeAt_eq_addAt
  mergeAll_erase c := (h.erase c).mergeAll_eq_addEntries

theorem canonical_normalize (entries : Row W) : (normalize entries).Canonical := by
  refine ⟨sorted_normalize entries, fun e he => ?_⟩
  simpa using (List.mem_filter.mp he).2

end Insertion

/-! ## The sum at a column -/

/-- The weights given for a column, in their order. -/
def given (entries : Row W) (c : Nat) : List W :=
  (entries.filter fun e => e.1 == c).map Prod.snd

theorem given_cons (e : Nat × W) (entries : Row W) (c : Nat) :
    given (e :: entries) c = if e.1 = c then e.2 :: given entries c else given entries c := by
  by_cases hc : e.1 = c <;> simp [given, hc]

theorem given_eq_nil {entries : Row W} {c : Nat} (h : ∀ e ∈ entries, e.1 ≠ c) :
    given entries c = [] := by
  simpa [given] using fun d a hd => h (d, a) hd

/-- Sorting keeps the order of the weights given for a column. -/
theorem given_mergeSort (entries : Row W) (c : Nat) :
    given (entries.mergeSort fun a b => a.1 ≤ b.1) c = given entries c := by
  refine congrArg (List.map Prod.snd) (Eq.symm ?_)
  have hpairwise : (entries.filter fun e => e.1 == c).Pairwise
      fun a b => decide (a.1 ≤ b.1) = true := by
    refine List.pairwise_of_forall_mem_list fun a ha b hb => ?_
    simp only [List.mem_filter, beq_iff_eq] at ha hb
    rw [ha.2, hb.2, decide_eq_true_eq]
  have hsublist := (List.sublist_mergeSort
    (fun a b c hab hbc => by simp only [decide_eq_true_eq] at *; exact hab.trans hbc)
    (fun a b => by simpa using Nat.le_total a.1 b.1) hpairwise List.filter_sublist).filter
      fun e => e.1 == c
  rw [List.filter_filter] at hsublist
  simp only [Bool.and_self] at hsublist
  exact hsublist.eq_of_length ((List.mergeSort_perm entries _).filter _).length_eq.symm

variable [Weight W]

/-- The sum of the weights given for a column, from left to right. -/
def columnSum (entries : Row W) (c : Nat) : W := (given entries c).foldl Weight.add Weight.zero

/-- The sum of weights from left to right, if there is one. -/
def total? : List W → Option W
  | [] => none
  | w :: rest => some (rest.foldl Weight.add w)

/-- Neighbours are added up, from the weight at hand on. -/
theorem get?_collapseFrom {k : Nat} {acc : W} {row : Row W} (hk : ∀ e ∈ row, k ≤ e.1)
    (hrow : row.Pairwise fun a b => a.1 ≤ b.1) (c : Nat) :
    (collapseFrom k acc row).get? c = total? (given ((k, acc) :: row) c) := by
  induction row generalizing k acc with
  | nil =>
      rw [collapseFrom, given_cons]
      by_cases hc : k = c
      · subst hc
        simp [get?, given, total?]
      · simp [get?, given, total?, hc, Ne.symm hc]
  | cons e rest ih =>
      obtain ⟨d, a⟩ := e
      obtain ⟨hd, hrest⟩ := List.pairwise_cons.mp hrow
      unfold collapseFrom
      split
      · next hdk =>
          subst hdk
          rw [ih hd hrest]
          by_cases hc : d = c <;> simp [given_cons, hc, total?]
      · next hdk =>
          have hlt : k < d := lt_of_le_of_ne (hk _ List.mem_cons_self) (Ne.symm hdk)
          by_cases hc : k = c
          · subst hc
            have hnil : given ((d, a) :: rest) k = [] := by
              refine given_eq_nil fun e he => ?_
              rcases List.mem_cons.mp he with rfl | he
              · exact hlt.ne'
              · exact (hlt.trans_le (hd e he)).ne'
            rw [given_cons, if_pos rfl, hnil]
            simp [get?, total?]
          · have hbeq : (c == k) = false := by simpa using Ne.symm hc
            rw [given_cons, if_neg hc, ← ih hd hrest]
            simp [get?, List.lookup_cons, hbeq]

theorem get?_collapse {row : Row W} (h : row.Pairwise fun a b => a.1 ≤ b.1) (c : Nat) :
    (collapse row).get? c = total? (given row c) := by
  cases row with
  | nil => rfl
  | cons e rest =>
      obtain ⟨hle, hrest⟩ := List.pairwise_cons.mp h
      exact get?_collapseFrom hle hrest c

theorem Sorted.get?_filter_isZero {row : Row W} (h : row.Sorted) (c : Nat) :
    get? (row.filter fun e => !Weight.isZero e.2) c = (row.get? c).bind stored := by
  refine Option.ext fun w => ?_
  rw [(h.filter _).get?_eq_some_iff, List.mem_filter, Option.bind_eq_some_iff,
    ← h.get?_eq_some_iff]
  simp only [stored_eq_some_iff, Bool.not_eq_true']
  constructor
  · rintro ⟨hget, hw⟩
    exact ⟨w, hget, hw, rfl⟩
  · rintro ⟨_, hget, hw, rfl⟩
    exact ⟨hget, hw⟩

/-- A canonical row that has at every column the sum of the weights given for it, and no entry where
that sum is zero. -/
structure Collects (entries row : Row W) : Prop extends row.Canonical where
  get?_eq : ∀ c, row.get? c =
    if Weight.isZero (columnSum entries c) then none else some (columnSum entries c)

omit [Weight W] in
/-- A sorted row is determined by its weights. -/
theorem Sorted.ext_get? {r s : Row W} (hr : r.Sorted) (hs : s.Sorted)
    (h : ∀ c, r.get? c = s.get? c) : r = s := by
  have hnodup : ∀ {row : Row W}, row.Sorted → row.Nodup := fun hrow =>
    List.Pairwise.imp (fun hlt heq => absurd (congrArg Prod.fst heq) hlt.ne) hrow
  have hmem : ∀ e, e ∈ r ↔ e ∈ s := fun e => by
    rw [← hr.get?_eq_some_iff, h, hs.get?_eq_some_iff]
  have hperm := (List.perm_ext_iff_of_nodup (hnodup hr) (hnodup hs)).mpr hmem
  exact hperm.eq_of_pairwise (fun a b _ _ hab hba => absurd hab hba.asymm) hr hs

section Exact

variable [ExactWeight W]

theorem bind_total?_stored (ws : List W) :
    (total? ws).bind stored = stored (ws.foldl Weight.add Weight.zero) := by
  cases ws with
  | nil => exact (if_pos ExactWeight.isZero_zero).symm
  | cons w rest =>
      rw [List.foldl_cons, ExactWeight.add_of_isZero w ExactWeight.isZero_zero]
      rfl

/-- Adding to a sum that is not stored is the same as starting again. -/
theorem elim_stored (acc w : W) : (stored acc).elim w (Weight.add · w) = Weight.add acc w := by
  unfold stored
  split
  · next hzero => rw [ExactWeight.add_of_isZero w hzero, Option.elim_none]
  · rw [Option.elim_some]

/-- The weights of the row that sorting builds. -/
theorem get?_normalize (entries : Row W) (c : Nat) :
    (normalize entries).get? c = stored (columnSum entries c) := by
  have hsorted := pairwise_mergeSort_columns entries
  rw [normalize, (sorted_collapse hsorted).get?_filter_isZero, get?_collapse hsorted,
    given_mergeSort, bind_total?_stored]
  rfl

/-- Insertion goes on from the sum so far, stored or not. -/
theorem Sorted.get?_addEntries {row : Row W} (h : row.Sorted) {c : Nat} {acc : W}
    (hacc : row.get? c = stored acc) (entries : Row W) :
    (Row.addEntries row entries).get? c = stored ((given entries c).foldl Weight.add acc) := by
  induction entries generalizing row acc with
  | nil => exact hacc
  | cons e rest ih =>
      have hstep : Row.addEntries row (e :: rest) =
        Row.addEntries (Row.addAt e.1 e.2 row) rest := rfl
      have hget := h.get?_addAt e.1 e.2 c
      rw [hstep, given_cons]
      by_cases hc : e.1 = c
      · subst hc
        rw [if_pos rfl, List.foldl_cons]
        refine ih (h.addAt e.1 e.2) ?_
        rw [hget, if_pos rfl, hacc, elim_stored]
      · rw [if_neg hc]
        exact ih (h.addAt e.1 e.2) (by rw [hget, if_neg (Ne.symm hc), hacc])

/-- The weights of the row that insertion builds. -/
theorem get?_ofEntries (entries : Row W) (c : Nat) :
    (ofEntries entries).get? c = stored (columnSum entries c) :=
  Sorted.get?_addEntries List.Pairwise.nil (if_pos ExactWeight.isZero_zero).symm entries

theorem collects_normalize (entries : Row W) : Collects entries (normalize entries) :=
  ⟨canonical_normalize entries, get?_normalize entries⟩

/-- Sorting and insertion build the same row. -/
theorem normalize_eq_ofEntries (entries : Row W) : normalize entries = ofEntries entries :=
  (sorted_normalize entries).ext_get? (sorted_ofEntries entries) fun c => by
    rw [get?_normalize, get?_ofEntries]

end Exact

end Row

end MarkovRegion
