import MarkovRegion.Proofs.Algebra.Reading
import MarkovRegion.Proofs.Probability.LeastSolution

/-!
# Rows under a reading

What the operations on rows do to the order of the columns, to the entries, and to the linear form
that a row denotes under a reading of its weights.

* `Row.Sorted` is kept by insertion and established by normalization (`Sorted.addEntries`,
  `sorted_normalize`).
* A property of entries that addition of weights keeps is kept by both (`forall_addEntries`,
  `forall_normalize`).
* Neither changes the linear form beyond what it adds (`dot_read_addEntries`,
  `dot_read_normalize`).
-/

namespace MarkovRegion

namespace Row

variable {W : Type}

/-! ## Order -/

/-- The columns of a row increase strictly. -/
def Sorted (row : Row W) : Prop := row.Pairwise fun a b => a.1 < b.1

theorem Sorted.tail {e : Nat × W} {row : Row W} (h : Sorted (e :: row)) : row.Sorted :=
  (List.pairwise_cons.mp h).2

theorem Sorted.lt_of_mem {e d : Nat × W} {row : Row W} (h : Sorted (e :: row)) (hd : d ∈ row) :
    e.1 < d.1 :=
  (List.pairwise_cons.mp h).1 d hd

theorem Sorted.filter {row : Row W} (h : row.Sorted) (p : Nat × W → Bool) :
    Sorted (List.filter p row) :=
  List.Pairwise.filter p h

/-- A column of a sorted row has one weight. -/
theorem Sorted.weight_unique {row : Row W} (h : row.Sorted) {c : Nat} {a b : W}
    (ha : (c, a) ∈ row) (hb : (c, b) ∈ row) : a = b := by
  induction row with
  | nil => simp at ha
  | cons e rest ih =>
      rcases List.mem_cons.mp ha with rfl | ha'
      · rcases List.mem_cons.mp hb with hb' | hb'
        · exact (Prod.mk.inj hb').2.symm
        · exact absurd (h.lt_of_mem hb') (lt_irrefl c)
      · rcases List.mem_cons.mp hb with rfl | hb'
        · exact absurd (h.lt_of_mem ha') (lt_irrefl c)
        · exact ih h.tail ha' hb'

theorem mem_of_get?_eq_some {row : Row W} {c : Nat} {w : W} (h : row.get? c = some w) :
    (c, w) ∈ row := by
  induction row with
  | nil => simp [get?] at h
  | cons e rest ih =>
      obtain ⟨d, a⟩ := e
      rw [get?, List.lookup_cons] at h
      by_cases hc : c = d
      · subst hc
        simp only [beq_self_eq_true, Option.some.injEq] at h
        exact h ▸ List.mem_cons_self
      · have hbeq : (c == d) = false := by simpa using hc
        rw [hbeq] at h
        exact List.mem_cons_of_mem _ (ih h)

theorem get?_eq_none_iff {row : Row W} {c : Nat} : row.get? c = none ↔ ∀ e ∈ row, e.1 ≠ c := by
  unfold get?
  rw [List.lookup_eq_none_iff]
  refine forall₂_congr fun e _ => ?_
  rw [bne_iff_ne, ne_comm]

theorem Sorted.get?_eq_some {row : Row W} (h : row.Sorted) {c : Nat} {w : W}
    (hw : (c, w) ∈ row) : row.get? c = some w := by
  rcases hget : row.get? c with _ | a
  · exact absurd rfl (get?_eq_none_iff.mp hget _ hw)
  · rw [h.weight_unique (mem_of_get?_eq_some hget) hw]

theorem Sorted.get?_eq_some_iff {row : Row W} (h : row.Sorted) {c : Nat} {w : W} :
    row.get? c = some w ↔ (c, w) ∈ row :=
  ⟨mem_of_get?_eq_some, h.get?_eq_some⟩

@[simp] theorem mem_erase {row : Row W} {c : Nat} {e : Nat × W} :
    e ∈ row.erase c ↔ e ∈ row ∧ e.1 ≠ c := by
  simp [erase]

theorem Sorted.erase {row : Row W} (h : row.Sorted) (c : Nat) : (row.erase c).Sorted := h.filter _

theorem mem_columns {row : Row W} {c : Nat} : c ∈ row.columns ↔ ∃ e ∈ row, e.1 = c := by
  simp [columns]

variable [Weight W]

/-- What insertion puts into a row. -/
theorem mem_addAt {c : Nat} {w : W} {row : Row W} {e : Nat × W} (he : e ∈ addAt c w row) :
    e ∈ row ∨ e = (c, w) ∨ ∃ a, (c, a) ∈ row ∧ e = (c, Weight.add a w) := by
  induction row with
  | nil =>
      unfold addAt at he
      split at he
      · simp at he
      · exact Or.inr (Or.inl (List.mem_singleton.mp he))
  | cons d rest ih =>
      obtain ⟨k, a⟩ := d
      unfold addAt at he
      split at he
      · split at he
        · exact Or.inl he
        · rcases List.mem_cons.mp he with rfl | he
          · exact Or.inr (Or.inl rfl)
          · exact Or.inl he
      · split at he
        · next hck =>
            subst hck
            split at he
            · exact Or.inl (List.mem_cons_of_mem _ he)
            · rcases List.mem_cons.mp he with rfl | he
              · exact Or.inr (Or.inr ⟨a, List.mem_cons_self, rfl⟩)
              · exact Or.inl (List.mem_cons_of_mem _ he)
        · rcases List.mem_cons.mp he with rfl | he
          · exact Or.inl List.mem_cons_self
          · rcases ih he with h | h | ⟨b, hb, h⟩
            · exact Or.inl (List.mem_cons_of_mem _ h)
            · exact Or.inr (Or.inl h)
            · exact Or.inr (Or.inr ⟨b, List.mem_cons_of_mem _ hb, h⟩)

theorem column_of_mem_addAt {c : Nat} {w : W} {row : Row W} {e : Nat × W}
    (he : e ∈ addAt c w row) : e.1 = c ∨ ∃ d ∈ row, d.1 = e.1 := by
  rcases mem_addAt he with h | rfl | ⟨a, -, rfl⟩
  · exact Or.inr ⟨e, h, rfl⟩
  · exact Or.inl rfl
  · exact Or.inl rfl

theorem Sorted.addAt {row : Row W} (h : row.Sorted) (c : Nat) (w : W) :
    (addAt c w row).Sorted := by
  induction row with
  | nil =>
      unfold Row.addAt
      split
      · exact List.Pairwise.nil
      · exact List.pairwise_singleton _ _
  | cons d rest ih =>
      obtain ⟨k, a⟩ := d
      have hrest := List.pairwise_cons.mp h
      unfold Row.addAt
      split
      · next hlt =>
          split
          · exact h
          · refine List.pairwise_cons.mpr ⟨fun e he => ?_, h⟩
            rcases List.mem_cons.mp he with rfl | he
            · exact hlt
            · exact hlt.trans (hrest.1 e he)
      · split
        · split
          · exact hrest.2
          · exact List.pairwise_cons.mpr ⟨hrest.1, hrest.2⟩
        · next hlt hne =>
            refine List.pairwise_cons.mpr ⟨fun e he => ?_, ih hrest.2⟩
            rcases column_of_mem_addAt he with hc | ⟨d, hd, hde⟩
            · exact hc ▸ lt_of_le_of_ne (not_lt.mp hlt) (Ne.symm hne)
            · exact hde ▸ hrest.1 d hd

theorem Sorted.addEntries {row : Row W} (h : row.Sorted) (entries : Row W) :
    (addEntries row entries).Sorted := by
  induction entries generalizing row with
  | nil => exact h
  | cons e rest ih => exact ih (h.addAt e.1 e.2)

theorem sorted_ofEntries (entries : Row W) : (ofEntries entries).Sorted :=
  Sorted.addEntries List.Pairwise.nil entries

/-- A property of entries that addition keeps is kept by insertion. -/
theorem forall_addEntries {P : Nat → W → Prop}
    (hadd : ∀ c a b, P c a → P c b → P c (Weight.add a b)) {row entries : Row W}
    (hrow : ∀ e ∈ row, P e.1 e.2) (hentries : ∀ e ∈ entries, P e.1 e.2) :
    ∀ e ∈ addEntries row entries, P e.1 e.2 := by
  induction entries generalizing row with
  | nil => exact hrow
  | cons d rest ih =>
      have hd := hentries d List.mem_cons_self
      refine ih (fun e he => ?_) fun e he => hentries e (List.mem_cons_of_mem _ he)
      rcases mem_addAt he with h | rfl | ⟨a, ha, rfl⟩
      · exact hrow e h
      · exact hd
      · exact hadd _ _ _ (hrow _ ha) hd

theorem forall_ofEntries {P : Nat → W → Prop}
    (hadd : ∀ c a b, P c a → P c b → P c (Weight.add a b)) {entries : Row W}
    (hentries : ∀ e ∈ entries, P e.1 e.2) : ∀ e ∈ ofEntries entries, P e.1 e.2 :=
  forall_addEntries hadd (by simp) hentries

theorem forall_collapseFrom {P : Nat → W → Prop}
    (hadd : ∀ c a b, P c a → P c b → P c (Weight.add a b)) {c : Nat} {w : W} {row : Row W}
    (hw : P c w) (hrow : ∀ e ∈ row, P e.1 e.2) : ∀ e ∈ collapseFrom c w row, P e.1 e.2 := by
  induction row generalizing c w with
  | nil =>
      intro e he
      rw [List.mem_singleton.mp he]
      exact hw
  | cons d rest ih =>
      have hd := hrow d List.mem_cons_self
      have hrest : ∀ e ∈ rest, P e.1 e.2 := fun e he => hrow e (List.mem_cons_of_mem _ he)
      unfold collapseFrom
      split
      · next hc => exact ih (hadd _ _ _ hw (hc ▸ hd)) hrest
      · intro e he
        rcases List.mem_cons.mp he with rfl | he
        · exact hw
        · exact ih hd hrest e he

/-- A property of entries that addition keeps is kept by normalization. -/
theorem forall_normalize {P : Nat → W → Prop}
    (hadd : ∀ c a b, P c a → P c b → P c (Weight.add a b)) {entries : Row W}
    (hentries : ∀ e ∈ entries, P e.1 e.2) : ∀ e ∈ normalize entries, P e.1 e.2 := by
  intro e he
  have hcollapse := (List.mem_filter.mp he).1
  have hsorted : ∀ e ∈ entries.mergeSort fun a b => a.1 ≤ b.1, P e.1 e.2 :=
    fun e he => hentries e (List.mem_mergeSort.mp he)
  revert hcollapse hsorted
  generalize (entries.mergeSort fun a b => a.1 ≤ b.1) = sorted
  intro hcollapse hsorted
  cases sorted with
  | nil => simp [collapse] at hcollapse
  | cons d rest =>
      exact forall_collapseFrom hadd (hsorted d List.mem_cons_self)
        (fun e he => hsorted e (List.mem_cons_of_mem _ he)) e hcollapse

theorem sorted_collapseFrom {c : Nat} {w : W} {row : Row W} (hc : ∀ e ∈ row, c ≤ e.1)
    (hrow : row.Pairwise fun a b => a.1 ≤ b.1) : (collapseFrom c w row).Sorted := by
  induction row generalizing c w with
  | nil => exact List.pairwise_singleton _ _
  | cons d rest ih =>
      obtain ⟨k, a⟩ := d
      have hrest := List.pairwise_cons.mp hrow
      unfold collapseFrom
      split
      · exact ih (fun e he => hc e (List.mem_cons_of_mem _ he)) hrest.2
      · next hne =>
          have hlt : c < k := lt_of_le_of_ne (hc _ List.mem_cons_self) (Ne.symm hne)
          refine List.pairwise_cons.mpr ⟨fun e he => ?_, ih hrest.1 hrest.2⟩
          have hle : k ≤ e.1 :=
            forall_collapseFrom (P := fun column _ => k ≤ column) (fun _ _ _ h _ => h) le_rfl
              hrest.1 e he
          exact hlt.trans_le hle

omit [Weight W] in
theorem pairwise_mergeSort_columns (entries : Row W) :
    (entries.mergeSort fun a b => a.1 ≤ b.1).Pairwise fun a b => a.1 ≤ b.1 := by
  have h : (entries.mergeSort fun a b => a.1 ≤ b.1).Pairwise
      fun a b => decide (a.1 ≤ b.1) = true :=
    List.pairwise_mergeSort
      (fun a b c hab hbc => by simp only [decide_eq_true_eq] at *; exact hab.trans hbc)
      (fun a b => by simpa using Nat.le_total a.1 b.1) entries
  simpa using h

theorem sorted_collapse {row : Row W} (h : row.Pairwise fun a b => a.1 ≤ b.1) :
    (collapse row).Sorted := by
  cases row with
  | nil => exact List.Pairwise.nil
  | cons d rest =>
      have hrest := List.pairwise_cons.mp h
      exact sorted_collapseFrom hrest.1 hrest.2

theorem sorted_normalize (entries : Row W) : (normalize entries).Sorted :=
  (sorted_collapse (pairwise_mergeSort_columns entries)).filter _

/-! ## The linear form under a reading -/

variable {F : Type} [Field F] (R : Reading W F)

/-- The row of the values of the weights. -/
def read (row : Row W) : Row F := row.map fun e => (e.1, R.value e.2)

/-- Every weight of the row has a value. -/
def Defined (row : Row W) : Prop := ∀ e ∈ row, R.Defined e.2

variable {R}

theorem read_cons (e : Nat × W) (row : Row W) :
    read R (e :: row) = (e.1, R.value e.2) :: read R row := rfl

theorem mem_read {row : Row W} {e : Nat × F} :
    e ∈ read R row ↔ ∃ d ∈ row, (d.1, R.value d.2) = e := List.mem_map

theorem Defined.tail {e : Nat × W} {row : Row W} (h : Defined R (e :: row)) : Defined R row :=
  fun d hd => h d (List.mem_cons_of_mem _ hd)

theorem Defined.erase {row : Row W} (h : Defined R row) (c : Nat) : Defined R (row.erase c) :=
  fun e he => h e (mem_erase.mp he).1

theorem Defined.addEntries {row entries : Row W} (hrow : Defined R row)
    (hentries : Defined R entries) : Defined R (addEntries row entries) :=
  forall_addEntries (P := fun _ w => R.Defined w) (fun _ _ _ ha hb => (R.add ha hb).1) hrow
    hentries

theorem Defined.addAt {c : Nat} {w : W} {row : Row W} (hrow : Defined R row)
    (hw : R.Defined w) : Defined R (addAt c w row) :=
  have hentry : Defined R [(c, w)] := fun _ he => List.mem_singleton.mp he ▸ hw
  hrow.addEntries hentry

theorem dot_read_addAt {c : Nat} {w : W} {row : Row W} (hrow : Defined R row)
    (hw : R.Defined w) (x : Nat → F) :
    (read R (addAt c w row)).dot x = R.value w * x c + (read R row).dot x := by
  induction row with
  | nil =>
      unfold addAt
      split
      · next hz => simp [read, R.eq_zero hz]
      · simp [read]
  | cons d rest ih =>
      obtain ⟨k, a⟩ := d
      have hadd := R.add (hrow _ List.mem_cons_self) hw
      unfold addAt
      split
      · split
        · next hz => rw [R.eq_zero hz, zero_mul, zero_add]
        · rw [read_cons, dot_cons]
      · split
        · next hck =>
            subst hck
            split
            · next hz =>
                have hzero := hadd.2.symm.trans (R.eq_zero hz)
                rw [read_cons, dot_cons, ← add_assoc, ← add_mul, add_comm (R.value w), hzero,
                  zero_mul, zero_add]
            · rw [read_cons, dot_cons, read_cons, dot_cons, hadd.2]
              ring
        · rw [read_cons, dot_cons, read_cons, dot_cons, ih hrow.tail]
          ring

theorem dot_read_addEntries {row entries : Row W} (hrow : Defined R row)
    (hentries : Defined R entries) (x : Nat → F) :
    (read R (addEntries row entries)).dot x = (read R row).dot x + (read R entries).dot x := by
  induction entries generalizing row with
  | nil => simp [addEntries, read]
  | cons e rest ih =>
      have he := hentries e List.mem_cons_self
      have hstep : addEntries row (e :: rest) = addEntries (addAt e.1 e.2 row) rest := rfl
      rw [hstep, ih (hrow.addAt he) hentries.tail, dot_read_addAt hrow he, read_cons, dot_cons]
      ring

theorem dot_read_ofEntries {entries : Row W} (h : Defined R entries) (x : Nat → F) :
    (read R (ofEntries entries)).dot x = (read R entries).dot x := by
  have hnil : Defined R ([] : Row W) := fun e he => absurd he List.not_mem_nil
  rw [ofEntries, dot_read_addEntries hnil h]
  simp [read]

theorem dot_read_collapseFrom {c : Nat} {w : W} {row : Row W} (hw : R.Defined w)
    (hrow : Defined R row) (x : Nat → F) :
    (read R (collapseFrom c w row)).dot x = R.value w * x c + (read R row).dot x := by
  induction row generalizing c w with
  | nil => simp [collapseFrom, read]
  | cons d rest ih =>
      have hd := hrow d List.mem_cons_self
      unfold collapseFrom
      split
      · next hc =>
          rw [ih (R.add hw hd).1 hrow.tail, (R.add hw hd).2, read_cons, dot_cons, ← hc]
          ring
      · rw [read_cons, dot_cons, ih hd hrow.tail, read_cons, dot_cons]

theorem dot_read_filter_isZero (row : Row W) (x : Nat → F) :
    (read R (row.filter fun e => !Weight.isZero e.2)).dot x = (read R row).dot x := by
  induction row with
  | nil => rfl
  | cons d rest ih =>
      rw [List.filter_cons, read_cons, dot_cons, ← ih]
      split
      · rw [read_cons, dot_cons]
      · next hz =>
          have hzero : Weight.isZero d.2 = true := by simpa using hz
          rw [R.eq_zero hzero, zero_mul, zero_add]

theorem dot_read_perm {r s : Row W} (h : r.Perm s) (x : Nat → F) :
    (read R r).dot x = (read R s).dot x :=
  ((h.map _).map _).sum_eq

theorem dot_read_normalize {entries : Row W} (h : Defined R entries) (x : Nat → F) :
    (read R (normalize entries)).dot x = (read R entries).dot x := by
  have hperm := List.mergeSort_perm entries fun a b : Nat × W => decide (a.1 ≤ b.1)
  rw [normalize, dot_read_filter_isZero, ← dot_read_perm hperm]
  have hsorted : Defined R (entries.mergeSort fun a b => a.1 ≤ b.1) :=
    fun e he => h e (List.mem_mergeSort.mp he)
  revert hsorted
  generalize (entries.mergeSort fun a b => a.1 ≤ b.1) = sorted
  intro hsorted
  cases sorted with
  | nil => rfl
  | cons d rest =>
      rw [collapse, dot_read_collapseFrom (hsorted d List.mem_cons_self) hsorted.tail, read_cons,
        dot_cons]

/-- A row whose weights were all scaled. -/
theorem dot_read_scale {f : W → W} {k : F} (row : Row W)
    (h : ∀ e ∈ row, R.value (f e.2) = k * R.value e.2) (x : Nat → F) :
    (read R (row.map fun e => (e.1, f e.2))).dot x = k * (read R row).dot x := by
  induction row with
  | nil => simp [read]
  | cons e rest ih =>
      rw [List.map_cons, read_cons, dot_cons, read_cons, dot_cons, h e List.mem_cons_self,
        ih fun d hd => h d (List.mem_cons_of_mem _ hd)]
      ring

/-- The entry at a column, split off a sorted row. -/
theorem Sorted.dot_read_erase {row : Row W} (h : row.Sorted) {c : Nat} {w : W}
    (hw : row.get? c = some w) (x : Nat → F) :
    (read R row).dot x = R.value w * x c + (read R (row.erase c)).dot x := by
  induction row with
  | nil => simp [get?] at hw
  | cons d rest ih =>
      obtain ⟨k, a⟩ := d
      have hmem := mem_of_get?_eq_some hw
      by_cases hk : k = c
      · subst hk
        have haw : a = w := h.weight_unique List.mem_cons_self hmem
        have hrest : Row.erase ((k, a) :: rest) k = rest := by
          rw [Row.erase, List.filter_cons, if_neg (by simp)]
          exact List.filter_eq_self.mpr fun e he => by simpa using (h.lt_of_mem he).ne'
        rw [hrest, read_cons, dot_cons, haw]
      · have hrest : Row.erase ((k, a) :: rest) c = (k, a) :: Row.erase rest c := by
          rw [Row.erase, List.filter_cons, if_pos (by simpa using hk)]
          rfl
        have hmem' : (c, w) ∈ rest := by
          rcases List.mem_cons.mp hmem with hcw | hmem'
          · exact absurd (Prod.mk.inj hcw).1.symm hk
          · exact hmem'
        rw [hrest, read_cons, dot_cons, read_cons, dot_cons, ih h.tail (h.tail.get?_eq_some hmem')]
        ring

end Row

end MarkovRegion
