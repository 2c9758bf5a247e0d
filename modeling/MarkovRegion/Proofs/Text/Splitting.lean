import MarkovRegion.Proofs.Text.Lines

/-!
# Texts cut at separators

Splitting is compositional: the pieces of `x ++ y` are those of `x` and of `y`, with the last piece
of `x` and the first one of `y` put together (`exists_splitAtChar_append`), and a separator of two
different characters cuts a text where it stands (`splitAtPair_append`).  So the blanks around a
text do not change its trimmed pieces (`map_trim_splitAtChar_append`), and a part of a text without
separators lies in one piece (`exists_mem_splitAtChar`).
-/

namespace MarkovRegion.Text

variable {a b cs : List Char}

/-! ## Separators of one character -/

/-- The last piece of the first text and the first piece of the second are put together. -/
theorem exists_splitAtChar_append (sep : Char) (cs : List Char) :
    ∃ before last, splitAtChar sep cs = before ++ [last] ∧
      ∀ ds head tail, splitAtChar sep ds = head :: tail →
        splitAtChar sep (cs ++ ds) = before ++ (last ++ head) :: tail := by
  induction cs with
  | nil => exact ⟨[], [], rfl, fun ds head tail h => h⟩
  | cons c rest ih =>
      obtain ⟨before, last, hrest, happend⟩ := ih
      by_cases hc : c = sep
      · refine ⟨[] :: before, last, ?_, fun ds head tail h => ?_⟩
        · rw [splitAtChar, if_pos hc, hrest, List.cons_append]
        · rw [List.cons_append, splitAtChar, if_pos hc, happend ds head tail h, List.cons_append]
      · cases before with
        | nil =>
            refine ⟨[], c :: last, ?_, fun ds head tail h => ?_⟩
            · rw [splitAtChar, if_neg hc, hrest]
              rfl
            · rw [List.cons_append, splitAtChar, if_neg hc, happend ds head tail h]
              rfl
        | cons piece pieces =>
            refine ⟨(c :: piece) :: pieces, last, ?_, fun ds head tail h => ?_⟩
            · rw [splitAtChar, if_neg hc, hrest]
              rfl
            · rw [List.cons_append, splitAtChar, if_neg hc, happend ds head tail h]
              rfl

theorem splitAtChar_append_of_not_mem {sep : Char} {m ds head : List Char}
    {tail : List (List Char)} (hm : sep ∉ m) (h : splitAtChar sep ds = head :: tail) :
    splitAtChar sep (m ++ ds) = (m ++ head) :: tail := by
  induction m with
  | nil => exact h
  | cons c rest ih =>
      rw [List.mem_cons, not_or] at hm
      rw [List.cons_append, splitAtChar, if_neg (Ne.symm hm.1), ih hm.2]
      rfl

theorem trim_blank_append (ha : Blank a) (cs : List Char) : trim (a ++ cs) = trim cs := by
  have hstart : trimStart (a ++ cs) = trimStart cs := List.dropWhile_append_of_pos ha
  rw [trim, hstart, trim]

/-- Blanks around a text are blanks around its first and its last piece. -/
theorem map_trim_splitAtChar_append {sep : Char} (hsep : isBlank sep = false) (ha : Blank a)
    (hb : Blank b) (cs : List Char) :
    (splitAtChar sep (a ++ (cs ++ b))).map trim = (splitAtChar sep cs).map trim := by
  have hmem : ∀ {s : List Char}, Blank s → sep ∉ s := by
    intro s hs hmem
    rw [hs sep hmem] at hsep
    cases hsep
  obtain ⟨before, last, hcs, happend⟩ := exists_splitAtChar_append sep cs
  obtain ⟨piece, pieces, hpiece⟩ :=
    List.exists_cons_of_ne_nil (splitAtChar_ne_nil sep (cs ++ b))
  have hright := happend b b [] (splitAtChar_of_not_mem (hmem hb))
  rw [splitAtChar_append_of_not_mem (hmem ha) hpiece, List.map_cons, trim_blank_append ha,
    ← List.map_cons, ← hpiece, hright, hcs, List.map_append, List.map_append, List.map_cons,
    List.map_cons, trim_append_blank _ hb]

/-- A part without separators lies in one piece. -/
theorem exists_mem_splitAtChar {sep : Char} {m : List Char} (hm : sep ∉ m) (x y : List Char) :
    ∃ u v, u ++ (m ++ v) ∈ splitAtChar sep (x ++ (m ++ y)) := by
  obtain ⟨before, last, -, hx⟩ := exists_splitAtChar_append sep x
  obtain ⟨head, tail, hy⟩ := List.exists_cons_of_ne_nil (splitAtChar_ne_nil sep y)
  refine ⟨last, head, ?_⟩
  rw [hx _ _ _ (splitAtChar_append_of_not_mem hm hy)]
  exact List.mem_append_right _ List.mem_cons_self

/-! ## Separators of two characters -/

theorem splitAtPair_ne_nil (first second : Char) (cs : List Char) :
    splitAtPair first second cs ≠ [] := by
  fun_cases splitAtPair first second cs
  · simp
  · simp
  · simp
  · simp
  · simp

theorem splitAtPair_of_not_mem {first : Char} (second : Char) (h : first ∉ cs) :
    splitAtPair first second cs = [cs] := by
  fun_induction splitAtPair first second cs with
  | case1 => rfl
  | case2 c => rfl
  | case3 c d cs hpair ih =>
      simp only [Bool.and_eq_true, decide_eq_true_eq] at hpair
      exact absurd List.mem_cons_self (hpair.1 ▸ h)
  | case4 c d cs hpair hnil ih => exact absurd hnil (splitAtPair_ne_nil _ _ _)
  | case5 c d cs hpair piece pieces hcons ih =>
      rw [ih fun hmem => h (List.mem_cons_of_mem c hmem)] at hcons
      obtain ⟨rfl, rfl⟩ := List.cons.inj hcons
      rfl

/-- A separator of two different characters cuts the text where it stands: it cannot overlap with
another one. -/
theorem splitAtPair_append {first second : Char} (hne : first ≠ second) (cs ds : List Char) :
    splitAtPair first second (cs ++ first :: second :: ds) =
      splitAtPair first second cs ++ splitAtPair first second ds := by
  fun_induction splitAtPair first second cs with
  | case1 => simp [splitAtPair]
  | case2 c => simp [splitAtPair, hne]
  | case3 c d cs hpair ih => simp [splitAtPair, hpair, ih]
  | case4 c d cs hpair hnil ih => exact absurd hnil (splitAtPair_ne_nil _ _ _)
  | case5 c d cs hpair piece pieces hcons ih =>
      rw [List.cons_append, List.cons_append, splitAtPair, if_neg hpair]
      rw [List.cons_append, hcons] at ih
      rw [ih]
      rfl

/-! ## What trimming leaves -/

theorem Tight.enclose (ha : Tight a) (hne : a ≠ []) (m : List Char) (hb : Tight b) (hne' : b ≠ []) :
    Tight (a ++ (m ++ b)) := by
  constructor
  · rw [List.head?_append_of_ne_nil _ hne]
    exact ha.start
  · rw [← List.append_assoc, List.getLast?_append_of_ne_nil _ hne']
    exact hb.stop

theorem dropWhile_append_of_head {p : Char → Bool} {m : List Char} (hne : m ≠ [])
    (hstart : ∀ c ∈ m.head?, p c = false) (x y : List Char) :
    (x ++ (m ++ y)).dropWhile p = x.dropWhile p ++ (m ++ y) := by
  obtain ⟨c, rest, rfl⟩ := List.exists_cons_of_ne_nil hne
  have hkeep : (c :: rest ++ y).dropWhile p = c :: rest ++ y :=
    List.dropWhile_cons_of_neg (by simp [hstart c rfl])
  rw [List.dropWhile_append, hkeep]
  split_ifs with hempty
  · rw [List.isEmpty_iff.mp hempty, List.nil_append]
  · rfl

theorem dropEndWhile_append_of_last {p : Char → Bool} {m : List Char} (hne : m ≠ [])
    (hstop : ∀ c ∈ m.getLast?, p c = false) (x y : List Char) :
    dropEndWhile p (x ++ (m ++ y)) = x ++ (m ++ dropEndWhile p y) := by
  have hreverse : (x ++ (m ++ y)).reverse = y.reverse ++ (m.reverse ++ x.reverse) := by simp
  have hstart : ∀ c ∈ m.reverse.head?, p c = false := by
    rw [List.head?_reverse]
    exact hstop
  rw [dropEndWhile, hreverse, dropWhile_append_of_head (by simpa using hne) hstart]
  simp [dropEndWhile]

/-- Trimming does not reach past a part without blanks at its ends. -/
theorem trim_append_of_tight {m : List Char} (hne : m ≠ []) (hm : Tight m) (x y : List Char) :
    trim (x ++ (m ++ y)) = trimStart x ++ (m ++ trimEnd y) := by
  rw [trim, trimStart, dropWhile_append_of_head hne hm.start]
  exact dropEndWhile_append_of_last hne hm.stop _ _

theorem dropEndWhile_replicate {x : List Char} {c : Char} (hx : c ∉ x) (n : Nat) :
    dropEndWhile (· == c) (x ++ List.replicate n c) = x := by
  have hreverse : (x ++ List.replicate n c).reverse = List.replicate n c ++ x.reverse := by simp
  have hall : ∀ d ∈ List.replicate n c, (d == c) = true := by
    intro d hd
    rw [List.eq_of_mem_replicate hd, beq_self_eq_true]
  rw [dropEndWhile, hreverse, List.dropWhile_append_of_pos hall, List.dropWhile_eq_self_iff.mpr,
    List.reverse_reverse]
  intro hlen
  have hmem : x.reverse.head (List.ne_nil_of_length_pos hlen) ∈ x :=
    List.mem_reverse.mp (List.head_mem _)
  rw [List.getElem_zero]
  intro heq
  exact hx (beq_iff_eq.mp heq ▸ hmem)

/-- What stands before one character at the end is left, without some of the blanks at its ends. -/
theorem exists_blank_dropEndWhile {t s : List Char} {c : Char} (hc : isBlank c = false) (ht : c ∉ t)
    (hs : Blank s) (n : Nat) :
    ∃ a b, Blank a ∧ Blank b ∧
      t = a ++ (dropEndWhile (· == c) (trim (t ++ (List.replicate n c ++ s))) ++ b) := by
  have hmem : ∀ x y, t = x ++ y → c ∉ y := by
    rintro x y rfl hmem
    exact ht (List.mem_append_right x hmem)
  rw [← List.append_assoc, trim_append_blank _ hs]
  cases n with
  | zero =>
      obtain ⟨a, b, ha, -, hb, hsplit⟩ := exists_trim t
      have hnot : c ∉ trim t := fun h => hmem _ _ hsplit (List.mem_append_left b h)
      have hkeep := dropEndWhile_replicate hnot 0
      rw [List.replicate_zero, List.append_nil] at hkeep
      refine ⟨a, b, ha, hb, ?_⟩
      rw [List.replicate_zero, List.append_nil, hkeep]
      exact hsplit
  | succ n =>
      have htight : Tight (List.replicate (n + 1) c) := by
        refine tight_of_forall fun d hd => ?_
        rw [List.eq_of_mem_replicate hd]
        exact hc
      have hstart := trim_append_of_tight List.replicate_succ_ne_nil htight t []
      have hnil : trimEnd [] = [] := rfl
      have htake : t = t.takeWhile isBlank ++ trimStart t := List.takeWhile_append_dropWhile.symm
      rw [hnil, List.append_nil] at hstart
      refine ⟨t.takeWhile isBlank, [], fun d hd => List.mem_takeWhile_imp hd, by simp [Blank], ?_⟩
      rw [hstart, dropEndWhile_replicate (hmem _ _ htake), List.append_nil]
      exact htake

end MarkovRegion.Text
