import Mathlib.Data.List.DropRight
import MarkovRegion.Text.Blank
import MarkovRegion.Text.Pieces

/-!
# The last line of a trimmed text

A text is trimmed to what stands between its blanks (`trim_eq`, `exists_trim`).  A line feed is a
blank, so trimming takes whole lines off both ends.  The last line of a trimmed text is the last one
that is not blank (`trim_getLastD_lines`).
-/

namespace MarkovRegion

namespace Text

/-- There are only blanks. -/
def Blank (cs : List Char) : Prop := ∀ c ∈ cs, isBlank c = true

/-- There is no blank at the ends. -/
structure Tight (cs : List Char) : Prop where
  start : ∀ c ∈ cs.head?, isBlank c = false
  stop : ∀ c ∈ cs.getLast?, isBlank c = false

variable {a b cs : List Char}

theorem Blank.append (ha : Blank a) (hb : Blank b) : Blank (a ++ b) :=
  List.forall_mem_append.mpr ⟨ha, hb⟩

theorem blank_newline : Blank ['\n'] := by
  simp [Blank, isBlank]

theorem tight_of_forall (h : ∀ c ∈ cs, isBlank c = false) : Tight cs :=
  ⟨fun c hc => h c (List.mem_of_head? hc), fun c hc => h c (List.mem_of_getLast? hc)⟩

theorem trimEnd_eq (cs : List Char) : trimEnd cs = cs.rdropWhile isBlank := rfl

/-- What stands between blanks is what trimming leaves. -/
theorem trim_eq (ha : Blank a) (hcs : Tight cs) (hb : Blank b) : trim (a ++ (cs ++ b)) = cs := by
  have hstart : trimStart (a ++ (cs ++ b)) = trimStart (cs ++ b) :=
    List.dropWhile_append_of_pos ha
  have hstop : trimEnd (cs ++ b) = trimEnd cs := by
    simp only [trimEnd, dropEndWhile, List.reverse_append]
    rw [List.dropWhile_append_of_pos fun c hc => hb c (List.mem_reverse.mp hc)]
  rw [trim, hstart]
  cases cs with
  | nil =>
      have hempty : trimStart b = [] := List.dropWhile_eq_nil_iff.mpr hb
      rw [List.nil_append, hempty]
      rfl
  | cons c rest =>
      have hkeep : trimStart (c :: rest ++ b) = c :: rest ++ b :=
        List.dropWhile_cons_of_neg (by simp [hcs.start c rfl])
      rw [hkeep, hstop, trimEnd_eq, List.rdropWhile_eq_self_iff]
      intro hne
      simp [hcs.stop _ (List.getLast?_eq_some_getLast hne)]

/-- Trimming takes blanks off both ends. -/
theorem exists_trim (cs : List Char) :
    ∃ a b, Blank a ∧ Tight (trim cs) ∧ Blank b ∧ cs = a ++ (trim cs ++ b) := by
  refine ⟨cs.takeWhile isBlank, (trimStart cs).rtakeWhile isBlank,
    fun c hc => List.mem_takeWhile_imp hc, ⟨fun c hc => ?_, fun c hc => ?_⟩,
    fun c hc => List.mem_rtakeWhile_imp hc, ?_⟩
  · obtain ⟨rest, hrest⟩ := List.rdropWhile_prefix isBlank (trimStart cs)
    have hhead : (trimStart cs).head? = some c := by
      rw [← hrest, List.head?_append, ← trimEnd_eq]
      exact congrArg (Option.or · rest.head?) hc
    have hnot := List.head?_dropWhile_not isBlank cs
    rw [show (cs.dropWhile isBlank).head? = some c from hhead] at hnot
    exact hnot
  · have hne : trim cs ≠ [] := by
      rintro hempty
      rw [hempty] at hc
      cases hc
    rw [List.getLast?_eq_some_getLast hne] at hc
    obtain rfl := Option.some.inj hc
    exact Bool.eq_false_iff.mpr (List.rdropWhile_last_not isBlank (trimStart cs) hne)
  · rw [trim, trimEnd_eq, List.rdropWhile_append_rtakeWhile]
    exact List.takeWhile_append_dropWhile.symm

theorem trim_append_blank (cs : List Char) (hb : Blank b) : trim (cs ++ b) = trim cs := by
  obtain ⟨a, b', ha, htight, hb', hcs⟩ := exists_trim cs
  conv_lhs => rw [hcs, List.append_assoc, List.append_assoc]
  exact trim_eq ha htight (hb'.append hb)

theorem blank_of_trim (h : trim cs = []) : Blank cs := by
  obtain ⟨a, b, ha, -, hb, hcs⟩ := exists_trim cs
  rw [hcs, h]
  exact ha.append hb

theorem splitAtChar_ne_nil (sep : Char) (cs : List Char) : splitAtChar sep cs ≠ [] := by
  cases cs with
  | nil => simp [splitAtChar]
  | cons c rest =>
      rw [splitAtChar]
      split_ifs
      · simp
      · split
        · simp
        · simp

theorem splitAtChar_of_not_mem {sep : Char} (h : sep ∉ cs) : splitAtChar sep cs = [cs] := by
  induction cs with
  | nil => rfl
  | cons c rest ih =>
      rw [List.mem_cons, not_or] at h
      rw [splitAtChar, if_neg (Ne.symm h.1), ih h.2]

theorem splitAtChar_append (sep : Char) (cs ds : List Char) :
    splitAtChar sep (cs ++ sep :: ds) = splitAtChar sep cs ++ splitAtChar sep ds := by
  induction cs with
  | nil => simp [splitAtChar]
  | cons c rest ih =>
      rw [List.cons_append, splitAtChar, splitAtChar, ih]
      split_ifs
      · rfl
      · cases hrest : splitAtChar sep rest with
        | nil => exact absurd hrest (splitAtChar_ne_nil sep rest)
        | cons piece pieces => rfl

theorem linesOfPieces_concat (pieces : List (List Char)) (h : cs ≠ []) :
    linesOfPieces (pieces ++ [cs]) = pieces.map dropCarriageReturn ++ [cs] := by
  induction pieces with
  | nil => simp [linesOfPieces, h]
  | cons piece pieces ih =>
      rw [List.cons_append, linesOfPieces, ih]
      · rfl
      · simp

/-- The last line of a text that ends with this line. -/
theorem getLastD_lines (hne : cs ≠ []) (hcs : '\n' ∉ cs) :
    (lines cs).getLastD [] = cs ∧ ∀ before, (lines (before ++ '\n' :: cs)).getLastD [] = cs := by
  have hpieces : ∀ pieces, (linesOfPieces (pieces ++ [cs])).getLastD [] = cs := by
    intro pieces
    rw [linesOfPieces_concat pieces hne, List.getLastD_concat]
  refine ⟨?_, fun before => ?_⟩
  · rw [lines, splitAtChar_of_not_mem hcs]
    exact hpieces []
  · rw [lines, splitAtChar_append, splitAtChar_of_not_mem hcs]
    exact hpieces _

theorem trim_of_tight (hcs : Tight cs) : trim cs = cs := by
  simpa using trim_eq (a := []) (b := []) (by simp [Blank]) hcs (by simp [Blank])

/-- The last line of a trimmed text that is a single line. -/
theorem trim_getLastD_lines (hne : trim cs ≠ []) (hcs : '\n' ∉ cs) :
    trim ((lines (trim cs)).getLastD []) = trim cs := by
  obtain ⟨a, b, -, htight, -, hsplit⟩ := exists_trim cs
  have hline : '\n' ∉ trim cs := by
    intro hmem
    rw [hsplit] at hcs
    exact hcs (List.mem_append_right a (List.mem_append_left b hmem))
  rw [(getLastD_lines hne hline).1, trim_of_tight htight]

/-- The last line of a trimmed text that ends with a line which is not blank. -/
theorem trim_getLastD_lines_append (before : List Char) (hne : trim cs ≠ []) (hcs : '\n' ∉ cs) :
    trim ((lines (trim (before ++ '\n' :: cs))).getLastD []) = trim cs := by
  have hsingle := trim_getLastD_lines hne hcs
  obtain ⟨a, b, ha, htight, hb, hsplit⟩ := exists_trim cs
  generalize trim cs = m at hne htight hsplit hsingle ⊢
  subst hsplit
  by_cases hblank : trim before = []
  -- Blank lines before the line are trimmed with its own blanks.
  · have hall : Blank (before ++ '\n' :: a) :=
      (blank_of_trim hblank).append (blank_newline.append ha)
    have hwhole : before ++ '\n' :: (a ++ (m ++ b)) = (before ++ '\n' :: a) ++ (m ++ b) := by simp
    rw [hwhole, trim_eq hall htight hb]
    exact hsingle
  -- Otherwise the line keeps the blanks in front of it.
  · obtain ⟨a', b', ha', htight', -, hbefore⟩ := exists_trim before
    have hlonger : Tight ((trim before ++ b') ++ '\n' :: (a ++ m)) := by
      constructor
      · rw [List.append_assoc, List.head?_append_of_ne_nil _ hblank]
        exact htight'.start
      · rw [← List.cons_append, ← List.append_assoc, List.getLast?_append_of_ne_nil _ hne]
        exact htight.stop
    have hwhole : before ++ '\n' :: (a ++ (m ++ b)) =
        a' ++ (((trim before ++ b') ++ '\n' :: (a ++ m)) ++ b) := by
      conv_lhs => rw [hbefore]
      simp
    have hne' : a ++ m ≠ [] := List.append_ne_nil_of_right_ne_nil a hne
    have hline : '\n' ∉ a ++ m := by
      intro hmem
      rw [← List.append_assoc] at hcs
      exact hcs (List.mem_append_left b hmem)
    rw [hwhole, trim_eq ha' hlonger hb, (getLastD_lines hne' hline).2]
    simpa using trim_eq (b := []) ha htight (by simp [Blank])

end Text

end MarkovRegion
