import MarkovRegion.Logic.Bound
import MarkovRegion.Proofs.Algebra.OrderedMap
import MarkovRegion.Proofs.Basic
import MarkovRegion.Proofs.Number.Writing
import MarkovRegion.Proofs.Text.Splitting
import MarkovRegion.Region.Reader

/-!
# Regions and bounds as text

A region is read by cutting its text at the commas and each part at the signs `<=`.  No number and
no name holds one of these characters (`isSeparator`), so what is written is cut into what it was
put together from, whatever blanks stand in between (`Box.Spells`).

* `Box.readSides_eq_ok_iff`: the parts are read one by one, and no parameter is bounded twice.
* `Box.read_of_spells`: every text of a box is read as this box.
* `Box.exists_unreadable_of_boundsTwice`: a text with two bounds of a parameter is refused.
-/

namespace MarkovRegion

open Text (Blank Tight)

/-! ## Words between separators -/

/-- A word with blanks around it. -/
def Spaced (word text : List Char) : Prop :=
  ∃ s s', Blank s ∧ Blank s' ∧ text = s ++ (word ++ s')

/-- The characters that stand in no number, in no name and are no blanks. -/
def isSeparator (c : Char) : Bool :=
  !Text.isBlank c && !isIdentifierRest c && (c.toNat < 45 || 57 < c.toNat)

theorem isBlank_of_isSeparator {c : Char} (hc : isSeparator c = true) : Text.isBlank c = false := by
  simp only [isSeparator, Bool.and_eq_true, Bool.not_eq_true'] at hc
  exact hc.1.1

theorem not_mem_blank {c : Char} (hc : isSeparator c = true) {s : List Char} (hs : Blank s) :
    c ∉ s := by
  intro hmem
  have hblank := hs c hmem
  rw [isBlank_of_isSeparator hc] at hblank
  cases hblank

namespace Spaced

variable {word text : List Char}

theorem trim_eq (h : Spaced word text) (hword : Tight word) : Text.trim text = word := by
  obtain ⟨s, s', hs, hs', rfl⟩ := h
  exact Text.trim_eq hs hword hs'

theorem refl (word : List Char) : Spaced word word :=
  ⟨[], [], by simp [Blank], by simp [Blank], by simp⟩

theorem not_mem {c : Char} (hc : isSeparator c = true) (h : Spaced word text) (hword : c ∉ word) :
    c ∉ text := by
  obtain ⟨s, s', hs, hs', rfl⟩ := h
  rw [List.mem_append, List.mem_append]
  rintro (hmem | hmem | hmem)
  · exact not_mem_blank hc hs hmem
  · exact hword hmem
  · exact not_mem_blank hc hs' hmem

theorem number_not_mem {q : ℚ} {c : Char} (hc : isSeparator c = true)
    (h : Spaced (Coefficient.write q).toList text) : c ∉ text := by
  refine h.not_mem hc fun hmem => ?_
  have hrange := Coefficient.toNat_of_mem_write hmem
  simp only [isSeparator, Bool.and_eq_true, Bool.or_eq_true, decide_eq_true_eq] at hc
  omega

theorem name_not_mem {p : Parameter} {c : Char} (hc : isSeparator c = true)
    (h : Spaced p.name.toList text) : c ∉ text := by
  refine h.not_mem hc fun hmem => ?_
  have hrest := isIdentifierRest_of_mem_name p c hmem
  simp [isSeparator, hrest] at hc

end Spaced

theorem tight_name (p : Parameter) : Tight p.name.toList :=
  Text.tight_of_visible (by decide) (by decide) fun c hc =>
    toNat_of_isIdentifierRest (isIdentifierRest_of_mem_name p c hc)

theorem Parameter.ofName_name (p : Parameter) : ofName (String.ofList p.name.toList) = .ok p := by
  rw [String.ofList_toList, ofName, dif_pos p.identifier]

theorem Parameter.eq_of_name {p q : Parameter} (h : p.name = q.name) : p = q := by
  cases p
  cases q
  cases h
  rfl

theorem Parameter.name_of_ofName {name : String} {p : Parameter} (h : ofName name = .ok p) :
    p.name = name := by
  unfold ofName at h
  split_ifs at h
  rw [← Except.ok.inj h]

theorem Coefficient.read_write_chars (q : ℚ) :
    read (String.ofList (write q).toList) = .ok q := by
  refine read_spaced ?_
  rw [String.ofList_toList, Text.trim_of_tight (tight_write q)]

namespace Box

/-! ## Texts of a box -/

/-- The texts of a side, such as `0.3<=p<=0.4`, with blanks around its words. -/
def SideText (side : Parameter × Interval) (t : List Char) : Prop :=
  ∃ lower name upper, Spaced (Coefficient.write side.2.lower).toList lower ∧
    Spaced side.1.name.toList name ∧ Spaced (Coefficient.write side.2.upper).toList upper ∧
    t = lower ++ '<' :: '=' :: (name ++ '<' :: '=' :: upper)

/-- The texts of sides with commas between them. -/
inductive SidesText : List (Parameter × Interval) → List Char → Prop
  | last {side : Parameter × Interval} {t : List Char} (h : SideText side t) : SidesText [side] t
  | cons {side : Parameter × Interval} {sides : List (Parameter × Interval)} {t u : List Char}
      (h : SideText side t) (hu : SidesText sides u) : SidesText (side :: sides) (t ++ ',' :: u)

/-- The texts of a box: its sides in their order, with blanks around their words, then any number of
semicolons. -/
def Spells (b : Box) (text : String) : Prop :=
  ∃ t n s, SidesText b.sides.entries t ∧ Blank s ∧ text.toList = t ++ (List.replicate n ';' ++ s)

/-- A parameter between two signs `<=`, with blanks around it. -/
def Mentions (p : Parameter) (m : List Char) : Prop :=
  ∃ name, Spaced p.name.toList name ∧ m = '<' :: '=' :: (name ++ ['<', '='])

/-- A text that bounds a parameter in two places. -/
def BoundsTwice (p : Parameter) (text : String) : Prop :=
  ∃ x m y m' z, Mentions p m ∧ Mentions p m' ∧ text.toList = x ++ (m ++ (y ++ (m' ++ z)))

/-! ## Reading a part -/

theorem readSide_of_pieces {text : String} {part : List Char} {p : Parameter} {lower upper : ℚ}
    (h : (Text.splitAtPair '<' '=' part).map Text.trim =
      [(Coefficient.write lower).toList, p.name.toList, (Coefficient.write upper).toList]) :
    readSide text part = .ok (p, lower, upper) := by
  simp only [readSide, h, Parameter.ofName_name, Coefficient.read_write_chars, withReason]
  rfl

theorem SideText.readSide_trim {side : Parameter × Interval} {t : List Char} (h : SideText side t)
    (text : String) :
    readSide text (Text.trim t) = .ok (side.1, side.2.lower, side.2.upper) ∧ Text.trim t ≠ [] := by
  obtain ⟨_, name, _, ⟨s, s', hs, hs', rfl⟩, hname, ⟨r, r', hr, hr', rfl⟩, rfl⟩ := h
  have hlower := Coefficient.tight_write side.2.lower
  have hlower0 := Coefficient.write_ne_nil side.2.lower
  have hupper := Coefficient.tight_write side.2.upper
  have hupper0 := Coefficient.write_ne_nil side.2.upper
  have hleft : Spaced (Coefficient.write side.2.lower).toList
      ((Coefficient.write side.2.lower).toList ++ s') := ⟨[], s', by simp [Blank], hs', rfl⟩
  have hright : Spaced (Coefficient.write side.2.upper).toList
      (r ++ (Coefficient.write side.2.upper).toList) := ⟨r, [], hr, by simp [Blank], by simp⟩
  -- The blanks at the ends of the part are trimmed, those around the signs stay.
  have htrim : Text.trim (s ++ ((Coefficient.write side.2.lower).toList ++ s') ++
        '<' :: '=' :: (name ++ '<' :: '=' ::
          (r ++ ((Coefficient.write side.2.upper).toList ++ r')))) =
      ((Coefficient.write side.2.lower).toList ++ s') ++ '<' :: '=' :: (name ++ '<' :: '=' ::
        (r ++ (Coefficient.write side.2.upper).toList)) := by
    have htight := hlower.enclose hlower0 (s' ++ '<' :: '=' :: (name ++ '<' :: '=' :: r)) hupper
      hupper0
    have h := Text.trim_eq hs htight hr'
    simpa using h
  rw [htrim]
  refine ⟨readSide_of_pieces ?_, by simp [hlower0]⟩
  rw [Text.splitAtPair_append (by decide), Text.splitAtPair_append (by decide),
    Text.splitAtPair_of_not_mem _ (hleft.number_not_mem (by decide)),
    Text.splitAtPair_of_not_mem _ (hname.name_not_mem (by decide)),
    Text.splitAtPair_of_not_mem _ (hright.number_not_mem (by decide))]
  simp [hleft.trim_eq hlower, hname.trim_eq (tight_name side.1), hright.trim_eq hupper]

/-! ## Reading all parts -/

theorem readSides_cons (text : String) (done : List (Parameter × ℚ × ℚ)) (part : List Char)
    (parts : List (List Char)) :
    readSides text done (part :: parts) = readSide text part >>= fun side =>
      if done.any fun e => e.1 = side.1 then
        .error (.unreadable text ("`" ++ side.1.name ++ "` is bounded twice"))
      else readSides text (done ++ [side]) parts := rfl

/-- The parts are read one by one, and no parameter is bounded twice. -/
theorem readSides_eq_ok_iff {text : String} {parts : List (List Char)}
    {done result : List (Parameter × ℚ × ℚ)} (hdone : (done.map Prod.fst).Nodup) :
    readSides text done parts = .ok result ↔
      ∃ sides, List.Forall₂ (fun part side => readSide text part = .ok side) parts sides ∧
        ((done ++ sides).map Prod.fst).Nodup ∧ result = done ++ sides := by
  induction parts generalizing done with
  | nil =>
      simp only [readSides, Except.ok.injEq, List.forall₂_nil_left_iff]
      constructor
      · rintro rfl
        exact ⟨[], rfl, by simpa using hdone, by simp⟩
      · rintro ⟨_, rfl, -, rfl⟩
        simp
  | cons part parts ih =>
      have hany : ∀ side : Parameter × ℚ × ℚ,
          (done.any fun e => e.1 = side.1) = true ↔ side.1 ∈ done.map Prod.fst := by
        intro side
        simp [List.any_eq_true, List.mem_map]
      rw [readSides_cons, bind_eq_ok_iff]
      constructor
      · rintro ⟨side, hside, hrest⟩
        split_ifs at hrest with hmem
        rw [hany] at hmem
        have hnodup : ((done ++ [side]).map Prod.fst).Nodup := by
          rw [List.map_append]
          exact List.nodup_append.mpr ⟨hdone, by simp, by
            rintro p hp _ hq rfl
            exact hmem (List.mem_singleton.mp hq ▸ hp)⟩
        obtain ⟨sides, hsides, hall, rfl⟩ := (ih hnodup).mp hrest
        exact ⟨side :: sides, .cons hside hsides, by simpa using hall, by simp⟩
      · rintro ⟨_, hsides, hall, rfl⟩
        cases hsides with
        | @cons _ side _ sides hside hsides =>
            have hall' : ((done ++ [side] ++ sides).map Prod.fst).Nodup := by simpa using hall
            have hnodup : ((done ++ [side]).map Prod.fst).Nodup := by
              rw [List.map_append] at hall'
              exact (List.nodup_append.mp hall').1
            have hmem : ¬(done.any fun e => e.1 = side.1) = true := by
              rw [hany]
              intro hmem
              rw [List.map_append] at hnodup
              exact (List.nodup_append.mp hnodup).2.2 _ hmem _ List.mem_cons_self rfl
            refine ⟨side, hside, ?_⟩
            rw [if_neg hmem, ih hnodup]
            exact ⟨sides, hsides, hall', by simp⟩

theorem eq_ok_of_withReason {α : Type} {text : String} {x : Except ModelError α} {a : α}
    (h : withReason text x = .ok a) : x = .ok a := by
  cases x with
  | ok b => rw [Except.ok.inj h]
  | error e => cases h

theorem withReason_error {α : Type} {text : String} {x : Except ModelError α} {e : RegionError}
    (h : withReason text x = .error e) : ∃ reason, e = .unreadable text reason := by
  cases x with
  | ok a => cases h
  | error e' => exact ⟨_, (Except.error.inj h).symm⟩

theorem readSide_error {text : String} {part : List Char} {e : RegionError}
    (h : readSide text part = .error e) : ∃ reason, e = .unreadable text reason := by
  unfold readSide at h
  split at h
  · simp only [bind_eq_error_iff] at h
    rcases h with h | ⟨p, -, h | ⟨lower, -, h | ⟨upper, -, h⟩⟩⟩
    · exact withReason_error h
    · exact withReason_error h
    · exact withReason_error h
    · cases h
  · exact ⟨_, (Except.error.inj h).symm⟩

/-- A text of parts is refused with a reason. -/
theorem readSides_error {text : String} {parts : List (List Char)}
    {done : List (Parameter × ℚ × ℚ)} {e : RegionError}
    (h : readSides text done parts = .error e) : ∃ reason, e = .unreadable text reason := by
  induction parts generalizing done with
  | nil => cases h
  | cons part parts ih =>
      rw [readSides_cons, bind_eq_error_iff] at h
      rcases h with h | ⟨side, -, h⟩
      · exact readSide_error h
      · split_ifs at h
        · exact ⟨_, (Except.error.inj h).symm⟩
        · exact ih h

/-! ## The box of a text -/

/-- The semicolons and blanks at the end of a text do not matter. -/
theorem parts_eq {text : String} {t s : List Char} {n : ℕ} (ht : ';' ∉ t) (hs : Blank s)
    (htext : text.toList = t ++ (List.replicate n ';' ++ s)) :
    parts text = ((Text.splitAtChar ',' t).map Text.trim).filter fun part => !part.isEmpty := by
  obtain ⟨a, b, ha, hb, hsplit⟩ := Text.exists_blank_dropEndWhile (by decide) ht hs n
  have hcomma : Text.isBlank ',' = false := by decide
  have hpieces := Text.map_trim_splitAtChar_append hcomma ha hb
    (Text.dropEndWhile (· == ';') (Text.trim text.toList))
  rw [htext, ← hsplit] at hpieces
  rw [parts, htext, ← hpieces]

theorem SideText.not_mem {side : Parameter × Interval} {t : List Char} (h : SideText side t)
    {c : Char} (hc : isSeparator c = true) (hless : c ≠ '<') (hequal : c ≠ '=') : c ∉ t := by
  obtain ⟨lower, name, upper, hlower, hname, hupper, rfl⟩ := h
  simp [hlower.number_not_mem hc, hname.name_not_mem hc, hupper.number_not_mem hc, hless, hequal]

namespace SidesText

variable {sides : List (Parameter × Interval)} {t : List Char}

theorem semicolon_not_mem (h : SidesText sides t) : ';' ∉ t := by
  have hside : ∀ {side : Parameter × Interval} {u : List Char}, SideText side u → ';' ∉ u :=
    fun h => h.not_mem (by decide) (by decide) (by decide)
  induction h with
  | last h => exact hside h
  | cons h _ ih => simp [hside h, ih]

/-- The commas cut the text into those of the sides. -/
theorem forall₂_splitAtChar (h : SidesText sides t) :
    List.Forall₂ (fun piece side => SideText side piece) (Text.splitAtChar ',' t) sides := by
  have hside : ∀ {side : Parameter × Interval} {u : List Char}, SideText side u → ',' ∉ u :=
    fun h => h.not_mem (by decide) (by decide) (by decide)
  induction h with
  | last h =>
      rw [Text.splitAtChar_of_not_mem (hside h)]
      exact .cons h .nil
  | cons h _ ih =>
      rw [Text.splitAtChar_append, Text.splitAtChar_of_not_mem (hside h)]
      exact .cons h ih

end SidesText

/-- The sides of a box as they are read. -/
def bounds (b : Box) : List (Parameter × ℚ × ℚ) :=
  b.sides.entries.map fun e => (e.1, e.2.lower, e.2.upper)

theorem entries_map_side (b : Box) (pick : Interval → ℚ) :
    (OrderedMap.ofList (b.sides.entries.map fun e => (e.1, pick e.2))).entries =
      b.sides.entries.map fun e => (e.1, pick e.2) :=
  OrderedMap.entries_ofList (List.pairwise_map.mpr b.sides.increasing)

theorem eq_of_sides {b c : Box} (h : b.sides = c.sides) : b = c := by
  cases b
  cases c
  cases h
  rfl

theorem ofBounds_lower_upper (b : Box) : ofBounds b.lower b.upper = .ok b := by
  have hlower : b.lower.entries = _ := b.entries_map_side Interval.lower
  have hupper : b.upper.entries = _ := b.entries_map_side Interval.upper
  have hempty : ¬b.lower.isEmpty = true := by
    rw [OrderedMap.isEmpty, hlower]
    simpa using b.nonempty
  have hkeys : b.lower.keys = b.upper.keys := by
    rw [OrderedMap.keys, OrderedMap.keys, hlower, hupper, List.map_map, List.map_map]
    rfl
  have hsides : OrderedMap.ofList b.sides.entries = b.sides :=
    OrderedMap.ext (OrderedMap.entries_ofList b.sides.increasing)
  have hmapM : (b.lower.entries.zip b.upper.entries).mapM (m := Except RegionError)
      (fun x => do return (x.1.1, ← interval x.1.1 x.1.2 x.2.2)) = .ok b.sides.entries := by
    rw [hlower, hupper, List.zip_map', mapM_eq_ok_iff, List.forall₂_map_left_iff,
      List.forall₂_same]
    intro e _
    rw [interval, dif_pos e.2.ordered]
    rfl
  have hnonempty : (OrderedMap.ofList b.sides.entries).entries ≠ [] := by
    rw [hsides]
    exact b.nonempty
  simp only [ofBounds, if_neg hempty, hkeys, ne_eq, not_true_eq_false, if_false]
  rw [hmapM]
  refine (dif_pos hnonempty).trans (pure_eq_ok_iff.mpr ?_)
  exact eq_of_sides hsides

theorem ofList_bounds (b : Box) : ofList b.bounds = .ok b := by
  have hlower : OrderedMap.ofList (b.bounds.map fun e => (e.1, e.2.1)) = b.lower := by
    rw [bounds, List.map_map]
    rfl
  have hupper : OrderedMap.ofList (b.bounds.map fun e => (e.1, e.2.2)) = b.upper := by
    rw [bounds, List.map_map]
    rfl
  rw [ofList, hlower, hupper, ofBounds_lower_upper]

/-- Every text of a box is read as this box. -/
theorem read_of_spells {b : Box} {text : String} (h : b.Spells text) : read text = .ok b := by
  obtain ⟨t, n, s, hsides, hs, htext⟩ := h
  have hpieces := hsides.forall₂_splitAtChar
  have hparts : parts text = (Text.splitAtChar ',' t).map Text.trim := by
    rw [parts_eq hsides.semicolon_not_mem hs htext, List.filter_eq_self]
    intro part hpart
    obtain ⟨piece, hpiece, rfl⟩ := List.mem_map.mp hpart
    obtain ⟨side, -, hside⟩ := exists_mem_of_forall₂ hpieces hpiece
    simpa using (hside.readSide_trim text).2
  have hread : readSides text [] (parts text) = .ok b.bounds := by
    rw [readSides_eq_ok_iff (by simp)]
    refine ⟨b.bounds, ?_, ?_, rfl⟩
    · rw [hparts, bounds, List.forall₂_map_left_iff, List.forall₂_map_right_iff]
      exact hpieces.imp fun piece side h => (h.readSide_trim text).1
    · rw [List.nil_append, bounds, List.map_map]
      exact b.sides.nodup_keys
  rw [read, hread]
  exact ofList_bounds b

/-- The text of a side without blanks. -/
def writeSide (side : Parameter × Interval) : String :=
  Coefficient.write side.2.lower ++ "<=" ++ side.1.name ++ "<=" ++ Coefficient.write side.2.upper

theorem sideText_writeSide (side : Parameter × Interval) : SideText side (writeSide side).toList := by
  refine ⟨_, _, _, .refl _, .refl _, .refl _, ?_⟩
  simp [writeSide]

theorem sidesText_join (side : Parameter × Interval) (sides : List (Parameter × Interval)) :
    SidesText (side :: sides) (Text.join "," ((side :: sides).map writeSide)).toList := by
  induction sides generalizing side with
  | nil =>
      refine .last ?_
      simpa [Text.join] using sideText_writeSide side
  | cons next sides ih =>
      have h := SidesText.cons (sideText_writeSide side) (ih next)
      rw [Text.join, String.toList_intercalate] at h ⊢
      simp only [List.map_cons, List.intercalate_cons_cons, List.append_assoc] at h ⊢
      exact h

/-- A box is written without blanks and semicolons. -/
theorem spells_write (b : Box) : b.Spells b.write := by
  obtain ⟨side, sides, hentries⟩ := List.exists_cons_of_ne_nil b.nonempty
  refine ⟨b.write.toList, 0, [], ?_, by simp [Blank], by simp⟩
  rw [write, hentries]
  exact sidesText_join side sides

/-! ## Parameters that are bounded twice -/

theorem tight_sign : Tight ['<', '='] := by
  refine Text.tight_of_forall ?_
  simp only [List.forall_mem_cons]
  exact ⟨by decide, by decide, by simp⟩

/-- Three pieces are needed to read a part, and the second one is the name. -/
theorem exists_pieces_of_readSide {text : String} {part : List Char} {side : Parameter × ℚ × ℚ}
    (h : readSide text part = .ok side) :
    ∃ lower upper, (Text.splitAtPair '<' '=' part).map Text.trim =
      [lower, side.1.name.toList, upper] := by
  unfold readSide at h
  split at h
  · next lower name upper hpieces =>
      simp only [bind_eq_ok_iff] at h
      obtain ⟨p, hp, _, -, _, -, hside⟩ := h
      have hname := Parameter.name_of_ofName (eq_ok_of_withReason hp)
      rw [← pure_eq_ok_iff.mp hside, hname, String.toList_ofList]
      exact ⟨lower, upper, hpieces⟩
  · cases h

namespace Mentions

variable {p : Parameter} {m m' : List Char}

theorem ne_nil (h : Mentions p m) : m ≠ [] := by
  obtain ⟨name, -, rfl⟩ := h
  simp

theorem tight (h : Mentions p m) : Tight m := by
  obtain ⟨name, -, rfl⟩ := h
  exact tight_sign.enclose (by simp) name tight_sign (by simp)

theorem trim_append (h : Mentions p m) (u v : List Char) :
    Text.trim (u ++ (m ++ v)) = Text.trimStart u ++ (m ++ Text.trimEnd v) :=
  Text.trim_append_of_tight h.ne_nil h.tight u v

theorem last_ne (h : Mentions p m) : ∀ c ∈ m.getLast?, (c == ';') = false := by
  obtain ⟨name, -, rfl⟩ := h
  intro c hc
  have hlast : (('<' :: '=' :: (name ++ ['<'])) ++ ['=']).getLast? = some '=' :=
    List.getLast?_concat
  have hcons : '<' :: '=' :: (name ++ ['<', '=']) = ('<' :: '=' :: (name ++ ['<'])) ++ ['='] := by
    simp
  rw [hcons, hlast] at hc
  obtain rfl := Option.some.inj hc
  decide

theorem comma_not_mem (h : Mentions p m) : ',' ∉ m := by
  obtain ⟨name, hname, rfl⟩ := h
  have hcomma : ',' ∉ name := hname.name_not_mem (by decide)
  simp [hcomma]

theorem map_trim_splitAtPair (h : Mentions p m) (u v : List Char) :
    (Text.splitAtPair '<' '=' (u ++ (m ++ v))).map Text.trim =
      (Text.splitAtPair '<' '=' u).map Text.trim ++ p.name.toList ::
        (Text.splitAtPair '<' '=' v).map Text.trim := by
  obtain ⟨name, hname, rfl⟩ := h
  have hless : '<' ∉ name := hname.name_not_mem (by decide)
  have hassoc : u ++ ('<' :: '=' :: (name ++ ['<', '=']) ++ v) =
      u ++ '<' :: '=' :: (name ++ '<' :: '=' :: v) := by simp
  rw [hassoc, Text.splitAtPair_append (by decide), Text.splitAtPair_append (by decide),
    Text.splitAtPair_of_not_mem _ hless]
  simp [hname.trim_eq (tight_name p)]

/-- A part that bounds a parameter is read as its bounds. -/
theorem eq_of_readSide (h : Mentions p m) {text : String} {u v : List Char}
    {side : Parameter × ℚ × ℚ} (hside : readSide text (u ++ (m ++ v)) = .ok side) : side.1 = p := by
  obtain ⟨lower, upper, hpieces⟩ := exists_pieces_of_readSide hside
  rw [h.map_trim_splitAtPair] at hpieces
  have hu := List.length_pos_of_ne_nil (Text.splitAtPair_ne_nil '<' '=' u)
  have hv := List.length_pos_of_ne_nil (Text.splitAtPair_ne_nil '<' '=' v)
  have hlen := congrArg List.length hpieces
  simp only [List.length_append, List.length_cons, List.length_map, List.length_nil] at hlen
  obtain ⟨first, hfirst⟩ := List.length_eq_one_iff.mp
    (show ((Text.splitAtPair '<' '=' u).map Text.trim).length = 1 by rw [List.length_map]; omega)
  rw [hfirst] at hpieces
  have hname : p.name.toList = side.1.name.toList := (List.cons.inj (List.cons.inj hpieces).2).1
  exact Parameter.eq_of_name (String.toList_injective hname).symm

/-- A part with two bounds of parameters has too many signs. -/
theorem readSide_ne_ok (h : Mentions p m) (h' : Mentions p m') {text : String}
    {u y v : List Char} {side : Parameter × ℚ × ℚ} :
    readSide text (u ++ (m ++ (y ++ (m' ++ v)))) ≠ .ok side := by
  intro hside
  obtain ⟨lower, upper, hpieces⟩ := exists_pieces_of_readSide hside
  rw [h.map_trim_splitAtPair, h'.map_trim_splitAtPair] at hpieces
  have hu := List.length_pos_of_ne_nil (Text.splitAtPair_ne_nil '<' '=' u)
  have hy := List.length_pos_of_ne_nil (Text.splitAtPair_ne_nil '<' '=' y)
  have hlen := congrArg List.length hpieces
  simp only [List.length_append, List.length_cons, List.length_map, List.length_nil] at hlen
  omega

end Mentions

/-- No two parts that are read bound one parameter. -/
theorem pairwise_of_forall₂ {text : String} {parts : List (List Char)}
    {sides : List (Parameter × ℚ × ℚ)}
    (h : List.Forall₂ (fun part side => readSide text part = .ok side) parts sides)
    (hnodup : (sides.map Prod.fst).Nodup) :
    parts.Pairwise fun a b => ∀ s t, readSide text a = .ok s → readSide text b = .ok t →
      s.1 ≠ t.1 := by
  induction h with
  | nil => exact .nil
  | @cons part side parts sides hside hsides ih =>
      obtain ⟨hnot, hnodup⟩ := List.nodup_cons.mp hnodup
      refine List.pairwise_cons.mpr ⟨fun b hb s t hs ht hst => ?_, ih hnodup⟩
      obtain ⟨side', hmem, hread⟩ := exists_mem_of_forall₂ hsides hb
      obtain rfl := Except.ok.inj (hside.symm.trans hs)
      obtain rfl := Except.ok.inj (hread.symm.trans ht)
      exact hnot (List.mem_map.mpr ⟨side', hmem, hst.symm⟩)

/-- What a text holds between two ends that are not trimmed is still there when it is cut. -/
theorem exists_body {core : List Char} (hne : core ≠ []) (htight : Tight core)
    (hlast : ∀ c ∈ core.getLast?, (c == ';') = false) (x z : List Char) :
    ∃ x' z', Text.dropEndWhile (· == ';') (Text.trim (x ++ (core ++ z))) = x' ++ (core ++ z') := by
  refine ⟨Text.trimStart x, Text.dropEndWhile (· == ';') (Text.trimEnd z), ?_⟩
  rw [Text.trim_append_of_tight hne htight, Text.dropEndWhile_append_of_last hne hlast]

/-- Pieces that are not blank become parts, in their order. -/
theorem sublist_parts {text : String} {pieces : List (List Char)}
    (h : pieces.Sublist
      (Text.splitAtChar ',' (Text.dropEndWhile (· == ';') (Text.trim text.toList))))
    (hne : ∀ piece ∈ pieces, Text.trim piece ≠ []) :
    (pieces.map Text.trim).Sublist (parts text) := by
  have hfilter := (h.map Text.trim).filter fun part => !part.isEmpty
  rwa [List.filter_eq_self.mpr] at hfilter
  intro part hpart
  obtain ⟨piece, hpiece, rfl⟩ := List.mem_map.mp hpart
  simpa using hne piece hpiece

/-- Two places that bound parameters are in two parts or in one. -/
theorem exists_parts_of_mentions {text : String} {p : Parameter} {x m y m' z : List Char}
    (hm : Mentions p m) (hm' : Mentions p m') (htext : text.toList = x ++ (m ++ (y ++ (m' ++ z)))) :
    (∃ u v u' v', [u ++ (m ++ v), u' ++ (m' ++ v')].Sublist (parts text)) ∨
      ∃ u v, u ++ (m ++ (y ++ (m' ++ v))) ∈ parts text := by
  have hcore : Tight (m ++ (y ++ m')) := hm.tight.enclose hm.ne_nil y hm'.tight hm'.ne_nil
  have hcore0 : m ++ (y ++ m') ≠ [] := List.append_ne_nil_of_left_ne_nil hm.ne_nil _
  have hlast : ∀ c ∈ (m ++ (y ++ m')).getLast?, (c == ';') = false := by
    rw [← List.append_assoc, List.getLast?_append_of_ne_nil _ hm'.ne_nil]
    exact hm'.last_ne
  have htrim := hm.trim_append
  have htrim' := hm'.trim_append
  obtain ⟨x', z', hbody⟩ := exists_body hcore0 hcore hlast x z
  have hassoc : text.toList = x ++ ((m ++ (y ++ m')) ++ z) := by simpa using htext
  rw [← hassoc] at hbody
  by_cases hy : ',' ∈ y
  · obtain ⟨y₁, y₂, rfl⟩ := List.append_of_mem hy
    obtain ⟨u, v, hfirst⟩ := Text.exists_mem_splitAtChar hm.comma_not_mem x' y₁
    obtain ⟨u', v', hsecond⟩ := Text.exists_mem_splitAtChar hm'.comma_not_mem y₂ z'
    have hcut : x' ++ (m ++ (y₁ ++ ',' :: y₂ ++ m') ++ z') =
        (x' ++ (m ++ y₁)) ++ ',' :: (y₂ ++ (m' ++ z')) := by simp
    have hsub := (List.singleton_sublist.mpr hfirst).append (List.singleton_sublist.mpr hsecond)
    rw [← Text.splitAtChar_append, ← hcut, ← hbody] at hsub
    have hparts := sublist_parts hsub (by simp [htrim, htrim', hm.ne_nil, hm'.ne_nil])
    simp only [List.singleton_append, List.map_cons, List.map_nil, htrim, htrim'] at hparts
    exact .inl ⟨_, _, _, _, hparts⟩
  · have hcomma : ',' ∉ m ++ (y ++ m') := by simp [hm.comma_not_mem, hy, hm'.comma_not_mem]
    obtain ⟨u, v, hmem⟩ := Text.exists_mem_splitAtChar hcomma x' z'
    have hpart := Text.trim_append_of_tight hcore0 hcore u v
    rw [← hbody] at hmem
    have hparts := sublist_parts (List.singleton_sublist.mpr hmem) (by
      rw [List.forall_mem_singleton, hpart]
      simp [hm.ne_nil])
    rw [List.map_singleton, hpart, List.singleton_sublist, List.append_assoc,
      List.append_assoc] at hparts
    exact .inr ⟨_, _, hparts⟩

/-- A text with two bounds of a parameter is refused. -/
theorem exists_unreadable_of_boundsTwice {p : Parameter} {text : String} (h : BoundsTwice p text) :
    ∃ reason, read text = .error (.unreadable text reason) := by
  obtain ⟨x, m, y, m', z, hm, hm', htext⟩ := h
  cases hread : readSides text [] (parts text) with
  | error e =>
      obtain ⟨reason, rfl⟩ := readSides_error hread
      exact ⟨reason, by rw [read, hread]; rfl⟩
  | ok result =>
      exfalso
      obtain ⟨sides, hsides, hnodup, -⟩ := (readSides_eq_ok_iff (by simp)).mp hread
      rcases exists_parts_of_mentions hm hm' htext with ⟨u, v, u', v', hparts⟩ | ⟨u, v, hpart⟩
      · have hpair := (pairwise_of_forall₂ hsides hnodup).sublist hparts
        obtain ⟨s, -, hs⟩ := exists_mem_of_forall₂ hsides (hparts.subset List.mem_cons_self)
        obtain ⟨t, -, ht⟩ := exists_mem_of_forall₂ hsides
          (hparts.subset (List.mem_cons_of_mem _ List.mem_cons_self))
        refine (List.pairwise_cons.mp hpair).1 _ List.mem_cons_self s t hs ht ?_
        rw [hm.eq_of_readSide hs, hm'.eq_of_readSide ht]
      · obtain ⟨s, -, hs⟩ := exists_mem_of_forall₂ hsides hpart
        exact hm.readSide_ne_ok hm' hs

end Box

/-! ## Bounds -/

/-- The sign of a comparison is found in front of a text that does not go on with `=`. -/
theorem Comparison.read?_symbol (c : Comparison) {d : Char} {rest : List Char} (hd : d ≠ '=') :
    read? (c.symbol.toList ++ d :: rest) = some (c, d :: rest) := by
  cases c with
  | less => simp [symbol, read?, hd]
  | lessEqual => simp [symbol, read?]
  | greater => simp [symbol, read?, hd]
  | greaterEqual => simp [symbol, read?]
  | equal => simp [symbol, read?]

theorem Comparison.not_blank_symbol (c : Comparison) :
    ∀ d ∈ c.symbol.toList, Text.isBlank d = false := by
  cases c <;> simp [symbol, Text.isBlank]

theorem Bound.read_write (b : Bound) : read b.write = .ok b := by
  obtain ⟨d, rest, hwrite⟩ :=
    List.exists_cons_of_ne_nil (Coefficient.write_ne_nil b.threshold)
  have hd : d ≠ '=' := by
    rintro rfl
    have hrange := Coefficient.toNat_of_mem_write (hwrite ▸ List.mem_cons_self)
    exact absurd hrange.2 (by decide)
  have htight : Tight b.write.toList := by
    rw [write, String.toList_append]
    refine Text.tight_of_forall (List.forall_mem_append.mpr ⟨b.comparison.not_blank_symbol, ?_⟩)
    intro c hc
    obtain ⟨hlower, hupper⟩ := Coefficient.toNat_of_mem_write hc
    exact Text.isBlank_of_visible (by omega) (by omega)
  have htrim : Text.trim b.write.toList = b.comparison.symbol.toList ++ d :: rest := by
    rw [Text.trim_of_tight htight, write, String.toList_append, hwrite]
  have hread := Coefficient.read_write_chars b.threshold
  rw [hwrite] at hread
  simp only [read, htrim, Comparison.read?_symbol b.comparison hd, hread]
  rfl

namespace Region

open Box (Spells BoundsTwice)

theorem read_eq_ok_iff {text : String} {r : Region} :
    read text = .ok r ↔ ∃ b, Box.read text = .ok b ∧ r = fresh b := by
  rw [read, bind_eq_ok_iff]
  refine exists_congr fun b => and_congr_right fun _ => ?_
  rw [pure_eq_ok_iff, eq_comm]

/-- What is written is read back.  A region is also read from its text with blanks around its words
and semicolons at the end, every text that is read describes the region that is written, and a text
that bounds a parameter twice is refused. -/
theorem texts_round_trip :
    (∀ b : Box, read b.write = .ok (fresh b)) ∧
      (∀ (b : Box) (text : String), b.Spells text → read text = .ok (fresh b)) ∧
      (∀ b : Bound, Bound.read b.write = .ok b) ∧
      (∀ (text : String) (r : Region), read text = .ok r → read r.box.write = .ok r) ∧
      ∀ (text : String) (p : Parameter), BoundsTwice p text →
        ∃ reason, read text = .error (.unreadable text reason) := by
  have hspells : ∀ (b : Box) (text : String), b.Spells text → read text = .ok (fresh b) :=
    fun b text h => read_eq_ok_iff.mpr ⟨b, Box.read_of_spells h, rfl⟩
  have hwrite : ∀ b : Box, read b.write = .ok (fresh b) :=
    fun b => hspells b b.write b.spells_write
  refine ⟨hwrite, hspells, Bound.read_write, ?_, ?_⟩
  · intro text r h
    obtain ⟨b, -, rfl⟩ := read_eq_ok_iff.mp h
    exact hwrite b
  · intro text p h
    obtain ⟨reason, hreason⟩ := Box.exists_unreadable_of_boundsTwice h
    exact ⟨reason, by rw [read, hreason]; rfl⟩

/-- How much is drafted. -/
def draft : Parameter := ⟨"draft", by decide⟩

/-- How much is at stake. -/
def stake : Parameter := ⟨"stake", by decide⟩

/-- From below zero to a number without a finite expansion. -/
def draftRange : Interval := ⟨mkRat (-1) 8, mkRat 1 3, by decide⟩

/-- A single point. -/
def stakeRange : Interval := ⟨mkRat 5 2, mkRat 5 2, by decide⟩

/-- The draft and the stake in their ranges. -/
def stakeBox : Box := ⟨.ofList [(draft, draftRange), (stake, stakeRange)], by decide⟩

/-- Blanks of several kinds with two semicolons, and a parameter that is bounded once more. -/
theorem texts_round_trip_stakeBox :
    (stakeBox.Spells "\t-0.125 <= draft\n<=1/3 , 2.5<=stake <= 2.5 ;; " ∧
      BoundsTwice stake "0<=stake<=1, 2<= stake <=3;") ∧
    read "\t-0.125 <= draft\n<=1/3 , 2.5<=stake <= 2.5 ;; " = .ok (fresh stakeBox) ∧
    ∃ reason, read "0<=stake<=1, 2<= stake <=3;" =
      .error (.unreadable "0<=stake<=1, 2<= stake <=3;" reason) := by
  have hblank : ∀ {s : List Char}, s.all Text.isBlank = true → Blank s := List.all_eq_true.mp
  have hlower : (Coefficient.write draftRange.lower).toList = "-0.125".toList := by decide +kernel
  have hupper : (Coefficient.write draftRange.upper).toList = "1/3".toList := by decide +kernel
  have hleft : (Coefficient.write stakeRange.lower).toList = "2.5".toList := by decide +kernel
  have hright : (Coefficient.write stakeRange.upper).toList = "2.5".toList := by decide +kernel
  have hdraft : Box.SideText (draft, draftRange) "\t-0.125 <= draft\n<=1/3 ".toList := by
    refine ⟨"\t-0.125 ".toList, " draft\n".toList, "1/3 ".toList, ?_,
      ⟨[' '], ['\n'], hblank rfl, hblank rfl, rfl⟩, ?_, rfl⟩
    · rw [hlower]
      exact ⟨['\t'], [' '], hblank rfl, hblank rfl, rfl⟩
    · rw [hupper]
      exact ⟨[], [' '], hblank rfl, hblank rfl, rfl⟩
  have hstake : Box.SideText (stake, stakeRange) " 2.5<=stake <= 2.5 ".toList := by
    refine ⟨" 2.5".toList, "stake ".toList, " 2.5 ".toList, ?_,
      ⟨[], [' '], hblank rfl, hblank rfl, rfl⟩, ?_, rfl⟩
    · rw [hleft]
      exact ⟨[' '], [], hblank rfl, hblank rfl, rfl⟩
    · rw [hright]
      exact ⟨[' '], [' '], hblank rfl, hblank rfl, rfl⟩
  have hspells : stakeBox.Spells "\t-0.125 <= draft\n<=1/3 , 2.5<=stake <= 2.5 ;; " :=
    ⟨_, 2, [' '], .cons hdraft (.last hstake), hblank rfl, rfl⟩
  have htwice : BoundsTwice stake "0<=stake<=1, 2<= stake <=3;" :=
    ⟨"0".toList, "<=stake<=".toList, "1, 2".toList, "<= stake <=".toList, "3;".toList,
      ⟨"stake".toList, .refl _, rfl⟩,
      ⟨" stake ".toList, ⟨[' '], [' '], hblank rfl, hblank rfl, rfl⟩, rfl⟩, rfl⟩
  exact ⟨⟨hspells, htwice⟩, texts_round_trip.2.1 stakeBox _ hspells,
    texts_round_trip.2.2.2.2 _ stake htwice⟩

end Region

end MarkovRegion
