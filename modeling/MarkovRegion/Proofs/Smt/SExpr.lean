import MarkovRegion.Proofs.Basic
import MarkovRegion.Smt.SExpr

/-!
# Reading s-expressions

The reader goes over the characters once, with a stack of open lists.  What it does with a part of a
text is said without the rest of it: after blanks and comments it is where it was (`Gap.passes`),
and after the text of an s-expression this has been added to what it has read (`Spaced.adds`).  For
the second something has to be known of the rest: an atom that is not quoted ends with the next
blank or parenthesis only, so the rest starts with one of these or is empty (`Ends`).

`Spaced s cs` says that the characters `cs` are those of `s` with blanks and comments between the
tokens.  The text that is written of an s-expression is of this kind (`spaced_write`).
-/

namespace MarkovRegion.Smt.SExpr

/-! ## Texts of s-expressions -/

/-- The characters of an atom that is not quoted. -/
structure IsPlain (cs : List Char) : Prop where
  ne_nil : cs ≠ []
  not_ends : ∀ c ∈ cs, Text.isBlank c = false ∧ c ≠ '(' ∧ c ≠ ')'
  not_marked : ∀ c ∈ cs.head?, c ≠ '\x22' ∧ c ≠ '|' ∧ c ≠ ';'

/-- Whether characters are those of an atom that is not quoted. -/
def isPlain (cs : List Char) : Bool :=
  !cs.isEmpty && cs.all (fun c => !Text.isBlank c && c != '(' && c != ')') &&
    cs.head?.all fun c => c != '\x22' && c != '|' && c != ';'

theorem isPlain_iff {cs : List Char} : isPlain cs = true ↔ IsPlain cs := by
  have hfields : isPlain cs = true ↔ cs ≠ [] ∧
      (∀ c ∈ cs, Text.isBlank c = false ∧ c ≠ '(' ∧ c ≠ ')') ∧
        ∀ c ∈ cs.head?, c ≠ '\x22' ∧ c ≠ '|' ∧ c ≠ ';' := by
    cases cs <;> simp [isPlain, and_assoc]
  exact hfields.trans
    ⟨fun h => ⟨h.1, h.2.1, h.2.2⟩, fun h => ⟨h.ne_nil, h.not_ends, h.not_marked⟩⟩

instance (cs : List Char) : Decidable (IsPlain cs) := decidable_of_iff _ isPlain_iff

/-- The characters of an atom between two quotation marks or bars. -/
def IsQuoted (cs : List Char) : Prop :=
  ∃ mark body, (mark = '\x22' ∨ mark = '|') ∧ mark ∉ body ∧ cs = mark :: (body ++ [mark])

/-- The texts of atoms. -/
def IsAtom (text : String) : Prop := IsPlain text.toList ∨ IsQuoted text.toList

/-- An s-expression whose atoms are texts of atoms. -/
inductive Readable : SExpr → Prop
  | atom {text : String} (h : IsAtom text) : Readable (atom text)
  | list {items : List SExpr} (h : ∀ s ∈ items, Readable s) : Readable (list items)

/-- Blanks, and comments that follow a blank and end with their line. -/
inductive Gap : List Char → Prop
  | nil : Gap []
  | blank {c : Char} {gap : List Char} (hc : Text.isBlank c = true) (h : Gap gap) : Gap (c :: gap)
  | comment {c : Char} {remark gap : List Char} (hc : Text.isBlank c = true)
      (hremark : '\n' ∉ remark) (h : Gap ('\n' :: gap)) : Gap (c :: ';' :: (remark ++ '\n' :: gap))

mutual

/-- The characters of an s-expression with blanks and comments between its tokens. -/
inductive Spaced : SExpr → List Char → Prop
  | atom (text : String) : Spaced (atom text) text.toList
  | list {items : List SExpr} {gap cs : List Char} (hgap : Gap gap) (h : SpacedItems items cs) :
      Spaced (list items) ('(' :: (gap ++ (cs ++ [')'])))

/-- The characters of items with blanks and comments between and after them. -/
inductive SpacedItems : List SExpr → List Char → Prop
  | nil : SpacedItems [] []
  | last {s : SExpr} {cs gap : List Char} (hs : Spaced s cs) (hgap : Gap gap) :
      SpacedItems [s] (cs ++ gap)
  | cons {s : SExpr} {items : List SExpr} {cs gap ds : List Char} (hs : Spaced s cs)
      (hgap : Gap gap) (hne : gap ≠ []) (h : SpacedItems items ds) :
      SpacedItems (s :: items) (cs ++ (gap ++ ds))

end

/-! ## Parts of a text -/

/-- A rest before which an atom ends. -/
def Ends (rest : List Char) : Prop := ∀ c ∈ rest.head?, endsAtom c = true

variable {m m' m'' : Mode} {p p' p'' : Progress} {cs ds gap rest : List Char} {c : Char}

theorem ends_cons_of_isBlank (hc : Text.isBlank c = true) : Ends (c :: rest) := by
  simp [Ends, endsAtom, hc]

/-- The reader gets past some characters, whatever comes before and after them. -/
def Passes (cs : List Char) (m : Mode) (p : Progress) (m' : Mode) (p' : Progress) : Prop :=
  ∀ offset rest, ∃ offset', readFrom offset m p (cs ++ rest) = readFrom offset' m' p' rest

theorem Passes.nil : Passes [] m p m p := fun offset _ => ⟨offset, rfl⟩

theorem Passes.append (h : Passes cs m p m' p') (h' : Passes ds m' p' m'' p'') :
    Passes (cs ++ ds) m p m'' p'' := by
  intro offset rest
  obtain ⟨offset', hcs⟩ := h offset (ds ++ rest)
  obtain ⟨offset'', hds⟩ := h' offset' rest
  exact ⟨offset'', by rw [List.append_assoc, hcs, hds]⟩

/-- The reader gets past characters one by one. -/
theorem Passes.cons (hc : ∀ offset, step offset c m p = .ok (m', p'))
    (h : Passes cs m' p' m'' p'') : Passes (c :: cs) m p m'' p'' := by
  intro offset rest
  obtain ⟨offset', hcs⟩ := h (offset + c.utf8Size) rest
  refine ⟨offset', ?_⟩
  rw [List.cons_append, readFrom, hc]
  exact hcs

theorem start_of_isBlank (hc : Text.isBlank c = true) (offset : Nat) (p : Progress) :
    start offset c p = .ok (.between, p) := by
  have hne : ∀ d : Char, Text.isBlank d = false → c ≠ d := by
    rintro d hd rfl
    rw [hc] at hd
    cases hd
  rw [start, if_neg (hne '(' (by decide)), if_neg (hne ')' (by decide)),
    if_neg (hne ';' (by decide)), if_pos hc]

theorem passes_comment (hremark : '\n' ∉ cs) : Passes cs .comment p .comment p := by
  induction cs with
  | nil => exact .nil
  | cons c cs ih =>
      obtain ⟨hc, hcs⟩ := List.ne_and_not_mem_of_not_mem_cons hremark
      exact .cons (fun _ => by rw [step, if_neg (Ne.symm hc)]) (ih hcs)

/-- Blanks and comments are skipped. -/
theorem Gap.passes (h : Gap gap) (p : Progress) : Passes gap .between p .between p := by
  induction h with
  | nil => exact .nil
  | blank hc _ ih => exact .cons (fun offset => start_of_isBlank hc offset p) ih
  | @comment c remark gap hc hremark h ih =>
      -- The end of the line is a blank, so the gap can be entered there.
      have hend : Passes ('\n' :: gap) .comment p .between p := by
        intro offset rest
        obtain ⟨offset', hrest⟩ := ih offset rest
        exact ⟨offset', hrest⟩
      have hremarks := (passes_comment (p := p) hremark).append hend
      exact .cons (fun offset => start_of_isBlank hc offset p) (.cons (fun _ => rfl) hremarks)

/-! ## Atoms -/

/-- The reader gets past some characters and has then added what they say, if an atom can end there.
-/
def Adds (cs : List Char) (p p' : Progress) : Prop :=
  ∀ offset rest, Ends rest →
    ∃ offset', readFrom offset .between p (cs ++ rest) = readFrom offset' .between p' rest

theorem Passes.adds (h : Passes cs .between p .between p') : Adds cs p p' :=
  fun offset rest _ => h offset rest

theorem endsAtom_eq_false (h : Text.isBlank c = false ∧ c ≠ '(' ∧ c ≠ ')') :
    endsAtom c = false := by
  simp [endsAtom, h]

theorem passes_atom {chars : List Char}
    (h : ∀ c ∈ cs, Text.isBlank c = false ∧ c ≠ '(' ∧ c ≠ ')') :
    Passes cs (.atom chars) p (.atom (cs.reverse ++ chars)) p := by
  induction cs generalizing chars with
  | nil => exact .nil
  | cons c cs ih =>
      obtain ⟨hc, hcs⟩ := List.forall_mem_cons.mp h
      rw [List.reverse_cons, List.append_assoc, List.singleton_append]
      exact .cons (fun _ => by rw [step, endsAtom_eq_false hc, if_neg Bool.false_ne_true]) (ih hcs)

/-- Where an atom can end, it is added. -/
theorem readFrom_atom {chars : List Char} (hemit : emit (ofReversed chars) p = .ok p')
    (hrest : Ends rest) (offset : Nat) :
    readFrom offset (.atom chars) p rest = readFrom offset .between p' rest := by
  cases rest with
  | nil =>
      show (emit (ofReversed chars) p >>= finish .between) = finish .between p'
      rw [hemit]
      rfl
  | cons c rest =>
      have hstep : step offset c (.atom chars) p = step offset c .between p' := by
        have hc : endsAtom c = true := hrest c rfl
        simp only [step, if_pos hc, hemit]
        rfl
      rw [readFrom, readFrom, hstep]

theorem start_plain (hc : Text.isBlank c = false ∧ c ≠ '(' ∧ c ≠ ')')
    (hmark : c ≠ '\x22' ∧ c ≠ '|' ∧ c ≠ ';') (offset : Nat) (p : Progress) :
    start offset c p = .ok (.atom [c], p) := by
  simp [start, hc, hmark]

theorem IsPlain.adds {text : String} (h : IsPlain text.toList)
    (hemit : emit (atom text) p = .ok p') : Adds text.toList p p' := by
  obtain ⟨hne, hchars, hfirst⟩ := h
  rcases htext : text.toList with _ | ⟨c, cs⟩
  · exact absurd htext hne
  · rw [htext] at hchars hfirst
    obtain ⟨hc, hcs⟩ := List.forall_mem_cons.mp hchars
    have hatom : ofReversed (cs.reverse ++ [c]) = atom text := by
      simp [ofReversed, ← htext]
    intro offset rest hrest
    have hpass : Passes (c :: cs) .between p (.atom (cs.reverse ++ [c])) p :=
      .cons (fun offset => start_plain hc (hfirst c rfl) offset p) (passes_atom hcs)
    obtain ⟨offset', hread⟩ := hpass offset rest
    exact ⟨offset', hread.trans (readFrom_atom (hatom ▸ hemit) hrest offset')⟩

theorem passes_quoted {close : Char} (first : Nat) {chars : List Char} (h : close ∉ cs) :
    Passes cs (.quoted close first chars) p (.quoted close first (cs.reverse ++ chars)) p := by
  induction cs generalizing chars with
  | nil => exact .nil
  | cons c cs ih =>
      obtain ⟨hc, hcs⟩ := List.ne_and_not_mem_of_not_mem_cons h
      rw [List.reverse_cons, List.append_assoc, List.singleton_append]
      exact .cons (fun _ => by rw [step, if_neg (Ne.symm hc)]) (ih hcs)

theorem IsQuoted.passes {text : String} (h : IsQuoted text.toList)
    (hemit : emit (atom text) p = .ok p') : Passes text.toList .between p .between p' := by
  obtain ⟨mark, body, hmark, hbody, htext⟩ := h
  have hatom : ofReversed (mark :: (body.reverse ++ [mark])) = atom text := by
    rw [ofReversed, List.reverse_cons, List.reverse_append, List.reverse_reverse,
      List.reverse_singleton, List.append_assoc, List.singleton_append, ← htext,
      String.ofList_toList]
  have hstart : ∀ offset, start offset mark p = .ok (.quoted mark offset [mark], p) := by
    intro offset
    rcases hmark with rfl | rfl
    · rfl
    · rfl
  have hclose : ∀ first offset,
      step offset mark (.quoted mark first (body.reverse ++ [mark])) p = .ok (.between, p') := by
    intro first offset
    rw [step, if_pos rfl, hatom, hemit]
    rfl
  rw [htext]
  intro offset rest
  obtain ⟨offset', hread⟩ := ((passes_quoted offset hbody).append
    (.cons (hclose offset) .nil)) (offset + mark.utf8Size) rest
  refine ⟨offset', ?_⟩
  rw [List.cons_append, readFrom, step, hstart]
  exact hread

/-! ## Lists -/

theorem Gap.ends (h : Gap gap) (hne : gap ≠ []) : Ends (gap ++ rest) := by
  cases h with
  | nil => exact absurd rfl hne
  | blank hc _ => exact ends_cons_of_isBlank hc
  | comment hc _ _ => exact ends_cons_of_isBlank hc

/-- Blanks and comments before more of a text end what was added. -/
theorem Adds.trans (h : Adds cs p p') (hgap : Gap gap) (hne : gap ≠ []) (h' : Adds ds p' p'') :
    Adds (cs ++ (gap ++ ds)) p p'' := by
  intro offset rest hrest
  obtain ⟨offset₁, hcs⟩ := h offset (gap ++ (ds ++ rest)) (hgap.ends hne)
  obtain ⟨offset₂, hskip⟩ := hgap.passes p' offset₁ (ds ++ rest)
  obtain ⟨offset₃, hds⟩ := h' offset₂ rest hrest
  exact ⟨offset₃, by rw [List.append_assoc, List.append_assoc, hcs, hskip, hds]⟩

theorem Adds.append_gap (h : Adds cs p p') (hgap : Gap gap) : Adds (cs ++ gap) p p' := by
  by_cases hnil : gap = []
  · rwa [hnil, List.append_nil]
  · have hadds := h.trans hgap hnil Passes.nil.adds
    rwa [List.append_nil] at hadds

/-- The items of a list are added to it when it is closed. -/
theorem Adds.close {items : List SExpr} {stack : List (List SExpr)} {result : Option SExpr}
    (h : Adds cs ⟨[] :: stack, result⟩ ⟨items.reverse :: stack, result⟩)
    (hemit : emit (list items) ⟨stack, result⟩ = .ok p') :
    Passes (cs ++ [')']) .between ⟨[] :: stack, result⟩ .between p' := by
  have hclose : ∀ offset,
      step offset ')' .between ⟨items.reverse :: stack, result⟩ = .ok (.between, p') := by
    intro offset
    show Except.map _ (emit (list items.reverse.reverse) ⟨stack, result⟩) = _
    rw [List.reverse_reverse, hemit]
    rfl
  intro offset rest
  obtain ⟨offset₁, hcs⟩ := h offset (')' :: rest) (by simp [Ends, endsAtom])
  obtain ⟨offset₂, hend⟩ := Passes.cons hclose .nil offset₁ rest
  exact ⟨offset₂, by rw [List.append_assoc, List.singleton_append, hcs]; exact hend⟩

mutual

/-- Reading the characters of an s-expression adds it. -/
theorem Spaced.adds : ∀ {s : SExpr} {cs : List Char}, Spaced s cs → s.Readable →
    ∀ {p p' : Progress}, emit s p = .ok p' → Adds cs p p'
  | _, _, .atom _, .atom hatom, _, _, hemit => by
      rcases hatom with hplain | hquoted
      · exact hplain.adds hemit
      · exact (hquoted.passes hemit).adds
  | _, _, .list hgap h, .list hitems, p, p', hemit => by
      have hadds := h.adds hitems [] p.stack p.result
      rw [List.append_nil] at hadds
      exact (Passes.cons (fun _ => rfl) ((hgap.passes _).append (hadds.close hemit))).adds

/-- Reading the characters of items adds them to the innermost list. -/
theorem SpacedItems.adds : ∀ {items : List SExpr} {cs : List Char}, SpacedItems items cs →
    (∀ s ∈ items, s.Readable) → ∀ (done : List SExpr) (stack : List (List SExpr))
      (result : Option SExpr),
      Adds cs ⟨done :: stack, result⟩ ⟨(items.reverse ++ done) :: stack, result⟩
  | _, _, .nil, _, _, _, _ => Passes.nil.adds
  | _, _, .last hs hgap, hitems, done, stack, result => by
      have hadds := hs.adds (hitems _ List.mem_cons_self) (p := ⟨done :: stack, result⟩) rfl
      exact hadds.append_gap hgap
  | _, _, .cons hs hgap hne h, hitems, done, stack, result => by
      obtain ⟨hfirst, hrest⟩ := List.forall_mem_cons.mp hitems
      rw [List.reverse_cons, List.append_assoc, List.singleton_append]
      exact (hs.adds hfirst (p := ⟨done :: stack, result⟩) rfl).trans hgap hne
        (h.adds hrest _ stack result)

end

/-- An s-expression is read from its characters, with blanks and comments around and between its
tokens. -/
theorem read_spaced {s : SExpr} {before after : List Char} (hs : s.Readable) (h : Spaced s cs)
    (hbefore : Gap before) (hafter : Gap after) :
    read (String.ofList (before ++ (cs ++ after))) = .ok s := by
  have hadds : Adds (cs ++ after) ⟨[], none⟩ ⟨[], some s⟩ := (h.adds hs rfl).append_gap hafter
  obtain ⟨offset₁, hskip⟩ := hbefore.passes ⟨[], none⟩ 0 (cs ++ after)
  obtain ⟨offset₂, hread⟩ := hadds offset₁ [] (by simp [Ends])
  rw [read, String.toList_ofList, hskip, ← List.append_nil (cs ++ after), hread]
  rfl

/-! ## Written texts -/

mutual

/-- The text of an s-expression has one blank between neighbours. -/
theorem spaced_write : ∀ s : SExpr, Spaced s s.write.toList
  | .atom text => .atom text
  | .list [] => .list .nil .nil
  | .list (x :: xs) => by
      have h := Spaced.list .nil (spacedItems_writeRest xs (spaced_write x))
      simpa [write] using h

theorem spacedItems_writeRest : ∀ (xs : List SExpr) {x : SExpr} {cs : List Char}, Spaced x cs →
    SpacedItems (x :: xs) (cs ++ (writeRest xs).toList)
  | [], _, _, hx => .last hx .nil
  | y :: ys, _, _, hx => by
      have h := SpacedItems.cons hx (.blank (c := ' ') (by decide) .nil) (List.cons_ne_nil _ _)
        (spacedItems_writeRest ys (spaced_write y))
      simpa [writeRest] using h

end

/-- The text of a list has a blank between neighbours. -/
theorem write_list (items : List SExpr) :
    (list items).write = "(" ++ Text.join " " (items.map write) ++ ")" := by
  have hrest : ∀ (xs : List SExpr) (x : SExpr),
      x.write.toList ++ (writeRest xs).toList = (Text.join " " ((x :: xs).map write)).toList := by
    intro xs
    induction xs with
    | nil => simp [writeRest, Text.join]
    | cons y ys ih =>
        intro x
        have hy := ih y
        simp only [Text.join, String.toList_intercalate, List.map_cons] at hy ⊢
        rw [List.intercalate_cons_cons, ← hy]
        simp [writeRest]
  cases items with
  | nil => rfl
  | cons x xs =>
      refine String.toList_inj.mp ?_
      simp only [write, String.toList_append, ← hrest xs x, List.append_assoc]

/-- What is written is read. -/
theorem Readable.read_write {s : SExpr} (hs : s.Readable) : read s.write = .ok s := by
  have h := read_spaced hs (spaced_write s) .nil .nil
  rwa [List.nil_append, List.append_nil, String.ofList_toList] at h

end MarkovRegion.Smt.SExpr
