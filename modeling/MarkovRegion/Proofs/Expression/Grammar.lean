import Mathlib.Algebra.Field.Rat
import MarkovRegion.Expression.Reader
import MarkovRegion.Proofs.Basic

/-!
# The reader follows the grammar

`Written level start e t` says that the text `t`, which starts at the byte offset `start`, writes
the tree `e` at a level of the grammar.  The levels are those of precedence: a power binds tighter
than a minus sign, this tighter than products and quotients, and these tighter than sums and
differences; operators of one level are grouped from the left.  Blanks may stand between any two
tokens, and parentheses around any part.  Divisions and powers carry the offset of their right side,
so a text writes one tree only.

The reader finds this tree (`read_eq_of_isWritten`).  It works from left to right, with what it has
read so far as the left operand, while the grammar splits a product at its last operator; so the
statement that is proved by induction over the grammar, `Found`, says for products and sums with
which left operand the reader is about to continue.  Which character may come next decides whether
a token is complete (`Follows`).
-/

namespace MarkovRegion.Expression

open Text (byteLength)

/-! ## Texts of expressions -/

/-- Blanks only. -/
def Blanks (s : List Char) : Prop := ∀ c ∈ s, isSpace c = true

/-- Digits, at least one. -/
def Digits (ds : List Char) : Prop := ds ≠ [] ∧ ∀ c ∈ ds, c.isDigit = true

/-- The texts of numbers with their values: a point may stand before, between or after the
digits. -/
inductive Numeral : List Char → Rat → Prop
  | whole {ds : List Char} (hds : Digits ds) : Numeral ds (Nat.ofDigitChars 10 ds 0)
  | decimal {ds places : List Char} (hds : Digits (ds ++ places)) :
      Numeral (ds ++ '.' :: places) (Nat.ofDigitChars 10 (ds ++ places) 0 / 10 ^ places.length)

/-- The levels of the grammar, from tight to loose. -/
inductive Level where
  /-- A number, a parameter or a parenthesis. -/
  | atom
  /-- An atom, possibly with an exponent. -/
  | power
  /-- A power after any number of minus signs. -/
  | operand
  /-- Operands with multiplications and divisions between them. -/
  | product
  /-- Products with additions and subtractions between them. -/
  | sum

/-- The text `t` from the offset `start` on writes the tree `e` at a level. -/
inductive Written : Level → Nat → Expression → List Char → Prop
  | number {start : Nat} {t : List Char} {q : Rat} (h : Numeral t q) :
      Written .atom start (.number q) t
  | parameter {start : Nat} (p : Parameter) :
      Written .atom start (.parameter p) p.name.toList
  | parenthesis {start : Nat} {e : Expression} {s t s' : List Char} (hs : Blanks s)
      (ht : Written .sum (start + byteLength ('(' :: s)) e t) (hs' : Blanks s') :
      Written .atom start e ('(' :: s ++ t ++ s' ++ [')'])
  | ofAtom {start : Nat} {e : Expression} {t : List Char} (ht : Written .atom start e t) :
      Written .power start e t
  | pow {start : Nat} {e : Expression} {t s s' ds : List Char} (ht : Written .atom start e t)
      (hs : Blanks s) (hs' : Blanks s') (hds : Digits ds)
      (hlimit : Nat.ofDigitChars 10 ds 0 < exponentLimit) :
      Written .power start
        (.pow e (start + byteLength (t ++ s ++ '^' :: s')) (Nat.ofDigitChars 10 ds 0))
        (t ++ s ++ '^' :: s' ++ ds)
  | ofPower {start : Nat} {e : Expression} {t : List Char} (ht : Written .power start e t) :
      Written .operand start e t
  | neg {start : Nat} {e : Expression} {s t : List Char} (hs : Blanks s)
      (ht : Written .operand (start + byteLength ('-' :: s)) e t) :
      Written .operand start (.neg e) ('-' :: s ++ t)
  | ofOperand {start : Nat} {e : Expression} {t : List Char} (ht : Written .operand start e t) :
      Written .product start e t
  | mul {start : Nat} {l r : Expression} {t s s' u : List Char} (ht : Written .product start l t)
      (hs : Blanks s) (hs' : Blanks s')
      (hu : Written .operand (start + byteLength (t ++ s ++ '*' :: s')) r u) :
      Written .product start (.mul l r) (t ++ s ++ '*' :: s' ++ u)
  | div {start : Nat} {l r : Expression} {t s s' u : List Char} (ht : Written .product start l t)
      (hs : Blanks s) (hs' : Blanks s')
      (hu : Written .operand (start + byteLength (t ++ s ++ '/' :: s')) r u) :
      Written .product start (.div l (start + byteLength (t ++ s ++ '/' :: s')) r)
        (t ++ s ++ '/' :: s' ++ u)
  | ofProduct {start : Nat} {e : Expression} {t : List Char} (ht : Written .product start e t) :
      Written .sum start e t
  | add {start : Nat} {l r : Expression} {t s s' u : List Char} (ht : Written .sum start l t)
      (hs : Blanks s) (hs' : Blanks s')
      (hu : Written .product (start + byteLength (t ++ s ++ '+' :: s')) r u) :
      Written .sum start (.add l r) (t ++ s ++ '+' :: s' ++ u)
  | sub {start : Nat} {l r : Expression} {t s s' u : List Char} (ht : Written .sum start l t)
      (hs : Blanks s) (hs' : Blanks s')
      (hu : Written .product (start + byteLength (t ++ s ++ '-' :: s')) r u) :
      Written .sum start (.sub l r) (t ++ s ++ '-' :: s' ++ u)

/-- A whole text writes a tree; blanks may stand around the sum. -/
def IsWritten (e : Expression) (text : String) : Prop :=
  ∃ s t s', Blanks s ∧ Written .sum (byteLength s) e t ∧ Blanks s' ∧ text.toList = s ++ t ++ s'

/-! ## Tokens -/

theorem blanks_nil : Blanks [] := by
  simp [Blanks]

theorem blanks_singleton {c : Char} (hc : isSpace c = true) : Blanks [c] := by
  simpa [Blanks] using hc

theorem digits_singleton {c : Char} (hc : c.isDigit = true) : Digits [c] :=
  ⟨List.cons_ne_nil c [], by simpa using hc⟩

theorem digitsValue_eq (ds : List Char) :
    Coefficient.digitsValue ds = Nat.ofDigitChars 10 ds 0 := rfl

theorem isDigit_eq (c : Char) : Coefficient.isDigit c = c.isDigit := rfl

theorem byteLength_nil : byteLength [] = 0 := rfl

theorem byteLength_append (s t : List Char) :
    byteLength (s ++ t) = byteLength s + byteLength t := by
  have hfold : ∀ (n : Nat) (t : List Char),
      t.foldl (fun n c => n + c.utf8Size) n = n + byteLength t := by
    intro n t
    induction t generalizing n with
    | nil => rfl
    | cons c t ih =>
        have hcons : byteLength (c :: t) = 0 + c.utf8Size + byteLength t := ih _
        rw [List.foldl_cons, ih, hcons]
        omega
  rw [byteLength, List.foldl_append, hfold]
  rfl

theorem byteLength_cons (c : Char) (t : List Char) :
    byteLength (c :: t) = c.utf8Size + byteLength t := by
  have hone : byteLength [c] = c.utf8Size := Nat.zero_add _
  rw [← hone, ← byteLength_append, List.singleton_append]

/-- The characters after which a token is complete. -/
def delimiters : List Char := [' ', '\t', '\r', '\n', '^', '*', '/', '+', '-', ')']

/-- The first character that is not blank, if there is one, is allowed. -/
def Follows (allowed k : List Char) : Prop := ∀ c ∈ (k.dropWhile isSpace).head?, c ∈ allowed

section Follows

variable {allowed k s : List Char} {c : Char}

theorem Follows.mono {more : List Char} (h : Follows allowed k) (hsub : allowed ⊆ more) :
    Follows more k :=
  fun c hc => hsub (h c hc)

theorem dropWhile_blanks (hs : Blanks s) (k : List Char) :
    (s ++ k).dropWhile isSpace = k.dropWhile isSpace :=
  List.dropWhile_append_of_pos hs

theorem follows_blanks (hs : Blanks s) : Follows allowed (s ++ k) ↔ Follows allowed k := by
  rw [Follows, dropWhile_blanks hs, Follows]

theorem follows_cons (hc : isSpace c = false) : Follows allowed (c :: k) ↔ c ∈ allowed := by
  simp [Follows, hc]

/-- A token of one character follows after blanks. -/
theorem follows_token (hs : Blanks s) (hc : isSpace c = false) (hmem : c ∈ allowed) :
    Follows allowed (s ++ c :: k) := by
  rw [follows_blanks hs, follows_cons hc]
  exact hmem

theorem mem_of_isSpace (h : isSpace c = true) : c ∈ [' ', '\t', '\r', '\n'] := by
  simpa [isSpace, or_assoc] using h

/-- What follows a token starts with a character that is no part of it. -/
theorem Follows.head (h : Follows allowed k) (hallowed : allowed ⊆ delimiters) :
    ∀ c ∈ k.head?, c ∈ delimiters := by
  intro c hc
  obtain ⟨rest, rfl⟩ := List.head?_eq_some_iff.mp hc
  cases hspace : isSpace c with
  | true =>
      have hblank : [' ', '\t', '\r', '\n'] ⊆ delimiters := by decide
      exact hblank (mem_of_isSpace hspace)
  | false => exact hallowed ((follows_cons hspace).mp h)

end Follows

theorem delimiters_end :
    ∀ c ∈ delimiters, isIdentifierRest c = false ∧ c.isDigit = false ∧ c ≠ '.' := by
  -- Characters are finite; the list is unfolded so that only its members are tried.
  simp only [delimiters, List.forall_mem_cons, List.not_mem_nil, false_implies, implies_true]
  decide

/-- A token ends where its class of characters ends. -/
theorem span_append {p : Char → Bool} {t k : List Char} (ht : ∀ c ∈ t, p c = true)
    (hk : ∀ c ∈ k.head?, p c = false) :
    (t ++ k).takeWhile p = t ∧ (t ++ k).dropWhile p = k := by
  rw [List.takeWhile_append_of_pos ht, List.dropWhile_append_of_pos ht]
  cases k with
  | nil => simp
  | cons c rest =>
      have hc := hk c rfl
      simp [hc]

theorem cutAt?_eq_none {c : Char} {t : List Char} (h : c ∉ t) : Text.cutAt? [c] t = none := by
  induction t with
  | nil => rfl
  | cons d rest ih =>
      have hd : (c == d) = false := by
        rw [beq_eq_false_iff_ne]
        rintro rfl
        exact h List.mem_cons_self
      rw [Text.cutAt?, ih fun hmem => h (List.mem_cons_of_mem d hmem)]
      simp [List.isPrefixOf?, hd]

theorem cutAt?_append {c : Char} {t rest : List Char} (h : c ∉ t) :
    Text.cutAt? [c] (t ++ c :: rest) = some (t, rest) := by
  induction t with
  | nil => simp [Text.cutAt?, List.isPrefixOf?]
  | cons d t ih =>
      have hd : (c == d) = false := by
        rw [beq_eq_false_iff_ne]
        rintro rfl
        exact h List.mem_cons_self
      rw [List.cons_append, Text.cutAt?, ih fun hmem => h (List.mem_cons_of_mem d hmem)]
      simp [List.isPrefixOf?, hd]

namespace Numeral

variable {t k : List Char} {q : Rat}

/-- The text of a number has the value of the number. -/
theorem readDecimal?_eq (h : Numeral t q) : Coefficient.readDecimal? t = some q := by
  have hpoint : ∀ ds : List Char, (∀ c ∈ ds, c.isDigit = true) → '.' ∉ ds :=
    fun ds hds hmem => absurd (hds '.' hmem) (by decide)
  cases h with
  | whole hds =>
      have hall : t.all Coefficient.isDigit = true := List.all_eq_true.mpr hds.2
      rw [Coefficient.readDecimal?, cutAt?_eq_none (hpoint t hds.2)]
      simp [hds.1, hall, digitsValue_eq, Rat.mkRat_eq_div]
  | @decimal ds places hds =>
      have hall : (ds ++ places).all Coefficient.isDigit = true := List.all_eq_true.mpr hds.2
      have hne : (ds.isEmpty && places.isEmpty) = false := by
        simpa [List.append_eq_nil_iff] using hds.1
      rw [Coefficient.readDecimal?, cutAt?_append (hpoint ds (List.forall_mem_append.mp hds.2).1)]
      simp [hne, hall, digitsValue_eq, Rat.mkRat_eq_div]

/-- The whole text of a number is taken, and nothing after it. -/
theorem numeral?_append (h : Numeral t q) (hk : ∀ c ∈ k.head?, c ∈ delimiters) :
    numeral? (t ++ k) = some (t, k) := by
  have hdigits : ∀ c ∈ k.head?, c.isDigit = false := fun c hc => (delimiters_end c (hk c hc)).2.1
  unfold numeral?
  cases h with
  | whole hds =>
      obtain ⟨htake, hdrop⟩ := span_append hds.2 hdigits
      have hpoint : ∀ more, k ≠ '.' :: more := by
        rintro more rfl
        exact (delimiters_end '.' (hk '.' rfl)).2.2 rfl
      simp only [funext isDigit_eq, htake, hdrop]
      split
      · exact absurd rfl hds.1
      · exact absurd rfl hds.1
      · next more _ => exact absurd rfl (hpoint more)
      · rfl
  | @decimal ds places hds =>
      obtain ⟨hwhole, hplaces⟩ := List.forall_mem_append.mp hds.2
      have hend : ∀ c ∈ ('.' :: (places ++ k)).head?, c.isDigit = false := by
        simp
      obtain ⟨htake, hdrop⟩ := span_append hwhole hend
      obtain ⟨htake', hdrop'⟩ := span_append hplaces hdigits
      simp only [funext isDigit_eq, List.append_assoc, List.cons_append, htake, hdrop]
      cases ds with
      | nil =>
          -- without digits before the point there is one after it
          obtain ⟨d, rest, rfl⟩ := List.exists_cons_of_ne_nil hds.1
          simp only [htake', hdrop']
          rfl
      | cons d rest => simp only [htake', hdrop']

end Numeral

theorem isDigit_of_isIdentifierStart {c : Char} (h : isIdentifierStart c = true) :
    c.isDigit = false := by
  simp only [isIdentifierStart, Bool.or_eq_true, Bool.and_eq_true, decide_eq_true_eq, beq_iff_eq,
    Char.le_def, UInt32.le_iff_toNat_le] at h
  simp only [Char.isDigit, Bool.and_eq_false_iff, decide_eq_false_iff_not, ge_iff_le,
    UInt32.le_iff_toNat_le]
  rcases h with (h | h) | rfl
  · simp at h ⊢
    omega
  · simp at h ⊢
    omega
  · decide

/-- The text of a number or a parameter starts with no blank, no sign and no parenthesis. -/
def LeafText (t : List Char) : Prop :=
  ∃ c rest, t = c :: rest ∧ isSpace c = false ∧ c ≠ '-' ∧ c ≠ '('

section Leaf

variable {o : Nat} {t k : List Char} {q : Rat}

theorem leaf?_number (h : Numeral t q) (hk : ∀ c ∈ k.head?, c ∈ delimiters) :
    leaf? ⟨o, t ++ k⟩ = some (.number q, ⟨o + byteLength t, k⟩) := by
  simp only [leaf?, h.numeral?_append hk, h.readDecimal?_eq, Option.map_some, Cursor.past]

theorem leaf?_parameter (p : Parameter) (hk : ∀ c ∈ k.head?, c ∈ delimiters) :
    leaf? ⟨o, p.name.toList ++ k⟩
      = some (.parameter p, ⟨o + byteLength p.name.toList, k⟩) := by
  have hp := p.identifier
  obtain ⟨htake, hdrop⟩ := span_append (p := isIdentifierRest) (t := p.name.toList) (k := k)
    (by
      cases hname : p.name.toList with
      | nil => simp
      | cons c cs =>
          rw [hname, isIdentifier, Bool.and_eq_true, List.all_eq_true] at hp
          intro d hd
          rcases List.mem_cons.mp hd with rfl | hd
          · simp [isIdentifierRest, hp.1]
          · exact hp.2 d hd)
    fun c hc => (delimiters_end c (hk c hc)).1
  have hnumeral : numeral? (p.name.toList ++ k) = none := by
    cases hname : p.name.toList with
    | nil => rw [hname] at hp; exact absurd hp (by decide)
    | cons c cs =>
        rw [hname, isIdentifier, Bool.and_eq_true] at hp
        have hdigit : Coefficient.isDigit c = false := isDigit_of_isIdentifierStart hp.1
        have hpoint : c ≠ '.' := by
          rintro rfl
          exact absurd hp.1 (by decide)
        simp [numeral?, hdigit, hpoint]
  simp only [leaf?, hnumeral, htake, hdrop, Parameter.ofName, String.ofList_toList, Cursor.past]
  rw [dif_pos p.identifier]

theorem leafText_of_digit {c : Char} {rest : List Char} (h : c.isDigit = true ∨ c = '.') :
    LeafText (c :: rest) := by
  have hne : ∀ d : Char, d.isDigit = false → d ≠ '.' → c ≠ d := by
    rintro d hd hpoint rfl
    simp_all
  refine ⟨c, rest, rfl, ?_, hne '-' (by decide) (by decide), hne '(' (by decide) (by decide)⟩
  simp [isSpace, hne ' ' (by decide) (by decide), hne '\t' (by decide) (by decide),
    hne '\r' (by decide) (by decide), hne '\n' (by decide) (by decide)]

theorem Numeral.leafText (h : Numeral t q) : LeafText t := by
  cases h with
  | whole hds =>
      obtain ⟨d, rest, rfl⟩ := List.exists_cons_of_ne_nil hds.1
      exact leafText_of_digit (.inl (hds.2 d List.mem_cons_self))
  | @decimal ds places hds =>
      cases ds with
      | nil => exact leafText_of_digit (.inr rfl)
      | cons d rest => exact leafText_of_digit (.inl (hds.2 d List.mem_cons_self))

theorem leafText_parameter (p : Parameter) : LeafText p.name.toList := by
  have hp := p.identifier
  cases hname : p.name.toList with
  | nil => rw [hname] at hp; exact absurd hp (by decide)
  | cons c cs =>
      rw [hname, isIdentifier, Bool.and_eq_true] at hp
      have hne : ∀ d : Char, isIdentifierStart d = false → c ≠ d := by
        rintro d hd rfl
        simp_all
      refine ⟨c, cs, rfl, ?_, hne '-' (by decide), hne '(' (by decide)⟩
      simp [isSpace, hne ' ' (by decide), hne '\t' (by decide), hne '\r' (by decide),
        hne '\n' (by decide)]

end Leaf

/-! ## Single steps of the reader -/

section Steps

variable {o fuel : Nat} {s s' t k allowed : List Char} {c : Char} {e : Expression}

theorem skip_append (hs : Blanks s) (o : Nat) (k : List Char) :
    (⟨o, s ++ k⟩ : Cursor).skip = (⟨o + byteLength s, k⟩ : Cursor).skip := by
  simp only [Cursor.skip, Cursor.past, List.takeWhile_append_of_pos hs, dropWhile_blanks hs,
    byteLength_append, Nat.add_assoc]

theorem skip_cons (hc : isSpace c = false) : (⟨o, c :: k⟩ : Cursor).skip = ⟨o, c :: k⟩ := by
  simp [Cursor.skip, Cursor.past, hc, byteLength]

theorem skip_rest : (⟨o, k⟩ : Cursor).skip.rest = k.dropWhile isSpace := rfl

theorem operand_blanks (hs : Blanks s) (hfuel : 0 < fuel) (signed : Bool) (k : List Char) :
    operand fuel signed ⟨o, s ++ k⟩ = operand fuel signed ⟨o + byteLength s, k⟩ := by
  obtain ⟨n, rfl⟩ := Nat.exists_eq_add_one.mpr hfuel
  rw [operand, operand, skip_append hs]

theorem powerOf_stop (hk : Follows ['*', '/', '+', '-', ')'] k) :
    powerOf e ⟨o, k⟩ = .ok (e, ⟨o, k⟩) := by
  unfold powerOf
  split
  · next rest heq =>
      rw [skip_rest] at heq
      exact absurd (hk '^' (by rw [heq]; rfl)) (by decide)
  · rfl

theorem productFrom_stop (hk : Follows ['+', '-', ')'] k) :
    productFrom fuel e ⟨o, k⟩ = .ok (e, ⟨o, k⟩) := by
  cases fuel with
  | zero => rfl
  | succ fuel =>
      rw [productFrom]
      split
      · next rest heq =>
          rw [skip_rest] at heq
          exact absurd (hk '*' (by rw [heq]; rfl)) (by decide)
      · next rest heq =>
          rw [skip_rest] at heq
          exact absurd (hk '/' (by rw [heq]; rfl)) (by decide)
      · rfl

theorem sumFrom_stop (hk : Follows [')'] k) :
    sumFrom fuel e ⟨o, k⟩ = .ok (e, ⟨o, k⟩) := by
  cases fuel with
  | zero => rfl
  | succ fuel =>
      rw [sumFrom]
      split
      · next rest heq =>
          rw [skip_rest] at heq
          exact absurd (hk '+' (by rw [heq]; rfl)) (by decide)
      · next rest heq =>
          rw [skip_rest] at heq
          exact absurd (hk '-' (by rw [heq]; rfl)) (by decide)
      · rfl

theorem operand_leaf {signed : Bool} {d : Cursor} (ht : LeafText t)
    (hleaf : leaf? ⟨o, t ++ k⟩ = some (e, d)) (hfuel : 0 < fuel) :
    operand fuel signed ⟨o, t ++ k⟩ = powerOf e d := by
  obtain ⟨n, rfl⟩ := Nat.exists_eq_add_one.mpr hfuel
  obtain ⟨c, rest, rfl, hspace, hminus, hparen⟩ := ht
  rw [operand, List.cons_append, skip_cons hspace]
  simp only
  split
  · next heq => exact absurd (List.cons.inj heq).1 hminus
  · next heq => exact absurd (List.cons.inj heq).1 hparen
  · rw [← List.cons_append, hleaf]

/-- An operand and the rest of its product. -/
def readProduct (fuel : Nat) (c : Cursor) : Except Refusal (Expression × Cursor) := do
  let (e, c) ← operand fuel false c
  productFrom fuel e c

/-- An operand, the rest of its product and the rest of its sum. -/
def readSum (fuel : Nat) (c : Cursor) : Except Refusal (Expression × Cursor) := do
  let (e, c) ← operand fuel false c
  let (e, c) ← productFrom fuel e c
  sumFrom fuel e c

/-- A parenthesis closes after the sum `x`. -/
def closeParenthesis (x : Expression × Cursor) : Except Refusal (Expression × Cursor) :=
  match x.2.skip.rest with
  | ')' :: rest => powerOf x.1 (x.2.skip.past [')'] rest)
  | _ => x.2.skip.refuse .operator

theorem readSum_eq (fuel : Nat) (c : Cursor) :
    readSum fuel c = readProduct fuel c >>= fun x => sumFrom fuel x.1 x.2 := by
  simp only [readSum, readProduct, bind_assoc]

theorem operand_minus (signed : Bool) :
    operand (fuel + 1) signed ⟨o, '-' :: k⟩
      = operand fuel true ⟨o + byteLength ['-'], k⟩ >>= fun x => .ok (.neg x.1, x.2) := by
  rw [operand, skip_cons (by decide)]
  rfl

theorem operand_parenthesis (signed : Bool) :
    operand (fuel + 1) signed ⟨o, '(' :: k⟩
      = readSum fuel ⟨o + byteLength ['('], k⟩ >>= closeParenthesis := by
  rw [operand, skip_cons (by decide), readSum, bind_assoc]
  simp only [bind_assoc]
  rfl

theorem closeParenthesis_blanks (hs : Blanks s) :
    closeParenthesis (e, ⟨o, s ++ ')' :: k⟩)
      = powerOf e ⟨o + byteLength s + byteLength [')'], k⟩ := by
  simp only [closeParenthesis, skip_append hs, skip_cons (c := ')') (by decide), Cursor.past]

theorem powerOf_caret {ds : List Char} (hs : Blanks s) (hs' : Blanks s') (hds : Digits ds)
    (hk : ∀ c ∈ k.head?, c.isDigit = false) :
    powerOf e ⟨o, s ++ '^' :: (s' ++ (ds ++ k))⟩
      = .ok (.pow e (o + byteLength s + byteLength ['^'] + byteLength s')
          (Nat.ofDigitChars 10 ds 0),
        ⟨o + byteLength s + byteLength ['^'] + byteLength s' + byteLength ds, k⟩) := by
  have hskip : (⟨o + byteLength s + byteLength ['^'] + byteLength s', ds ++ k⟩ : Cursor).skip
      = ⟨o + byteLength s + byteLength ['^'] + byteLength s', ds ++ k⟩ := by
    obtain ⟨d, rest, rfl, hspace, -⟩ := (Numeral.whole hds).leafText
    exact skip_cons hspace
  obtain ⟨htake, hdrop⟩ := span_append hds.2 hk
  simp only [powerOf, skip_append hs, skip_cons (c := '^') (by decide), Cursor.past,
    skip_append hs', hskip, funext isDigit_eq, htake, hdrop]
  rw [if_neg (by simp [hds.1])]
  rfl

theorem productFrom_mul (left : Expression) (hs : Blanks s) :
    productFrom (fuel + 1) left ⟨o, s ++ '*' :: k⟩
      = operand fuel false ⟨o + byteLength s + byteLength ['*'], k⟩
        >>= fun x => productFrom fuel (.mul left x.1) x.2 := by
  rw [productFrom, skip_append hs, skip_cons (by decide)]
  rfl

theorem productFrom_div (left : Expression) (hs : Blanks s) (hs' : Blanks s')
    (hc : isSpace c = false) :
    productFrom (fuel + 1) left ⟨o, s ++ '/' :: (s' ++ c :: k)⟩
      = operand fuel false ⟨o + byteLength s + byteLength ['/'] + byteLength s', c :: k⟩
        >>= fun x => productFrom fuel
          (.div left (o + byteLength s + byteLength ['/'] + byteLength s') x.1) x.2 := by
  rw [productFrom, skip_append hs, skip_cons (by decide)]
  simp only [Cursor.past, skip_append hs', skip_cons hc]

theorem sumFrom_add (left : Expression) (hs : Blanks s) :
    sumFrom (fuel + 1) left ⟨o, s ++ '+' :: k⟩
      = readProduct fuel ⟨o + byteLength s + byteLength ['+'], k⟩
        >>= fun x => sumFrom fuel (.add left x.1) x.2 := by
  rw [sumFrom, skip_append hs, skip_cons (by decide), readProduct, bind_assoc]
  rfl

theorem sumFrom_sub (left : Expression) (hs : Blanks s) :
    sumFrom (fuel + 1) left ⟨o, s ++ '-' :: k⟩
      = readProduct fuel ⟨o + byteLength s + byteLength ['-'], k⟩
        >>= fun x => sumFrom fuel (.sub left x.1) x.2 := by
  rw [sumFrom, skip_append hs, skip_cons (by decide), readProduct, bind_assoc]
  rfl

end Steps

/-! ## The reader and the grammar -/

/-- The text of an expression starts with no blank. -/
theorem Written.head {level : Level} {start : Nat} {e : Expression} {t : List Char}
    (h : Written level start e t) : ∃ c rest, t = c :: rest ∧ isSpace c = false := by
  induction h with
  | number h =>
      obtain ⟨c, rest, rfl, hspace, -⟩ := h.leafText
      exact ⟨c, rest, rfl, hspace⟩
  | parameter p =>
      obtain ⟨c, rest, heq, hspace, -⟩ := leafText_parameter p
      exact ⟨c, rest, heq, hspace⟩
  | parenthesis => exact ⟨'(', _, rfl, rfl⟩
  | neg => exact ⟨'-', _, rfl, rfl⟩
  | ofAtom _ ih | ofPower _ ih | ofOperand _ ih | ofProduct _ ih => exact ih
  | pow _ _ _ _ _ ih =>
      obtain ⟨c, rest, rfl, hspace⟩ := ih
      exact ⟨c, _, rfl, hspace⟩
  | mul _ _ _ _ ih | div _ _ _ _ ih | add _ _ _ _ ih | sub _ _ _ _ ih =>
      obtain ⟨c, rest, rfl, hspace⟩ := ih
      exact ⟨c, _, rfl, hspace⟩

/-- What the reader does with the text `t` of `e` and a text `k` after it: it reads an atom up to
its exponent, an operand wholly, and a product or a sum up to where it looks for the next
operator. -/
def Found : Level → Nat → Expression → List Char → Prop
  | .atom, start, e, t => ∀ fuel signed k, Follows ['^', '*', '/', '+', '-', ')'] k →
      (t ++ k).length < fuel →
      operand fuel signed ⟨start, t ++ k⟩ = powerOf e ⟨start + byteLength t, k⟩
  | .power, start, e, t | .operand, start, e, t =>
      ∀ fuel signed k, Follows ['*', '/', '+', '-', ')'] k → (t ++ k).length < fuel →
      operand fuel signed ⟨start, t ++ k⟩ = .ok (e, ⟨start + byteLength t, k⟩)
  | .product, start, e, t => ∀ fuel k, Follows ['*', '/', '+', '-', ')'] k →
      (t ++ k).length < fuel → ∃ fuel', k.length < fuel' ∧
      readProduct fuel ⟨start, t ++ k⟩ = productFrom fuel' e ⟨start + byteLength t, k⟩
  | .sum, start, e, t => ∀ fuel k, Follows ['+', '-', ')'] k →
      (t ++ k).length < fuel → ∃ fuel', k.length < fuel' ∧
      readSum fuel ⟨start, t ++ k⟩ = sumFrom fuel' e ⟨start + byteLength t, k⟩

section Found

variable {start fuel : Nat} {e l r : Expression} {t s s' u k : List Char}

/-- A product is read wholly where a sum goes on. -/
theorem Found.readProduct_eq (h : Found .product start e t) (hk : Follows ['+', '-', ')'] k)
    (hfuel : (t ++ k).length < fuel) :
    readProduct fuel ⟨start, t ++ k⟩ = .ok (e, ⟨start + byteLength t, k⟩) := by
  obtain ⟨fuel', -, heq⟩ := h fuel k (hk.mono (by decide)) hfuel
  rw [heq, productFrom_stop hk]

/-- A sum is read wholly before a parenthesis closes and at the end. -/
theorem Found.readSum_eq (h : Found .sum start e t) (hk : Follows [')'] k)
    (hfuel : (t ++ k).length < fuel) :
    readSum fuel ⟨start, t ++ k⟩ = .ok (e, ⟨start + byteLength t, k⟩) := by
  obtain ⟨fuel', -, heq⟩ := h fuel k (hk.mono (by decide)) hfuel
  rw [heq, sumFrom_stop hk]

theorem readSum_blanks (hs : Blanks s) (hfuel : 0 < fuel) :
    readSum fuel ⟨start, s ++ k⟩ = readSum fuel ⟨start + byteLength s, k⟩ := by
  rw [readSum, readSum, operand_blanks hs hfuel]

theorem readProduct_blanks (hs : Blanks s) (hfuel : 0 < fuel) :
    readProduct fuel ⟨start, s ++ k⟩ = readProduct fuel ⟨start + byteLength s, k⟩ := by
  rw [readProduct, readProduct, operand_blanks hs hfuel]

theorem Found.parenthesis (hs : Blanks s) (hs' : Blanks s')
    (h : Found .sum (start + byteLength ('(' :: s)) e t) :
    Found .atom start e ('(' :: s ++ t ++ s' ++ [')']) := by
  intro fuel signed k hk hfuel
  have htext : '(' :: s ++ t ++ s' ++ [')'] ++ k = '(' :: (s ++ (t ++ (s' ++ ')' :: k))) := by
    simp
  obtain ⟨n, rfl⟩ := Nat.exists_eq_add_one.mpr (Nat.zero_lt_of_lt hfuel)
  have hlen : (t ++ (s' ++ ')' :: k)).length < n := by
    simp at hfuel ⊢
    omega
  have hsum := h.readSum_eq (follows_token hs' (by decide) (by decide)) hlen
  rw [htext, operand_parenthesis, readSum_blanks hs (Nat.zero_lt_of_lt hlen), Nat.add_assoc,
    ← byteLength_append, List.singleton_append, hsum]
  refine (closeParenthesis_blanks hs').trans ?_
  simp only [byteLength_append, Nat.add_assoc]

theorem Found.pow {ds : List Char} (hs : Blanks s) (hs' : Blanks s') (hds : Digits ds)
    (h : Found .atom start e t) :
    Found .power start
      (.pow e (start + byteLength (t ++ s ++ '^' :: s')) (Nat.ofDigitChars 10 ds 0))
      (t ++ s ++ '^' :: s' ++ ds) := by
  intro fuel signed k hk hfuel
  have htext : t ++ s ++ '^' :: s' ++ ds ++ k = t ++ (s ++ '^' :: (s' ++ (ds ++ k))) := by
    simp
  have hend : ∀ c ∈ k.head?, c.isDigit = false := fun c hc =>
    (delimiters_end c (hk.head (by decide) c hc)).2.1
  rw [htext] at hfuel ⊢
  rw [h fuel signed _ (follows_token hs (by decide) (by decide)) hfuel,
    powerOf_caret hs hs' hds hend]
  simp only [byteLength_append, byteLength_cons, byteLength_nil, Nat.add_assoc, Nat.zero_add]

theorem Found.neg (hs : Blanks s) (h : Found .operand (start + byteLength ('-' :: s)) e t) :
    Found .operand start (.neg e) ('-' :: s ++ t) := by
  intro fuel signed k hk hfuel
  have htext : '-' :: s ++ t ++ k = '-' :: (s ++ (t ++ k)) := by
    simp
  obtain ⟨n, rfl⟩ := Nat.exists_eq_add_one.mpr (Nat.zero_lt_of_lt hfuel)
  have hlen : (t ++ k).length < n := by
    simp at hfuel ⊢
    omega
  rw [htext, operand_minus, operand_blanks hs (Nat.zero_lt_of_lt hlen), Nat.add_assoc,
    ← byteLength_append, List.singleton_append, h n true k hk hlen]
  simp only [byteLength_append, Nat.add_assoc]
  rfl

/-- A product goes on with the operator `c`, by which the reader turns the operand `r` into
`combine r`. -/
theorem Found.extendProduct {c : Char} {combine : Expression → Expression} (hs : Blanks s)
    (hc : isSpace c = false) (hmem : c ∈ ['*', '/', '+', '-', ')'])
    (hl : Found .product start l t)
    (hr : Found .operand (start + byteLength (t ++ s ++ c :: s')) r u)
    (hstep : ∀ n k, 0 < n →
      productFrom (n + 1) l ⟨start + byteLength t, s ++ c :: (s' ++ (u ++ k))⟩
        = operand n false ⟨start + byteLength (t ++ s ++ c :: s'), u ++ k⟩
          >>= fun x => productFrom n (combine x.1) x.2) :
    Found .product start (combine r) (t ++ s ++ c :: s' ++ u) := by
  intro fuel k hk hfuel
  have htext : t ++ s ++ c :: s' ++ u ++ k = t ++ (s ++ c :: (s' ++ (u ++ k))) := by
    simp
  rw [htext] at hfuel ⊢
  obtain ⟨fuel', hfuel', hleft⟩ := hl fuel _ (follows_token hs hc hmem) hfuel
  obtain ⟨n, rfl⟩ := Nat.exists_eq_add_one.mpr (Nat.zero_lt_of_lt hfuel')
  obtain ⟨hlen, hrest⟩ : (u ++ k).length < n ∧ k.length < n := by
    simp at hfuel' ⊢
    omega
  refine ⟨n, hrest, ?_⟩
  rw [hleft, hstep n k (Nat.zero_lt_of_lt hlen), hr n false k hk hlen, Nat.add_assoc,
    ← byteLength_append]
  rfl

theorem Found.mul (hs : Blanks s) (hs' : Blanks s') (hl : Found .product start l t)
    (hr : Found .operand (start + byteLength (t ++ s ++ '*' :: s')) r u) :
    Found .product start (.mul l r) (t ++ s ++ '*' :: s' ++ u) := by
  refine hl.extendProduct hs (by decide) (by decide) hr fun n k hn => ?_
  rw [productFrom_mul l hs, operand_blanks hs' hn]
  simp only [byteLength_append, byteLength_cons, byteLength_nil, Nat.add_assoc, Nat.zero_add]

theorem Found.div (hs : Blanks s) (hs' : Blanks s') (hl : Found .product start l t)
    (hhead : ∃ c rest, u = c :: rest ∧ isSpace c = false)
    (hr : Found .operand (start + byteLength (t ++ s ++ '/' :: s')) r u) :
    Found .product start (.div l (start + byteLength (t ++ s ++ '/' :: s')) r)
      (t ++ s ++ '/' :: s' ++ u) := by
  refine hl.extendProduct hs (by decide) (by decide) hr fun n k hn => ?_
  obtain ⟨c, rest, rfl, hc⟩ := hhead
  rw [List.cons_append, productFrom_div l hs hs' hc]
  simp only [byteLength_append, byteLength_cons, byteLength_nil, Nat.add_assoc, Nat.zero_add]

theorem Found.ofProduct (h : Found .product start e t) : Found .sum start e t := by
  intro fuel k hk hfuel
  refine ⟨fuel, by simp at hfuel; omega, ?_⟩
  rw [Expression.readSum_eq, h.readProduct_eq hk hfuel]
  rfl

/-- A sum goes on with the operator `c`, by which the reader turns the product `r` into
`combine l r`. -/
theorem Found.extendSum {c : Char} {combine : Expression → Expression → Expression} (hs : Blanks s)
    (hs' : Blanks s') (hc : isSpace c = false) (hmem : c ∈ ['+', '-', ')'])
    (hl : Found .sum start l t)
    (hr : Found .product (start + byteLength (t ++ s ++ c :: s')) r u)
    (hstep : ∀ n o k, sumFrom (n + 1) l ⟨o, s ++ c :: k⟩
        = readProduct n ⟨o + byteLength s + byteLength [c], k⟩
          >>= fun x => sumFrom n (combine l x.1) x.2) :
    Found .sum start (combine l r) (t ++ s ++ c :: s' ++ u) := by
  intro fuel k hk hfuel
  have htext : t ++ s ++ c :: s' ++ u ++ k = t ++ (s ++ c :: (s' ++ (u ++ k))) := by
    simp
  rw [htext] at hfuel ⊢
  obtain ⟨fuel', hfuel', hleft⟩ := hl fuel _ (follows_token hs hc hmem) hfuel
  obtain ⟨n, rfl⟩ := Nat.exists_eq_add_one.mpr (Nat.zero_lt_of_lt hfuel')
  obtain ⟨hlen, hrest⟩ : (u ++ k).length < n ∧ k.length < n := by
    simp at hfuel' ⊢
    omega
  refine ⟨n, hrest, ?_⟩
  have hright := hr.readProduct_eq hk hlen
  rw [hleft, hstep, readProduct_blanks hs' (Nat.zero_lt_of_lt hlen)]
  simp only [byteLength_append, byteLength_cons, byteLength_nil, Nat.add_assoc,
    Nat.zero_add] at hright ⊢
  rw [hright]
  rfl

end Found

theorem Written.found {level : Level} {start : Nat} {e : Expression} {t : List Char}
    (h : Written level start e t) : Found level start e t := by
  have hend : ∀ k : List Char, Follows ['^', '*', '/', '+', '-', ')'] k →
      ∀ c ∈ k.head?, c ∈ delimiters :=
    fun k hk => hk.head (by decide)
  induction h with
  | number h =>
      intro fuel signed k hk hfuel
      exact operand_leaf h.leafText (leaf?_number h (hend k hk)) (Nat.zero_lt_of_lt hfuel)
  | parameter p =>
      intro fuel signed k hk hfuel
      exact operand_leaf (leafText_parameter p) (leaf?_parameter p (hend k hk))
        (Nat.zero_lt_of_lt hfuel)
  | parenthesis hs _ hs' ih => exact Found.parenthesis hs hs' ih
  | ofAtom _ ih =>
      intro fuel signed k hk hfuel
      rw [ih fuel signed k (hk.mono (by decide)) hfuel, powerOf_stop hk]
  | pow _ hs hs' hds _ ih => exact Found.pow hs hs' hds ih
  | ofPower _ ih => exact ih
  | neg hs _ ih => exact Found.neg hs ih
  | ofOperand _ ih =>
      intro fuel k hk hfuel
      refine ⟨fuel, by simp at hfuel; omega, ?_⟩
      rw [readProduct, ih fuel false k hk hfuel]
      rfl
  | mul _ hs hs' _ ihl ihr => exact Found.mul hs hs' ihl ihr
  | div _ hs hs' hu ihl ihr => exact Found.div hs hs' ihl hu.head ihr
  | ofProduct _ ih => exact Found.ofProduct ih
  | add _ hs hs' _ ihl ihr =>
      exact ihl.extendSum hs hs' (by decide) (by decide) ihr fun _ _ _ => sumFrom_add _ hs
  | sub _ hs hs' _ ihl ihr =>
      exact ihl.extendSum hs hs' (by decide) (by decide) ihr fun _ _ _ => sumFrom_sub _ hs

/-- A text that writes a tree is read as this tree. -/
theorem read_eq_of_isWritten {e : Expression} {text : String} (h : IsWritten e text) :
    read text = .ok e := by
  obtain ⟨s, t, s', hs, ht, hs', htext⟩ := h
  have hfollows : Follows [')'] s' := by
    rw [← List.append_nil s', follows_blanks hs']
    simp [Follows]
  have hsum : readSum (text.toList.length + 2) ⟨0, text.toList⟩
      = .ok (e, ⟨byteLength s + byteLength t, s'⟩) := by
    rw [htext, List.append_assoc, readSum_blanks hs (by omega), Nat.zero_add]
    refine ht.found.readSum_eq hfollows ?_
    simp
    omega
  have hchars : readChars text.toList
      = readSum (text.toList.length + 2) ⟨0, text.toList⟩ >>= fun x =>
        if x.2.skip.rest.isEmpty then .ok x.1 else x.2.skip.refuse .operatorOrEnd := by
    simp only [readChars, readSum, bind_assoc]
    rfl
  have hempty : s'.dropWhile isSpace = [] := by
    rw [← List.append_nil s', dropWhile_blanks hs', List.dropWhile_nil]
  have hread : readChars text.toList = .ok e := by
    rw [hchars, hsum]
    simp [bind, Except.bind, skip_rest, hempty]
  rw [read, hread]

/-- A text writes one tree only. -/
theorem IsWritten.unique {e e' : Expression} {text : String} (h : IsWritten e text)
    (h' : IsWritten e' text) : e = e' :=
  Except.ok.inj ((read_eq_of_isWritten h).symm.trans (read_eq_of_isWritten h'))

end MarkovRegion.Expression
