import Mathlib.Algebra.Order.Ring.Rat
import Mathlib.Data.Nat.Prime.Basic
import Mathlib.Data.Rat.Lemmas
import MarkovRegion.Proofs.Number.Decimal
import MarkovRegion.Proofs.Text.Characters

/-!
# The written form of a number

A number is written in one of three forms: as an integer, as a decimal, or as a fraction.  A text
has at most one form (`HasForm.unique`), and the reader gives it the value of its form
(`HasForm.readTrimmed?_eq`).  Which form a number calls for is said without its text (`Suits`): the
decimal is for numbers with a finite expansion, with the fewest places, and the fraction is in
lowest terms.

* `dvd_pow_ten_iff`: the exponents of 2 and 5 in the denominator tell how many places are enough.
* `exists_hasForm_write`: every number is written in the form that suits it.
* `write_exact`: this form is the only one of the text, and reading gives the number back.
-/

namespace MarkovRegion.Coefficient

open Expression (Digits)

/-! ## Decimal expansions -/

/-- The number has a decimal expansion with `k` places. -/
def HasPlaces (k : ℕ) (q : ℚ) : Prop := ∃ n : ℤ, q = n / 10 ^ k

/-- Dividing `n` by `p` for as long as `p` divides comes to an end, with the number of rounds and
what is left.  At zero it has no end. -/
inductive Exhausts (p : ℕ) : ℕ → ℕ × ℕ → Prop
  | stop {n : ℕ} (h : ¬p ∣ n) : Exhausts p n (0, n)
  | round {n : ℕ} {r : ℕ × ℕ} (h : p ∣ n) (hr : Exhausts p (n / p) r) :
      Exhausts p n (r.1 + 1, r.2)

theorem Exhausts.not_dvd {p n : ℕ} {r : ℕ × ℕ} (h : Exhausts p n r) : ¬p ∣ r.2 := by
  induction h with
  | stop h => exact h
  | round _ _ ih => exact ih

theorem exhausts_divideOut {p n : ℕ} (hp : 2 ≤ p) (hn : 0 < n) : Exhausts p n (divideOut p n) := by
  fun_induction divideOut p n with
  | case1 n h count rest heq ih =>
      have hdvd : p ∣ n := Nat.dvd_of_mod_eq_zero h.2.2
      have hr := ih (Nat.div_pos (Nat.le_of_dvd hn hdvd) (by omega))
      rw [heq] at hr
      exact .round hdvd hr
  | case2 n h =>
      refine .stop fun hdvd => h ⟨hp, hn, Nat.mod_eq_zero_of_dvd hdvd⟩

theorem divideOut_pos {p n : ℕ} (hn : 0 < n) : 0 < (divideOut p n).2 := by
  rw [Nat.pos_iff_ne_zero]
  intro hzero
  have h := pow_mul_divideOut p n
  rw [hzero, Nat.mul_zero] at h
  omega

theorem pow_le_of_dvd_pow_ten {p a k : ℕ} (hp : p = 2 ∨ p = 5) (h : p ^ a ∣ 10 ^ k) : a ≤ k := by
  have hten : (10 : ℕ) ^ k = 2 ^ k * 5 ^ k := mul_pow 2 5 k
  rcases hp with rfl | rfl
  · have hcop : Nat.Coprime (2 ^ a) (5 ^ k) := Nat.Coprime.pow a k (by decide)
    exact (Nat.pow_dvd_pow_iff_le_right (by decide)).mp (hcop.dvd_of_dvd_mul_right (hten ▸ h))
  · have hcop : Nat.Coprime (5 ^ a) (2 ^ k) := Nat.Coprime.pow a k (by decide)
    exact (Nat.pow_dvd_pow_iff_le_right (by decide)).mp (hcop.dvd_of_dvd_mul_left (hten ▸ h))

/-- The denominators of numbers with `k` places are those for which at most `k` were found. -/
theorem dvd_pow_ten_iff {d k : ℕ} (hd : 0 < d) :
    d ∣ 10 ^ k ↔ ∃ places, decimalPlaces? d = some places ∧ places ≤ k := by
  constructor
  · intro h
    have htwos := pow_mul_divideOut 2 d
    have hfives := pow_mul_divideOut 5 (divideOut 2 d).2
    have htwo := (exhausts_divideOut (p := 2) le_rfl hd).not_dvd
    have hfive := (exhausts_divideOut (p := 5) (by decide) (divideOut_pos (p := 2) hd)).not_dvd
    generalize hr : divideOut 5 (divideOut 2 d).2 = r at hfives hfive
    generalize hs : divideOut 2 d = s at htwos hfives htwo hr
    have hs2 : s.2 ∣ 10 ^ k := (Dvd.intro_left _ htwos).trans h
    have hr2 : r.2 ∣ s.2 := Dvd.intro_left _ hfives
    -- What is left has no factor in common with ten.
    have hcop : Nat.Coprime r.2 10 := by
      refine Nat.Coprime.mul_right (m := 2) (n := 5) ?_ ?_
      · exact ((Nat.Prime.coprime_iff_not_dvd Nat.prime_two).mpr
          fun hdvd => htwo (hdvd.trans hr2)).symm
      · exact ((Nat.Prime.coprime_iff_not_dvd Nat.prime_five).mpr hfive).symm
    have hone : r.2 = 1 := (Nat.Coprime.pow_right k hcop).eq_one_of_dvd (hr2.trans hs2)
    refine ⟨Nat.max s.1 r.1, ?_, Nat.max_le.mpr ⟨?_, ?_⟩⟩
    · simp only [decimalPlaces?, hs, hr, hone, if_true]
    · exact pow_le_of_dvd_pow_ten (.inl rfl) ((Dvd.intro _ htwos).trans h)
    · exact pow_le_of_dvd_pow_ten (.inr rfl) ((Dvd.intro _ hfives).trans hs2)
  · rintro ⟨places, hplaces, hle⟩
    exact (dvd_of_decimalPlaces? hplaces).trans (pow_dvd_pow 10 hle)

theorem hasPlaces_iff {k : ℕ} {q : ℚ} : HasPlaces k q ↔ q.den ∣ 10 ^ k := by
  constructor
  · rintro ⟨n, hq⟩
    have h := Rat.den_dvd n (10 ^ k)
    rw [← Rat.intCast_div_eq_divInt, Int.cast_pow, Int.cast_ofNat, ← hq] at h
    exact_mod_cast h
  · rintro ⟨c, hc⟩
    refine ⟨q.num * c, ?_⟩
    have hc0 : (c : ℚ) ≠ 0 := by
      rintro hzero
      rw [Nat.cast_eq_zero.mp hzero, Nat.mul_zero] at hc
      exact absurd hc (Nat.pow_pos (by decide)).ne'
    have hpow : (10 : ℚ) ^ k = q.den * c := by
      exact_mod_cast hc
    rw [hpow, Int.cast_mul, Int.cast_natCast, mul_div_mul_right _ _ hc0, Rat.num_div_den]

theorem hasPlaces_of_int {q : ℚ} {n : ℤ} (h : q = n) (k : ℕ) : HasPlaces k q := by
  refine hasPlaces_iff.mpr ?_
  rw [h, Rat.den_intCast]
  exact one_dvd _

/-! ## Forms -/

/-- The forms of a number as text.  The text holds an integer, and the form says what it counts:
ones, units of the last place, or units of the denominator. -/
inductive Form where
  | integer
  | decimal (places : ℕ)
  | fraction (denominator : ℕ)

/-- How many units of the form make one. -/
def Form.scale : Form → ℕ
  | integer => 1
  | decimal places => 10 ^ places
  | fraction denominator => denominator

/-- The texts of each form without a sign, with what they count; a decimal has digits on both sides
of its point. -/
inductive Unsigned : List Char → ℕ → Form → Prop
  | integer {ds : List Char} (hds : Digits ds) : Unsigned ds (Nat.ofDigitChars 10 ds 0) .integer
  | decimal {ds places : List Char} (hds : Digits ds) (hplaces : Digits places) :
      Unsigned (ds ++ '.' :: places) (Nat.ofDigitChars 10 (ds ++ places) 0)
        (.decimal places.length)
  | fraction {ds es : List Char} (hds : Digits ds) (hes : Digits es) :
      Unsigned (ds ++ '/' :: es) (Nat.ofDigitChars 10 ds 0)
        (.fraction (Nat.ofDigitChars 10 es 0))

/-- The texts of each form, with at most a minus sign in front. -/
inductive HasForm : List Char → ℤ → Form → Prop
  | plain {t : List Char} {n : ℕ} {f : Form} (h : Unsigned t n f) : HasForm t n f
  | minus {t : List Char} {n : ℕ} {f : Form} (h : Unsigned t n f) : HasForm ('-' :: t) (-n) f

/-- The form that a number calls for: the integer if it is one, else the decimal with the fewest
places if its expansion is finite, else the fraction in lowest terms. -/
def CallsFor (q : ℚ) (n : ℤ) : Form → Prop
  | .integer => True
  | .decimal places => (∀ m : ℤ, q ≠ m) ∧ IsLeast {k | HasPlaces k q} places
  | .fraction denominator => n.natAbs.Coprime denominator ∧ ∀ k, ¬HasPlaces k q

/-- A number is so many units of the form that it calls for. -/
structure Suits (q : ℚ) (n : ℤ) (f : Form) : Prop where
  scale_ne_zero : f.scale ≠ 0
  value : q = n / f.scale
  calls : CallsFor q n f

/-- One form suits a number. -/
theorem Suits.unique {q : ℚ} {n m : ℤ} {f g : Form} (hf : Suits q n f) (hg : Suits q m g) :
    n = m ∧ f = g := by
  have hint : ∀ {m : ℤ}, Suits q m .integer → q = m := by
    intro m h
    rw [h.value, Form.scale, Nat.cast_one, div_one]
  have hsame : f = g → n = m := by
    rintro rfl
    have hscale : (f.scale : ℚ) ≠ 0 := Nat.cast_ne_zero.mpr hf.scale_ne_zero
    exact Int.cast_injective ((div_left_inj' hscale).mp (hf.value.symm.trans hg.value))
  cases f with
  | integer =>
      cases g with
      | integer => exact ⟨hsame rfl, rfl⟩
      | decimal places => exact absurd (hint hf) (hg.calls.1 n)
      | fraction denominator => exact absurd (hasPlaces_of_int (hint hf) 0) (hg.calls.2 0)
  | decimal places =>
      cases g with
      | integer => exact absurd (hint hg) (hf.calls.1 m)
      | decimal places' =>
          obtain rfl : places = places' := hf.calls.2.unique hg.calls.2
          exact ⟨hsame rfl, rfl⟩
      | fraction denominator => exact absurd hf.calls.2.1 (hg.calls.2 places)
  | fraction denominator =>
      cases g with
      | integer => exact absurd (hasPlaces_of_int (hint hg) 0) (hf.calls.2 0)
      | decimal places => exact absurd hg.calls.2.1 (hf.calls.2 places)
      | fraction denominator' =>
          have hpos : denominator ≠ 0 := hf.scale_ne_zero
          have hpos' : denominator' ≠ 0 := hg.scale_ne_zero
          have h := Rat.div_int_inj (a := n) (b := denominator) (c := m) (d := denominator')
            (by omega) (by omega) hf.calls.1 hg.calls.1
            (by rw [Int.cast_natCast, Int.cast_natCast]; exact hf.value.symm.trans hg.value)
          rw [h.1, Int.ofNat_inj.mp h.2]
          exact ⟨rfl, rfl⟩

/-! ## Texts of a form -/

theorem not_mem_digits {ds : List Char} (h : Digits ds) {c : Char} (hc : c.isDigit = false) :
    c ∉ ds := by
  intro hmem
  rw [h.2 c hmem] at hc
  cases hc

theorem stroke_not_mem_decimal {ds places : List Char} (hds : Digits ds) (hplaces : Digits places) :
    '/' ∉ ds ++ '.' :: places := by
  rw [List.mem_append, List.mem_cons]
  rintro (hmem | hmem | hmem)
  · exact not_mem_digits hds (by decide) hmem
  · cases hmem
  · exact not_mem_digits hplaces (by decide) hmem

theorem tight_digits {ds : List Char} (h : Digits ds) : Text.Tight ds :=
  Text.tight_of_visible (by decide) (by decide) fun c hc => toNat_of_isDigit (h.2 c hc)

theorem tight_minus_digits {ds : List Char} (h : Digits ds) : Text.Tight ('-' :: ds) := by
  have hrange : ∀ c ∈ '-' :: ds, 45 ≤ c.toNat ∧ c.toNat ≤ 57 := by
    refine List.forall_mem_cons.mpr ⟨by decide, fun c hc => ?_⟩
    have hdigit := toNat_of_isDigit (h.2 c hc)
    omega
  exact Text.tight_of_visible (by decide) (by decide) hrange

namespace Unsigned

variable {t u : List Char} {n m : ℕ} {f g : Form}

/-- The text starts with a digit. -/
theorem exists_head (h : Unsigned t n f) : ∃ c rest, t = c :: rest ∧ c.isDigit = true := by
  have hdigits : ∀ {ds : List Char}, Digits ds → ∃ c rest, ds = c :: rest ∧ c.isDigit = true := by
    intro ds hds
    obtain ⟨c, rest, rfl⟩ := List.exists_cons_of_ne_nil hds.1
    exact ⟨c, rest, rfl, hds.2 c List.mem_cons_self⟩
  cases h with
  | integer hds => exact hdigits hds
  | decimal hds _ =>
      obtain ⟨c, rest, rfl, hc⟩ := hdigits hds
      exact ⟨c, _, List.cons_append, hc⟩
  | fraction hds _ =>
      obtain ⟨c, rest, rfl, hc⟩ := hdigits hds
      exact ⟨c, _, List.cons_append, hc⟩

/-- The characters from the point to the digit nine. -/
theorem toNat_of_mem (h : Unsigned t n f) : ∀ c ∈ t, 46 ≤ c.toNat ∧ c.toNat ≤ 57 := by
  have hdigits : ∀ {ds : List Char}, Digits ds → ∀ c ∈ ds, 46 ≤ c.toNat ∧ c.toNat ≤ 57 := by
    intro ds hds c hc
    have hrange := toNat_of_isDigit (hds.2 c hc)
    omega
  cases h with
  | integer hds => exact hdigits hds
  | decimal hds hplaces =>
      refine List.forall_mem_append.mpr ⟨hdigits hds, List.forall_mem_cons.mpr ⟨?_, hdigits hplaces⟩⟩
      decide
  | fraction hds hes =>
      refine List.forall_mem_append.mpr ⟨hdigits hds, List.forall_mem_cons.mpr ⟨?_, hdigits hes⟩⟩
      decide

theorem unique (h : Unsigned t n f) (h' : Unsigned u m g) (htu : t = u) : n = m ∧ f = g := by
  have hpoint : ∀ {ds : List Char}, Digits ds → '.' ∉ ds := fun h => not_mem_digits h (by decide)
  have hstroke : ∀ {ds : List Char}, Digits ds → '/' ∉ ds := fun h => not_mem_digits h (by decide)
  have hmem : ∀ (c : Char) (ds es : List Char), c ∈ ds ++ c :: es :=
    fun c ds es => List.mem_append_right ds List.mem_cons_self
  cases h with
  | integer hds =>
      cases h' with
      | integer _ => exact ⟨congrArg (Nat.ofDigitChars 10 · 0) htu, rfl⟩
      | decimal _ _ => exact absurd (htu ▸ hmem '.' _ _) (hpoint hds)
      | fraction _ _ => exact absurd (htu ▸ hmem '/' _ _) (hstroke hds)
  | decimal hds hplaces =>
      cases h' with
      | integer hds' => exact absurd (htu ▸ hmem '.' _ _) (hpoint hds')
      | decimal hds' _ =>
          have hcut := congrArg (Text.cutAt? ['.']) htu
          rw [Expression.cutAt?_append (hpoint hds), Expression.cutAt?_append (hpoint hds')] at hcut
          obtain ⟨rfl, rfl⟩ := Prod.mk.inj (Option.some.inj hcut)
          exact ⟨rfl, rfl⟩
      | fraction _ _ => exact absurd (htu ▸ hmem '/' _ _) (stroke_not_mem_decimal hds hplaces)
  | fraction hds _ =>
      cases h' with
      | integer hds' => exact absurd (htu ▸ hmem '/' _ _) (hstroke hds')
      | decimal hds' hplaces' =>
          exact absurd (htu ▸ hmem '/' _ _) (stroke_not_mem_decimal hds' hplaces')
      | fraction hds' _ =>
          have hcut := congrArg (Text.cutAt? ['/']) htu
          rw [Expression.cutAt?_append (hstroke hds), Expression.cutAt?_append (hstroke hds')] at hcut
          obtain ⟨rfl, rfl⟩ := Prod.mk.inj (Option.some.inj hcut)
          exact ⟨rfl, rfl⟩

end Unsigned

namespace HasForm

variable {t : List Char} {n m : ℤ} {f g : Form}

/-- The characters from the minus sign to the digit nine. -/
theorem toNat_of_mem (h : HasForm t n f) : ∀ c ∈ t, 45 ≤ c.toNat ∧ c.toNat ≤ 57 := by
  have hunsigned : ∀ {u : List Char} {m : ℕ}, Unsigned u m f →
      ∀ c ∈ u, 45 ≤ c.toNat ∧ c.toNat ≤ 57 := by
    intro u m hu c hc
    have hrange := hu.toNat_of_mem c hc
    omega
  cases h with
  | plain h => exact hunsigned h
  | minus h => exact List.forall_mem_cons.mpr ⟨by decide, hunsigned h⟩

/-- A text has one form. -/
theorem unique (h : HasForm t n f) (h' : HasForm t m g) : n = m ∧ f = g := by
  have hminus : ∀ {u : List Char} {k : ℕ} {g : Form}, ¬Unsigned ('-' :: u) k g := by
    intro u k g hu
    obtain ⟨c, rest, hcons, hc⟩ := hu.exists_head
    obtain ⟨rfl, -⟩ := List.cons.inj hcons
    exact absurd hc (by decide)
  cases h with
  | plain h =>
      cases h' with
      | plain h' =>
          obtain ⟨rfl, rfl⟩ := h.unique h' rfl
          exact ⟨rfl, rfl⟩
      | minus _ => exact absurd h hminus
  | minus h =>
      cases h' with
      | plain h' => exact absurd h' hminus
      | minus h' =>
          obtain ⟨rfl, rfl⟩ := h.unique h' rfl
          exact ⟨rfl, rfl⟩

end HasForm

/-! ## Reading -/

theorem readNatural?_digits {ds : List Char} (h : Digits ds) :
    readNatural? ds = some (Nat.ofDigitChars 10 ds 0) := by
  have hall : (ds.all fun c => isDigit c || c == '_') = true := by
    refine List.all_eq_true.mpr fun c hc => ?_
    rw [Expression.isDigit_eq, h.2 c hc, Bool.true_or]
  have hfilter : ds.filter isDigit = ds := List.filter_eq_self.mpr h.2
  unfold readNatural?
  split
  · exact absurd rfl h.1
  · exact absurd List.mem_cons_self (not_mem_digits h (by decide))
  · rw [if_pos hall, hfilter, Expression.digitsValue_eq]

theorem readInteger?_digits {ds : List Char} (h : Digits ds) :
    readInteger? ds = some (Nat.ofDigitChars 10 ds 0 : ℤ) := by
  unfold readInteger?
  split
  · exact absurd List.mem_cons_self (not_mem_digits h (by decide))
  · exact absurd List.mem_cons_self (not_mem_digits h (by decide))
  · rw [readNatural?_digits h]
    rfl

theorem readInteger?_minus {ds : List Char} (h : Digits ds) :
    readInteger? ('-' :: ds) = some (-(Nat.ofDigitChars 10 ds 0 : ℤ)) := by
  rw [readInteger?, readNatural?_digits h]
  rfl

theorem readSigned?_of_head {c : Char} {rest : List Char} (hc : c.isDigit = true) :
    readSigned? (c :: rest) = readDecimal? (c :: rest) := by
  unfold readSigned?
  split
  · next heq =>
      obtain ⟨rfl, -⟩ := List.cons.inj heq
      exact absurd hc (by decide)
  · next heq =>
      obtain ⟨rfl, -⟩ := List.cons.inj heq
      exact absurd hc (by decide)
  · rfl

theorem readFraction?_eq {upper lower : List Char} {n : ℤ} {d : ℕ} (hupper : Text.Tight upper)
    (hlower : Text.Tight lower) (hn : readInteger? upper = some n)
    (hd : readInteger? lower = some (d : ℤ)) (hne : d ≠ 0) :
    readFraction? upper lower = some (n / d : ℚ) := by
  have hne' : (d : ℤ) ≠ 0 := by exact_mod_cast hne
  rw [readFraction?, Text.trim_of_tight hupper, Text.trim_of_tight hlower, hn, hd]
  simp only [Option.bind_eq_bind, Option.bind_some, if_neg hne']
  rw [← Rat.intCast_div_eq_divInt, Int.cast_natCast]

theorem stroke_not_mem_minus {t : List Char} (h : '/' ∉ t) : '/' ∉ '-' :: t := by
  rw [List.mem_cons]
  rintro (hmem | hmem)
  · cases hmem
  · exact h hmem

/-- A number without a stroke is read as a decimal, with its sign. -/
theorem readTrimmed?_numeral {t : List Char} {q : ℚ} (h : Expression.Numeral t q)
    (hstroke : '/' ∉ t) (hhead : ∃ c rest, t = c :: rest ∧ c.isDigit = true) :
    readTrimmed? t = some q ∧ readTrimmed? ('-' :: t) = some (-q) := by
  rw [readTrimmed?, readTrimmed?, Expression.cutAt?_eq_none hstroke,
    Expression.cutAt?_eq_none (stroke_not_mem_minus hstroke)]
  constructor
  · obtain ⟨c, rest, rfl, hc⟩ := hhead
    exact (readSigned?_of_head hc).trans h.readDecimal?_eq
  · exact congrArg (Option.map fun q => -q) h.readDecimal?_eq

theorem Unsigned.readTrimmed?_eq {t : List Char} {n : ℕ} {f : Form} (h : Unsigned t n f)
    (hf : f.scale ≠ 0) :
    readTrimmed? t = some (n / f.scale : ℚ) ∧
      readTrimmed? ('-' :: t) = some (-(n / f.scale) : ℚ) := by
  have hhead := h.exists_head
  cases h with
  | integer hds =>
      rw [Form.scale, Nat.cast_one, div_one]
      exact readTrimmed?_numeral (.whole hds) (not_mem_digits hds (by decide)) hhead
  | decimal hds hplaces =>
      have hdigits := List.forall_mem_append.mpr ⟨hds.2, hplaces.2⟩
      rw [Form.scale, Nat.cast_pow, Nat.cast_ofNat]
      exact readTrimmed?_numeral (.decimal ⟨List.append_ne_nil_of_left_ne_nil hds.1 _, hdigits⟩)
        (stroke_not_mem_decimal hds hplaces) hhead
  | fraction hds hes =>
      have hstroke : '/' ∉ _ := not_mem_digits hds (by decide)
      have hupper : Text.Tight ('-' :: _) := tight_minus_digits hds
      rw [readTrimmed?, readTrimmed?, Expression.cutAt?_append hstroke, ← List.cons_append,
        Expression.cutAt?_append (stroke_not_mem_minus hstroke)]
      have hlower := readInteger?_digits hes
      constructor
      · exact readFraction?_eq (tight_digits hds) (tight_digits hes) (readInteger?_digits hds)
          hlower hf
      · rw [← neg_div, ← Int.cast_natCast, ← Int.cast_neg]
        exact readFraction?_eq hupper (tight_digits hes) (readInteger?_minus hds) hlower hf

/-- What is read from a text of a form. -/
theorem HasForm.readTrimmed?_eq {t : List Char} {n : ℤ} {f : Form} (h : HasForm t n f)
    (hf : f.scale ≠ 0) : readTrimmed? t = some (n / f.scale : ℚ) := by
  cases h with
  | plain h => exact (h.readTrimmed?_eq hf).1
  | minus h =>
      rw [(h.readTrimmed?_eq hf).2, Int.cast_neg, neg_div]
      rfl

/-! ## Writing -/

theorem toList_sign (z : ℤ) :
    (if z < 0 then "-" else "").toList = if z < 0 then ['-'] else [] := by
  split_ifs
  · rfl
  · rfl

theorem toList_toString_int (z : ℤ) :
    (toString z).toList = (if z < 0 then ['-'] else []) ++ z.natAbs.repr.toList := by
  cases z with
  | ofNat n =>
      rw [if_neg (by simp)]
      rfl
  | negSucc n =>
      rw [if_pos (Int.negSucc_lt_zero n)]
      exact String.toList_append

theorem sign_natAbs (z : ℤ) : (if z < 0 then -(z.natAbs : ℤ) else z.natAbs) = z := by
  split_ifs
  · omega
  · omega

/-- A sign is written in front of numbers below zero. -/
theorem Unsigned.signed {t : List Char} {n : ℕ} {f : Form} (h : Unsigned t n f) (z : ℤ) :
    HasForm ((if z < 0 then ['-'] else []) ++ t) (if z < 0 then -n else n) f := by
  split_ifs
  · exact .minus h
  · exact .plain h

theorem unsigned_writeDecimal {places : ℕ} (hplaces : 0 < places) (n : ℕ) :
    Unsigned (writeDecimal places n).toList n (.decimal places) := by
  have hle := le_length_padded (places + 1) n
  have hdigits := digits_padded (places + 1) n
  have hvalue := ofDigitChars_padded (places + 1) n
  rw [writeDecimal, String.toList_ofList]
  generalize padded (places + 1) n = ds at hle hdigits hvalue
  have hlen : (ds.drop (ds.length - places)).length = places := by
    rw [List.length_drop]
    omega
  have hwhole : Digits (ds.take (ds.length - places)) := by
    refine ⟨fun hnil => ?_, fun c hc => hdigits.2 c (List.mem_of_mem_take hc)⟩
    have hzero := congrArg List.length hnil
    rw [List.length_take, List.length_nil] at hzero
    omega
  have hfraction : Digits (ds.drop (ds.length - places)) := by
    refine ⟨fun hnil => ?_, fun c hc => hdigits.2 c (List.mem_of_mem_drop hc)⟩
    rw [hnil, List.length_nil] at hlen
    omega
  have h := Unsigned.decimal hwhole hfraction
  rwa [List.take_append_drop, hvalue, hlen] at h

theorem hasForm_toString (n : ℤ) : HasForm (toString n).toList n .integer := by
  have h := (Unsigned.integer (digits_repr n.natAbs)).signed n
  rwa [ofDigitChars_repr, sign_natAbs, ← toList_toString_int] at h

theorem hasForm_writeFraction {q : ℚ} (hden : q.den ≠ 1) :
    HasForm (writeFraction q).toList q.num (.fraction q.den) := by
  have h := (Unsigned.fraction (digits_repr q.num.natAbs) (digits_repr q.den)).signed q.num
  rw [ofDigitChars_repr, ofDigitChars_repr, sign_natAbs, ← List.append_assoc,
    ← toList_toString_int] at h
  rw [writeFraction, if_neg hden, String.toList_append, String.toList_append, List.append_assoc]
  exact h

/-! ## The form that suits a number -/

theorem suits_integer {q : ℚ} (hden : q.den = 1) : Suits q q.num .integer := by
  refine ⟨one_ne_zero, ?_, trivial⟩
  rw [Form.scale, ← hden, Rat.num_div_den]

theorem suits_fraction {q : ℚ} (hplaces : decimalPlaces? q.den = none) :
    Suits q q.num (.fraction q.den) := by
  refine ⟨q.den_ne_zero, q.num_div_den.symm, q.reduced, fun k hk => ?_⟩
  obtain ⟨places, hsome, -⟩ := (dvd_pow_ten_iff q.den_pos).mp (hasPlaces_iff.mp hk)
  rw [hplaces] at hsome
  cases hsome

theorem hasPlaces_iff_le {q : ℚ} {places : ℕ} (hplaces : decimalPlaces? q.den = some places)
    (k : ℕ) : HasPlaces k q ↔ places ≤ k := by
  rw [hasPlaces_iff, dvd_pow_ten_iff q.den_pos, hplaces]
  simp

theorem suits_decimal {q : ℚ} (hden : q.den ≠ 1) {places : ℕ}
    (hplaces : decimalPlaces? q.den = some places) {units : ℕ}
    (hunits : units = q.num.natAbs * 10 ^ places / q.den) :
    Suits q (if q.num < 0 then -units else units) (.decimal places) := by
  have hleast := hasPlaces_iff_le hplaces
  have hvalue : (units : ℚ) / 10 ^ places = q.num.natAbs / q.den :=
    hunits ▸ units_div_pow q.den_pos (dvd_of_decimalPlaces? hplaces)
  refine ⟨pow_ne_zero places (by decide), ?_, ?_, (hleast places).mpr le_rfl,
    fun k hk => (hleast k).mp hk⟩
  · rw [Form.scale, Nat.cast_pow, Nat.cast_ofNat]
    have hnum := sign_natAbs q.num
    split_ifs at hnum ⊢
    · rw [Int.cast_neg, neg_div, Int.cast_natCast, hvalue, ← neg_div, ← Int.cast_natCast,
        ← Int.cast_neg, hnum, Rat.num_div_den]
    · rw [Int.cast_natCast, hvalue, ← Int.cast_natCast, hnum, Rat.num_div_den]
  · rintro m rfl
    exact hden (Rat.den_intCast m)

/-- Every number is written in a form that suits it. -/
theorem exists_hasForm_write (q : ℚ) : ∃ n f, HasForm (write q).toList n f ∧ Suits q n f := by
  by_cases hden : q.den = 1
  · refine ⟨q.num, .integer, ?_, suits_integer hden⟩
    rw [write, if_pos hden]
    exact hasForm_toString q.num
  rw [write, if_neg hden]
  cases hplaces : decimalPlaces? q.den with
  | none =>
      exact ⟨q.num, .fraction q.den, hasForm_writeFraction hden, suits_fraction hplaces⟩
  | some places =>
      have hpos : 0 < places := by
        rw [Nat.pos_iff_ne_zero]
        rintro rfl
        exact hden (Nat.dvd_one.mp (dvd_of_decimalPlaces? hplaces))
      refine ⟨_, .decimal places, ?_, suits_decimal hden hplaces rfl⟩
      have h := (unsigned_writeDecimal hpos (q.num.natAbs * 10 ^ places / q.den)).signed q.num
      rwa [← toList_sign, ← String.toList_append] at h

/-- The text of a number without the blanks around it. -/
theorem read_spaced {q : ℚ} {text : String} (h : Text.trim text.toList = (write q).toList) :
    read text = .ok q := by
  obtain ⟨n, f, hform, hsuits⟩ := exists_hasForm_write q
  have hread := hform.readTrimmed?_eq hsuits.scale_ne_zero
  rw [← hsuits.value] at hread
  simp only [read, h, hread]

theorem toNat_of_mem_write {q : ℚ} {c : Char} (hc : c ∈ (write q).toList) :
    45 ≤ c.toNat ∧ c.toNat ≤ 57 := by
  obtain ⟨n, f, hform, -⟩ := exists_hasForm_write q
  exact hform.toNat_of_mem c hc

theorem write_ne_nil (q : ℚ) : (write q).toList ≠ [] := by
  obtain ⟨n, f, hform, -⟩ := exists_hasForm_write q
  rintro hnil
  rw [hnil] at hform
  cases hform with
  | plain h =>
      obtain ⟨c, rest, hcons, -⟩ := h.exists_head
      cases hcons

theorem tight_write (q : ℚ) : Text.Tight (write q).toList :=
  Text.tight_of_visible (by decide) (by decide) fun _ hc => toNat_of_mem_write hc

/-- Writing is exact: the divisions of the denominator by two and then by five come to an end,
reading gives the number back, and the text has just the form that suits the number. -/
theorem write_exact (q : ℚ) :
    Exhausts 2 q.den (divideOut 2 q.den) ∧
      Exhausts 5 (divideOut 2 q.den).2 (divideOut 5 (divideOut 2 q.den).2) ∧
      read (write q) = .ok q ∧
      ∀ n f, HasForm (write q).toList n f ↔ Suits q n f := by
  have hpos : 0 < q.den := q.den_pos
  refine ⟨exhausts_divideOut (by decide) hpos, exhausts_divideOut (by decide) (divideOut_pos hpos),
    read_spaced (Text.trim_of_tight (tight_write q)), fun n f => ?_⟩
  obtain ⟨m, g, hform, hsuits⟩ := exists_hasForm_write q
  constructor
  · intro h
    obtain ⟨rfl, rfl⟩ := hform.unique h
    exact hsuits
  · intro h
    obtain ⟨rfl, rfl⟩ := hsuits.unique h
    exact hform

end MarkovRegion.Coefficient
