import Mathlib.Data.Rat.Cast.Order
import MarkovRegion.Proofs.Expression.Grammar

/-!
# Numbers as they are written

A number that is not negative is written as one numeral, or as two with a stroke between them when
its decimal expansion does not end (`numeral_or_fraction`).  That a decimal has the value it is
written for needs that the denominator divides the power of ten of its places
(`dvd_of_decimalPlaces?`).
-/

namespace MarkovRegion.Coefficient

open Expression (Digits)

/-! ## Decimal places -/

theorem pow_mul_divideOut (p n : Nat) : p ^ (divideOut p n).1 * (divideOut p n).2 = n := by
  fun_induction divideOut p n with
  | case1 n h count rest heq ih =>
      rw [heq] at ih
      have hn : p * (n / p) = n := Nat.mul_div_cancel' (Nat.dvd_of_mod_eq_zero h.2.2)
      rw [pow_succ', mul_assoc, ih, hn]
  | case2 n h => rw [pow_zero, one_mul]

theorem dvd_of_decimalPlaces? {d places : Nat} (h : decimalPlaces? d = some places) :
    d ∣ 10 ^ places := by
  have htwos := pow_mul_divideOut 2 d
  have hfives := pow_mul_divideOut 5 (divideOut 2 d).2
  simp only [decimalPlaces?] at h
  split_ifs at h with hrest
  obtain rfl := Option.some.inj h
  rw [hrest, mul_one] at hfives
  calc d = 2 ^ (divideOut 2 d).1 * 5 ^ (divideOut 5 (divideOut 2 d).2).1 := by rw [hfives, htwos]
    _ ∣ 2 ^ _ * 5 ^ _ := mul_dvd_mul (pow_dvd_pow 2 (Nat.le_max_left _ _))
        (pow_dvd_pow 5 (Nat.le_max_right _ _))
    _ = 10 ^ _ := (mul_pow 2 5 _).symm

/-! ## Digits -/

theorem digits_repr (n : Nat) : Digits n.repr.toList := by
  rw [Nat.repr_eq_ofList_toDigits, String.toList_ofList]
  exact ⟨Nat.toDigits_ne_nil, fun c hc => Nat.isDigit_of_mem_toDigits (by decide) (by decide) hc⟩

theorem ofDigitChars_repr (n : Nat) : Nat.ofDigitChars 10 n.repr.toList 0 = n := by
  rw [Nat.repr_eq_ofList_toDigits, String.toList_ofList]
  exact Nat.ofDigitChars_ten_toDigits

theorem numeral_repr (n : Nat) : Expression.Numeral n.repr.toList n := by
  have h := Expression.Numeral.whole (digits_repr n)
  rwa [ofDigitChars_repr] at h

theorem digits_padded (width n : Nat) : Digits (padded width n) := by
  obtain ⟨hne, hdigits⟩ := digits_repr n
  refine ⟨List.append_ne_nil_of_right_ne_nil _ hne, fun c hc => ?_⟩
  rcases List.mem_append.mp hc with hzero | hc
  · obtain rfl := List.eq_of_mem_replicate hzero
    decide
  · exact hdigits c hc

theorem ofDigitChars_padded (width n : Nat) : Nat.ofDigitChars 10 (padded width n) 0 = n := by
  rw [padded, Nat.ofDigitChars_append, Nat.ofDigitChars_replicate_zero, Nat.mul_zero,
    ofDigitChars_repr]

theorem le_length_padded (width n : Nat) : width ≤ (padded width n).length := by
  simp only [padded, List.length_append, List.length_replicate]
  omega

/-- Cutting the digits before the last places moves the point there. -/
theorem numeral_writeDecimal (places n : Nat) :
    Expression.Numeral (writeDecimal places n).toList (n / 10 ^ places) := by
  have hlen : ((padded (places + 1) n).drop ((padded (places + 1) n).length - places)).length
      = places := by
    have hle := le_length_padded (places + 1) n
    rw [List.length_drop]
    omega
  have hdigits := digits_padded (places + 1) n
  rw [← List.take_append_drop ((padded (places + 1) n).length - places) (padded (places + 1) n)]
    at hdigits
  have h := Expression.Numeral.decimal hdigits
  rwa [List.take_append_drop, ofDigitChars_padded, hlen, ← String.toList_ofList (l := _ ++ _)] at h

/-- A fraction whose denominator divides the power of ten loses nothing in its places. -/
theorem units_div_pow {n d places : Nat} (hd : 0 < d) (h : d ∣ 10 ^ places) :
    ((n * 10 ^ places / d : ℕ) : ℚ) / 10 ^ places = n / d := by
  obtain ⟨k, hk⟩ := h
  have hk0 : (k : ℚ) ≠ 0 := by
    rintro hzero
    rw [Nat.cast_eq_zero.mp hzero, Nat.mul_zero] at hk
    exact absurd hk (Nat.pow_pos (by decide)).ne'
  have hpow : (10 : ℚ) ^ places = d * k := by
    exact_mod_cast hk
  rw [hk, Nat.mul_left_comm, Nat.mul_div_cancel_left _ hd, hpow, Nat.cast_mul,
    mul_div_mul_right _ _ hk0]

theorem numeral_of_dvd {n d places : Nat} (hd : 0 < d) (h : d ∣ 10 ^ places) :
    Expression.Numeral (writeDecimal places (n * 10 ^ places / d)).toList (n / d) :=
  units_div_pow hd h ▸ numeral_writeDecimal places _

/-! ## Numbers -/

/-- A number without a sign is one numeral or a fraction of two. -/
theorem numeral_or_fraction {q : ℚ} (hq : 0 ≤ q) :
    Expression.Numeral (write q).toList q ∨
      ∃ t u : List Char, ∃ n d : ℚ, Expression.Numeral t n ∧ Expression.Numeral u d ∧ d ≠ 0 ∧
        q = n / d ∧ (write q).toList = t ++ '/' :: u := by
  obtain ⟨n, hn⟩ := Int.eq_ofNat_of_zero_le (Rat.num_nonneg.mpr hq)
  have htext : toString q.num = n.repr := by
    rw [hn]
    rfl
  have hquot : q = n / q.den := by
    have hnum : (q.num : ℚ) = n := by
      rw [hn, Int.cast_natCast]
    rw [← hnum, Rat.num_div_den]
  by_cases hden : q.den = 1
  · left
    rw [hden, Nat.cast_one, div_one] at hquot
    rw [write, if_pos hden, htext]
    exact hquot ▸ numeral_repr n
  · rw [write, if_neg hden]
    cases hplaces : decimalPlaces? q.den with
    | none =>
        right
        refine ⟨_, _, _, _, numeral_repr n, numeral_repr q.den, ?_, hquot, ?_⟩
        · exact_mod_cast q.den_ne_zero
        · simp [writeFraction, hden, htext]
    | some places =>
        left
        have h := numeral_of_dvd (n := n) q.den_pos (dvd_of_decimalPlaces? hplaces)
        rw [← hquot] at h
        have hsign : ¬q.num < 0 := by
          rw [hn]
          omega
        simp only [if_neg hsign, String.empty_append]
        rw [hn]
        exact h

end MarkovRegion.Coefficient
