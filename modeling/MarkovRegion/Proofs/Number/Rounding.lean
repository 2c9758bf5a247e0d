import Mathlib.Algebra.Order.Field.Power
import Mathlib.Tactic.FieldSimp
import Mathlib.Tactic.Linarith
import Mathlib.Tactic.Ring
import MarkovRegion.Proofs.Number.Order

/-!
# Rounding to doubles keeps the order

A finite double denotes a rational (`Double.value`), and a larger double denotes a larger one
(`Double.value_le_value`).  Rounding keeps the order: a rational up to what a double denotes is
rounded to a double up to it, and a rational from there on to a double from there on
(`Double.nearest_le`, `Double.le_nearest`).  So rounding never crosses a double, which is all that
comparisons with a rounded number need to know about it.

The magnitude of a rounded rational is compared with a canonical pair by their exponents.  If these
agree, the two are multiples of one power of two and rounding to an integer keeps the order.  If
they differ, already the bounds of the mantissas decide.
-/

namespace MarkovRegion.Double

open Float.Model (UnpackedFloat Format)
open Float.Model.UnpackedFloat (Sign)

/-! ## Rounding a quotient to an integer -/

theorem divNearest_le {a b k : Nat} (hb : 0 < b) (h : (a : ℚ) / b ≤ k) : divNearest a b ≤ k := by
  have hle : a ≤ k * b := by
    rw [div_le_iff₀ (by exact_mod_cast hb)] at h
    exact_mod_cast h
  have hsplit := Nat.div_add_mod' a b
  have hquotient : a / b ≤ k := Nat.div_le_of_le_mul (by rwa [mul_comm])
  unfold divNearest
  dsimp only
  split_ifs with hup
  · -- the quotient is rounded up only if something remains
    have hrest : 0 < a % b := by
      simp only [Bool.or_eq_true, decide_eq_true_eq, Bool.and_eq_true, beq_iff_eq] at hup
      omega
    by_contra hlt
    obtain rfl : a / b = k := by omega
    omega
  · exact hquotient

theorem le_divNearest {a b k : Nat} (hb : 0 < b) (h : (k : ℚ) ≤ (a : ℚ) / b) :
    k ≤ divNearest a b := by
  have hle : k * b ≤ a := by
    rw [le_div_iff₀ (by exact_mod_cast hb)] at h
    exact_mod_cast h
  have hquotient : k ≤ a / b := (Nat.le_div_iff_mul_le hb).mpr hle
  unfold divNearest
  dsimp only
  split_ifs
  · exact hquotient.trans (Nat.le_succ _)
  · exact hquotient

/-! ## The exponent of the last place -/

theorem scaleBits_pos (n : Nat) {d : Nat} (hd : 0 < d) (s : Int) : 0 < (scaleBits n d s).2 := by
  unfold scaleBits
  split_ifs
  · exact hd
  · exact Nat.mul_pos hd (Nat.pow_pos (by decide))

theorem scaleBits_ratio (n : Nat) {d : Nat} (hd : 0 < d) (s : Int) :
    ((scaleBits n d s).1 : ℚ) / (scaleBits n d s).2 = (n : ℚ) / d * 2 ^ s := by
  have hd' : (d : ℚ) ≠ 0 := by exact_mod_cast hd.ne'
  unfold scaleBits
  split_ifs with hs
  · obtain ⟨k, rfl⟩ := Int.eq_ofNat_of_zero_le hs
    simp only [Int.toNat_natCast, Nat.pow_eq, Nat.cast_mul, Nat.cast_pow, Nat.cast_ofNat,
      zpow_natCast]
    ring
  · obtain ⟨k, rfl⟩ : ∃ k : Nat, s = -(k : Int) := ⟨(-s).toNat, by omega⟩
    simp only [neg_neg, Int.toNat_natCast, Nat.pow_eq, Nat.cast_mul, Nat.cast_pow, Nat.cast_ofNat,
      zpow_neg, zpow_natCast]
    field_simp

theorem two_zpow_pos (e : Int) : (0 : ℚ) < 2 ^ e := zpow_pos (by decide) e

theorem two_zpow_le {e e' : Int} (h : e ≤ e') : (2 : ℚ) ^ e ≤ 2 ^ e' :=
  zpow_le_zpow_right₀ (by decide) h

theorem two_zpow_add (e e' : Int) : (2 : ℚ) ^ (e + e') = 2 ^ e * 2 ^ e' :=
  zpow_add₀ (by decide) e e'

theorem log2_bounds {n : Nat} (h : n ≠ 0) :
    (2 : ℚ) ^ (n.log2 : Int) ≤ n ∧ (n : ℚ) < 2 ^ ((n.log2 : Int) + 1) := by
  constructor
  · rw [zpow_natCast]
    exact_mod_cast Nat.log2_self_le h
  · rw [← Nat.cast_succ, zpow_natCast]
    exact_mod_cast Nat.lt_log2_self

theorem floorLog_bounds {n d : Nat} (hn : n ≠ 0) (hd : d ≠ 0) :
    (2 : ℚ) ^ floorLog n d ≤ (n : ℚ) / d ∧ (n : ℚ) / d < 2 ^ (floorLog n d + 1) := by
  obtain ⟨hnlow, hnhigh⟩ := log2_bounds hn
  obtain ⟨hdlow, hdhigh⟩ := log2_bounds hd
  have hd' : (0 : ℚ) < d := (two_zpow_pos _).trans_le hdlow
  set g : Int := Int.ofNat n.log2 - Int.ofNat d.log2 with hg
  have hlow : (2 : ℚ) ^ (g - 1) ≤ (n : ℚ) / d := by
    rw [le_div_iff₀ hd']
    calc (2 : ℚ) ^ (g - 1) * d ≤ 2 ^ (g - 1) * 2 ^ ((d.log2 : Int) + 1) :=
          mul_le_mul_of_nonneg_left hdhigh.le (two_zpow_pos _).le
      _ = 2 ^ (n.log2 : Int) := by
          rw [← two_zpow_add]
          congr 1
          simp only [Int.ofNat_eq_natCast] at hg
          omega
      _ ≤ n := hnlow
  have hhigh : (n : ℚ) / d < 2 ^ (g + 1) := by
    rw [div_lt_iff₀ hd']
    calc (n : ℚ) < 2 ^ ((n.log2 : Int) + 1) := hnhigh
      _ = 2 ^ (g + 1) * 2 ^ (d.log2 : Int) := by
          rw [← two_zpow_add]
          congr 1
          simp only [Int.ofNat_eq_natCast] at hg
          omega
      _ ≤ 2 ^ (g + 1) * d := mul_le_mul_of_nonneg_left hdlow (two_zpow_pos _).le
  -- the guess is right if the quotient reaches its power of two, and one too large otherwise
  have hreach : (scaleBits n d (-g)).2 ≤ (scaleBits n d (-g)).1 ↔ (2 : ℚ) ^ g ≤ (n : ℚ) / d := by
    have hpos := scaleBits_pos n (Nat.pos_of_ne_zero hd) (-g)
    have hratio := scaleBits_ratio n (Nat.pos_of_ne_zero hd) (-g)
    rw [← Nat.cast_le (α := ℚ), ← one_le_div₀ (by exact_mod_cast hpos), hratio, zpow_neg,
      ← div_eq_mul_inv, one_le_div₀ (two_zpow_pos g)]
  have hfloor : floorLog n d = if (2 : ℚ) ^ g ≤ (n : ℚ) / d then g else g - 1 :=
    if_congr hreach rfl rfl
  rw [hfloor]
  split_ifs with h
  · exact ⟨h, hhigh⟩
  · exact ⟨hlow, by rwa [sub_add_cancel, ← not_le]⟩

theorem le_lastPlace (n d : Nat) : -1074 ≤ lastPlace n d := by
  unfold lastPlace
  dsimp only
  split_ifs <;> omega

/-- A number has at most 53 bits before its last place. -/
theorem lt_lastPlace {n d : Nat} (hn : n ≠ 0) (hd : d ≠ 0) :
    (n : ℚ) / d < 2 ^ (lastPlace n d + 53) := by
  refine (floorLog_bounds hn hd).2.trans_le (two_zpow_le ?_)
  unfold lastPlace
  dsimp only
  split_ifs <;> omega

/-- A number has all 53 bits unless its last place is the least. -/
theorem lastPlace_le {n d : Nat} (hn : n ≠ 0) (hd : d ≠ 0) :
    lastPlace n d = -1074 ∨ (2 : ℚ) ^ (lastPlace n d + 52) ≤ (n : ℚ) / d := by
  have hlow := (floorLog_bounds hn hd).1
  unfold lastPlace
  dsimp only
  split_ifs with h
  · exact Or.inl rfl
  · exact Or.inr (by rwa [sub_add_cancel])

/-! ## Magnitudes -/

/-- What a mantissa and an exponent denote. -/
def magnitude (m : Nat) (e : Int) : ℚ := m * 2 ^ e

theorem magnitude_nonneg (m : Nat) (e : Int) : 0 ≤ magnitude m e :=
  mul_nonneg (Nat.cast_nonneg m) (two_zpow_pos e).le

theorem Canonical.magnitude_lt {m : Nat} {e : Int} (h : Canonical m e) :
    magnitude m e < 2 ^ (e + 53) := by
  have hlt : (m : ℚ) < 2 ^ 53 := by exact_mod_cast h.mantissa_lt
  rw [two_zpow_add, mul_comm]
  exact mul_lt_mul_of_pos_right hlt (two_zpow_pos e)

theorem Canonical.le_magnitude {m : Nat} {e : Int} (h : Canonical m e) (he : -1074 < e) :
    2 ^ (e + 52) ≤ magnitude m e := by
  have hle : (2 : ℚ) ^ 52 ≤ m := by exact_mod_cast h.normal.resolve_right (by omega)
  rw [two_zpow_add, mul_comm]
  exact mul_le_mul_of_nonneg_right hle (two_zpow_pos e).le

theorem Canonical.rank_eq_zero {m : Nat} {e : Int} (h : Canonical m e) (hm : magnitude m e = 0) :
    rank m e = 0 := by
  have hm0 : m = 0 := by
    rcases mul_eq_zero.mp hm with hm | hm
    · exact_mod_cast hm
    · exact absurd hm (two_zpow_pos e).ne'
  have hnormal := h.normal
  unfold rank
  omega

theorem Canonical.magnitude_le_magnitude {m m' : Nat} {e e' : Int} (h : Canonical m e)
    (h' : Canonical m' e') (hrank : rank m e ≤ rank m' e') : magnitude m e ≤ magnitude m' e' := by
  rcases lt_trichotomy e e' with he | rfl | he
  · have hleast := h.least
    calc magnitude m e ≤ 2 ^ (e + 53) := h.magnitude_lt.le
      _ ≤ 2 ^ (e' + 52) := two_zpow_le (by omega)
      _ ≤ magnitude m' e' := h'.le_magnitude (by omega)
  · have hm : m ≤ m' := by
      unfold rank at hrank
      omega
    exact mul_le_mul_of_nonneg_right (by exact_mod_cast hm) (two_zpow_pos e).le
  · exact absurd hrank (h'.rank_lt_rank h he).not_ge

/-- The rounded mantissa of a magnitude. -/
def mantissaNear (n d : Nat) : Nat :=
  divNearest (scaleBits n d (-lastPlace n d)).1 (scaleBits n d (-lastPlace n d)).2

theorem magnitudeBits_eq {n : Nat} (hn : n ≠ 0) (d : Nat) : (magnitudeBits n d : Int) =
    min (infinityBits : Int) (rank (mantissaNear n d) (lastPlace n d)) := by
  have hleast := le_lastPlace n d
  unfold magnitudeBits rank mantissaNear
  dsimp only
  rw [if_neg hn, Nat.pow_eq]
  split_ifs with h <;> omega

theorem mantissaNear_le {n d k : Nat} (hd : d ≠ 0) (h : (n : ℚ) / d ≤ magnitude k (lastPlace n d)) :
    mantissaNear n d ≤ k := by
  refine divNearest_le (scaleBits_pos n (Nat.pos_of_ne_zero hd) _) ?_
  rw [scaleBits_ratio n (Nat.pos_of_ne_zero hd), zpow_neg, ← div_eq_mul_inv,
    div_le_iff₀ (two_zpow_pos _)]
  exact h

theorem le_mantissaNear {n d k : Nat} (hd : d ≠ 0) (h : magnitude k (lastPlace n d) ≤ (n : ℚ) / d) :
    k ≤ mantissaNear n d := by
  refine le_divNearest (scaleBits_pos n (Nat.pos_of_ne_zero hd) _) ?_
  rw [scaleBits_ratio n (Nat.pos_of_ne_zero hd), zpow_neg, ← div_eq_mul_inv,
    le_div_iff₀ (two_zpow_pos _)]
  exact h

theorem magnitude_two_pow (k : Nat) (e : Int) : magnitude (2 ^ k) e = 2 ^ (e + k) := by
  rw [two_zpow_add, mul_comm, zpow_natCast]
  exact congrArg (· * _) (by push_cast; rfl)

/-- A magnitude up to a canonical one is rounded to one up to it. -/
theorem Canonical.magnitudeBits_le {n d m : Nat} {e : Int} (h : Canonical m e) (hd : d ≠ 0)
    (hle : (n : ℚ) / d ≤ magnitude m e) : (magnitudeBits n d : Int) ≤ rank m e := by
  have hleast := h.least
  by_cases hn : n = 0
  · subst hn
    change (0 : Int) ≤ rank m e
    unfold rank
    omega
  have hplace := le_lastPlace n d
  rw [magnitudeBits_eq hn d]
  refine (min_le_right _ _).trans ?_
  rcases lt_trichotomy (lastPlace n d) e with he | rfl | he
  · -- even a mantissa rounded up to the next power of two stays below
    have hmantissa : mantissaNear n d ≤ 2 ^ 53 := by
      refine mantissaNear_le hd ?_
      rw [magnitude_two_pow]
      exact (lt_lastPlace hn hd).le
    have hnormal := h.normal
    unfold rank
    omega
  · have hmantissa := mantissaNear_le hd hle
    unfold rank
    omega
  · exfalso
    have hlow := (lastPlace_le hn hd).resolve_left (by omega)
    refine (hle.trans_lt h.magnitude_lt).not_ge (le_trans (two_zpow_le ?_) hlow)
    omega

/-- A magnitude from a canonical one on is rounded to one from it on. -/
theorem Canonical.le_magnitudeBits {n d m : Nat} {e : Int} (h : Canonical m e) (hd : d ≠ 0)
    (hle : magnitude m e ≤ (n : ℚ) / d) : rank m e ≤ magnitudeBits n d := by
  have hleast := h.least
  by_cases hn : n = 0
  · subst hn
    rw [Nat.cast_zero, zero_div] at hle
    rw [h.rank_eq_zero (le_antisymm hle (magnitude_nonneg m e))]
    exact Int.natCast_nonneg _
  have hplace := le_lastPlace n d
  rw [magnitudeBits_eq hn d]
  refine le_min h.rank_lt.le ?_
  rcases lt_trichotomy (lastPlace n d) e with he | rfl | he
  · exfalso
    refine (hle.trans_lt (lt_lastPlace hn hd)).not_ge
      (le_trans (two_zpow_le ?_) (h.le_magnitude (by omega)))
    omega
  · have hmantissa := le_mantissaNear hd hle
    unfold rank
    omega
  · have hmantissa : 2 ^ 52 ≤ mantissaNear n d := by
      refine le_mantissaNear hd ?_
      rw [magnitude_two_pow]
      exact (lastPlace_le hn hd).resolve_left (by omega)
    have hlt := h.mantissa_lt
    unfold rank
    omega

/-! ## Doubles -/

/-- What the parts of a double denote; parts that denote no rational count as zero. -/
def valueOf : UnpackedFloat → ℚ
  | .finite s m e _ => signed s (magnitude m e)
  | _ => 0

/-- The rational that a finite double denotes. -/
def value (x : Float) : ℚ := valueOf x.toModel.unpack

/-- A finite double is a canonical magnitude with a sign. -/
theorem exists_canonical {x : Float} (h : x.isFinite = true) : ∃ s m e, Canonical m e ∧
    place x = some (signed s (rank m e)) ∧ value x = signed s (magnitude m e) := by
  have hcanonical := isCanonical_unpack x
  unfold place value
  change x.toModel.unpack.isFinite = true at h
  cases hparts : x.toModel.unpack with
  | notANumber =>
      rw [hparts] at h
      exact absurd h Bool.false_ne_true
  | infinity s =>
      rw [hparts] at h
      exact absurd h Bool.false_ne_true
  | zero s =>
      refine ⟨.positive, 0, -1074, ⟨by decide, by decide, by decide, Or.inr rfl⟩, ?_, ?_⟩
      · simp [placeOf, signed, rank]
      · simp [valueOf, signed, magnitude]
  | finite s m e hm =>
      rw [hparts] at hcanonical
      exact ⟨s, m, e, hcanonical, rfl, rfl⟩

theorem isFinite_of_place {x : Float} {a : Int} (h : place x = some a) (hlower : -infinityBits < a)
    (hupper : a < infinityBits) : x.isFinite = true := by
  change x.toModel.unpack.isFinite = true
  unfold place at h
  cases hparts : x.toModel.unpack with
  | notANumber =>
      rw [hparts] at h
      cases h
  | infinity s =>
      rw [hparts] at h
      obtain rfl := Option.some.inj h
      cases s with
      | negative => exact absurd hlower (lt_irrefl _)
      | positive => exact absurd hupper (lt_irrefl _)
  | zero s => rfl
  | finite s m e hm => rfl

/-- A double between finite doubles is finite. -/
theorem isFinite_of_le {x y z : Float} (hx : x.isFinite = true) (hz : z.isFinite = true)
    (hxy : Scalar.le x y = true) (hyz : Scalar.le y z = true) : y.isFinite = true := by
  obtain ⟨s, m, e, hm, hxplace, -⟩ := exists_canonical hx
  obtain ⟨t, m', e', hm', hzplace, -⟩ := exists_canonical hz
  obtain ⟨a, b, ha, hb, hab⟩ := le_iff.mp hxy
  obtain ⟨b', c, hb', hc, hbc⟩ := le_iff.mp hyz
  obtain rfl := Option.some.inj (hxplace.symm.trans ha)
  obtain rfl := Option.some.inj (hzplace.symm.trans hc)
  obtain rfl := Option.some.inj (hb.symm.trans hb')
  exact isFinite_of_place hb ((hm.signed_rank_bounds s).1.trans_le hab)
    (hbc.trans_lt (hm'.signed_rank_bounds t).2)

/-- Two numbers with signs compare as two others do if their magnitudes do. -/
theorem signed_le_signed {α β : Type} [AddCommGroup α] [LinearOrder α] [IsOrderedAddMonoid α]
    [AddCommGroup β] [LinearOrder β] [IsOrderedAddMonoid β] {a b : α} {a' b' : β} (ha : 0 ≤ a)
    (hb : 0 ≤ b) (ha' : 0 ≤ a') (hb' : 0 ≤ b') (hle : a ≤ b → a' ≤ b') (hge : b ≤ a → b' ≤ a')
    (hazero : a = 0 → a' = 0) (hbzero : b = 0 → b' = 0) {s t : Sign}
    (h : signed s a ≤ signed t b) : signed s a' ≤ signed t b' := by
  cases s with
  | negative =>
      cases t with
      | negative => exact neg_le_neg (hge (neg_le_neg_iff.mp h))
      | positive => exact (neg_nonpos.mpr ha').trans hb'
  | positive =>
      cases t with
      | negative =>
          -- only zero is on both sides of zero
          have hazero' : a = 0 := le_antisymm (h.trans (neg_nonpos.mpr hb)) ha
          have hbzero' : b = 0 := le_antisymm (neg_nonneg.mp (ha.trans h)) hb
          change a' ≤ -b'
          rw [hazero hazero', hbzero hbzero', neg_zero]
      | positive => exact hle h

theorem Canonical.rank_nonneg {m : Nat} {e : Int} (h : Canonical m e) : 0 ≤ rank m e := by
  have hleast := h.least
  unfold rank
  omega

theorem magnitude_eq_zero {m : Nat} {e : Int} (h : Canonical m e) (hrank : rank m e = 0) :
    magnitude m e = 0 := by
  have hleast := h.least
  have hm : m = 0 := by
    unfold rank at hrank
    omega
  rw [hm, magnitude, Nat.cast_zero, zero_mul]

theorem value_le_value {x y : Float} (hx : x.isFinite = true) (hy : y.isFinite = true)
    (h : Scalar.le x y = true) : value x ≤ value y := by
  obtain ⟨s, m, e, hm, hxplace, hxvalue⟩ := exists_canonical hx
  obtain ⟨t, m', e', hm', hyplace, hyvalue⟩ := exists_canonical hy
  obtain ⟨a, b, ha, hb, hab⟩ := le_iff.mp h
  obtain rfl := Option.some.inj (hxplace.symm.trans ha)
  obtain rfl := Option.some.inj (hyplace.symm.trans hb)
  rw [hxvalue, hyvalue]
  exact signed_le_signed hm.rank_nonneg hm'.rank_nonneg (magnitude_nonneg m e)
    (magnitude_nonneg m' e') (hm.magnitude_le_magnitude hm') (hm'.magnitude_le_magnitude hm)
    (magnitude_eq_zero hm) (magnitude_eq_zero hm') hab

theorem value_eq_of_place {x y : Float} (hx : x.isFinite = true) {a : Int} (hxa : place x = some a)
    (hya : place y = some a) : value y = value x := by
  have hxy : Scalar.le x y = true := by
    rw [le_eq_decide hxa hya]
    exact decide_eq_true le_rfl
  have hyx : Scalar.le y x = true := by
    rw [le_eq_decide hya hxa]
    exact decide_eq_true le_rfl
  have hy := isFinite_of_le hx hx hxy hyx
  exact le_antisymm (value_le_value hy hx hyx) (value_le_value hx hy hxy)

/-- The sign of a rational. -/
def signOf (q : ℚ) : Sign := if q.num < 0 then .negative else .positive

theorem signed_signOf (q : ℚ) : signed (signOf q) ((q.num.natAbs : ℚ) / q.den) = q := by
  have habs : (q.num.natAbs : ℚ) = |(q.num : ℚ)| := by
    rw [Nat.cast_natAbs, Int.cast_abs]
  unfold signOf
  split_ifs with h
  · rw [habs, abs_of_neg (by exact_mod_cast h), neg_div, Rat.num_div_den]
    exact neg_neg q
  · rw [habs, abs_of_nonneg (by exact_mod_cast not_lt.mp h), Rat.num_div_den]
    rfl

/-- Rounding rounds the magnitude and keeps the sign. -/
theorem place_nearest (q : ℚ) :
    place (nearest q) = some (signed (signOf q) (magnitudeBits q.num.natAbs q.den : Int)) := by
  have hbits : magnitudeBits q.num.natAbs q.den ≤ infinityBits := by
    by_cases hzero : q.num.natAbs = 0
    · rw [magnitudeBits, if_pos hzero]
      exact Nat.zero_le _
    · have heq := magnitudeBits_eq hzero q.den
      omega
  rw [← place_ofBits (signOf q) hbits]
  unfold nearest signOf
  dsimp only
  split_ifs <;> rfl

theorem magnitudeBits_eq_zero {n d : Nat} (hd : d ≠ 0) (h : (n : ℚ) / d = 0) :
    (magnitudeBits n d : Int) = 0 := by
  have hn : n = 0 := by
    rcases div_eq_zero_iff.mp h with hn | hd'
    · exact_mod_cast hn
    · exact absurd (by exact_mod_cast hd') hd
  rw [magnitudeBits, if_pos hn, Nat.cast_zero]

theorem nearest_le {x : Float} (hx : x.isFinite = true) {q : ℚ} (h : q ≤ value x) :
    Scalar.le (nearest q) x = true := by
  obtain ⟨s, m, e, hm, hplace, hvalue⟩ := exists_canonical hx
  refine le_iff.mpr ⟨_, _, place_nearest q, hplace, ?_⟩
  exact signed_le_signed (div_nonneg (Nat.cast_nonneg _) (Nat.cast_nonneg _)) (magnitude_nonneg m e)
    (Int.natCast_nonneg _) hm.rank_nonneg (hm.magnitudeBits_le q.den_ne_zero)
    (hm.le_magnitudeBits q.den_ne_zero) (magnitudeBits_eq_zero q.den_ne_zero) hm.rank_eq_zero
    (((signed_signOf q).trans_le h).trans_eq hvalue)

theorem le_nearest {x : Float} (hx : x.isFinite = true) {q : ℚ} (h : value x ≤ q) :
    Scalar.le x (nearest q) = true := by
  obtain ⟨s, m, e, hm, hplace, hvalue⟩ := exists_canonical hx
  refine le_iff.mpr ⟨_, _, hplace, place_nearest q, ?_⟩
  exact signed_le_signed (magnitude_nonneg m e) (div_nonneg (Nat.cast_nonneg _) (Nat.cast_nonneg _))
    hm.rank_nonneg (Int.natCast_nonneg _) (hm.le_magnitudeBits q.den_ne_zero)
    (hm.magnitudeBits_le q.den_ne_zero) hm.rank_eq_zero (magnitudeBits_eq_zero q.den_ne_zero)
    ((hvalue.symm.trans_le h).trans_eq (signed_signOf q).symm)

/-- Rounding keeps what a double denotes. -/
theorem value_nearest {x : Float} (h : x.isFinite = true) :
    value (nearest (value x)) = value x := by
  obtain ⟨a, c, hnearest, hx, hac⟩ := le_iff.mp (nearest_le h le_rfl)
  have hca := le_nearest h (le_refl (value x))
  rw [le_eq_decide hx hnearest, decide_eq_true_iff] at hca
  exact value_eq_of_place h hx (le_antisymm hac hca ▸ hnearest)

end MarkovRegion.Double
