import Mathlib
import MarkovRegion.Weight

/-!
# The order of doubles

A double other than NaN has a place among the doubles: the number of doubles between zero and it,
with its sign (`Double.place`).  Both zeros have place zero.  Comparing doubles is comparing their
places (`Double.lt_iff`, `Double.le_iff`, `Double.same_iff`), so the order of doubles has the laws
of the order of integers.

A comparison of doubles looks at the exponents first and at the mantissas then.  This is the order
of the places because mantissas are normalized (`Double.Canonical`): only at the least exponent may
the leading bit be missing.
-/

namespace MarkovRegion.Double

open Float.Model (UnpackedFloat Format)
open Float.Model.UnpackedFloat (Sign)

/-! ## Places -/

/-- A number with a sign before it. -/
def signed {α : Type} [Neg α] : Sign → α → α
  | .negative, a => -a
  | .positive, a => a

/-- A mantissa and an exponent as a double has them. -/
structure Canonical (m : Nat) (e : Int) : Prop where
  least : -1074 ≤ e
  greatest : e ≤ 971
  mantissa_lt : m < 2 ^ 53
  normal : 2 ^ 52 ≤ m ∨ e = -1074

/-- The number of doubles from zero up to a magnitude. -/
def rank (m : Nat) (e : Int) : Int := (e + 1074) * 2 ^ 52 + m

theorem Canonical.rank_lt {m : Nat} {e : Int} (h : Canonical m e) : rank m e < infinityBits := by
  obtain ⟨-, hgreatest, hlt, -⟩ := h
  unfold rank infinityBits
  omega

theorem Canonical.rank_pos {m : Nat} {e : Int} (h : Canonical m e) (hm : 0 < m) : 0 < rank m e := by
  have hleast := h.least
  unfold rank
  omega

/-- A larger exponent has a larger rank, whatever the mantissas are. -/
theorem Canonical.rank_lt_rank {m m' : Nat} {e e' : Int} (h : Canonical m e) (h' : Canonical m' e')
    (he : e < e') : rank m e < rank m' e' := by
  have hleast := h.least
  have hlt := h.mantissa_lt
  have hnormal := h'.normal
  unfold rank
  omega

theorem Canonical.compare_rank {m m' : Nat} {e e' : Int} (h : Canonical m e)
    (h' : Canonical m' e') :
    (compare e e').then (compare m m') = compare (rank m e) (rank m' e') := by
  rcases lt_trichotomy e e' with he | rfl | he
  · rw [compare_lt_iff_lt.mpr he, compare_lt_iff_lt.mpr (h.rank_lt_rank h' he)]
    rfl
  · rw [compare_eq_iff_eq.mpr rfl, Ordering.eq_then]
    rcases lt_trichotomy m m' with hm | rfl | hm
    · rw [compare_lt_iff_lt.mpr hm, compare_lt_iff_lt.mpr (by unfold rank; omega)]
    · rw [compare_eq_iff_eq.mpr rfl, compare_eq_iff_eq.mpr rfl]
    · rw [compare_gt_iff_gt.mpr hm, compare_gt_iff_gt.mpr (by unfold rank; omega)]
  · rw [compare_gt_iff_gt.mpr he, compare_gt_iff_gt.mpr (h'.rank_lt_rank h he)]
    rfl

/-- The place of the parts of a double. -/
def placeOf : UnpackedFloat → Option Int
  | .notANumber => none
  | .infinity s => some (signed s infinityBits)
  | .zero _ => some 0
  | .finite s m e _ => some (signed s (rank m e))

/-- Parts as doubles have them. -/
def IsCanonical : UnpackedFloat → Prop
  | .finite _ m e _ => Canonical m e
  | _ => True

theorem Canonical.signed_rank_bounds {m : Nat} {e : Int} (h : Canonical m e) (s : Sign) :
    -infinityBits < signed s (rank m e) ∧ signed s (rank m e) < infinityBits := by
  have hlt := h.rank_lt
  have hleast := h.least
  have hnonneg : 0 ≤ rank m e := by
    unfold rank
    omega
  cases s with
  | negative => exact ⟨neg_lt_neg hlt, by simp only [signed]; omega⟩
  | positive => exact ⟨by simp only [signed]; omega, hlt⟩

theorem compare_neg_neg (a b : Int) : compare (-a) (-b) = (compare a b).swap := by
  rcases lt_trichotomy a b with h | rfl | h
  · rw [compare_lt_iff_lt.mpr h]
    exact compare_gt_iff_gt.mpr (neg_lt_neg h)
  · rw [compare_eq_iff_eq.mpr rfl, compare_eq_iff_eq.mpr rfl]
    rfl
  · rw [compare_gt_iff_gt.mpr h]
    exact compare_lt_iff_lt.mpr (neg_lt_neg h)

/-- Comparing parts is comparing places. -/
theorem compare_eq {u v : UnpackedFloat} (hu : IsCanonical u) (hv : IsCanonical v) :
    u.compare v = (placeOf u).bind fun a => (placeOf v).map fun b => compare a b := by
  cases u with
  | notANumber => rfl
  | infinity s =>
      cases v with
      | notANumber => cases s <;> rfl
      | infinity t => cases s <;> cases t <;> rfl
      | zero t => cases s <;> rfl
      | finite t m e hm =>
          obtain ⟨hlower, hupper⟩ := hv.signed_rank_bounds t
          cases s with
          | negative => exact congrArg some (compare_lt_iff_lt.mpr hlower).symm
          | positive => exact congrArg some (compare_gt_iff_gt.mpr hupper).symm
  | zero s =>
      cases v with
      | notANumber => rfl
      | infinity t => cases t <;> rfl
      | zero t => rfl
      | finite t m e hm =>
          have hpos := hv.rank_pos hm
          cases t with
          | negative => exact congrArg some (compare_gt_iff_gt.mpr (neg_neg_of_pos hpos)).symm
          | positive => exact congrArg some (compare_lt_iff_lt.mpr hpos).symm
  | finite s m e hm =>
      have hpos := hu.rank_pos hm
      cases v with
      | notANumber => cases s <;> rfl
      | infinity t =>
          obtain ⟨hlower, hupper⟩ := hu.signed_rank_bounds s
          cases t with
          | negative =>
              cases s <;> exact congrArg some (compare_gt_iff_gt.mpr hlower).symm
          | positive =>
              cases s <;> exact congrArg some (compare_lt_iff_lt.mpr hupper).symm
      | zero t =>
          cases s with
          | negative => exact congrArg some (compare_lt_iff_lt.mpr (neg_neg_of_pos hpos)).symm
          | positive => exact congrArg some (compare_gt_iff_gt.mpr hpos).symm
      | finite t m' e' hm' =>
          -- Signs that differ decide; with two minus signs the ranks compare the other way round.
          have hpos' := hv.rank_pos hm'
          have hrank := hu.compare_rank hv
          cases s with
          | negative =>
              cases t with
              | negative =>
                  refine congrArg some ?_
                  rw [hrank]
                  exact (compare_neg_neg _ _).symm
              | positive =>
                  exact congrArg some
                    (compare_lt_iff_lt.mpr ((neg_neg_of_pos hpos).trans hpos')).symm
          | positive =>
              cases t with
              | negative =>
                  exact congrArg some
                    (compare_gt_iff_gt.mpr ((neg_neg_of_pos hpos').trans hpos)).symm
              | positive => exact congrArg some hrank

/-! ## Parts of doubles -/

/-- The parts of a double with a sign, an exponent and a mantissa. -/
def partsOf (s : Sign) (e : BitVec 11) (m : BitVec 52) : UnpackedFloat :=
  if e = -1#11 then if m = 0#52 then .infinity s else .notANumber
  else if e = 0#11 then
    if h : m = 0#52 then .zero s
    else .finite s m.toNat (-1074)
      (Nat.pos_of_ne_zero fun h0 => h (BitVec.eq_of_toNat_eq h0))
  else .finite s (2 ^ 52 + m.toNat) (e.toNat - 1075) (by omega)

theorem exponentBias_binary64 : Format.binary64.exponentBias = 1023 := rfl

theorem toNat_append_implicit (m : BitVec 52) : (1#1 ++ m).toNat = 2 ^ 52 + m.toNat := by
  rw [BitVec.toNat_append, ← Nat.shiftLeft_add_eq_or_of_lt m.isLt]
  rfl

theorem unpack_eq (b : BitVec 64) : UnpackedFloat.unpack Format.binary64 b =
    partsOf (Sign.ofBitVec (@UnpackedFloat.unpackSign Format.binary64 b))
      (@UnpackedFloat.unpackExponent Format.binary64 b)
      (@UnpackedFloat.unpackMantissa Format.binary64 b) := by
  unfold UnpackedFloat.unpack partsOf
  dsimp only
  split_ifs with hspecial hzero hleast hzero
  · rfl
  · rfl
  · rfl
  · simp only [hleast]
    rfl
  · simp only [toNat_append_implicit]
    rfl

theorem isCanonical_partsOf (s : Sign) (e : BitVec 11) (m : BitVec 52) :
    IsCanonical (partsOf s e m) := by
  have hm := m.isLt
  have he := e.isLt
  unfold partsOf
  split_ifs with hspecial hzero hleast hzero
  · trivial
  · trivial
  · trivial
  · exact ⟨by decide, by decide, hm.trans (by decide), Or.inr rfl⟩
  · have hpos : e.toNat ≠ 0 := fun h => hleast (BitVec.eq_of_toNat_eq h)
    have hmax : e.toNat ≠ 2047 := fun h => hspecial (BitVec.eq_of_toNat_eq h)
    refine ⟨?_, ?_, ?_, Or.inl ?_⟩
    · omega
    · omega
    · omega
    · omega

/-- The place of a double is read off its pattern. -/
theorem placeOf_partsOf (s : Sign) {e : BitVec 11} {m : BitVec 52} (h : e = -1#11 → m = 0#52) :
    placeOf (partsOf s e m) = some (signed s (e.toNat * 2 ^ 52 + m.toNat : Int)) := by
  unfold partsOf
  split_ifs with hspecial hzero hleast hzero
  · subst hspecial hzero
    rfl
  · exact absurd (h hspecial) hzero
  · subst hleast hzero
    cases s <;> simp [placeOf, signed]
  · subst hleast
    simp [placeOf, rank]
  · have hpos : e.toNat ≠ 0 := fun h => hleast (BitVec.eq_of_toNat_eq h)
    simp only [placeOf, rank]
    congr 2
    omega

/-- The pattern of a double as a number. -/
theorem toNat_packComponents (s : Sign) (e : BitVec 11) (m : BitVec 52) :
    (UnpackedFloat.packComponents Format.binary64 s e m).toNat =
      s.toBitVec.toNat * 2 ^ 63 + e.toNat * 2 ^ 52 + m.toNat := by
  rw [UnpackedFloat.packComponents, BitVec.toNat_append, BitVec.toNat_append,
    ← Nat.shiftLeft_add_eq_or_of_lt m.isLt, ← Nat.shiftLeft_add_eq_or_of_lt e.isLt]
  simp only [Nat.shiftLeft_eq]
  omega

theorem ofBitVec_unpackSign_packComponents (s : Sign) (e : BitVec 11) (m : BitVec 52) :
    Sign.ofBitVec (@UnpackedFloat.unpackSign Format.binary64
      (UnpackedFloat.packComponents Format.binary64 s e m)) = s := by
  have hbit : @UnpackedFloat.unpackSign Format.binary64
      (UnpackedFloat.packComponents Format.binary64 s e m) = s.toBitVec := by
    have hs := s.toBitVec.isLt
    have he := e.isLt
    have hm := m.isLt
    refine BitVec.eq_of_toNat_eq ?_
    rw [UnpackedFloat.unpackSign, BitVec.toNat_cast, BitVec.extractLsb_toNat,
      toNat_packComponents, Nat.shiftRight_eq_div_pow]
    change (s.toBitVec.toNat * 2 ^ 63 + e.toNat * 2 ^ 52 + m.toNat) / 2 ^ 63 % 2 ^ 1 = _
    omega
  rw [hbit]
  cases s <;> rfl

theorem unpack_packComponents (s : Sign) (e : BitVec 11) (m : BitVec 52) :
    UnpackedFloat.unpack Format.binary64 (UnpackedFloat.packComponents Format.binary64 s e m) =
      partsOf s e m := by
  rw [unpack_eq, ofBitVec_unpackSign_packComponents]
  exact congrArg₂ (partsOf s) UnpackedFloat.unpackExponent_packComponents
    UnpackedFloat.unpackMantissa_packComponents

/-- A canonical pair is written with its implicit bit left out, and with exponent zero if it has
none. -/
theorem pack_finite (s : Sign) {m : Nat} {e : Int} (hm : 0 < m) (h : Canonical m e) :
    UnpackedFloat.pack Format.binary64 (.finite s m e hm) =
      UnpackedFloat.packComponents Format.binary64 s
        (if 2 ^ 52 ≤ m then BitVec.ofNat 11 (e + 1075).toNat else 0#11) (BitVec.ofNat 52 m) := by
  have hleast := h.least
  have hgreatest := h.greatest
  have hlog : m.log2 + 1 = Format.binary64.mantissaBits ↔ 2 ^ 52 ≤ m := by
    rw [← Nat.le_log2 hm.ne']
    have hlt := (Nat.log2_lt hm.ne').mpr h.mantissa_lt
    change m.log2 + 1 = 1 + 52 ↔ _
    omega
  have hsmall : ¬ 2 ^ 11 ≤ (e + (1023 : Nat) + (52 : Nat)).toNat + 1 := by omega
  have hbias : (e + (1023 : Nat) + (52 : Nat)).toNat = (e + 1075).toNat := by omega
  rw [UnpackedFloat.pack]
  dsimp only
  rw [exponentBias_binary64, if_neg hsmall, hbias]
  by_cases hnormal : 2 ^ 52 ≤ m
  · rw [if_pos (hlog.mpr hnormal), if_pos hnormal]
  · rw [if_neg (mt hlog.mp hnormal), if_neg hnormal]

/-- A pattern other than NaN is kept. -/
theorem pack_partsOf (s : Sign) {e : BitVec 11} {m : BitVec 52} (h : e = -1#11 → m = 0#52) :
    UnpackedFloat.pack Format.binary64 (partsOf s e m) =
      UnpackedFloat.packComponents Format.binary64 s e m := by
  have hm := m.isLt
  have hcanonical := isCanonical_partsOf s e m
  unfold partsOf at hcanonical ⊢
  split_ifs at hcanonical ⊢ with hspecial hzero hleast hzero
  · subst hspecial hzero
    rfl
  · exact absurd (h hspecial) hzero
  · subst hleast hzero
    rfl
  · subst hleast
    rw [pack_finite s _ hcanonical, if_neg (by omega), BitVec.ofNat_toNat, BitVec.setWidth_eq]
  · have hexponent : ((e.toNat : Int) - 1075 + 1075).toNat = e.toNat := by omega
    have hmantissa : BitVec.ofNat 52 (2 ^ 52 + m.toNat) = m := by
      refine BitVec.eq_of_toNat_eq ?_
      rw [BitVec.toNat_ofNat]
      omega
    rw [pack_finite s _ hcanonical, if_pos (by omega), hexponent, hmantissa, BitVec.ofNat_toNat,
      BitVec.setWidth_eq]

/-! ## Comparing doubles -/

/-- Where a double stands among the others; NaN has no place. -/
def place (x : Float) : Option Int :=
  placeOf x.toModel.unpack

/-- Patterns up to infinity are the doubles from zero on in their order. -/
theorem place_ofBits (s : Sign) {n : Nat} (h : n ≤ infinityBits) :
    place (Float.ofBits (UInt64.ofNat (s.toBitVec.toNat * 2 ^ 63 + n))) =
      some (signed s (n : Int)) := by
  unfold infinityBits at h
  have hs := s.toBitVec.isLt
  have hsplit := Nat.div_add_mod' n (2 ^ 52)
  have hmod := Nat.mod_lt n (show 2 ^ 52 > 0 by decide)
  have hword : (UInt64.ofNat (s.toBitVec.toNat * 2 ^ 63 + n)).toBitVec =
      UnpackedFloat.packComponents Format.binary64 s (BitVec.ofNat 11 (n / 2 ^ 52))
        (BitVec.ofNat 52 (n % 2 ^ 52)) := by
    refine BitVec.eq_of_toNat_eq ?_
    rw [toNat_packComponents, UInt64.toNat_toBitVec, UInt64.toNat_ofNat', BitVec.toNat_ofNat,
      BitVec.toNat_ofNat]
    omega
  have hinfinite : BitVec.ofNat 11 (n / 2 ^ 52) = -1#11 → BitVec.ofNat 52 (n % 2 ^ 52) = 0#52 := by
    intro hspecial
    have hspecial := congrArg BitVec.toNat hspecial
    refine BitVec.eq_of_toNat_eq ?_
    rw [BitVec.toNat_ofNat] at hspecial ⊢
    change _ = 2047 at hspecial
    change _ = 0
    omega
  change placeOf (UnpackedFloat.unpack Format.binary64 (UnpackedFloat.pack Format.binary64
    (UnpackedFloat.unpack Format.binary64 (UInt64.toBitVec _)))) = _
  rw [hword, unpack_packComponents, pack_partsOf s hinfinite, unpack_packComponents,
    placeOf_partsOf s hinfinite, BitVec.toNat_ofNat, BitVec.toNat_ofNat]
  congr 2
  omega

theorem isCanonical_unpack (x : Float) : IsCanonical x.toModel.unpack := by
  change IsCanonical (UnpackedFloat.unpack Format.binary64 _)
  rw [unpack_eq]
  exact isCanonical_partsOf _ _ _

theorem compare_unpack (x y : Float) : x.toModel.unpack.compare y.toModel.unpack =
    (place x).bind fun a => (place y).map fun b => compare a b :=
  compare_eq (isCanonical_unpack x) (isCanonical_unpack y)

theorem lt_eq (x y : Float) :
    Scalar.lt x y = (x.toModel.unpack.compare y.toModel.unpack == some .lt) := by
  change decide (decide (Float.Model.lt x.toModel y.toModel = true) = true) = _
  rw [Bool.decide_eq_true, Bool.decide_eq_true]
  rfl

theorem le_eq (x y : Float) :
    Scalar.le x y = (x.toModel.unpack.compare y.toModel.unpack).any Ordering.isLE := by
  change decide (decide (Float.Model.le x.toModel y.toModel = true) = true) = _
  rw [Bool.decide_eq_true, Bool.decide_eq_true]
  rfl

theorem lt_iff {x y : Float} :
    Scalar.lt x y = true ↔ ∃ a b, place x = some a ∧ place y = some b ∧ a < b := by
  rw [lt_eq, compare_unpack]
  cases place x <;> cases place y <;> simp [compare_lt_iff_lt]

theorem le_iff {x y : Float} :
    Scalar.le x y = true ↔ ∃ a b, place x = some a ∧ place y = some b ∧ a ≤ b := by
  rw [le_eq, compare_unpack]
  cases place x <;> cases place y <;> simp [Ordering.isLE_iff_ne_gt, compare_gt_iff_gt]

theorem same_iff {x y : Float} :
    Scalar.same x y = true ↔ ∃ a, place x = some a ∧ place y = some a := by
  change (x.toModel.unpack.compare y.toModel.unpack == some .eq) = true ↔ _
  rw [compare_unpack]
  rcases place x with _ | a <;> rcases place y with _ | b
  · simp
  · simp
  · simp
  · simpa using eq_comm

section places

variable {x y : Float} {a b : Int}

theorem lt_eq_decide (hx : place x = some a) (hy : place y = some b) :
    Scalar.lt x y = decide (a < b) := by
  rw [Bool.eq_iff_iff, lt_iff, decide_eq_true_iff, hx, hy]
  simp

theorem le_eq_decide (hx : place x = some a) (hy : place y = some b) :
    Scalar.le x y = decide (a ≤ b) := by
  rw [Bool.eq_iff_iff, le_iff, decide_eq_true_iff, hx, hy]
  simp

theorem same_eq_decide (hx : place x = some a) (hy : place y = some b) :
    Scalar.same x y = decide (a = b) := by
  rw [Bool.eq_iff_iff, same_iff, decide_eq_true_iff, hx, hy]
  simp [eq_comm]

end places

protected theorem le_trans {x y z : Float} (hxy : Scalar.le x y = true)
    (hyz : Scalar.le y z = true) : Scalar.le x z = true := by
  obtain ⟨a, b, ha, hb, hab⟩ := le_iff.mp hxy
  rw [le_iff] at hyz ⊢
  obtain ⟨b', c, hb', hc, hbc⟩ := hyz
  obtain rfl := Option.some.inj (hb.symm.trans hb')
  exact ⟨a, c, ha, hc, hab.trans hbc⟩

/-- A double that is compared is not NaN, so it is up to itself. -/
theorem le_self_of_le {x y : Float} (h : Scalar.le x y = true) :
    Scalar.le x x = true ∧ Scalar.le y y = true := by
  obtain ⟨a, b, ha, hb, -⟩ := le_iff.mp h
  exact ⟨le_iff.mpr ⟨a, a, ha, ha, le_rfl⟩, le_iff.mpr ⟨b, b, hb, hb, le_rfl⟩⟩

end MarkovRegion.Double
