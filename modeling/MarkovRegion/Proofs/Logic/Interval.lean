import MarkovRegion.Logic.Bound
import MarkovRegion.Proofs.Number.Rounding

/-!
# What an interval of doubles proves about a bound

`Bound.classify` compares the ends of an interval with the threshold rounded to a double, and its
verdict is meant for the exact values between the ends (`IntervalVerdict.Valid`).  Rounding never
crosses a double, so an end that is apart from the rounded threshold is on the same side of the
exact one and the verdict is valid.  An end on the rounded threshold need not be on the exact one:
the interval `[t, t]` with `t` the double nearest to `1/3` is said to satisfy `>= 1/3`, and `t` is
below `1/3` (`Bound.classify_misleads`).

So the verdict on an interval is valid exactly if it is valid at the rounded threshold, should that
lie in the interval (`Bound.classify_valid_iff`).  In particular it is valid if the threshold is
itself a double.
-/

namespace MarkovRegion

open Double (value nearest place)

/-- A verdict tells the truth about all values from `lower` to `upper`. -/
def IntervalVerdict.Valid (v : IntervalVerdict) (b : Bound) (lower upper : ℚ) : Prop :=
  match v with
  | .allSatisfy => ∀ x, lower ≤ x → x ≤ upper → b.holds x = true
  | .allViolate => ∀ x, lower ≤ x → x ≤ upper → b.holds x = false
  | .inconclusive => True

namespace Comparison

/-- All values from place `a` to place `c` satisfy the comparison with the threshold at `p`. -/
def Satisfied : Comparison → Int → Int → Int → Prop
  | less, _, p, c => c < p
  | lessEqual, _, p, c => c ≤ p
  | greater, a, p, _ => p < a
  | greaterEqual, a, p, _ => p ≤ a
  | equal, a, p, c => a = p ∧ c = p

/-- No value from place `a` to place `c` satisfies the comparison with the threshold at `p`. -/
def Violated : Comparison → Int → Int → Int → Prop
  | less, a, p, _ => p ≤ a
  | lessEqual, a, p, _ => p < a
  | greater, _, p, c => c ≤ p
  | greaterEqual, _, p, c => c < p
  | equal, a, p, c => c < p ∨ p < a

end Comparison

/-! ## Where the rounded threshold stands -/

/-- The places of the ends of an interval and of a rounded threshold, and what they say about the
threshold itself. -/
structure Placed (threshold : ℚ) (lower upper : Float) (a p c : Int) : Prop where
  place_lower : place lower = some a
  place_rounded : place (nearest threshold) = some p
  place_upper : place upper = some c
  le : a ≤ c
  value_le : value lower ≤ value upper
  below : p < a → threshold < value lower
  above : c < p → value upper < threshold
  on_lower : p = a → value (nearest threshold) = value lower
  on_upper : p = c → value (nearest threshold) = value upper

theorem exists_placed (threshold : ℚ) {lower upper : Float} (hlower : lower.isFinite = true)
    (hupper : upper.isFinite = true) (h : Scalar.le lower upper = true) :
    ∃ a p c, Placed threshold lower upper a p c := by
  obtain ⟨a, c, ha, hc, hac⟩ := Double.le_iff.mp h
  have hp := Double.place_nearest threshold
  refine ⟨a, _, c, ha, hp, hc, hac, Double.value_le_value hlower hupper h, ?_, ?_, ?_, ?_⟩
  · intro hlt
    by_contra hle
    have hcross := Double.le_nearest hlower (not_lt.mp hle)
    rw [Double.le_eq_decide ha hp, decide_eq_true_iff] at hcross
    exact hcross.not_gt hlt
  · intro hlt
    by_contra hle
    have hcross := Double.nearest_le hupper (not_lt.mp hle)
    rw [Double.le_eq_decide hp hc, decide_eq_true_iff] at hcross
    exact hcross.not_gt hlt
  · intro heq
    exact Double.value_eq_of_place hlower ha (heq ▸ hp)
  · intro heq
    exact Double.value_eq_of_place hupper hc (heq ▸ hp)

namespace Placed

variable {threshold : ℚ} {lower upper : Float} {a p c : Int}

/-- Above an interval, or on its upper end, the rounded threshold decides what holds below the
threshold. -/
theorem forall_iff_of_le {P : ℚ → Prop} (hplaced : Placed threshold lower upper a p c) (h : c ≤ p)
    (hbelow : ∀ x, x < threshold → P x) (hdown : ∀ x y, x ≤ y → P y → P x) :
    (∀ x, value lower ≤ x → x ≤ value upper → P x) ↔
      (a ≤ p → p ≤ c → P (value (nearest threshold))) := by
  rcases h.lt_or_eq with h | rfl
  · refine iff_of_true (fun x _ hx => hbelow x (hx.trans_lt (hplaced.above h))) ?_
    intro _ hpc
    exact absurd hpc h.not_ge
  · rw [hplaced.on_upper rfl]
    constructor
    · intro hall _ _
      exact hall _ hplaced.value_le le_rfl
    · intro hupper x _ hx
      exact hdown x _ hx (hupper hplaced.le le_rfl)

/-- Below an interval, or on its lower end, the rounded threshold decides what holds above the
threshold. -/
theorem forall_iff_of_ge {P : ℚ → Prop} (hplaced : Placed threshold lower upper a p c) (h : p ≤ a)
    (habove : ∀ x, threshold < x → P x) (hup : ∀ x y, x ≤ y → P x → P y) :
    (∀ x, value lower ≤ x → x ≤ value upper → P x) ↔
      (a ≤ p → p ≤ c → P (value (nearest threshold))) := by
  rcases h.lt_or_eq with h | rfl
  · refine iff_of_true (fun x hx _ => habove x ((hplaced.below h).trans_le hx)) ?_
    intro hap _
    exact absurd hap h.not_ge
  · rw [hplaced.on_lower rfl]
    constructor
    · intro hall _ _
      exact hall _ le_rfl hplaced.value_le
    · intro hlower x hx _
      exact hup _ x hx (hlower le_rfl hplaced.le)

end Placed

namespace Bound

variable {b : Bound} {lower upper : Float} {a p c : Int}

theorem allSatisfy_iff (hlower : place lower = some a)
    (hrounded : place (nearest b.threshold) = some p) (hupper : place upper = some c) :
    b.allSatisfy lower upper = true ↔ b.comparison.Satisfied a p c := by
  replace hrounded : place (Scalar.ofRat b.threshold) = some p := hrounded
  unfold allSatisfy Comparison.Satisfied
  cases b.comparison with
  | less => simp [Double.lt_eq_decide hupper hrounded]
  | lessEqual => simp [Double.le_eq_decide hupper hrounded]
  | greater => simp [Double.lt_eq_decide hrounded hlower]
  | greaterEqual => simp [Double.le_eq_decide hrounded hlower]
  | equal => simp [Double.same_eq_decide hlower hrounded, Double.same_eq_decide hupper hrounded]

theorem allViolate_iff (hlower : place lower = some a)
    (hrounded : place (nearest b.threshold) = some p) (hupper : place upper = some c) :
    b.allViolate lower upper = true ↔ b.comparison.Violated a p c := by
  replace hrounded : place (Scalar.ofRat b.threshold) = some p := hrounded
  unfold allViolate Comparison.Violated
  cases b.comparison with
  | less => simp [Double.le_eq_decide hrounded hlower]
  | lessEqual => simp [Double.lt_eq_decide hrounded hlower]
  | greater => simp [Double.le_eq_decide hupper hrounded]
  | greaterEqual => simp [Double.lt_eq_decide hupper hrounded]
  | equal => simp [Double.lt_eq_decide hupper hrounded, Double.lt_eq_decide hrounded hlower]

theorem allSatisfy_valid_iff (hplaced : Placed b.threshold lower upper a p c)
    (h : b.allSatisfy lower upper = true) :
    (∀ x, value lower ≤ x → x ≤ value upper → b.holds x = true) ↔
      (a ≤ p → p ≤ c → b.holds (value (nearest b.threshold)) = true) := by
  rw [allSatisfy_iff hplaced.place_lower hplaced.place_rounded hplaced.place_upper] at h
  simp only [holds]
  cases hb : b.comparison with
  | less =>
      rw [hb] at h
      simp only [decide_eq_true_eq]
      exact hplaced.forall_iff_of_le h.le (fun _ hx => hx) fun _ _ hxy hy => hxy.trans_lt hy
  | lessEqual =>
      rw [hb] at h
      simp only [decide_eq_true_eq]
      exact hplaced.forall_iff_of_le h (fun _ hx => hx.le) fun _ _ hxy hy => hxy.trans hy
  | greater =>
      rw [hb] at h
      simp only [decide_eq_true_eq]
      exact hplaced.forall_iff_of_ge h.le (fun _ hx => hx) fun _ _ hxy hx => hx.trans_le hxy
  | greaterEqual =>
      rw [hb] at h
      simp only [decide_eq_true_eq]
      exact hplaced.forall_iff_of_ge h (fun _ hx => hx.le) fun _ _ hxy hx => hx.trans hxy
  | equal =>
      rw [hb] at h
      simp only [decide_eq_true_eq]
      -- the interval is the rounded threshold alone
      obtain ⟨rfl, rfl⟩ := h
      rw [← hplaced.on_lower rfl, ← hplaced.on_upper rfl]
      constructor
      · intro hall _ _
        exact hall _ le_rfl le_rfl
      · intro hpoint x hx hx'
        rw [le_antisymm hx' hx]
        exact hpoint le_rfl le_rfl

theorem allViolate_valid_iff (hplaced : Placed b.threshold lower upper a p c)
    (h : b.allViolate lower upper = true) :
    (∀ x, value lower ≤ x → x ≤ value upper → b.holds x = false) ↔
      (a ≤ p → p ≤ c → b.holds (value (nearest b.threshold)) = false) := by
  rw [allViolate_iff hplaced.place_lower hplaced.place_rounded hplaced.place_upper] at h
  simp only [holds]
  cases hb : b.comparison with
  | less =>
      rw [hb] at h
      simp only [decide_eq_false_iff_not, not_lt]
      exact hplaced.forall_iff_of_ge h (fun _ hx => hx.le) fun _ _ hxy hx => hx.trans hxy
  | lessEqual =>
      rw [hb] at h
      simp only [decide_eq_false_iff_not, not_le]
      exact hplaced.forall_iff_of_ge h.le (fun _ hx => hx) fun _ _ hxy hx => hx.trans_le hxy
  | greater =>
      rw [hb] at h
      simp only [decide_eq_false_iff_not, not_lt]
      exact hplaced.forall_iff_of_le h (fun _ hx => hx.le) fun _ _ hxy hy => hxy.trans hy
  | greaterEqual =>
      rw [hb] at h
      simp only [decide_eq_false_iff_not, not_le]
      exact hplaced.forall_iff_of_le h.le (fun _ hx => hx) fun _ _ hxy hy => hxy.trans_lt hy
  | equal =>
      rw [hb] at h
      simp only [decide_eq_false_iff_not]
      rcases h with habove | hbelow
      · refine iff_of_true (fun x _ hx => (hx.trans_lt (hplaced.above habove)).ne) ?_
        intro _ hpc
        exact absurd hpc habove.not_ge
      · refine iff_of_true (fun x hx _ => ((hplaced.below hbelow).trans_le hx).ne') ?_
        intro hap _
        exact absurd hap hbelow.not_ge

theorem holds_threshold_of_allSatisfy (hplaced : Placed b.threshold lower upper a p c)
    (h : b.allSatisfy lower upper = true) (hap : a ≤ p) (hpc : p ≤ c) :
    b.holds b.threshold = true := by
  rw [allSatisfy_iff hplaced.place_lower hplaced.place_rounded hplaced.place_upper] at h
  unfold holds
  cases hb : b.comparison with
  | less =>
      rw [hb] at h
      exact absurd hpc h.not_ge
  | greater =>
      rw [hb] at h
      exact absurd hap h.not_ge
  | lessEqual => exact decide_eq_true le_rfl
  | greaterEqual => exact decide_eq_true le_rfl
  | equal => exact decide_eq_true rfl

theorem not_holds_threshold_of_allViolate (hplaced : Placed b.threshold lower upper a p c)
    (h : b.allViolate lower upper = true) (hap : a ≤ p) (hpc : p ≤ c) :
    b.holds b.threshold = false := by
  rw [allViolate_iff hplaced.place_lower hplaced.place_rounded hplaced.place_upper] at h
  unfold holds
  cases hb : b.comparison with
  | less => exact decide_eq_false (lt_irrefl _)
  | greater => exact decide_eq_false (lt_irrefl _)
  | lessEqual =>
      rw [hb] at h
      exact absurd hap h.not_ge
  | greaterEqual =>
      rw [hb] at h
      exact absurd hpc h.not_ge
  | equal =>
      rw [hb] at h
      rcases h with h | h
      · exact absurd hpc h.not_ge
      · exact absurd hap h.not_ge

theorem valid_point {v : IntervalVerdict} {x : ℚ} : v.Valid b x x ↔
    (v = .allSatisfy → b.holds x = true) ∧ (v = .allViolate → b.holds x = false) := by
  cases v with
  | allSatisfy =>
      refine ⟨fun h => ⟨fun _ => h x le_rfl le_rfl, nofun⟩, fun h y hxy hyx => ?_⟩
      rw [le_antisymm hyx hxy]
      exact h.1 rfl
  | allViolate =>
      refine ⟨fun h => ⟨nofun, fun _ => h x le_rfl le_rfl⟩, fun h y hxy hyx => ?_⟩
      rw [le_antisymm hyx hxy]
      exact h.2 rfl
  | inconclusive => exact iff_of_true trivial ⟨nofun, nofun⟩

/-- The verdict on an interval is valid exactly if it is valid at the rounded threshold, should
that lie in the interval; and it is valid if the threshold is a double. -/
theorem classify_valid_iff (b : Bound) {lower upper : Float} (hlower : lower.isFinite = true)
    (hupper : upper.isFinite = true) (h : Scalar.le lower upper = true) :
    ((b.classify lower upper).Valid b (value lower) (value upper) ↔
      (Scalar.le lower (nearest b.threshold) = true → Scalar.le (nearest b.threshold) upper = true →
        (b.classify lower upper).Valid b (value (nearest b.threshold))
          (value (nearest b.threshold)))) ∧
    ((∃ t : Float, t.isFinite = true ∧ value t = b.threshold) →
      (b.classify lower upper).Valid b (value lower) (value upper)) := by
  obtain ⟨a, p, c, hplaced⟩ := exists_placed b.threshold hlower hupper h
  have hexact : (∃ t : Float, t.isFinite = true ∧ value t = b.threshold) →
      value (nearest b.threshold) = b.threshold := by
    rintro ⟨t, ht, hvalue⟩
    rw [← hvalue]
    exact Double.value_nearest ht
  rw [Double.le_eq_decide hplaced.place_lower hplaced.place_rounded,
    Double.le_eq_decide hplaced.place_rounded hplaced.place_upper, decide_eq_true_iff,
    decide_eq_true_iff, valid_point]
  unfold classify
  split_ifs with hsatisfy hviolate
  · have hvalid := allSatisfy_valid_iff hplaced hsatisfy
    refine ⟨?_, fun hdouble => hvalid.mpr fun hap hpc => ?_⟩
    · simpa [IntervalVerdict.Valid] using hvalid
    · rw [hexact hdouble]
      exact holds_threshold_of_allSatisfy hplaced hsatisfy hap hpc
  · have hvalid := allViolate_valid_iff hplaced hviolate
    refine ⟨?_, fun hdouble => hvalid.mpr fun hap hpc => ?_⟩
    · simpa [IntervalVerdict.Valid] using hvalid
    · rw [hexact hdouble]
      exact not_holds_threshold_of_allViolate hplaced hviolate hap hpc
  · exact ⟨iff_of_true trivial fun _ _ => ⟨nofun, nofun⟩, fun _ => trivial⟩

/-- The bound `>= 1/3`. -/
def atLeastThird : Bound := ⟨.greaterEqual, 1 / 3⟩

/-- The double nearest to `1/3`. -/
def roundedThird : Float := Float.ofBits 0x3fd5555555555555

theorem isFinite_roundedThird : roundedThird.isFinite = true := by decide

theorem value_roundedThird_lt : value roundedThird < 1 / 3 := by decide +kernel

/-- The double nearest to `1/3` is below it, and said to satisfy `>= 1/3`. -/
theorem classify_misleads : roundedThird.isFinite = true ∧
    atLeastThird.classify roundedThird roundedThird = .allSatisfy ∧
    ¬ (atLeastThird.classify roundedThird roundedThird).Valid atLeastThird (value roundedThird)
      (value roundedThird) := by
  have hclassify : atLeastThird.classify roundedThird roundedThird = .allSatisfy := by
    decide +kernel
  refine ⟨isFinite_roundedThird, hclassify, ?_⟩
  rw [hclassify]
  intro hvalid
  have hthird := hvalid _ le_rfl le_rfl
  exact value_roundedThird_lt.not_ge (of_decide_eq_true hthird)

/-- From the double nearest to `1/3` up to a half, the verdict on `>= 1/3` fails at its lower end;
the verdict on `>= 1/2` is valid everywhere. -/
theorem classify_third_to_half :
    roundedThird.isFinite = true ∧ (0.5 : Float).isFinite = true ∧
    Scalar.le roundedThird (0.5 : Float) = true ∧
    ¬ (atLeastThird.classify roundedThird 0.5).Valid atLeastThird (value roundedThird) (value 0.5) ∧
    (Bound.classify ⟨.greaterEqual, 1 / 2⟩ roundedThird 0.5).Valid ⟨.greaterEqual, 1 / 2⟩
      (value roundedThird) (value 0.5) := by
  have hfinite : (0.5 : Float).isFinite = true := by decide +kernel
  have hle : Scalar.le roundedThird (0.5 : Float) = true := by decide +kernel
  refine ⟨isFinite_roundedThird, hfinite, hle, fun hvalid => ?_, ?_⟩
  · have hpoint := (classify_valid_iff atLeastThird isFinite_roundedThird hfinite hle).1.mp hvalid
      (by decide +kernel) (by decide +kernel)
    have hclassify : atLeastThird.classify roundedThird 0.5 = .allSatisfy := by decide +kernel
    rw [hclassify] at hpoint
    have hbelow : value (nearest atLeastThird.threshold) < 1 / 3 := by decide +kernel
    exact hbelow.not_ge (of_decide_eq_true (hpoint _ le_rfl le_rfl))
  · exact (classify_valid_iff _ isFinite_roundedThird hfinite hle).2
      ⟨0.5, hfinite, by decide +kernel⟩

end Bound

end MarkovRegion
