import Mathlib.Tactic.LinearCombination
import MarkovRegion.Proofs.Region.Corners

/-!
# The corners of a box span it

The corners over some parameters are numbered: the bits of the number of a corner say which end of
each side it takes (`Box.corners_eq_map`).  So there are as many corners as bit patterns, and two
corners differ if their numbers do, unless a side has only one point (`Box.nodup_corners_iff`).

A value of a side lies between its ends, at a share of the way from the lower one to the upper one.
The products of these shares are weights of the corners (`Box.weight`) whose mean is the point
(`Box.mean_linear`); a side with one point has the share zero, so one of its two equal corners gets
all the weight.  `Box.vertices_span` puts this together for functions that are seen to be linear.
-/

namespace MarkovRegion

open RationalFunction (pointReading)

/-! ## One side -/

namespace Interval

variable {i : Interval} {x : ℚ}

/-- An end of an interval. -/
def edge (i : Interval) (top : Bool) : ℚ := if top then i.upper else i.lower

/-- How far a value is on the way from the lower end to the upper one.  On an interval with one
point this is zero. -/
def share (i : Interval) (x : ℚ) : ℚ := (x - i.lower) / (i.upper - i.lower)

/-- The weight of an end for a value. -/
def weight (i : Interval) (x : ℚ) (top : Bool) : ℚ := if top then i.share x else 1 - i.share x

theorem weight_nonneg (hlower : i.lower ≤ x) (hupper : x ≤ i.upper) (top : Bool) :
    0 ≤ i.weight x top := by
  have hwidth : 0 ≤ i.upper - i.lower := sub_nonneg.mpr i.ordered
  cases top with
  | true => exact div_nonneg (sub_nonneg.mpr hlower) hwidth
  | false => exact sub_nonneg.mpr (div_le_one_of_le₀ (sub_le_sub_right hupper i.lower) hwidth)

theorem weight_add (i : Interval) (x : ℚ) : i.weight x false + i.weight x true = 1 :=
  sub_add_cancel 1 (i.share x)

/-- A value is the mean of the ends. -/
theorem weight_mul_edge (hlower : i.lower ≤ x) (hupper : x ≤ i.upper) :
    i.weight x false * i.edge false + i.weight x true * i.edge true = x := by
  show (1 - i.share x) * i.lower + i.share x * i.upper = x
  rcases i.ordered.eq_or_lt with heq | hlt
  · have hx : x = i.lower := le_antisymm (heq ▸ hupper) hlower
    rw [hx, share, sub_self, zero_div, ← heq]
    ring
  · have hne : i.upper - i.lower ≠ 0 := (sub_pos.mpr hlt).ne'
    have hshare : i.share x * (i.upper - i.lower) = x - i.lower := div_mul_cancel₀ _ hne
    linear_combination hshare

end Interval

namespace Box

/-! ## Numbers of corners -/

/-- The corner of a number. -/
def corner (sides : List (Parameter × Interval)) (n : Nat) : List (Parameter × ℚ) :=
  sides.mapIdx fun j s => (s.1, s.2.edge (n.testBit j))

variable {sides : List (Parameter × Interval)}

theorem corner_bit (s : Parameter × Interval) (rest : List (Parameter × Interval)) (top : Bool)
    (n : Nat) : corner (s :: rest) (Nat.bit top n) = (s.1, s.2.edge top) :: corner rest n := by
  simp only [corner, List.mapIdx_cons, Nat.testBit_bit_zero, Nat.testBit_bit_succ]

theorem getElem?_corner (sides : List (Parameter × Interval)) (n j : Nat) :
    (corner sides n)[j]? = sides[j]?.map fun s => (s.1, s.2.edge (n.testBit j)) :=
  List.getElem?_mapIdx

theorem map_fst_corner (sides : List (Parameter × Interval)) (n : Nat) :
    (corner sides n).map Prod.fst = sides.map Prod.fst := by
  refine List.ext_getElem? fun j => ?_
  rw [List.getElem?_map, List.getElem?_map, getElem?_corner, Option.map_map]
  rfl

/-- The parameters of a corner are those of the sides. -/
theorem mem_keys_corner {p : Parameter} (n : Nat) :
    p ∈ (OrderedMap.ofList (corner sides n)).keys ↔ p ∈ sides.map Prod.fst := by
  rw [OrderedMap.mem_keys_ofList, map_fst_corner]

/-- The numbers below an even one in pairs that differ in the lowest bit. -/
theorem range_two_mul (n : Nat) :
    List.range (2 * n) = (List.range n).flatMap fun k => [Nat.bit false k, Nat.bit true k] := by
  induction n with
  | zero => rfl
  | succ n ih =>
      rw [Nat.mul_succ, List.range_succ, List.range_succ, ih, List.range_succ (n := n),
        List.flatMap_append, List.append_assoc]
      rfl

/-- The corners in the order of their numbers. -/
theorem corners_eq_map (sides : List (Parameter × Interval)) :
    corners sides = (List.range (2 ^ sides.length)).map (corner sides) := by
  induction sides with
  | nil => rfl
  | cons s rest ih =>
      rw [corners, ih, List.length_cons, pow_succ', range_two_mul, List.map_flatMap,
        List.flatMap_map]
      refine List.flatMap_congr fun k _ => ?_
      rw [List.map_cons, List.map_singleton, corner_bit, corner_bit]
      rfl

section Points

variable (hnodup : (sides.map Prod.fst).Nodup)
include hnodup

/-- The end that a corner takes of a side is told by a bit of its number. -/
theorem find?_corner {j : Nat} {s : Parameter × Interval} (hs : sides[j]? = some s) (n : Nat) :
    (OrderedMap.ofList (corner sides n)).find? s.1 = some (s.2.edge (n.testBit j)) := by
  refine (OrderedMap.find?_ofList (map_fst_corner sides n ▸ hnodup)).mpr ?_
  refine List.mem_of_getElem? (i := j) ?_
  rw [getElem?_corner, hs]
  rfl

/-- The corners differ if no side has only one point. -/
theorem nodup_corners_iff :
    ((corners sides).map OrderedMap.ofList).Nodup ↔ ∀ s ∈ sides, s.2.lower < s.2.upper := by
  rw [corners_eq_map, List.map_map, List.nodup_map_iff_inj_on List.nodup_range]
  constructor
  · intro hinj s hs
    refine s.2.ordered.lt_of_ne fun heq => ?_
    -- The corners zero and `2 ^ j` differ in the end of the `j`-th side only.
    obtain ⟨j, hj⟩ := List.mem_iff_getElem?.mp hs
    have hlt : j < sides.length := (List.getElem?_eq_some_iff.mp hj).1
    have hcorner : corner sides 0 = corner sides (2 ^ j) := by
      refine List.ext_getElem? fun k => ?_
      rw [getElem?_corner, getElem?_corner]
      by_cases hk : j = k
      · subst hk
        simp [hj, Interval.edge, heq]
      · simp [hk]
    have hzero := hinj 0 (List.mem_range.mpr (by positivity)) (2 ^ j)
      (List.mem_range.mpr (Nat.pow_lt_pow_right (by decide) hlt))
      (congrArg OrderedMap.ofList hcorner)
    exact absurd hzero (by positivity)
  · intro hopen m hm n hn hcorner
    rw [List.mem_range] at hm hn
    refine Nat.eq_of_testBit_eq fun j => ?_
    rcases hs : sides[j]? with _ | s
    · -- Both numbers are too small to have a bit beyond the sides.
      have hlength := Nat.pow_le_pow_right (n := 2) (by decide) (List.getElem?_eq_none_iff.mp hs)
      rw [Nat.testBit_lt_two_pow (hm.trans_le hlength),
        Nat.testBit_lt_two_pow (hn.trans_le hlength)]
    · have hedge : s.2.edge (m.testBit j) = s.2.edge (n.testBit j) := by
        refine Option.some.inj ((find?_corner hnodup hs m).symm.trans ?_)
        rw [show OrderedMap.ofList (corner sides m) = .ofList (corner sides n) from hcorner]
        exact find?_corner hnodup hs n
      have hlt := hopen s (List.mem_of_getElem? hs)
      revert hedge
      cases m.testBit j <;> cases n.testBit j <;> simp [Interval.edge, hlt.ne, hlt.ne']

end Points

/-! ## Weights of corners -/

/-- The weight of a corner for a point: the product of the weights of the ends that it takes. -/
def weight (sides : List (Parameter × Interval)) (x : Parameter → ℚ) (n : Nat) : ℚ :=
  (sides.mapIdx fun j s => s.2.weight (x s.1) (n.testBit j)).prod

/-- The weights of all corners, in their order. -/
def weights (sides : List (Parameter × Interval)) (x : Parameter → ℚ) : List ℚ :=
  (List.range (2 ^ sides.length)).map (weight sides x)

/-- The weighted mean of a function of corners. -/
noncomputable def mean (sides : List (Parameter × Interval)) (x : Parameter → ℚ)
    (g : List (Parameter × ℚ) → ℝ) : ℝ :=
  ((List.range (2 ^ sides.length)).map fun n => weight sides x n * g (corner sides n)).sum

variable {x : Parameter → ℚ} {g h : List (Parameter × ℚ) → ℝ}

theorem weight_bit (s : Parameter × Interval) (rest : List (Parameter × Interval)) (top : Bool)
    (n : Nat) :
    weight (s :: rest) x (Nat.bit top n) = s.2.weight (x s.1) top * weight rest x n := by
  simp only [weight, List.mapIdx_cons, Nat.testBit_bit_zero, Nat.testBit_bit_succ, List.prod_cons]

theorem weight_nonneg (hx : ∀ s ∈ sides, s.2.lower ≤ x s.1 ∧ x s.1 ≤ s.2.upper) (n : Nat) :
    0 ≤ weight sides x n := by
  refine List.prod_nonneg fun w hw => ?_
  obtain ⟨j, hj, rfl⟩ := List.mem_mapIdx.mp hw
  obtain ⟨hlower, hupper⟩ := hx _ (List.getElem_mem hj)
  exact Interval.weight_nonneg hlower hupper _

/-- The mean is taken over the ends of the first side and then over the corners of the others. -/
theorem mean_cons (s : Parameter × Interval) (rest : List (Parameter × Interval)) :
    mean (s :: rest) x g = mean rest x fun c =>
      s.2.weight (x s.1) false * g ((s.1, s.2.edge false) :: c) +
        s.2.weight (x s.1) true * g ((s.1, s.2.edge true) :: c) := by
  rw [mean, mean, List.length_cons, pow_succ', range_two_mul, List.map_flatMap,
    List.flatMap_def, List.sum_flatten, List.map_map]
  congr 1
  refine List.map_congr_left fun k _ => ?_
  rw [Function.comp_apply, List.map_cons, List.map_singleton, List.sum_cons, List.sum_singleton,
    weight_bit, weight_bit, corner_bit, corner_bit]
  push_cast
  ring

theorem mean_add : (mean sides x fun c => g c + h c) = mean sides x g + mean sides x h := by
  simp only [mean, mul_add, List.sum_map_add]

theorem mean_const (sides : List (Parameter × Interval)) (x : Parameter → ℚ) (a : ℝ) :
    (mean sides x fun _ => a) = a := by
  induction sides with
  | nil => simp [mean, weight]
  | cons s rest ih =>
      rw [mean_cons, ← add_mul, ← Rat.cast_add, Interval.weight_add, Rat.cast_one, one_mul, ih]

/-- The mean of a linear function is its value at the point. -/
theorem mean_linear (hx : ∀ s ∈ sides, s.2.lower ≤ x s.1 ∧ x s.1 ≤ s.2.upper)
    (k : Parameter → ℝ) :
    (mean sides x fun c => (c.map fun e => k e.1 * e.2).sum) =
      (sides.map fun s => k s.1 * x s.1).sum := by
  induction sides with
  | nil => simp [mean, corner]
  | cons s rest ih =>
      obtain ⟨hs, hrest⟩ := List.forall_mem_cons.mp hx
      have hvalue := congrArg (Rat.cast (K := ℝ)) (Interval.weight_mul_edge hs.1 hs.2)
      have hone := congrArg (Rat.cast (K := ℝ)) (s.2.weight_add (x s.1))
      push_cast at hvalue hone
      rw [mean_cons, List.map_cons, List.sum_cons, ← ih hrest, ← mean_const rest x (k s.1 * x s.1),
        ← mean_add]
      congr 1
      funext c
      rw [List.map_cons, List.map_cons, List.sum_cons, List.sum_cons]
      linear_combination k s.1 * hvalue + (c.map fun e => k e.1 * (e.2 : ℝ)).sum * hone

theorem sum_weights (sides : List (Parameter × Interval)) (x : Parameter → ℚ) :
    (weights sides x).sum = 1 := by
  have h := mean_const sides x 1
  simp only [mean, mul_one] at h
  rw [← Rat.cast_inj (α := ℝ), weights, Rat.cast_list_sum, List.map_map, Rat.cast_one]
  exact h

/-! ## Linear functions -/

/-- The points have weights under which every function that is seen to be linear in some parameters
has its mean at a point. -/
structure Balances (weights : List ℚ) (points : List Valuation) (parameters : List Parameter)
    (v : Valuation) : Prop where
  length_eq : weights.length = points.length
  nonneg : ∀ w ∈ weights, 0 ≤ w
  sum_eq_one : weights.sum = 1
  mean_eq : ∀ f : RationalFunction, f.isLinear = .ok true → (∀ p ∈ f.parameters, p ∈ parameters) →
    ∃ values value, points.mapM f.evaluate = .ok values ∧ f.evaluate v = .ok value ∧
      value = (List.zipWith (· * ·) weights values).sum

variable {b : Box} {parameters : List Parameter} {v : Valuation}

theorem sum_assignment_corner (hnodup : (sides.map Prod.fst).Nodup) (k : Parameter → ℝ) (n : Nat) :
    ∑ p ∈ (sides.map Prod.fst).toFinset,
        k p * Valuation.assignment (.ofList (corner sides n)) p =
      ((corner sides n).map fun e => k e.1 * e.2).sum := by
  rw [← map_fst_corner sides n] at hnodup ⊢
  rw [List.sum_toFinset _ hnodup, List.map_map]
  refine congrArg List.sum (List.map_congr_left fun e he => ?_)
  rw [Function.comp_apply, Valuation.assignment, (OrderedMap.find?_ofList hnodup).mpr he,
    Option.getD_some]

/-- A linear function has its mean over the corners at the point. -/
theorem mean_eq_of_linearOn {g : Valuation → ℝ} (hg : LinearOn (sides.map Prod.fst) g)
    (hnodup : (sides.map Prod.fst).Nodup) (hv : ∀ p ∈ sides.map Prod.fst, (v.find? p).isSome = true)
    (hx : ∀ s ∈ sides, s.2.lower ≤ v.assignment s.1 ∧ v.assignment s.1 ≤ s.2.upper) :
    (mean sides v.assignment fun c => g (.ofList c)) = g v := by
  obtain ⟨c, k, hg⟩ := hg
  have hcorner : ∀ n, g (.ofList (corner sides n)) =
      c + ((corner sides n).map fun e => k e.1 * e.2).sum := by
    intro n
    rw [hg _ fun p hp => OrderedMap.mem_keys_iff.mp ((mem_keys_corner n).mpr hp),
      sum_assignment_corner hnodup]
  calc (mean sides v.assignment fun c => g (.ofList c))
      = mean sides v.assignment fun e => c + (e.map fun e => k e.1 * e.2).sum := by
        simp only [mean, hcorner]
    _ = c + (sides.map fun s => k s.1 * v.assignment s.1).sum := by
        rw [mean_add, mean_const, mean_linear hx]
    _ = g v := by
        rw [hg v hv, List.sum_toFinset _ hnodup, List.map_map]
        rfl

/-- The weights of the corners balance a point of the box. -/
theorem balances_weights (hsides : b.SidesOf parameters sides) (hnodup : parameters.Nodup)
    (hv : b.ContainsOn parameters v) :
    Balances (weights sides v.assignment) ((corners sides).map .ofList) parameters v := by
  obtain ⟨rfl, hfind⟩ := hsides
  have hx : ∀ s ∈ sides, s.2.lower ≤ v.assignment s.1 ∧ v.assignment s.1 ≤ s.2.upper := by
    intro s hs
    obtain ⟨side, hside, x, hx, hbounds⟩ := hv s.1 (List.mem_map_of_mem hs)
    obtain rfl : s.2 = side := Option.some.inj ((hfind s hs).symm.trans hside)
    rwa [Valuation.assignment, hx]
  refine ⟨?_, ?_, sum_weights sides _, fun f hf hparameters => ?_⟩
  · simp [weights, corners_eq_map]
  · intro w hw
    obtain ⟨n, -, rfl⟩ := List.mem_map.mp hw
    exact weight_nonneg hx n
  · have hvalue : ∀ w : Valuation, (∀ p ∈ sides.map Prod.fst, (w.find? p).isSome = true) →
        ∃ q : ℚ, f.evaluate w = .ok q ∧ (q : ℝ) = (pointReading w).value f := fun w hw =>
      RationalFunction.exists_evaluate_eq_ok
        (RationalFunction.defined_of_isLinear hf fun p hp => hw p (hparameters p hp))
    choose q hq hqvalue using fun n => hvalue (.ofList (corner sides n)) fun p hp =>
      OrderedMap.mem_keys_iff.mp ((mem_keys_corner n).mpr hp)
    obtain ⟨value, hevaluate, hcast⟩ := hvalue v hv.isSome
    refine ⟨(List.range (2 ^ sides.length)).map q, value, ?_, hevaluate, ?_⟩
    · rw [corners_eq_map, List.map_map, mapM_eq_ok_iff, List.forall₂_map_left_iff,
        List.forall₂_map_right_iff, List.forall₂_same]
      exact fun n _ => hq n
    · have hmean := mean_eq_of_linearOn (RationalFunction.linearOn_value hf hparameters) hnodup
        hv.isSome hx
      rw [← Rat.cast_inj (α := ℝ), hcast, ← hmean, weights, List.zipWith_map, List.zipWith_self,
        Rat.cast_list_sum, List.map_map, mean]
      refine congrArg List.sum (List.map_congr_left fun n _ => ?_)
      rw [Function.comp_apply, Rat.cast_mul, hqvalue]

/-- There is no room for a list of so many corners. -/
theorem vertices_eq_capacityOverflow (hsides : b.SidesOf parameters sides)
    (hmany : roomLimit ≤ parameters.length) (hfew : parameters.length < vertexLimit) :
    b.vertices parameters = .error (.capacityOverflow parameters.length) := by
  rcases vertices_cases hsides with ⟨hroom, -⟩ | ⟨e, he, hvertices⟩
  · exact absurd hroom (not_lt.mpr hmany)
  · cases he with
    | refused hlimit => exact absurd hfew (not_lt.mpr hlimit)
    | noRoom _ _ => exact hvertices

/-- The corners over fewer than 59 parameters of a box span it.  There are as many as bit patterns
over the parameters; the bits of the number of a corner say which ends it takes; they differ exactly
if no parameter is fixed; and every point of the box is their mean, with weights that serve all
linear functions of the parameters.  From 59 parameters on there is no room for a list of the
corners, although they are refused from 63 parameters on only. -/
theorem vertices_span (b : Box) {parameters : List Parameter} (hnodup : parameters.Nodup)
    (hparameters : ∀ p ∈ parameters, p ∈ b.parameters) (hfew : parameters.length < 63) :
    (parameters.length < 59 →
      ∃ points, b.vertices parameters = .ok points ∧ points.length = 2 ^ parameters.length ∧
        (∀ (n : Nat) (v : Valuation), points[n]? = some v → (∀ p, p ∈ v.keys ↔ p ∈ parameters) ∧
          ∀ (j : Nat) p side, parameters[j]? = some p → b.side p = .ok side →
            v.find? p = some (if n.testBit j then side.upper else side.lower)) ∧
        (points.Nodup ↔ ∀ p ∈ parameters, ∀ side, b.side p = .ok side → side.lower < side.upper) ∧
        ∀ v, b.contains v = true → ∃ weights, Balances weights points parameters v) ∧
      (59 ≤ parameters.length →
        b.vertices parameters = .error (.capacityOverflow parameters.length)) := by
  obtain ⟨sides, hsides⟩ := exists_sidesOf hparameters
  constructor
  · intro hroom
    obtain ⟨rfl, hfind⟩ := hsides
    have hside : ∀ s ∈ sides, ∀ side, b.side s.1 = .ok side → side = s.2 := fun s hs side h =>
      Option.some.inj ((side_eq_ok_iff.mp h).symm.trans (hfind s hs))
    refine ⟨_, vertices_eq_ok_iff.mpr ⟨sides, ⟨rfl, hfind⟩, hroom, rfl⟩, ?_, fun n v hv => ?_, ?_,
      fun v hv => ?_⟩
    · simp [corners_eq_map]
    · rw [corners_eq_map, List.map_map, List.getElem?_map] at hv
      obtain ⟨m, hm, rfl⟩ := Option.map_eq_some_iff.mp hv
      obtain ⟨hlt, rfl⟩ := List.getElem?_eq_some_iff.mp hm
      rw [List.getElem_range hlt]
      refine ⟨fun p => mem_keys_corner n, fun j p side hj hp => ?_⟩
      rw [List.getElem?_map] at hj
      obtain ⟨s, hs, rfl⟩ := Option.map_eq_some_iff.mp hj
      rw [hside s (List.mem_of_getElem? hs) side hp]
      exact find?_corner hnodup hs n
    · rw [nodup_corners_iff hnodup, List.forall_mem_map]
      refine forall₂_congr fun s hs => ⟨fun h side hp => ?_, fun h => ?_⟩
      · rwa [hside s hs side hp]
      · exact h s.2 (side_eq_ok_iff.mpr (hfind s hs))
    · exact ⟨_, balances_weights ⟨rfl, hfind⟩ hnodup (containsOn_of_contains hv hparameters)⟩
  · exact fun hmany => vertices_eq_capacityOverflow hsides hmany hfew

/-- A toll. -/
def toll : Parameter := ⟨"toll", by decide⟩

/-- A levy. -/
def levy : Parameter := ⟨"levy", by decide⟩

/-- A toll up to three with a fixed levy. -/
def tollBox : Box := ⟨.ofList [(toll, ⟨0, 3, by decide⟩), (levy, ⟨2, 2, by decide⟩)], by decide⟩

/-- The levy is fixed, so each of the two corners is listed twice.  A point in between is their mean
all the same. -/
theorem vertices_span_tollBox :
    let v : Valuation := .ofList [(toll, 1 / 3), (levy, 2)]
    ([levy, toll].Nodup ∧ (∀ p ∈ [levy, toll], p ∈ tollBox.parameters) ∧
      tollBox.contains v = true) ∧
    ∃ points, tollBox.vertices [levy, toll] = .ok points ∧ points.length = 4 ∧ ¬points.Nodup ∧
      ∃ weights, Balances weights points [levy, toll] v := by
  intro v
  have hnodup : [levy, toll].Nodup := by decide
  have hparameters : ∀ p ∈ [levy, toll], p ∈ tollBox.parameters := by decide
  have hv : tollBox.contains v = true := by decide +kernel
  obtain ⟨points, hpoints, hlength, -, hdistinct, hspan⟩ :=
    (vertices_span tollBox hnodup hparameters (by decide)).1 (by decide)
  refine ⟨⟨hnodup, hparameters, hv⟩, points, hpoints, hlength, fun h => ?_, hspan v hv⟩
  exact absurd (hdistinct.mp h levy (by decide) ⟨2, 2, by decide⟩ (by decide)) (by decide)

/-- A lane of a road, with a mark for it and for each lane before it. -/
def lane (k : Nat) : Parameter where
  name := String.ofList (List.replicate (k + 1) 'l')
  identifier := by
    rw [String.toList_ofList, List.replicate_succ, isIdentifier, Bool.and_eq_true, List.all_eq_true]
    refine ⟨by decide, fun c hc => ?_⟩
    rw [List.eq_of_mem_replicate hc]
    decide

theorem lane_injective : Function.Injective lane := by
  intro j k h
  have hlength := congrArg (fun p : Parameter => p.name.toList.length) h
  simpa [lane] using hlength

/-- The load of each of 59 lanes. -/
def laneSides : List (Parameter × Interval) :=
  (List.range 59).map fun k => (lane k, ⟨0, 1 / 2, by decide +kernel⟩)

/-- All loads of 59 lanes. -/
def laneBox : Box where
  sides := .ofList laneSides
  nonempty h := by
    have hmem : lane 0 ∈ (OrderedMap.ofList laneSides).keys :=
      OrderedMap.mem_keys_ofList.mpr (List.mem_map_of_mem (f := Prod.fst) List.mem_cons_self)
    rw [OrderedMap.keys, h] at hmem
    exact List.not_mem_nil hmem

/-- With 59 parameters, fewer than 63, no corner is listed. -/
theorem vertices_laneBox : laneBox.parameters.length = 59 ∧
    laneBox.vertices laneBox.parameters = .error (.capacityOverflow 59) := by
  have hnodup : (laneSides.map Prod.fst).Nodup := by
    rw [laneSides, List.map_map]
    exact List.nodup_range.map lane_injective
  have hperm : laneBox.parameters.Perm (laneSides.map Prod.fst) :=
    (List.perm_ext_iff_of_nodup laneBox.sides.nodup_keys hnodup).mpr fun p =>
      OrderedMap.mem_keys_ofList
  have hlength : laneBox.parameters.length = 59 := by
    rw [hperm.length_eq, List.length_map, laneSides, List.length_map, List.length_range]
  obtain ⟨sides, hsides⟩ := exists_sidesOf (b := laneBox) fun p hp => hp
  have hstop := vertices_eq_capacityOverflow hsides (hlength ▸ by decide) (hlength ▸ by decide)
  rw [hlength] at hstop
  exact ⟨hlength, hstop⟩

end Box

end MarkovRegion
