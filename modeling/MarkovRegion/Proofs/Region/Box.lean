import Mathlib.Algebra.Order.Field.Rat
import Mathlib.Data.List.Forall2
import Mathlib.Tactic.Linarith
import MarkovRegion.Analysis.Sampling
import MarkovRegion.Proofs.Algebra.OrderedMap
import MarkovRegion.Proofs.Basic

/-!
# The points of a box

A point lies in a box if it gives every parameter of the box a value of its side
(`Box.contains_iff`).  Points are made of values that are chosen side by side (`Box.Chosen`): the
corners and the midpoint are, so all sample points lie in the box (`Box.samplePoints_cases`).
-/

namespace MarkovRegion

theorem Interval.middle_mem (i : Interval) : i.lower ≤ i.middle ∧ i.middle ≤ i.upper := by
  have h := i.ordered
  rw [Interval.middle]
  constructor <;> linarith

namespace Box

variable {b : Box} {p : Parameter} {side : Interval} {point : Valuation}
  {parameters : List Parameter}

theorem side_eq_ok_iff : b.side p = .ok side ↔ b.sides.find? p = some side := by
  rw [Box.side]
  rcases b.sides.find? p with _ | i
  · simp
  · simp

theorem mem_parameters : p ∈ b.parameters ↔ ∃ side, b.sides.find? p = some side := by
  rw [parameters, OrderedMap.mem_keys_iff, Option.isSome_iff_exists]

theorem contains_iff : b.contains point = true ↔ ∀ p side, b.sides.find? p = some side →
    ∃ x, point.find? p = some x ∧ side.lower ≤ x ∧ x ≤ side.upper := by
  simp only [contains, List.all_eq_true, OrderedMap.find?_eq_some_iff]
  constructor
  · intro h p side hside
    have hvalue := h (p, side) hside
    rcases hfind : point.find? p with _ | x
    · simp [hfind] at hvalue
    · simp only [hfind, Bool.and_eq_true, decide_eq_true_eq] at hvalue
      exact ⟨x, OrderedMap.find?_eq_some_iff.mp hfind, hvalue⟩
  · intro h e he
    obtain ⟨x, hx, hlower, hupper⟩ := h e.1 e.2 he
    simp [OrderedMap.find?_eq_some_iff.mpr hx, hlower, hupper]

/-! ## Values side by side -/

/-- A value of each side, in the order of the sides. -/
def Chosen (sides : List (Parameter × Interval)) (values : List (Parameter × ℚ)) : Prop :=
  List.Forall₂ (fun s e => e.1 = s.1 ∧ s.2.lower ≤ e.2 ∧ e.2 ≤ s.2.upper) sides values

/-- A corner is an end of each side. -/
theorem mem_corners_iff {sides : List (Parameter × Interval)} {corner : List (Parameter × ℚ)} :
    corner ∈ corners sides ↔ List.Forall₂
      (fun s e => e.1 = s.1 ∧ (e.2 = s.2.lower ∨ e.2 = s.2.upper)) sides corner := by
  induction sides generalizing corner with
  | nil => simp [corners]
  | cons s rest ih =>
      simp only [corners, List.mem_flatMap, List.mem_cons, List.not_mem_nil, or_false, ih,
        List.forall₂_cons_left_iff]
      constructor
      · rintro ⟨tail, htail, rfl | rfl⟩
        · exact ⟨_, tail, ⟨rfl, Or.inl rfl⟩, htail, rfl⟩
        · exact ⟨_, tail, ⟨rfl, Or.inr rfl⟩, htail, rfl⟩
      · rintro ⟨⟨p, x⟩, tail, ⟨hp, hx⟩, htail, rfl⟩
        dsimp only at hp hx
        subst hp
        refine ⟨tail, htail, hx.imp ?_ ?_⟩
        · rintro rfl
          rfl
        · rintro rfl
          rfl

namespace Chosen

variable {sides : List (Parameter × Interval)} {values : List (Parameter × ℚ)}

theorem map_fst_eq (h : Chosen sides values) : values.map Prod.fst = sides.map Prod.fst := by
  induction h with
  | nil => rfl
  | cons hse _ ih => rw [List.map_cons, List.map_cons, hse.1, ih]

theorem exists_mem (h : Chosen sides values) (hs : (p, side) ∈ sides) :
    ∃ x, (p, x) ∈ values ∧ side.lower ≤ x ∧ x ≤ side.upper := by
  obtain ⟨⟨q, x⟩, hmem, rfl, hbounds⟩ := exists_mem_of_forall₂ h hs
  exact ⟨x, hmem, hbounds⟩

/-- The point with the chosen values. -/
theorem find?_ofList (h : Chosen sides values) (hnodup : (sides.map Prod.fst).Nodup)
    (hs : (p, side) ∈ sides) :
    ∃ x, (OrderedMap.ofList values).find? p = some x ∧ side.lower ≤ x ∧ x ≤ side.upper := by
  obtain ⟨x, hx, hbounds⟩ := h.exists_mem hs
  exact ⟨x, (OrderedMap.find?_ofList (h.map_fst_eq ▸ hnodup)).mpr hx, hbounds⟩

theorem contains (h : Chosen b.sides.entries values) :
    b.contains (.ofList values) = true := by
  rw [contains_iff]
  intro p side hside
  exact h.find?_ofList b.sides.nodup_keys (OrderedMap.find?_eq_some_iff.mp hside)

theorem of_mem_corners {corner : List (Parameter × ℚ)} (h : corner ∈ corners sides) :
    Chosen sides corner := by
  refine (mem_corners_iff.mp h).imp fun s e he => ⟨he.1, ?_⟩
  rcases he.2 with hx | hx
  · rw [hx]
    exact ⟨le_rfl, s.2.ordered⟩
  · rw [hx]
    exact ⟨s.2.ordered, le_rfl⟩

end Chosen

/-! ## Listing corners -/

/-- The sides of some parameters, in their order. -/
def SidesOf (b : Box) (parameters : List Parameter) (sides : List (Parameter × Interval)) : Prop :=
  sides.map Prod.fst = parameters ∧ ∀ s ∈ sides, b.sides.find? s.1 = some s.2

theorem mapM_side_eq_ok_iff {sides : List (Parameter × Interval)} :
    (parameters.mapM fun p => return (p, ← b.side p) :
      Except RegionError (List (Parameter × Interval))) = .ok sides ↔
      b.SidesOf parameters sides := by
  have hside : ∀ p s,
      (do return (p, ← b.side p) : Except RegionError (Parameter × Interval)) = .ok s ↔
        s.1 = p ∧ b.sides.find? s.1 = some s.2 := by
    rintro p ⟨q, side⟩
    rw [bind_eq_ok_iff]
    simp only [side_eq_ok_iff, pure_eq_ok_iff, Prod.mk.injEq]
    constructor
    · rintro ⟨i, hi, rfl, rfl⟩
      exact ⟨rfl, hi⟩
    · rintro ⟨rfl, hi⟩
      exact ⟨side, hi, rfl, rfl⟩
  rw [mapM_eq_ok_iff]
  simp only [hside]
  constructor
  · intro h
    induction h with
    | nil => exact ⟨rfl, by simp⟩
    | cons hs _ ih =>
        exact ⟨by rw [List.map_cons, hs.1, ih.1], List.forall_mem_cons.mpr ⟨hs.2, ih.2⟩⟩
  · rintro ⟨rfl, hsides⟩
    rw [List.forall₂_map_left_iff, List.forall₂_same]
    exact fun s hs => ⟨rfl, hsides s hs⟩

/-- Parameters of the box have sides. -/
theorem exists_sidesOf (hparameters : ∀ p ∈ parameters, p ∈ b.parameters) :
    ∃ sides, b.SidesOf parameters sides := by
  obtain ⟨sides, hsides⟩ : ∃ sides, (parameters.mapM fun p => return (p, ← b.side p) :
      Except RegionError (List (Parameter × Interval))) = .ok sides := by
    refine exists_mapM_eq_ok fun p hp => ?_
    obtain ⟨side, hside⟩ := mem_parameters.mp (hparameters p hp)
    exact ⟨(p, side), bind_eq_ok_iff.mpr ⟨side, side_eq_ok_iff.mpr hside, rfl⟩⟩
  exact ⟨sides, mapM_side_eq_ok_iff.mp hsides⟩

/-- How many parameters have too many corners for a list of them. -/
def roomLimit : Nat := 59

theorem capacityLimit_le_iff {n : Nat} :
    capacityLimit ≤ (1 <<< n) * pointBytes ↔ roomLimit ≤ n := by
  rw [capacityLimit, pointBytes, Nat.one_shiftLeft, Nat.one_shiftLeft]
  constructor
  · intro h
    by_contra hfew
    have hpow : 2 ^ n ≤ 2 ^ 58 := Nat.pow_le_pow_right two_pos (Nat.le_of_lt_succ (not_le.mp hfew))
    omega
  · intro h
    have hpow : 2 ^ roomLimit ≤ 2 ^ n := Nat.pow_le_pow_right two_pos h
    rw [roomLimit] at hpow
    omega

/-- What happens if so many parameters are given that their corners cannot be listed: they are
refused, or the list finds no room. -/
inductive Crowded (n : Nat) : RegionError → Prop
  | refused (many : vertexLimit ≤ n) : Crowded n (.tooManyVertices n)
  | noRoom (many : roomLimit ≤ n) (few : n < vertexLimit) : Crowded n (.capacityOverflow n)

theorem Crowded.roomLimit_le {n : Nat} {e : RegionError} (h : Crowded n e) : roomLimit ≤ n := by
  cases h with
  | refused many => exact le_trans (by decide) many
  | noRoom many _ => exact many

/-- The corners over some parameters are listed, unless they are too many. -/
theorem vertices_cases {sides : List (Parameter × Interval)} (hsides : b.SidesOf parameters sides) :
    parameters.length < roomLimit ∧ b.vertices parameters = .ok ((corners sides).map .ofList) ∨
      ∃ e, Crowded parameters.length e ∧ b.vertices parameters = .error e := by
  rw [vertices, mapM_side_eq_ok_iff.mpr hsides]
  by_cases hmany : vertexLimit ≤ parameters.length
  · exact Or.inr ⟨_, .refused hmany, if_pos hmany⟩
  · by_cases hroom : roomLimit ≤ parameters.length
    · refine Or.inr ⟨_, .noRoom hroom (not_le.mp hmany), ?_⟩
      exact (if_neg hmany).trans (if_pos (capacityLimit_le_iff.mpr hroom))
    · refine Or.inl ⟨not_le.mp hroom, ?_⟩
      exact (if_neg hmany).trans (if_neg (mt capacityLimit_le_iff.mp hroom))

/-! ## Sample points -/

theorem contains_midpoint (b : Box) : b.contains b.midpoint = true := by
  refine Chosen.contains ?_
  rw [Chosen, List.forall₂_map_right_iff, List.forall₂_same]
  exact fun s _ => ⟨rfl, s.2.middle_mem⟩

/-- The sample points lie in the box, unless its corners are too many. -/
theorem samplePoints_cases (b : Box) :
    (∃ points, b.samplePoints = .ok points ∧ ∀ q ∈ points, b.contains q = true) ∨
      ∃ e, Crowded b.parameters.length e ∧ b.samplePoints = .error e := by
  have hsides : b.SidesOf b.parameters b.sides.entries :=
    ⟨rfl, fun s hs => OrderedMap.find?_eq_some_iff.mpr hs⟩
  rw [samplePoints, allVertices]
  rcases vertices_cases hsides with ⟨-, hvertices⟩ | ⟨e, he, hvertices⟩
  · rw [hvertices]
    refine Or.inl ⟨_, rfl, fun q hq => ?_⟩
    rcases List.mem_append.mp hq with hq | hq
    · obtain ⟨corner, hcorner, rfl⟩ := List.mem_map.mp hq
      exact (Chosen.of_mem_corners hcorner).contains
    · rw [List.mem_singleton.mp hq]
      exact b.contains_midpoint
  · rw [hvertices]
    exact Or.inr ⟨e, he, rfl⟩

end Box

end MarkovRegion
