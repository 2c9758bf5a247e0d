import MarkovRegion.Proofs.Algebra.CheckedExponents
import MarkovRegion.Proofs.Algebra.Reading
import MarkovRegion.Proofs.Region.Box

/-!
# Linear functions on a box

A function that is linear in some parameters (`LinearOn`) takes its least and its greatest value on
a box at corners over these parameters (`Box.exists_vertex_le`, `Box.exists_vertex_ge`): each side
contributes most at one of its ends, and which one depends on the sign of a coefficient only.

Rational functions that are seen to be linear are (`RationalFunction.linearOn_value`), and so are
their sums.
-/

namespace MarkovRegion

open RationalFunction (pointReading)

/-! ## Linear functions -/

/-- The function is linear in the values of some parameters, wherever these have values. -/
def LinearOn (parameters : List Parameter) (g : Valuation → ℝ) : Prop :=
  ∃ (c : ℝ) (k : Parameter → ℝ), ∀ v : Valuation, (∀ p ∈ parameters, (v.find? p).isSome = true) →
    g v = c + ∑ p ∈ parameters.toFinset, k p * v.assignment p

namespace LinearOn

variable {parameters : List Parameter} {f g : Valuation → ℝ}

theorem const (parameters : List Parameter) (c : ℝ) : LinearOn parameters fun _ => c :=
  ⟨c, 0, fun v _ => by simp⟩

theorem assignment {p : Parameter} (hp : p ∈ parameters) :
    LinearOn parameters fun v => v.assignment p := by
  refine ⟨0, fun q => if q = p then 1 else 0, fun v _ => ?_⟩
  simp [hp]

theorem add (hf : LinearOn parameters f) (hg : LinearOn parameters g) :
    LinearOn parameters fun v => f v + g v := by
  obtain ⟨c, k, hf⟩ := hf
  obtain ⟨d, l, hg⟩ := hg
  refine ⟨c + d, fun p => k p + l p, fun v hv => ?_⟩
  simp only [hf v hv, hg v hv, add_mul, Finset.sum_add_distrib]
  ring

theorem const_mul (a : ℝ) (hf : LinearOn parameters f) : LinearOn parameters fun v => a * f v := by
  obtain ⟨c, k, hf⟩ := hf
  refine ⟨a * c, fun p => a * k p, fun v hv => ?_⟩
  simp only [hf v hv, mul_add, Finset.mul_sum, mul_assoc]

theorem neg (hf : LinearOn parameters f) : LinearOn parameters fun v => -f v := by
  simpa using hf.const_mul (-1)

theorem list_sum {α : Type} {l : List α} {h : α → Valuation → ℝ}
    (hl : ∀ a ∈ l, LinearOn parameters (h a)) :
    LinearOn parameters fun v => (l.map fun a => h a v).sum := by
  induction l with
  | nil => exact const parameters 0
  | cons a rest ih =>
      exact (hl a List.mem_cons_self).add (ih fun b hb => hl b (List.mem_cons_of_mem a hb))

end LinearOn

/-- A monomial of degree at most one is empty or a parameter. -/
theorem Monomial.entries_of_totalDegree_le_one {m : Monomial} (h : m.totalDegree ≤ 1) :
    m.powers.entries = [] ∨ ∃ p, m.powers.entries = [(p, 1)] := by
  have hpos : ∀ e ∈ m.powers.entries, 0 < e.2 :=
    fun e he => Nat.pos_of_ne_zero (Sparse.mem_entries_iff.mp he).1
  have hsum : (m.powers.entries.map Prod.snd).sum ≤ 1 := by
    rwa [totalDegree, ← List.foldl_map (f := Prod.snd), ← List.sum_eq_foldl] at h
  rcases hentries : m.powers.entries with _ | ⟨⟨p, n⟩, rest⟩
  · exact Or.inl rfl
  · rw [hentries] at hpos hsum
    have hn := hpos (p, n) List.mem_cons_self
    rw [List.map_cons, List.sum_cons] at hsum
    cases rest with
    | nil =>
        rw [List.map_nil, List.sum_nil] at hsum
        dsimp only at hsum hn
        exact Or.inr ⟨p, by rw [show n = 1 by omega]⟩
    | cons e rest =>
        have he := hpos e (List.mem_cons_of_mem _ List.mem_cons_self)
        rw [List.map_cons, List.sum_cons] at hsum
        dsimp only at hsum hn
        omega

/-- The value of a linear function. -/
theorem RationalFunction.linearOn_value {f : RationalFunction} {parameters : List Parameter}
    (hf : f.isLinear = .ok true) (hparameters : ∀ p ∈ f.parameters, p ∈ parameters) :
    LinearOn parameters fun v => (pointReading v).value f := by
  obtain ⟨hpolynomial, hdegree⟩ := isLinear_eq_ok_true_iff.mp hf
  have hvalue : (fun v => (pointReading v).value f) = fun v : Valuation =>
      (f.numerator.terms.entries.map fun t =>
        ((t.2 * (t.1.powers.entries.map fun e => v.assignment e.1 ^ e.2).prod : ℚ) : ℝ)).sum := by
    funext v
    show evalHom v f.numerator.toRing / evalHom v f.denominator.toRing = _
    rw [Polynomial.isOne_iff.mp hpolynomial, Polynomial.toRing_one, map_one, div_one, evalHom_apply,
      Polynomial.eval_toRing, Rat.cast_list_sum, List.map_map]
    rfl
  rw [hvalue]
  refine LinearOn.list_sum fun t ht => ?_
  have hterm := Polynomial.totalDegree_le_iff.mp hdegree t ht
  rcases Monomial.entries_of_totalDegree_le_one hterm with hnil | ⟨p, hp⟩
  · simp only [hnil, List.map_nil, List.prod_nil]
    exact LinearOn.const parameters _
  · have hmem : p ∈ f.parameters := by
      rw [RationalFunction.parameters, mem_orderedKeys, List.mem_append]
      refine Or.inl (mem_orderedKeys.mpr (List.mem_flatMap.mpr ⟨t, ht, ?_⟩))
      simp [Monomial.parameters, Sparse.support, hp]
    simp only [hp, List.map_cons, List.map_nil, List.prod_singleton, pow_one, Rat.cast_mul]
    exact (LinearOn.assignment (hparameters p hmem)).const_mul t.2

/-- A linear function has no pole. -/
theorem RationalFunction.defined_of_isLinear {f : RationalFunction} (hf : f.isLinear = .ok true)
    {v : Valuation} (hv : ∀ p ∈ f.parameters, (v.find? p).isSome = true) :
    (pointReading v).Defined f := by
  obtain ⟨hpolynomial, -⟩ := isLinear_eq_ok_true_iff.mp hf
  refine ⟨?_, ?_, ?_⟩
  · rw [Polynomial.isOne_iff.mp hpolynomial, Polynomial.toRing_one, map_one]
    exact one_ne_zero
  · exact MvPolynomial.mem_supported.mpr fun p hp => hv p (mem_parameters.mpr (Or.inl hp))
  · exact MvPolynomial.mem_supported.mpr fun p hp => hv p (mem_parameters.mpr (Or.inr hp))

/-! ## Corners over some parameters -/

namespace Box

variable {b : Box} {parameters : List Parameter} {v : Valuation} {points : List Valuation}

/-- The point gives some parameters values of their sides. -/
def ContainsOn (b : Box) (parameters : List Parameter) (v : Valuation) : Prop :=
  ∀ p ∈ parameters, ∃ side, b.sides.find? p = some side ∧
    ∃ x, v.find? p = some x ∧ side.lower ≤ x ∧ x ≤ side.upper

theorem ContainsOn.isSome (h : b.ContainsOn parameters v) :
    ∀ p ∈ parameters, (v.find? p).isSome = true := by
  intro p hp
  obtain ⟨-, -, x, hx, -⟩ := h p hp
  rw [hx]
  rfl

theorem containsOn_of_contains (h : b.contains v = true)
    (hparameters : ∀ p ∈ parameters, p ∈ b.parameters) : b.ContainsOn parameters v := by
  intro p hp
  obtain ⟨side, hside⟩ := mem_parameters.mp (hparameters p hp)
  exact ⟨side, hside, contains_iff.mp h p side hside⟩

/-- The corners over some parameters are listed if the box has their sides and they are few. -/
theorem vertices_eq_ok_iff : b.vertices parameters = .ok points ↔
    ∃ sides, b.SidesOf parameters sides ∧ parameters.length < roomLimit ∧
      points = (corners sides).map .ofList := by
  constructor
  · intro h
    obtain ⟨sides, hsides, -⟩ := bind_eq_ok_iff.mp h
    rw [mapM_side_eq_ok_iff] at hsides
    rcases vertices_cases hsides with ⟨hfew, hvertices⟩ | ⟨e, -, hvertices⟩
    · exact ⟨sides, hsides, hfew, Except.ok.inj (h.symm.trans hvertices)⟩
    · cases h.symm.trans hvertices
  · rintro ⟨sides, hsides, hfew, rfl⟩
    rcases vertices_cases hsides with ⟨-, hvertices⟩ | ⟨e, he, -⟩
    · exact hvertices
    · exact absurd hfew (not_lt.mpr he.roomLimit_le)

theorem exists_vertices_iff : (∃ points, b.vertices parameters = .ok points) ↔
    parameters.length < roomLimit ∧ ∀ p ∈ parameters, p ∈ b.parameters := by
  constructor
  · rintro ⟨points, hpoints⟩
    obtain ⟨sides, ⟨rfl, hsides⟩, hlimit, -⟩ := vertices_eq_ok_iff.mp hpoints
    refine ⟨hlimit, fun p hp => ?_⟩
    obtain ⟨s, hs, rfl⟩ := List.mem_map.mp hp
    exact mem_parameters.mpr ⟨s.2, hsides s hs⟩
  · rintro ⟨hlimit, hparameters⟩
    obtain ⟨sides, hsides⟩ := exists_sidesOf hparameters
    exact ⟨_, vertices_eq_ok_iff.mpr ⟨sides, hsides, hlimit, rfl⟩⟩

section Vertices

variable (hvertices : b.vertices parameters = .ok points) (hnodup : parameters.Nodup)
include hvertices hnodup

/-- The corners over some parameters lie in the box as far as these are concerned. -/
theorem containsOn_of_mem_vertices (hv : v ∈ points) : b.ContainsOn parameters v := by
  obtain ⟨sides, ⟨rfl, hsides⟩, -, rfl⟩ := vertices_eq_ok_iff.mp hvertices
  obtain ⟨corner, hcorner, rfl⟩ := List.mem_map.mp hv
  intro p hp
  obtain ⟨⟨q, side⟩, hs, rfl⟩ := List.mem_map.mp hp
  exact ⟨side, hsides _ hs, (Chosen.of_mem_corners hcorner).find?_ofList hnodup hs⟩

/-- A linear function is not larger at some corner than at a given point. -/
theorem exists_vertex_le {g : Valuation → ℝ} (hg : LinearOn parameters g)
    (hv : b.ContainsOn parameters v) : ∃ w ∈ points, g w ≤ g v := by
  obtain ⟨sides, ⟨rfl, hsides⟩, -, rfl⟩ := vertices_eq_ok_iff.mp hvertices
  obtain ⟨c, k, hg⟩ := hg
  -- A side contributes least at its lower end if its coefficient is not negative.
  let corner := sides.map fun s => (s.1, if 0 ≤ k s.1 then s.2.lower else s.2.upper)
  have hcorner : corner ∈ corners sides := by
    rw [mem_corners_iff, List.forall₂_map_right_iff, List.forall₂_same]
    intro s _
    refine ⟨rfl, ?_⟩
    dsimp only
    split
    · exact Or.inl rfl
    · exact Or.inr rfl
  have hcontains := containsOn_of_mem_vertices hvertices hnodup (List.mem_map_of_mem hcorner)
  refine ⟨.ofList corner, List.mem_map_of_mem hcorner, ?_⟩
  rw [hg _ hcontains.isSome, hg v hv.isSome]
  refine add_le_add_right (Finset.sum_le_sum fun p hp => ?_) c
  obtain ⟨⟨q, side⟩, hs, rfl⟩ := List.mem_map.mp (List.mem_toFinset.mp hp)
  have hend : (OrderedMap.ofList corner).find? q =
      some (if 0 ≤ k q then side.lower else side.upper) := by
    refine (OrderedMap.find?_ofList ?_).mpr (List.mem_map.mpr ⟨(q, side), hs, rfl⟩)
    rw [List.map_map]
    exact hnodup
  obtain ⟨side', hside', x, hx, hlower, hupper⟩ := hv q (List.mem_map_of_mem hs)
  obtain rfl : side = side' := Option.some.inj ((hsides _ hs).symm.trans hside')
  dsimp only
  rw [Valuation.assignment, Valuation.assignment, hend, hx, Option.getD_some, Option.getD_some]
  split
  · next hk => exact mul_le_mul_of_nonneg_left (by exact_mod_cast hlower) hk
  · next hk => exact mul_le_mul_of_nonpos_left (by exact_mod_cast hupper) (not_le.mp hk).le

/-- A linear function is not smaller at some corner than at a given point. -/
theorem exists_vertex_ge {g : Valuation → ℝ} (hg : LinearOn parameters g)
    (hv : b.ContainsOn parameters v) : ∃ w ∈ points, g v ≤ g w := by
  obtain ⟨w, hw, hle⟩ := exists_vertex_le hvertices hnodup hg.neg hv
  exact ⟨w, hw, neg_le_neg_iff.mp hle⟩

end Vertices

/-! ## Boxes in boxes -/

/-- The point that one end of each side makes lies in the box. -/
theorem contains_ends (b : Box) {pick : Interval → ℚ}
    (hpick : ∀ i : Interval, i.lower ≤ pick i ∧ pick i ≤ i.upper) :
    b.contains (.ofList (b.sides.entries.map fun s => (s.1, pick s.2))) = true := by
  refine Chosen.contains ?_
  rw [Chosen, List.forall₂_map_right_iff, List.forall₂_same]
  exact fun s _ => ⟨rfl, hpick s.2⟩

/-- The sides of a box lie in those of any box around it. -/
theorem exists_side_of_subset {inner : Box}
    (hsubset : ∀ v, inner.contains v = true → b.contains v = true) {p : Parameter}
    (hp : p ∈ b.parameters) {side : Interval} (hside : inner.sides.find? p = some side) :
    ∃ outer, b.sides.find? p = some outer ∧ outer.lower ≤ side.lower ∧
      side.upper ≤ outer.upper := by
  obtain ⟨outer, houter⟩ := mem_parameters.mp hp
  have hvalue : ∀ pick : Interval → ℚ, (∀ i : Interval, i.lower ≤ pick i ∧ pick i ≤ i.upper) →
      outer.lower ≤ pick side ∧ pick side ≤ outer.upper := by
    intro pick hpick
    obtain ⟨x, hx, hbounds⟩ :=
      contains_iff.mp (hsubset _ (inner.contains_ends hpick)) p outer houter
    have hfind : (OrderedMap.ofList (inner.sides.entries.map fun s => (s.1, pick s.2))).find? p =
        some (pick side) := by
      refine (OrderedMap.find?_ofList ?_).mpr
        (List.mem_map.mpr ⟨(p, side), OrderedMap.find?_eq_some_iff.mp hside, rfl⟩)
      rw [List.map_map]
      exact inner.sides.nodup_keys
    obtain rfl := Option.some.inj (hfind.symm.trans hx)
    exact hbounds
  exact ⟨outer, houter, (hvalue Interval.lower fun i => ⟨le_rfl, i.ordered⟩).1,
    (hvalue Interval.upper fun i => ⟨i.ordered, le_rfl⟩).2⟩

theorem vertices_ne_nil (hvertices : b.vertices parameters = .ok points)
    (hnodup : parameters.Nodup) : points ≠ [] := by
  have hlower : b.contains (.ofList (b.sides.entries.map fun s => (s.1, s.2.lower))) = true :=
    b.contains_ends fun i => ⟨le_rfl, i.ordered⟩
  have hcontains := containsOn_of_contains hlower (exists_vertices_iff.mp ⟨points, hvertices⟩).2
  obtain ⟨w, hw, -⟩ := exists_vertex_le hvertices hnodup (LinearOn.const _ 0) hcontains
  exact List.ne_nil_of_mem hw

theorem ContainsOn.of_subset {inner : Box} (h : inner.ContainsOn parameters v)
    (hsubset : ∀ v, inner.contains v = true → b.contains v = true)
    (hparameters : ∀ p ∈ parameters, p ∈ b.parameters) : b.ContainsOn parameters v := by
  intro p hp
  obtain ⟨side, hside, x, hx, hlower, hupper⟩ := h p hp
  obtain ⟨outer, houter, hle, hge⟩ := exists_side_of_subset hsubset (hparameters p hp) hside
  exact ⟨outer, houter, x, hx, hle.trans hlower, hupper.trans hge⟩

end Box

end MarkovRegion
