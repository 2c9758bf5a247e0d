import MarkovRegion.Proofs.Algebra.Evaluation

/-!
# Polynomials with the same values are the same data

A `Polynomial.Construction` says how a polynomial is built from constants and parameters.  It has a
value of its own at every assignment (`Construction.value`), and the polynomial that it builds has
the same one (`eval_toRing_build`).

A polynomial that vanishes at all rational points is zero, so two polynomials are the same data if
they have the same values (`Polynomial.eq_iff_eval_eq`).  It is enough to look at points that give a
value to the parameters of both (`Polynomial.eq_iff_evaluate_eq`): a point says nothing about other
parameters, but neither do the polynomials.
-/

namespace MarkovRegion

open MvPolynomial (eval)

/-! ## Values after a substitution -/

/-- The values of a point, and those of an assignment where the point has none. -/
def Valuation.override (v : Valuation) (a : Parameter → ℚ) (p : Parameter) : ℚ :=
  (v.find? p).getD (a p)

namespace Monomial

theorem knownFactor_eq_prod (v : Valuation) (m : Monomial) :
    m.knownFactor v =
      (m.powers.entries.map fun e => ((v.find? e.1).map fun y => y ^ e.2).getD 1).prod := by
  rw [List.prod_eq_foldl, List.foldl_map, knownFactor]
  congr 1
  funext x e
  cases v.find? e.1 with
  | none => exact (mul_one x).symm
  | some y => rfl

/-- The known factor takes the parameters that the point has, the rest keeps the others. -/
theorem knownFactor_mul_unknownPart (v : Valuation) (a : Parameter → ℚ) (m : Monomial) :
    m.knownFactor v * ((m.unknownPart v).powers.entries.map fun e => a e.1 ^ e.2).prod =
      (m.powers.entries.map fun e => v.override a e.1 ^ e.2).prod := by
  rw [knownFactor_eq_prod]
  simp only [unknownPart, Sparse.filterKeys, Valuation.override]
  induction m.powers.entries with
  | nil => simp
  | cons e rest ih =>
      cases he : v.find? e.1 with
      | none => simp [he, ← ih, mul_left_comm]
      | some y => simp [he, ← ih, mul_assoc]

end Monomial

namespace Polynomial

variable {f g : Polynomial}

@[simp] theorem toRing_pow (f : Polynomial) (n : Nat) : (f.pow n).toRing = f.toRing ^ n := by
  induction n with
  | zero => exact toRing_one
  | succ n ih =>
      have hstep : f.pow (n + 1) = (f.pow n).mul f := rfl
      rw [hstep, toRing_mul, ih, pow_succ]

theorem eval_substitute (v : Valuation) (a : Parameter → ℚ) (f : Polynomial) :
    eval a (f.substitute v).toRing = eval (v.override a) f.toRing := by
  rw [substitute, toRing_ofTerms, map_list_sum, List.map_map, List.map_map, eval_toRing]
  refine congrArg List.sum (List.map_congr_left fun t _ => ?_)
  simp only [Function.comp_apply]
  rw [MvPolynomial.eval_monomial, Monomial.prod_toExponents, mul_assoc,
    Monomial.knownFactor_mul_unknownPart]

/-! ## Equality -/

/-- Polynomials with the same values everywhere are the same data. -/
theorem eq_iff_eval_eq : f = g ↔ ∀ a, eval a f.toRing = eval a g.toRing := by
  rw [← toRing_injective.eq_iff]
  exact ⟨fun h a => by rw [h], MvPolynomial.funext⟩

/-- The points that give a value to all parameters of two polynomials tell them apart. -/
theorem eq_iff_evaluate_eq : f = g ↔ ∀ v : Valuation,
    (∀ p, p ∈ f.parameters ∨ p ∈ g.parameters → p ∈ v.keys) →
      ∃ x, f.evaluate v = .ok x ∧ g.evaluate v = .ok x := by
  constructor
  · rintro rfl v hv
    have hvalue : f.evaluate v = .ok (eval v.assignment f.toRing) :=
      evaluate_eq_ok_iff.mpr ⟨fun p hp =>
        OrderedMap.mem_keys_iff.mp (hv p (Or.inl (mem_parameters.mpr hp))), rfl⟩
    exact ⟨_, hvalue, hvalue⟩
  · intro h
    rw [eq_iff_eval_eq]
    intro a
    -- The point of the assignment has just the parameters of both.
    obtain ⟨x, hf, hg⟩ := h (.ofAssignment a (f.parameters ++ g.parameters)) fun p hp =>
      OrderedMap.mem_keys_iff.mpr (Valuation.mem_domain_ofAssignment (List.mem_append.mpr hp))
    rw [evaluate_ofAssignment fun p hp => List.mem_append_left _ hp] at hf
    rw [evaluate_ofAssignment fun p hp => List.mem_append_right _ hp] at hg
    exact (Except.ok.inj hf).trans (Except.ok.inj hg).symm

/-! ## Constructions -/

/-- How a polynomial is built. -/
inductive Construction where
  | constant (c : ℚ)
  | parameter (p : Parameter)
  | add (s t : Construction)
  | sub (s t : Construction)
  | mul (s t : Construction)
  | neg (s : Construction)
  | scale (s : Construction) (c : ℚ)
  | pow (s : Construction) (n : Nat)
  | substitute (s : Construction) (v : Valuation)

namespace Construction

/-- The polynomial that is built. -/
def build : Construction → Polynomial
  | constant c => .constant c
  | parameter p => .ofParameter p
  | add s t => s.build.add t.build
  | sub s t => s.build.sub t.build
  | mul s t => s.build.mul t.build
  | neg s => s.build.neg
  | scale s c => s.build.scale c
  | pow s n => s.build.pow n
  | substitute s v => s.build.substitute v

/-- The value at an assignment.  A substituted parameter does not depend on the assignment. -/
def value (a : Parameter → ℚ) : Construction → ℚ
  | constant c => c
  | parameter p => a p
  | add s t => s.value a + t.value a
  | sub s t => s.value a - t.value a
  | mul s t => s.value a * t.value a
  | neg s => -s.value a
  | scale s c => s.value a * c
  | pow s n => s.value a ^ n
  | substitute s v => s.value (v.override a)

/-- What is built has the value of its construction. -/
theorem eval_toRing_build (a : Parameter → ℚ) (s : Construction) :
    eval a s.build.toRing = s.value a := by
  induction s generalizing a with
  | constant c => simp [build, value]
  | parameter p => simp [build, value]
  | add s t ihs iht => simp [build, value, ihs, iht]
  | sub s t ihs iht => simp [build, value, ihs, iht]
  | mul s t ihs iht => simp [build, value, ihs, iht]
  | neg s ih => simp [build, value, ih]
  | scale s c ih => simp [build, value, ih]
  | pow s n ih => simp [build, value, ih]
  | substitute s v ih => rw [build, eval_substitute, ih, value]

end Construction

/-- Equality of polynomials that are built in any way.  No coefficient and no exponent that is kept
is zero.  Two polynomials are equal as data exactly if they have the same values at all points with
their parameters, and exactly if their constructions have the same values at all assignments.  So
sums and products are the same data in any order and grouping, and products distribute over sums. -/
theorem equality_semantic (s t u : Construction) :
    (∀ term ∈ s.build.terms.entries,
      term.2 ≠ 0 ∧ ∀ power ∈ term.1.powers.entries, power.2 ≠ 0) ∧
    (s.build = t.build ↔ ∀ v : Valuation,
      (∀ p, p ∈ s.build.parameters ∨ p ∈ t.build.parameters → p ∈ v.keys) →
        ∃ x, s.build.evaluate v = .ok x ∧ t.build.evaluate v = .ok x) ∧
    (s.build = t.build ↔ ∀ a, s.value a = t.value a) ∧
    s.build.add t.build = t.build.add s.build ∧
    (s.build.add t.build).add u.build = s.build.add (t.build.add u.build) ∧
    s.build.mul t.build = t.build.mul s.build ∧
    (s.build.mul t.build).mul u.build = s.build.mul (t.build.mul u.build) ∧
    s.build.mul (t.build.add u.build) = (s.build.mul t.build).add (s.build.mul u.build) := by
  -- A law holds if it holds of the values of constructions.
  have hlaw : ∀ s t : Construction, s.build = t.build ↔ ∀ a, s.value a = t.value a := by
    intro s t
    simp only [eq_iff_eval_eq, Construction.eval_toRing_build]
  refine ⟨fun term hterm => ⟨s.build.terms.nonzero term hterm, term.1.powers.nonzero⟩,
    eq_iff_evaluate_eq, hlaw s t, ?_, ?_, ?_, ?_, ?_⟩
  · exact (hlaw (s.add t) (t.add s)).mpr fun a => add_comm _ _
  · exact (hlaw ((s.add t).add u) (s.add (t.add u))).mpr fun a => add_assoc _ _ _
  · exact (hlaw (s.mul t) (t.mul s)).mpr fun a => mul_comm _ _
  · exact (hlaw ((s.mul t).mul u) (s.mul (t.mul u))).mpr fun a => mul_assoc _ _ _
  · exact (hlaw (s.mul (t.add u)) ((s.mul t).add (s.mul u))).mpr fun a => mul_add _ _ _

end Polynomial

end MarkovRegion
