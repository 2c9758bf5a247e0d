import MarkovRegion.Proofs.Smt.Relaxation

/-!
# The assertions of a system are the system

An assignment of rational numbers that gives the parameters the values of a point satisfies the
encoding of a system exactly if its unknowns are between zero and one, all weights have values at
the point, and the unknowns solve the equations there.

The equations are evaluated as they stand (`EquationSystem.rightSide`), with a quotient for each
weight; those of the encoding are multiplied by the distinct denominators of their row.  That these
are not zero is asserted beside them, so nothing is lost by the multiplication, and nothing has to
be known of the weights (`holds_rowAssertions_iff_rightSide`).
-/

namespace MarkovRegion

open RationalFunction (pointReading)

/-! ## Values of weights -/

namespace RationalFunction

/-- The quotient of the values of the numerator and the denominator. -/
noncomputable def valueAt (v : Valuation) (w : RationalFunction) : ℚ :=
  MvPolynomial.eval v.assignment w.numerator.toRing /
    MvPolynomial.eval v.assignment w.denominator.toRing

theorem cast_valueAt (v : Valuation) (w : RationalFunction) :
    (w.valueAt v : ℝ) = (pointReading v).value w :=
  Rat.cast_div _ _

theorem evaluate_eq_ok_iff_valueAt {v : Valuation} {w : RationalFunction} {c : ℚ} :
    w.evaluate v = .ok c ↔ (pointReading v).Defined w ∧ w.valueAt v = c := by
  rw [evaluate_eq_ok_iff, ← cast_valueAt, Rat.cast_inj, eq_comm (a := c)]

end RationalFunction

/-! ## Equations at a point -/

namespace EquationSystem

variable {e : EquationSystem RationalFunction} {v : Valuation} {x : Nat → ℚ} {s : Nat}

/-- The weights of the equation of a state. -/
def weightsOf (e : EquationSystem RationalFunction) (s : Nat) : List RationalFunction :=
  (e.row s).map Prod.snd ++ [e.target s]

/-- The right side of the equation of a state at a point. -/
def rightSide (e : EquationSystem RationalFunction) (v : Valuation) (x : Nat → ℚ) (s : Nat) :
    Except ModelError ℚ := do
  let steps ← (e.row s).mapM fun d => do return (← d.2.evaluate v) * x d.1
  return steps.sum + (← (e.target s).evaluate v)

theorem forall_mem_weightsOf {P : RationalFunction → Prop} :
    (∀ w ∈ e.weightsOf s, P w) ↔ (∀ d ∈ e.row s, P d.2) ∧ P (e.target s) := by
  rw [weightsOf, List.forall_mem_append, List.forall_mem_map, List.forall_mem_singleton]

/-- At rational unknowns the right side is a rational number. -/
theorem rhs_pointReading : e.rhs (pointReading v) (fun i => x i) s =
    ((((e.row s).map fun d => d.2.valueAt v * x d.1).sum + (e.target s).valueAt v : ℚ) : ℝ) := by
  rw [rhs, Row.dot, Row.read, Rat.cast_add, RationalFunction.cast_valueAt, Rat.cast_list_sum,
    List.map_map, List.map_map]
  congr 2
  refine List.map_congr_left fun d _ => ?_
  rw [Function.comp_apply, Function.comp_apply, Rat.cast_mul, RationalFunction.cast_valueAt]

/-- The right side can be evaluated if all weights can, and then as one expects. -/
theorem rightSide_eq_ok_iff {y : ℚ} : e.rightSide v x s = .ok y ↔
    (∀ w ∈ e.weightsOf s, (pointReading v).Defined w) ∧
      (y : ℝ) = e.rhs (pointReading v) (fun i => x i) s := by
  have hstep : ∀ (d : Nat × RationalFunction) (b : ℚ),
      (do return (← d.2.evaluate v) * x d.1 : Except ModelError ℚ) = .ok b ↔
        (pointReading v).Defined d.2 ∧ d.2.valueAt v * x d.1 = b := by
    intro d b
    simp only [bind_eq_ok_iff, pure_eq_ok_iff, RationalFunction.evaluate_eq_ok_iff_valueAt]
    constructor
    · rintro ⟨c, ⟨hdefined, rfl⟩, hb⟩
      exact ⟨hdefined, hb⟩
    · rintro ⟨hdefined, hb⟩
      exact ⟨_, ⟨hdefined, rfl⟩, hb⟩
  rw [rhs_pointReading, Rat.cast_inj, forall_mem_weightsOf, rightSide, bind_eq_ok_iff]
  simp only [mapM_eq_ok_iff_map hstep, bind_eq_ok_iff, pure_eq_ok_iff,
    RationalFunction.evaluate_eq_ok_iff_valueAt]
  constructor
  · rintro ⟨_, ⟨hrow, rfl⟩, _, ⟨htarget, rfl⟩, rfl⟩
    exact ⟨⟨hrow, htarget⟩, rfl⟩
  · rintro ⟨⟨hrow, htarget⟩, rfl⟩
    exact ⟨_, ⟨hrow, rfl⟩, _, ⟨htarget, rfl⟩, rfl⟩

/-- So all weights can be evaluated if the right side can. -/
theorem exists_evaluate_of_rightSide {y : ℚ} (h : e.rightSide v x s = .ok y) :
    ∀ w ∈ e.weightsOf s, ∃ c, w.evaluate v = .ok c :=
  fun w hw => ⟨_, RationalFunction.evaluate_eq_ok_iff_valueAt.mpr
    ⟨(rightSide_eq_ok_iff.mp h).1 w hw, rfl⟩⟩

end EquationSystem

namespace Smt

open EquationSystem

/-! ## Assertions -/

section Assertions

variable {e : EquationSystem RationalFunction} {v : Valuation} {x : Nat → ℚ} {σ : String → ℝ}

/-- The assertions of a row say that the right side of its equation can be evaluated, and is the
unknown of its state. -/
theorem holds_rowAssertions_iff_rightSide (hσ : Agrees v σ) {s : Nat}
    (hcovered : ∀ w ∈ e.weightsOf s, ∀ p ∈ w.parameters, p ∈ v.domain)
    (hstate : σ (probabilityVariable s) = x s)
    (hcolumns : ∀ d ∈ e.row s, σ (probabilityVariable d.1) = x d.1) :
    (∀ t ∈ rowAssertions s (e.row s) (e.target s), t.Holds σ) ↔
      e.rightSide v x s = .ok (x s) := by
  have hrhs : (Row.read (pointReading v) (e.row s)).dot (fun i => σ (probabilityVariable i)) +
      (pointReading v).value (e.target s) = e.rhs (pointReading v) (fun i => x i) s := by
    rw [rhs]
    congr 1
    refine Row.dot_congr fun entry hentry => ?_
    obtain ⟨d, hd, rfl⟩ := Row.mem_read.mp hentry
    exact hcolumns d hd
  have hiff : (∀ w ∈ e.weightsOf s, (pointReading v).Defined w) →
      ((∀ t ∈ rowAssertions s (e.row s) (e.target s), t.Holds σ) ↔
        (x s : ℝ) = e.rhs (pointReading v) (fun i => x i) s) := by
    intro hdefined
    obtain ⟨hrow, htarget⟩ := forall_mem_weightsOf.mp hdefined
    rw [holds_rowAssertions_iff hσ hrow htarget, hstate, hrhs]
  rw [rightSide_eq_ok_iff]
  constructor
  · intro h
    have hdefined := defined_of_rowAssertions hσ hcovered h
    exact ⟨hdefined, (hiff hdefined).mp h⟩
  · rintro ⟨hdefined, heq⟩
    exact (hiff hdefined).mpr heq

end Assertions

namespace Encoding

/-- The assertions of a system are exactly its equations.  An assignment gives the parameters the
values of a point that covers all that occur, and the unknowns rational values.  All assertions hold
if and only if the unknowns are between zero and one, every weight has a value at the point, and
every unknown is the sum of the unknowns after one step, weighted by these values, and of the weight
of the step into a target. -/
theorem satisfied_iff_linear_system {e : EquationSystem RationalFunction} {v : Valuation}
    {x : Nat → ℚ} {σ : String → ℚ}
    (hcolumns : ∀ s < e.states, ∀ d ∈ e.row s, d.1 < e.states)
    (hcovered : ∀ s < e.states, ∀ w ∈ e.weightsOf s, ∀ p ∈ w.parameters, p ∈ v.keys)
    (hparameters : ∀ p q, v.find? p = some q → σ (parameterVariable p) = q)
    (hunknowns : ∀ s < e.states, σ (probabilityVariable s) = x s)
    (initial : Nat) (parameters : List Parameter) :
    (ofSystem e initial parameters).Satisfied (fun name => σ name) ↔
      (∀ s < e.states, 0 ≤ x s ∧ x s ≤ 1) ∧
      (∀ s < e.states, ∀ w ∈ e.weightsOf s, ∃ c, w.evaluate v = .ok c) ∧
      ∀ s < e.states, e.rightSide v x s = .ok (x s) := by
  have hagrees : Agrees v fun name => σ name := fun p q hp => congrArg _ (hparameters p q hp)
  have hvalue : ∀ s < e.states, (σ (probabilityVariable s) : ℝ) = x s :=
    fun s hs => congrArg _ (hunknowns s hs)
  have hunit : ∀ s < e.states, (0 ≤ (σ (probabilityVariable s) : ℝ) ∧
      (σ (probabilityVariable s) : ℝ) ≤ 1) ↔ 0 ≤ x s ∧ x s ≤ 1 := by
    intro s hs
    rw [hvalue s hs]
    exact and_congr Rat.cast_nonneg (by exact_mod_cast Iff.rfl)
  have hrow := fun s (hs : s < e.states) =>
    holds_rowAssertions_iff_rightSide (x := x) hagrees
      (fun w hw p hp => OrderedMap.mem_keys_iff.mp (hcovered s hs w hw p hp)) (hvalue s hs)
      fun d hd => hvalue d.1 (hcolumns s hs d hd)
  rw [satisfied_ofSystem_iff_rows]
  constructor
  · intro h
    have hsolves : ∀ s < e.states, e.rightSide v x s = .ok (x s) :=
      fun s hs => (hrow s hs).mp (h s hs).2
    exact ⟨fun s hs => (hunit s hs).mp (h s hs).1,
      fun s hs => exists_evaluate_of_rightSide (hsolves s hs), hsolves⟩
  · rintro ⟨hbetween, -, hsolves⟩ s hs
    exact ⟨(hunit s hs).mpr (hbetween s hs), (hrow s hs).mpr (hsolves s hs)⟩

/-- The chance to stay on the lap. -/
def lap : Parameter := ⟨"lap", by decide⟩

/-- The chance to leave for the pit. -/
def pit : Parameter := ⟨"pit", by decide⟩

/-- A race: from the lap one goes on with weight `lap/(1 + lap)` or into the pit with weight
`1/(1 + pit)`.  From the pit one returns, or reaches the target in one step. -/
def race : EquationSystem RationalFunction where
  rows := #[[(0, ⟨.ofParameter lap, Polynomial.one.add (.ofParameter lap)⟩),
    (1, ⟨.one, Polynomial.one.add (.ofParameter pit)⟩)], [(0, .constant (1 / 2))]]
  oneStep := #[.zero, .constant (1 / 4)]

/-- The solution of the race at a point satisfies its assertions, and where a denominator vanishes
nothing does. -/
theorem satisfied_iff_linear_system_race :
    let v : Valuation := .ofList [(lap, 1), (pit, 2)]
    let pole : Valuation := .ofList [(lap, -1), (pit, 2)]
    let x : Nat → ℚ := fun s => if s = 0 then 1 / 4 else 3 / 8
    race.rightSide v x 0 = .ok (1 / 4) ∧ race.rightSide v x 1 = .ok (3 / 8) ∧
    (ofSystem race 0 [lap, pit]).Satisfied (fun name => assignmentOf v.assignment x name) ∧
    ∀ y : Nat → ℚ, ¬ (ofSystem race 0 [lap, pit]).Satisfied
      fun name => assignmentOf pole.assignment y name := by
  intro v pole x
  have hcolumns : ∀ s < race.states, ∀ d ∈ race.row s, d.1 < race.states := by decide
  have hcovered : ∀ s < race.states, ∀ w ∈ race.weightsOf s, ∀ p ∈ w.parameters, p ∈ v.keys := by
    decide +kernel
  have hassigned : ∀ (u : Valuation) (y : Nat → ℚ) p q, u.find? p = some q →
      assignmentOf u.assignment y (parameterVariable p) = q := by
    intro u y p q hp
    rw [assignmentOf_parameter, Valuation.assignment, hp, Option.getD_some]
  have hbetween : ∀ s < race.states, 0 ≤ x s ∧ x s ≤ 1 := by decide +kernel
  have hsolves : ∀ s < race.states, race.rightSide v x s = .ok (x s) := by decide +kernel
  have hdefined := fun s hs => exists_evaluate_of_rightSide (hsolves s hs)
  refine ⟨hsolves 0 (by decide), hsolves 1 (by decide), ?_, fun y h => ?_⟩
  · exact (satisfied_iff_linear_system hcolumns hcovered (hassigned v x)
      (fun s _ => assignmentOf_probability _ _ s) 0 _).mpr ⟨hbetween, hdefined, hsolves⟩
  · obtain ⟨-, hvalues, -⟩ := (satisfied_iff_linear_system hcolumns (v := pole)
      hcovered (hassigned pole y) (fun s _ => assignmentOf_probability _ _ s) 0 _).mp h
    obtain ⟨c, hc⟩ := hvalues 0 (by decide) _ List.mem_cons_self
    have herror : (RationalFunction.evaluate pole
        ⟨.ofParameter lap, Polynomial.one.add (.ofParameter lap)⟩).isOk = false := by decide +kernel
    rw [show RationalFunction.evaluate pole ⟨.ofParameter lap, _⟩ = .ok c from hc] at herror
    cases herror

end Encoding

end Smt

end MarkovRegion
