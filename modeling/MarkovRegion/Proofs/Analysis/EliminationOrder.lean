import MarkovRegion.Proofs.Analysis.EliminationRuns
import MarkovRegion.Proofs.Analysis.Simplification

/-!
# The order of eliminations does not matter

The weights that arise on the way depend on the order in which states are eliminated, and so does
the text of the result: quotients are not reduced to lowest terms.  The function it denotes does
not.  If all states but one were eliminated and that one has a value, then the system has exactly
one solution (`isOnlySolution_of_initialValue`), and the system does not know of the order.

Rational functions are read in the field of fractions of the polynomials, where two functions are
equal if they are equal after cross multiplication (`cross_mul_of_value_eq`).
-/

namespace MarkovRegion

open RationalFunction (fractionReading)

variable {W : Type} [Weight W] {F : Type} [Field F]

namespace RationalFunction

theorem seesZeros_fractionReading : fractionReading.SeesZeros := by
  intro a b q hb hq h0
  have hzero := isZero_of_fraction hb h0
  have hnone : Weight.div? a b = none := by
    show div? a b = none
    rw [div?, hzero]
    rfl
  rw [hnone] at hq
  cases hq

/-- Functions of one value are equal after cross multiplication. -/
theorem cross_mul_of_value_eq {f g : RationalFunction} (hf : fractionReading.Defined f)
    (hg : fractionReading.Defined g) (h : fractionReading.value f = fractionReading.value g) :
    f.numerator.mul g.denominator = g.numerator.mul f.denominator := by
  have hinj := IsFractionRing.injective (MvPolynomial Parameter ℚ)
    (FractionRing (MvPolynomial Parameter ℚ))
  apply Polynomial.toRing_injective
  apply hinj
  rw [Polynomial.toRing_mul, Polynomial.toRing_mul, map_mul, map_mul]
  exact (div_eq_div_iff hf.1 hg.1).mp h

end RationalFunction

namespace EquationSystem

/-- The equations have exactly one solution. -/
structure IsOnlySolution (R : Reading W F) (e : EquationSystem W) (x : Nat → F) : Prop where
  solves : e.SolvesOff R ∅ x
  eq_of_solves : ∀ y, e.SolvesOff R ∅ y → ∀ i < e.states, y i = x i

theorem readable_of_weights {R : Reading RationalFunction F} {e : EquationSystem RationalFunction}
    (hsize : e.oneStep.size = e.states) (h : ∀ w ∈ SimplifiedModel.weights e, R.Defined w) :
    e.Readable R := by
  refine ⟨fun s d hd => h d.2 ?_, fun s => ?_⟩
  · exact SimplifiedModel.mem_weights.mpr ⟨s, lt_states_of_mem_row hd, Or.inl ⟨d, hd, rfl⟩⟩
  · by_cases hs : s < e.states
    · exact h _ (SimplifiedModel.mem_weights.mpr ⟨s, hs, Or.inr rfl⟩)
    · rw [target, getD_of_size_le _ (hsize.symm ▸ not_lt.mp hs)]
      exact R.zero.1

/-- The weights of a system of rational functions are quotients. -/
theorem readable_fractionReading {e : EquationSystem RationalFunction}
    (hsize : e.oneStep.size = e.states)
    (h : ∀ w ∈ SimplifiedModel.weights e, w.denominator.isZero = false) :
    e.Readable fractionReading := by
  refine readable_of_weights hsize fun w hw => ?_
  rw [RationalFunction.fractionReading_defined_iff, Ne, Polynomial.toRing_eq_zero_iff, h w hw]
  exact Bool.false_ne_true

end EquationSystem

namespace Eliminator.Progress

/-- Eliminations that all succeed are a run of calls. -/
theorem calls_of_eliminateAll {bound : Option Nat} {order : List Nat} {next : Eliminator W}
    {p : Progress W} (h : (eliminateAll bound order).run p.current = (Except.ok (), next)) :
    p.calls bound order = ⟨next, order.reverse ++ p.eliminated⟩ := by
  induction order generalizing p with
  | nil =>
      obtain ⟨-, rfl⟩ := Prod.mk.inj h
      rfl
  | cons s rest ih =>
      rw [eliminateAll_cons, Attempt.run_bind] at h
      rcases run_eliminate_cases bound p.current s with ⟨_, -, herr⟩ |
        ⟨exit, -, ⟨_, _, -, -, herr⟩ | hok⟩
      · rw [herr] at h
        cases h
      · rw [herr] at h
        cases h
      · rw [hok] at h
        have hcalls : p.calls bound (s :: rest) = (p.call bound s).calls bound rest := rfl
        have hcall : p.call bound s = ⟨p.current.eliminated s exit, s :: p.eliminated⟩ := by
          rw [call, hok]
        rw [hcalls, hcall, ih h, List.reverse_cons, List.append_assoc]
        rfl

end Eliminator.Progress

namespace EquationSystem

open Eliminator (Progress)

section Last

variable {R : Reading W F} (hR : R.SeesZeros) {e e' : EquationSystem W} {bound : Option Nat}
  {order : List Nat} {initial : Nat}
include hR

theorem exists_keeps_of_eliminateStates (hshape : e.Shape ∅) (hread : e.Readable R)
    (horder : ∀ s ∈ order, s < e.states) (h : e.eliminateStates bound order = .ok e') :
    ∃ p : Progress W, p.Keeps R e ∧ p.current.system = e' ∧ ∀ s, s ∈ p.gone ↔ s ∈ order := by
  rcases hrun : (Eliminator.eliminateAll bound order).run (.ofSystem e) with ⟨failure | _, next⟩
  · rw [eliminateStates, hrun] at h
    cases h
  · rw [eliminateStates, hrun, Except.ok.injEq] at h
    have hcalls := Progress.calls_of_eliminateAll (p := Progress.start e) hrun
    have hkeeps : ((Progress.start e).calls bound order).Keeps R e :=
      Progress.Keeps.calls hR horder (Progress.keeps_start hshape hread)
    rw [hcalls] at hkeeps
    refine ⟨_, hkeeps, h, fun s => ?_⟩
    show s ∈ order.reverse ++ [] ↔ s ∈ order
    rw [List.append_nil, List.mem_reverse]

/-- A value that was found shows that the last pivot does not vanish. -/
theorem Readable.hasPivot_of_initialValue (h : e.Readable R) {f : W}
    (hf : e.initialValue initial = .ok f) : e.HasPivot R initial := by
  intro loop hloop hone
  obtain ⟨hsub, hsubval⟩ := R.sub R.one.1 (h.defined initial _ (Row.mem_of_get?_eq_some hloop))
  have hnone := (hR.div?_eq_none_iff (h.target_defined initial) hsub).mpr
    (by rw [hsubval, R.one.2, hone, sub_self])
  rw [initialValue, get?, hloop] at hf
  dsimp only at hf
  rw [hnone] at hf
  cases hf

/-- If all states but one can be eliminated and that one has a value, then the system has exactly
one solution, and this value in it. -/
theorem isOnlySolution_of_initialValue (hshape : e.Shape ∅) (hread : e.Readable R)
    (hinitial : initial < e.states) (horder : ∀ s, s ∈ order ↔ s < e.states ∧ s ≠ initial)
    (h : e.eliminateStates bound order = .ok e') {f : W} (hf : e'.initialValue initial = .ok f) :
    R.Defined f ∧ ∃ x, e.IsOnlySolution R x ∧ x initial = R.value f := by
  obtain ⟨p, hkeeps, rfl, hgone⟩ := exists_keeps_of_eliminateStates hR hshape hread
    (fun s hs => ((horder s).mp hs).1) h
  have hstates := hkeeps.sameSolutions.states_eq
  have hleft : ∀ s < e.states, s ∉ p.gone → s = initial := by
    intro s hs hmem
    by_contra hne
    exact hmem ((hgone s).mpr ((horder s).mpr ⟨hs, hne⟩))
  have hinitialLeft : initial ∉ p.gone := fun hmem =>
    ((horder initial).mp ((hgone initial).mp hmem)).2 rfl
  have honly : ∀ d ∈ p.current.system.row initial, d.1 = initial := fun d hd =>
    hleft d.1 (hstates ▸ hkeeps.shape.column_lt initial d hd)
      (hkeeps.shape.column_notMem initial d hd)
  obtain ⟨hdef, hvalue⟩ := hkeeps.readable.initialValue_read (hkeeps.shape.sorted initial)
    (hkeeps.readable.hasPivot_of_initialValue hR hf) honly hf
  -- only the equation of the initial state is left, and the value solves it
  have hsolved : p.current.system.SolvesOff R p.gone fun _ => R.value f := by
    intro s hs hmem
    obtain rfl := hleft s (hstates ▸ hs) hmem
    exact (hvalue fun _ => R.value f).mpr rfl
  obtain ⟨x, hx, hagree⟩ := hkeeps.sameSolutions.exists_completion hsolved
  have hxf : x initial = R.value f := hagree initial hinitialLeft
  refine ⟨hdef, x, ⟨hx, fun y hy i hi => ?_⟩, hxf⟩
  refine hkeeps.sameSolutions.determined hy hx (fun s hs hmem => ?_) i hi (Set.notMem_empty i)
  obtain rfl := hleft s hs hmem
  rw [hxf, ← hvalue]
  exact hkeeps.sameSolutions.solves hy s (hstates.symm ▸ hs) hmem

end Last

/-- The other states than the initial one, in any order. -/
theorem mem_of_perm_others {order : List Nat} {n initial : Nat}
    (h : order.Perm ((List.range n).filter (· != initial))) (s : Nat) :
    s ∈ order ↔ s < n ∧ s ≠ initial := by
  rw [h.mem_iff]
  simp

/-- Two orders in which the other states can be eliminated give the initial state the same function,
and it is the value of the initial state in the only solution of the system over the rational
functions. -/
theorem initialValue_eq_of_orders {e : EquationSystem RationalFunction} (hshape : e.Shape ∅)
    (hweights : ∀ w ∈ SimplifiedModel.weights e, w.denominator.isZero = false) {initial : Nat}
    (hinitial : initial < e.states) {order₁ order₂ : List Nat}
    (horder₁ : order₁.Perm ((List.range e.states).filter (· != initial)))
    (horder₂ : order₂.Perm ((List.range e.states).filter (· != initial)))
    {bound₁ bound₂ : Option Nat} {e₁ e₂ : EquationSystem RationalFunction}
    (h₁ : e.eliminateStates bound₁ order₁ = .ok e₁) (h₂ : e.eliminateStates bound₂ order₂ = .ok e₂)
    {f₁ f₂ : RationalFunction} (hf₁ : e₁.initialValue initial = .ok f₁)
    (hf₂ : e₂.initialValue initial = .ok f₂) :
    f₁.numerator.mul f₂.denominator = f₂.numerator.mul f₁.denominator ∧
      f₁.denominator.isZero = false ∧ f₂.denominator.isZero = false ∧
      ∃ x, e.IsOnlySolution fractionReading x ∧ x initial = fractionReading.value f₁ := by
  have hread := readable_fractionReading hshape.size_eq hweights
  obtain ⟨hdef₁, x₁, hx₁, hval₁⟩ := isOnlySolution_of_initialValue
    RationalFunction.seesZeros_fractionReading hshape hread hinitial (mem_of_perm_others horder₁)
    h₁ hf₁
  obtain ⟨hdef₂, x₂, hx₂, hval₂⟩ := isOnlySolution_of_initialValue
    RationalFunction.seesZeros_fractionReading hshape hread hinitial (mem_of_perm_others horder₂)
    h₂ hf₂
  have hvalue : fractionReading.value f₁ = fractionReading.value f₂ := by
    rw [← hval₁, ← hval₂]
    exact hx₂.eq_of_solves x₁ hx₁.solves initial hinitial
  have hnonzero : ∀ {f}, fractionReading.Defined f → f.denominator.isZero = false := by
    intro f hf
    rw [Bool.eq_false_iff, Ne, ← Polynomial.toRing_eq_zero_iff]
    exact RationalFunction.fractionReading_defined_iff.mp hf
  exact ⟨RationalFunction.cross_mul_of_value_eq hdef₁ hdef₂ hvalue, hnonzero hdef₁,
    hnonzero hdef₂, x₁, hx₁, hval₁⟩

/-- Two states that lead to each other and to themselves, behind the initial one. -/
def loopsSystem : EquationSystem RationalFunction :=
  let x := .ofParameter ⟨"x", by decide⟩
  let y := .ofParameter ⟨"y", by decide⟩
  .ofEntries [[(1, x)], [(1, x), (2, y)], [(1, x), (2, y)]] [.zero, .zero, x]

/-- The two orders write the function in different ways: one of them keeps a factor `1 - x` in
numerator and denominator. -/
theorem initialValue_eq_of_orders_loops : ∃ e₁ e₂ f₁ f₂,
    loopsSystem.eliminateStates none [1, 2] = .ok e₁ ∧ e₁.initialValue 0 = .ok f₁ ∧
    loopsSystem.eliminateStates none [2, 1] = .ok e₂ ∧ e₂.initialValue 0 = .ok f₂ ∧ f₁ ≠ f₂ ∧
    f₁.numerator.mul f₂.denominator = f₂.numerator.mul f₁.denominator ∧
    ∃ x, loopsSystem.IsOnlySolution fractionReading x ∧ x 0 = fractionReading.value f₁ := by
  obtain ⟨f₁, hrun₁, htest₁⟩ := exists_ok_of_map
    (loopsSystem.eliminateStates none [1, 2] >>= fun e => e.initialValue 0)
    (fun f => f.size == 7) (by decide +kernel)
  obtain ⟨f₂, hrun₂, htest₂⟩ := exists_ok_of_map
    (loopsSystem.eliminateStates none [2, 1] >>= fun e => e.initialValue 0)
    (fun f => f.size == 4) (by decide +kernel)
  obtain ⟨e₁, h₁, hf₁⟩ := bind_eq_ok_iff.mp hrun₁
  obtain ⟨e₂, h₂, hf₂⟩ := bind_eq_ok_iff.mp hrun₂
  have hne : f₁ ≠ f₂ := by
    rintro rfl
    rw [beq_iff_eq] at htest₁ htest₂
    omega
  have hshape : loopsSystem.Shape ∅ := shape_ofEntries rfl (by decide)
  obtain ⟨hcross, -, -, hsolution⟩ := initialValue_eq_of_orders hshape (by decide +kernel)
    (by decide : 0 < 3) (.refl _) (.swap 1 2 []) h₁ h₂ hf₁ hf₂
  exact ⟨e₁, e₂, f₁, f₂, h₁, hf₁, h₂, hf₂, hne, hcross, hsolution⟩

end EquationSystem

end MarkovRegion
