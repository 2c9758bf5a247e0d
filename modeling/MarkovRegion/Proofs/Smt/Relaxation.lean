import MarkovRegion.Proofs.Algebra.Evaluation
import MarkovRegion.Proofs.Analysis.EliminationRuns
import MarkovRegion.Proofs.Smt.Encoding

/-!
# The reduced encoding is a relaxation

Whatever satisfies the encoding of all equations satisfies the encoding of the reduced ones, at
every point: nothing is assumed of the weights there, which may be negative or sum to anything.  So
a query that has no answer in the reduced encoding has none in the full one.

* That the denominators of a row are not zero is asserted, so its weights have values at a point
  that satisfies its assertions (`defined_of_rowAssertions`).
* A state is reduced only if it has no loop.  Its pivot is one, and the weights of what is left have
  values wherever those of the system have (`exists_keeps_reduce`).
-/

namespace MarkovRegion.Smt

open RationalFunction (pointReading evalHom)
open Eliminator (Progress)

/-! ## Points -/

/-- The point that an assignment gives to parameters. -/
def pointOf (σ : String → ℚ) (parameters : List Parameter) : Valuation :=
  .ofList ((orderedKeys parameters).map fun p => (p, σ (parameterVariable p)))

section Points

variable {σ : String → ℚ} {parameters : List Parameter}

theorem find?_pointOf {p : Parameter} {q : ℚ} :
    (pointOf σ parameters).find? p = some q ↔ p ∈ parameters ∧ σ (parameterVariable p) = q :=
  Valuation.find?_ofAssignment

theorem agrees_pointOf : Agrees (pointOf σ parameters) fun name => σ name :=
  fun _ _ h => congrArg _ (find?_pointOf.mp h).2

theorem mem_domain_pointOf {p : Parameter} (hp : p ∈ parameters) :
    p ∈ (pointOf σ parameters).domain :=
  Valuation.mem_domain_ofAssignment hp

end Points

/-! ## Values from assertions -/

/-- The weights of a row whose assertions hold have values at a point that covers their
parameters. -/
theorem defined_of_rowAssertions {v : Valuation} {σ : String → ℝ} (hσ : Agrees v σ) {s : Nat}
    {row : Row RationalFunction} {oneStep : RationalFunction}
    (hcovered : ∀ w ∈ row.map Prod.snd ++ [oneStep], ∀ p ∈ w.parameters, p ∈ v.domain)
    (h : ∀ t ∈ rowAssertions s row oneStep, t.Holds σ) :
    ∀ w ∈ row.map Prod.snd ++ [oneStep], (pointReading v).Defined w := by
  intro w hw
  have hnum : w.numerator.toRing ∈ MvPolynomial.supported ℚ v.domain :=
    MvPolynomial.mem_supported.mpr fun p hp =>
      hcovered w hw p (RationalFunction.mem_parameters.mpr (Or.inl hp))
  have hden : w.denominator.toRing ∈ MvPolynomial.supported ℚ v.domain :=
    MvPolynomial.mem_supported.mpr fun p hp =>
      hcovered w hw p (RationalFunction.mem_parameters.mpr (Or.inr hp))
  refine ⟨?_, hnum, hden⟩
  by_cases hone : w.denominator.isOne = true
  · rw [Polynomial.isOne_iff.mp hone, Polynomial.toRing_one, map_one]
    exact one_ne_zero
  · have hmem : w.denominator ∈ denominators (row.map Prod.snd ++ [oneStep]) :=
      mem_denominators.mpr ⟨⟨w, hw, rfl⟩, by simpa using hone⟩
    exact (holds_denominator_iff hσ hden).mp
      (h _ (List.mem_cons_of_mem _ (List.mem_map_of_mem hmem)))

namespace Encoding

open EquationSystem

/-- The parameters of a system. -/
def parametersOf (e : EquationSystem RationalFunction) : List Parameter :=
  (SimplifiedModel.weights e).flatMap RationalFunction.parameters

/-- A system whose encoding is satisfied has values at the point of the assignment. -/
theorem readable_of_satisfied {e : EquationSystem RationalFunction}
    (hsize : e.oneStep.size = e.states) {σ : String → ℚ} {initial : Nat}
    {parameters : List Parameter}
    (h : (ofSystem e initial parameters).Satisfied fun name => σ name) :
    e.Readable (pointReading (pointOf σ (parametersOf e))) := by
  have hrow : ∀ s < e.states, ∀ w ∈ (e.row s).map Prod.snd ++ [e.target s],
      (pointReading (pointOf σ (parametersOf e))).Defined w := by
    intro s hs
    refine defined_of_rowAssertions agrees_pointOf (s := s) (fun w hw p hp => ?_) fun t ht => ?_
    · refine mem_domain_pointOf (List.mem_flatMap.mpr ⟨w, ?_, hp⟩)
      exact List.mem_flatMap.mpr ⟨s, List.mem_range.mpr hs, hw⟩
    · exact ((satisfied_ofSystem_iff_rows e _ _).mp h s hs).2 t ht
  refine ⟨fun s d hd => ?_, fun s => ?_⟩
  · exact hrow s (lt_states_of_mem_row hd) d.2
      (List.mem_append_left _ (List.mem_map_of_mem hd))
  · by_cases hs : s < e.states
    · exact hrow s hs _ (List.mem_append_right _ (List.mem_singleton_self _))
    · rw [target, getD_of_size_le _ (hsize.symm ▸ not_lt.mp hs)]
      exact (pointReading _).zero.1

/-! ## Reduction -/

section Reduction

variable {F : Type} [Field F] {R : Reading RationalFunction F} (fanBound : Nat)
  (sizeBound : Option Nat)

/-- A run that eliminates some states, none of which has a loop, keeps solutions and values. -/
theorem exists_keeps_foldl {system : EquationSystem RationalFunction} (order : List Nat)
    (horder : ∀ s ∈ order, s < system.states) {p : Progress RationalFunction}
    (h : p.Keeps R system) :
    ∃ q : Progress RationalFunction, q.Keeps R system ∧
      q.current = order.foldl (reduceState fanBound sizeBound) p.current ∧
      ∀ s ∈ q.gone, s ∈ p.gone ∨ s ∈ order := by
  induction order generalizing p with
  | nil => exact ⟨p, h, rfl, fun s hs => Or.inl hs⟩
  | cons s rest ih =>
      rw [List.foldl_cons]
      have hrest : ∀ t ∈ rest, t < system.states := fun t ht =>
        horder t (List.mem_cons_of_mem s ht)
      rcases reduceState_cases fanBound sizeBound p.current s with
        hsame | ⟨exit, hloop, hexit, heliminated⟩
      · obtain ⟨q, hq, hcurrent, hgone⟩ := ih hrest h
        refine ⟨q, hq, by rw [hsame, hcurrent], fun t ht => ?_⟩
        exact (hgone t ht).imp_right fun ht => List.mem_cons_of_mem s ht
      · have hpivot : p.current.system.HasPivot R s := by
          intro loop hsome
          rw [hloop] at hsome
          cases hsome
        obtain ⟨q, hq, hcurrent, hgone⟩ :=
          ih hrest (h.eliminated (horder s List.mem_cons_self) hexit hpivot)
        refine ⟨q, hq, by rw [heliminated, hcurrent], fun t ht => ?_⟩
        rcases hgone t ht with ht | ht
        · rcases List.mem_cons.mp ht with rfl | ht
          · exact Or.inr List.mem_cons_self
          · exact Or.inl ht
        · exact Or.inr (List.mem_cons_of_mem s ht)

/-- Reduction keeps solutions, values and the initial state. -/
theorem exists_keeps_reduce {m : SimplifiedModel} (hshape : m.system.Shape ∅)
    (hread : m.system.Readable R) :
    ∃ p : Progress RationalFunction, p.Keeps R m.system ∧
      p.current.system = reduce m fanBound sizeBound ∧ m.initial ∉ p.gone := by
  have horder : ∀ s ∈ m.system.eliminationOrder
      ((List.range m.system.states).filter (· != m.initial)),
      s < m.system.states ∧ s ≠ m.initial := by
    intro s hs
    simpa using SimplifiedModel.mem_eliminationOrder.mp hs
  obtain ⟨p, hp, hcurrent, hgone⟩ := exists_keeps_foldl fanBound sizeBound _
    (fun s hs => (horder s hs).1) (Progress.keeps_start hshape hread)
  refine ⟨p, hp, congrArg Eliminator.system hcurrent, fun hmem => ?_⟩
  rcases hgone _ hmem with hstart | hordered
  · exact List.not_mem_nil hstart
  · exact (horder _ hordered).2 rfl

end Reduction

/-! ## Restricted assignments -/

/-- The states of a model that its reduced encoding keeps, in their new order. -/
def keptStates (m : SimplifiedModel) (fanBound : Nat) (sizeBound : Option Nat) : List Nat :=
  (reduce m fanBound sizeBound).reachableFrom m.initial

/-- An assignment has the parameters of another and, with new numbers, its probabilities of the
states that are kept. -/
structure Restricts (keep : List Nat) (σ σ' : String → ℚ) : Prop where
  parameter_eq : ∀ p, σ' (parameterVariable p) = σ (parameterVariable p)
  probability_eq : ∀ i s, keep[i]? = some s →
    σ' (probabilityVariable i) = σ (probabilityVariable s)

theorem exists_restricts (keep : List Nat) (σ : String → ℚ) : ∃ σ', Restricts keep σ σ' := by
  refine ⟨assignmentOf (fun p => σ (parameterVariable p))
    fun i => σ (probabilityVariable (keep.getD i 0)), ?_, fun i s hs => ?_⟩
  · exact assignmentOf_parameter _ _
  · rw [assignmentOf_probability, List.getD_eq_getElem?_getD, hs, Option.getD_some]

section Relaxation

variable {m : SimplifiedModel} (hshape : m.system.Shape ∅) (hinitial : m.initial < m.system.states)
  (fanBound : Nat) (sizeBound : Option Nat) {σ σ' : String → ℚ}
include hshape hinitial

/-- What satisfies the full encoding satisfies the reduced one, with the same value for the initial
state. -/
theorem satisfied_subsystem (hσ' : Restricts (keptStates m fanBound sizeBound) σ σ')
    (h : (full m).Satisfied fun name => σ name) :
    (subsystem m fanBound sizeBound).Satisfied (fun name => σ' name) ∧
      σ' (subsystem m fanBound sizeBound).initialVariable = σ (full m).initialVariable := by
  have hread := readable_of_satisfied hshape.size_eq h
  rw [full, satisfied_ofSystem_iff agrees_pointOf hread] at h
  obtain ⟨p, hp, hsystem, hgone⟩ := exists_keeps_reduce fanBound sizeBound hshape hread
  rw [subsystem]
  rw [keptStates] at hσ'
  rw [← hsystem] at hσ' ⊢
  generalize hkeep : p.current.system.reachableFrom m.initial = keep at hσ' ⊢
  obtain ⟨hleft, hclosed⟩ := hkeep ▸ closed_reachableFrom hp.shape hgone
  have hren := renumbered_restrict p.current.system keep
  have hrestricted : (p.current.system.restrict keep).Readable
      (pointReading (pointOf σ (parametersOf m.system))) :=
    hren.readable (fun s _ => hp.readable.defined s) fun s _ => hp.readable.target_defined s
  have hvalue : ∀ i < (p.current.system.restrict keep).states,
      σ' (probabilityVariable i) = σ (probabilityVariable (keep.getD i 0)) := by
    intro i hi
    obtain ⟨s, -, hs, hgetD⟩ := hren.exists_getElem? hi
    rw [hgetD, hσ'.probability_eq i s hs]
  have hsolves := (restrict_solvesOff hleft hclosed hp.readable
    (hp.sameSolutions.solves fun s hs _ => (h s hs).2)).congr hren.shape
    fun i hi => congrArg _ (hvalue i hi).symm
  have hagrees : Agrees (pointOf σ (parametersOf m.system)) fun name => σ' name := by
    intro a q ha
    exact (congrArg _ (hσ'.parameter_eq a)).trans (agrees_pointOf a q ha)
  refine ⟨(satisfied_ofSystem_iff hagrees hrestricted _ _).mpr fun i hi => ⟨?_, ?_⟩, ?_⟩
  · obtain ⟨s, hs, -, hgetD⟩ := hren.exists_getElem? hi
    rw [hvalue i hi, hgetD]
    exact (h s (hp.sameSolutions.states_eq ▸ (hleft s hs).1)).1
  · exact hsolves i hi (Set.notMem_empty i)
  · have hmem : m.initial ∈ keep := hkeep ▸ Qualitative.initial_mem_reachableFrom
      (hp.sameSolutions.states_eq.symm ▸ hinitial)
    exact hσ'.probability_eq _ _ (SimplifiedModel.getElem?_newInitial hmem)

/-- So does what answers a query. -/
theorem refutes_subsystem {box : Box} {bound : Bound} {goal : Goal}
    (hσ' : Restricts (keptStates m fanBound sizeBound) σ σ')
    (h : (full m).Refutes box bound goal fun name => σ name) :
    (subsystem m fanBound sizeBound).Refutes box bound goal fun name => σ' name := by
  obtain ⟨hsat, ⟨terms, hterms, hbox⟩, hgoal⟩ := h
  obtain ⟨hsat', hvalue⟩ := satisfied_subsystem hshape hinitial fanBound sizeBound hσ' hsat
  have hnamed : (full m).Named m.parameters := rfl
  refine ⟨hsat', ⟨terms, hterms, ?_⟩, ?_⟩
  · rw [holds_boxTerms_iff hnamed hterms] at hbox ⊢
    intro p hp side hside
    rw [hσ'.parameter_eq]
    exact hbox p hp side hside
  · rw [holds_goalFails_iff] at hgoal ⊢
    rw [hvalue]
    exact hgoal

/-- The reduced encoding is a relaxation of the full one: an assignment that satisfies the full one,
restricted to the kept states, satisfies the reduced one, with the same value for the initial state.
A query without an answer in the reduced encoding has none in the full one. -/
theorem subsystem_relaxes_full :
    (∀ σ σ' : String → ℚ, Restricts (keptStates m fanBound sizeBound) σ σ' →
      (full m).Satisfied (fun name => σ name) →
      (subsystem m fanBound sizeBound).Satisfied (fun name => σ' name) ∧
        σ' (subsystem m fanBound sizeBound).initialVariable = σ (full m).initialVariable) ∧
    ∀ box bound goal,
      (¬ ∃ σ : String → ℚ,
        (subsystem m fanBound sizeBound).Refutes box bound goal fun name => σ name) →
      ¬ ∃ σ : String → ℚ, (full m).Refutes box bound goal fun name => σ name := by
  refine ⟨fun σ σ' => satisfied_subsystem hshape hinitial fanBound sizeBound, ?_⟩
  rintro box bound goal hnone ⟨σ, hσ⟩
  obtain ⟨σ', hσ'⟩ := exists_restricts (keptStates m fanBound sizeBound) σ
  exact hnone ⟨σ', refutes_subsystem hshape hinitial fanBound sizeBound hσ' hσ⟩

end Relaxation

/-- In the chain with the cycle the second of two states is eliminated.  An assignment that
satisfies both equations satisfies the one that is left. -/
theorem subsystem_relaxes_full_resend : ∃ c p, ∃ σ σ' : String → ℚ,
    Property.resendFile.toChain = .ok c ∧
    Property.build c (.reaching (.label "delivered") ⟨.greaterEqual, mkRat 1 4⟩) none = .ok p ∧
    (full p.model).states = 2 ∧ (subsystem p.model 4 none).states = 1 ∧
    Restricts (keptStates p.model 4 none) σ σ' ∧ (full p.model).Satisfied (fun name => σ name) ∧
    (subsystem p.model 4 none).Satisfied (fun name => σ' name) ∧
    σ' (subsystem p.model 4 none).initialVariable = σ (full p.model).initialVariable := by
  let φ : StateFormula := .reaching (.label "delivered") ⟨.greaterEqual, mkRat 1 4⟩
  obtain ⟨c, hc, htest⟩ := exists_ok_of_map Property.resendFile.toChain
    (fun c => decide (c.Admissible Property.resendPoint) &&
      ((c.labeling.states? "delivered").isSome &&
        ((Property.build c φ none).toOption.map fun p =>
          ((full p.model).states, (subsystem p.model 4 none).states)) == some (2, 1))) (by cbv)
  simp only [Bool.and_eq_true, decide_eq_true_eq, beq_iff_eq] at htest
  obtain ⟨hv, hlabel, hstates⟩ := htest
  have hregular := ModelFile.toChain_regular hc
  have hφ : φ.Checkable c ⟨.greaterEqual, mkRat 1 4⟩ (.label "delivered") :=
    ⟨rfl, fun name hname => List.mem_singleton.mp hname ▸ hlabel⟩
  obtain ⟨p, hp, hfaithful⟩ := Property.build_eq_ok hregular hφ hv none
  rw [hp] at hstates
  obtain ⟨hfull, hsub⟩ := Prod.mk.inj (Option.some.inj hstates)
  obtain ⟨x, hx⟩ := hv.exists_isProbability hregular (c.targetSet (.label "delivered"))
  have hdetermines := determines_full hfaithful.wellFormed
    (hfaithful.represents _ x hv hx) (hv.probability_mem_unit hregular hx)
    (hfaithful.exists_rat hregular hv hx)
  obtain ⟨σ, -, hσ⟩ := hdetermines.exists_satisfied
    (fun p => (Property.resendPoint.find? p).getD 0) fun _ _ h => by rw [h]; rfl
  obtain ⟨σ', hσ'⟩ := exists_restricts (keptStates p.model 4 none) σ
  obtain ⟨hsatisfied, hvalue⟩ := (subsystem_relaxes_full hfaithful.wellFormed.shape
    hfaithful.wellFormed.initial_lt 4 none).1 σ σ' hσ' hσ
  exact ⟨c, p, σ, σ', hc, hp, hfull, hsub, hσ', hσ, hsatisfied, hvalue⟩

end Encoding

end MarkovRegion.Smt
