import MarkovRegion.Proofs.Algebra.Evaluation
import MarkovRegion.Proofs.Analysis.EliminationOrder
import MarkovRegion.Proofs.Analysis.Sampling

/-!
# Which parameters can occur

A simplified model lists the parameters of its weights.  Nothing that is computed from the weights
later has other ones: not the rows of the arena, and not the closed form, for which weights are
added, multiplied and divided.

No arithmetic is opened for this.  The functions whose parameters belong to a set `S` have a reading
in the field of fractions (`RationalFunction.fractionReadingOn S`), and elimination keeps a system
readable in whichever reading it is.

The weights of a chain need not have values anywhere here, and its rows need not sum to one.  It is
enough that no denominator is the zero polynomial (`SimplifiedModel.Regular`).
-/

namespace MarkovRegion

namespace RationalFunction

variable {S : Set Parameter} {f : RationalFunction}

theorem fractionReadingOn_defined_iff : (fractionReadingOn S).Defined f ↔
    f.denominator ≠ .zero ∧ ∀ p ∈ f.parameters, p ∈ S :=
  readDefined_fraction_iff

theorem seesZeros_fractionReadingOn (S : Set Parameter) : (fractionReadingOn S).SeesZeros := by
  intro a b q hb hq h0
  have hzero : b.isZero = true := by
    by_contra hne
    exact readValue_fraction_ne_zero (fractionReadingOn_defined_iff.mp hb).1
      (Bool.not_eq_true _ ▸ hne) h0
  have hnone : Weight.div? a b = none := by
    show div? a b = none
    rw [div?, hzero]
    rfl
  rw [hnone] at hq
  cases hq

end RationalFunction

/-- Rows lead to the states, the target and the sink, and their parameters are among some. -/
structure Arena.Within (a : Arena) (parameters : List Parameter) : Prop where
  column_lt : ∀ s, ∀ e ∈ a.row s, e.1 < a.states + 2
  mem_parameters : ∀ s, ∀ p ∈ a.rowParameters s, p ∈ parameters
  initial_lt : a.initial < a.states + 2

/-! ## Simplified models -/

namespace SimplifiedModel

open EquationSystem RationalFunction

/-- A model in form whose weights are quotients. -/
structure Regular (m : SimplifiedModel) : Prop extends m.WellFormed where
  denominator_ne_zero : ∀ w ∈ weights m.system, w.denominator ≠ .zero

theorem regular_ofConstant (initial : Nat) (q : ℚ) : (ofConstant initial q).Regular := by
  refine ⟨wellFormed_ofConstant initial q, fun w hw => ?_⟩
  obtain rfl : w = .constant q := List.mem_singleton.mp hw
  show Polynomial.one ≠ .zero
  decide

theorem regular_of_ofSystem {openStates : List Nat} {e : EquationSystem RationalFunction}
    {initial : Nat} {m : SimplifiedModel} (hinitial : initial < e.states)
    (hread : e.Readable (fractionReadingOn Set.univ))
    (h : ofSystem openStates e initial = .ok m) : m.Regular := by
  obtain ⟨constant, hconstant, -⟩ := bind_eq_ok_iff.mp h
  obtain ⟨m', hm', hstates, hsystem, hnew, -, hparameters⟩ :=
    ofSystem_of_constantOf? openStates hconstant
  obtain rfl := Except.ok.inj (h.symm.trans hm')
  have hren := renumbered_restrict e (e.reachableFrom initial)
  have hrestrict : m.system.Readable (fractionReadingOn Set.univ) :=
    hsystem ▸ hren.readable (fun s _ => hread.defined s) fun s _ => hread.target_defined s
  have hmem : initial ∈ e.reachableFrom initial := Qualitative.initial_mem_reachableFrom hinitial
  have hplace := getElem?_newInitial hmem
  refine ⟨⟨hsystem ▸ hren.shape, ?_, ?_, hparameters⟩, fun w hw => ?_⟩
  · rw [hsystem, hnew, hren.states_eq]
    exact (List.getElem?_eq_some_iff.mp hplace).1
  · rw [hsystem, hstates, List.length_map, hren.states_eq]
  · obtain ⟨s, -, ⟨d, hd, rfl⟩ | rfl⟩ := mem_weights.mp hw
    · exact (fractionReadingOn_defined_iff.mp (hrestrict.defined s d hd)).1
    · exact (fractionReadingOn_defined_iff.mp (hrestrict.target_defined s)).1

section Chains

variable {c : ParametricChain} (hc : ∀ s, ∀ d ∈ c.row s, d.2.denominator ≠ .zero)
include hc

theorem regular_of_openSystem {openStates sure : List Nat} {initial : Nat}
    {system : EquationSystem RationalFunction} {m : SimplifiedModel}
    (hinitial : initial < openStates.length)
    (hsystem : (openSystem c openStates sure).eliminateStates none
      ((openSystem c openStates sure).eliminationOrder
        (constantStates (openSystem c openStates sure) initial)) = .ok system)
    (h : ofSystem openStates system initial = .ok m) : m.Regular := by
  have hren := renumbered_openSystem c openStates sure
  have hdefined : ∀ s, Row.Defined (fractionReadingOn Set.univ) (c.row s) := fun s d hd =>
    fractionReadingOn_defined_iff.mpr ⟨hc s d hd, fun _ _ => Set.mem_univ _⟩
  have hread := hren.readable (fun s _ => hdefined s) fun s _ =>
    (ModelFile.rowSum_read fun d hd => hdefined s d (List.mem_filter.mp hd).1).1
  have horder : ∀ s ∈ (openSystem c openStates sure).eliminationOrder
      (constantStates (openSystem c openStates sure) initial),
      s < (openSystem c openStates sure).states := by
    intro s hs
    exact List.mem_range.mp (List.mem_filter.mp (mem_eliminationOrder.mp hs)).1
  obtain ⟨p, hkeeps, rfl, -⟩ := exists_keeps_of_eliminateStates (seesZeros_fractionReadingOn _)
    hren.shape hread horder hsystem
  refine regular_of_ofSystem ?_ hkeeps.readable h
  rw [hkeeps.sameSolutions.states_eq, hren.states_eq]
  exact hinitial

/-- The model of a chain whose weights are quotients. -/
theorem regular_of_ofChain {targets : List Nat} {m : SimplifiedModel}
    (h : ofChain c targets = .ok m) : m.Regular := by
  rw [ofChain] at h
  generalize Qualitative.neverReach c.transitions targets = never at h
  generalize Qualitative.surelyReach c.transitions targets never = sure at h
  split at h
  · exact pure_eq_ok_iff.mp h ▸ regular_ofConstant _ _
  split at h
  · exact pure_eq_ok_iff.mp h ▸ regular_ofConstant _ _
  dsimp only at h
  split at h
  · cases h
  · next initial hidx =>
      obtain ⟨system, hsystem, h⟩ := bind_eq_ok_iff.mp h
      rw [liftElimination, mapError_eq_ok_iff] at hsystem h
      exact regular_of_openSystem hc (List.idxOf?_eq_some_iff.mp hidx).choose hsystem h

end Chains

namespace Regular

variable {m : SimplifiedModel} (h : m.Regular)
include h

theorem mem_parameters {w : RationalFunction} (hw : w ∈ weights m.system) {p : Parameter}
    (hp : p ∈ w.parameters) : p ∈ m.parameters := by
  rw [h.parameters_eq, mem_orderedKeys, List.mem_flatMap]
  exact ⟨w, hw, hp⟩

/-- The closed form has no other parameters than the weights. -/
theorem mem_parameters_of_closedForm {bound : Option Nat} {f : RationalFunction}
    (hf : m.closedForm bound = .computed f) {p : Parameter} (hp : p ∈ f.parameters) :
    p ∈ m.parameters := by
  -- Only functions of the model's parameters are defined in this reading, and solving stays in it.
  have hread : m.system.Readable (fractionReadingOn {p | p ∈ m.parameters}) :=
    readable_of_weights h.shape.size_eq fun w hw => fractionReadingOn_defined_iff.mpr
      ⟨h.denominator_ne_zero w hw, fun _ hp => h.mem_parameters hw hp⟩
  rw [closedForm] at hf
  split at hf
  · next g hg =>
      obtain rfl := ReachFunction.computed.inj hf
      obtain ⟨system, hsystem, hvalue⟩ := bind_eq_ok_iff.mp hg
      obtain ⟨hdefined, -⟩ := isOnlySolution_of_initialValue (seesZeros_fractionReadingOn _)
        h.shape hread h.initial_lt (fun s => by simp [mem_eliminationOrder]) hsystem hvalue
      exact (fractionReadingOn_defined_iff.mp hdefined).2 p hp
  · cases hf

/-- The arena of a model keeps to the states and to the parameters of the model. -/
theorem arena_within : (Arena.ofModel m).Within m.parameters where
  column_lt s e he := by
    rw [Arena.states_ofModel]
    rcases List.mem_append.mp (Arena.mem_entriesOf_of_mem_row he).2 with hrow | htarget
    · exact Nat.lt_add_right 2 (h.shape.column_lt s e hrow)
    · split at htarget
      · cases htarget
      · rw [List.mem_singleton.mp htarget]
        exact Nat.lt_add_of_pos_right Nat.two_pos
  mem_parameters s p hp := by
    rw [Arena.rowParameters, mem_orderedKeys, List.mem_flatMap] at hp
    obtain ⟨e, he, hp⟩ := hp
    exact h.mem_parameters (Arena.mem_weights_of_mem_row he) hp
  initial_lt := by
    rw [Arena.states_ofModel]
    exact Nat.lt_add_right 2 h.initial_lt

end Regular

end SimplifiedModel

/-! ## Properties -/

theorem Property.exists_ofChain_of_build {c : ParametricChain} {φ : StateFormula}
    {sizeBound : Option Nat} {p : Property} (h : Property.build c φ sizeBound = .ok p) :
    (∃ targets, SimplifiedModel.ofChain c targets = .ok p.model) ∧
      p.reachFunction.get = p.model.closedForm sizeBound := by
  rw [build] at h
  split at h
  · cases h
  split at h
  · cases h
  obtain ⟨targets, -, h⟩ := bind_eq_ok_iff.mp h
  obtain ⟨model, hmodel, h⟩ := bind_eq_ok_iff.mp h
  obtain rfl := pure_eq_ok_iff.mp h
  exact ⟨⟨targets, hmodel⟩, rfl⟩

end MarkovRegion
