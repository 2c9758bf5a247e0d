import MarkovRegion.Proofs.Analysis.ClosedForm
import MarkovRegion.Proofs.Region.Box
import MarkovRegion.Proofs.Smt.Meaning
import MarkovRegion.Smt.Session

/-!
# Encodings determine probabilities

At an admissible point the assertions of an encoding are satisfied by the probabilities of its
states and by nothing else.

* No denominator vanishes where the weights have values, so a row may be multiplied by all of them:
  its assertions say that the unknown of its state solves its equation (`holds_rowAssertions_iff`).
* An encoded system with drift has one solution (`satisfied_ofSystem_iff`).
* The reduced system is the result of a run that eliminates some of the states and leaves others
  (`exists_reduces`), and elimination keeps solutions.

The values of the unknowns are rational, so that an assignment of rational numbers exists.
-/

namespace MarkovRegion

/-- A goal fails for a probability. -/
def Goal.Fails (bound : Bound) (x : ℝ) : Goal → Prop
  | .allSat => ¬ bound.Holds x
  | .allViolated => bound.Holds x

namespace Smt

open RationalFunction (pointReading evalHom evalHom_apply)

/-! ## Denominators -/

section Denominators

variable {v : Valuation} {σ : String → ℝ}

theorem nodup_eraseDups {α : Type} [DecidableEq α] (list : List α) : list.eraseDups.Nodup := by
  induction h : list.length using Nat.strong_induction_on generalizing list with
  | _ n ih =>
      cases list with
      | nil => simp
      | cons a rest =>
          rw [List.eraseDups_cons, List.nodup_cons]
          refine ⟨by simp, ih _ ?_ _ rfl⟩
          rw [← h, List.length_cons]
          exact Nat.lt_succ_of_le (List.length_filter_le _ _)

theorem toRing_productOf (factors : List Polynomial) :
    (productOf factors).toRing = (factors.map Polynomial.toRing).prod := by
  rw [productOf, List.prod_eq_foldl, List.foldl_map, ← Polynomial.toRing_one]
  exact (List.foldl_hom Polynomial.toRing fun f g => (Polynomial.toRing_mul f g).symm).symm

theorem mem_denominators {weights : List RationalFunction} {d : Polynomial} :
    d ∈ denominators weights ↔ (∃ w ∈ weights, w.denominator = d) ∧ d.isOne = false := by
  simp [denominators, List.mem_eraseDups]

theorem filter_denominators (weights : List RationalFunction) (d : Polynomial) :
    (denominators weights).filter (fun f => f ≠ d) = (denominators weights).erase d := by
  have hnodup : (denominators weights).Nodup := nodup_eraseDups _
  rw [hnodup.erase_eq_filter]
  exact List.filter_congr fun f _ => Bool.eq_iff_iff.mpr (by simp)

/-- What the multiplication of an equation by denominators does at a point: all parameters have
values, the factor is not zero, and every weight is multiplied by it. -/
structure Clears (v : Valuation) (dens : List Polynomial) (w : RationalFunction) : Prop where
  covered : (clearDenominators dens w).toRing ∈ MvPolynomial.supported ℚ v.domain
  eval_eq : evalHom v (clearDenominators dens w).toRing =
    evalHom v (productOf dens).toRing * (pointReading v).value w

variable {weights : List RationalFunction}

/-- The denominators of weights with values are not zero. -/
theorem denominator_read (h : ∀ w ∈ weights, (pointReading v).Defined w) {d : Polynomial}
    (hd : d ∈ denominators weights) :
    d.toRing ∈ MvPolynomial.supported ℚ v.domain ∧ evalHom v d.toRing ≠ 0 := by
  obtain ⟨⟨w, hw, rfl⟩, -⟩ := mem_denominators.mp hd
  exact ⟨(h w hw).2.2, (h w hw).1⟩

theorem supported_productOf {factors : List Polynomial}
    (h : ∀ d ∈ factors, d.toRing ∈ MvPolynomial.supported ℚ v.domain) :
    (productOf factors).toRing ∈ MvPolynomial.supported ℚ v.domain := by
  rw [toRing_productOf]
  refine list_prod_mem fun f hf => ?_
  obtain ⟨d, hd, rfl⟩ := List.mem_map.mp hf
  exact h d hd

theorem evalHom_productOf (factors : List Polynomial) :
    evalHom v (productOf factors).toRing = (factors.map fun d => evalHom v d.toRing).prod := by
  rw [toRing_productOf, map_list_prod, List.map_map]
  rfl

theorem evalHom_productOf_ne_zero (h : ∀ w ∈ weights, (pointReading v).Defined w) :
    evalHom v (productOf (denominators weights)).toRing ≠ 0 := by
  rw [evalHom_productOf]
  refine List.prod_ne_zero fun hzero => ?_
  obtain ⟨d, hd, hd0⟩ := List.mem_map.mp hzero
  exact (denominator_read h hd).2 hd0

/-- A weight without denominators is the weight times all of them. -/
theorem clears (h : ∀ w ∈ weights, (pointReading v).Defined w) {w : RationalFunction}
    (hw : w ∈ weights) : Clears v (denominators weights) w := by
  obtain ⟨hne, hnum, hden⟩ := h w hw
  have hothers := fun d (hd : d ∈ (denominators weights).filter fun d => d ≠ w.denominator) =>
    (denominator_read h (List.mem_filter.mp hd).1).1
  have hall : evalHom v w.denominator.toRing * evalHom v (productOf
      ((denominators weights).filter fun d => d ≠ w.denominator)).toRing =
      evalHom v (productOf (denominators weights)).toRing := by
    rw [evalHom_productOf, evalHom_productOf, filter_denominators]
    by_cases hmem : w.denominator ∈ denominators weights
    · rw [List.prod_map_erase (fun d => evalHom v d.toRing) hmem]
    · have hone : w.denominator.isOne = true := by
        by_contra hnot
        exact hmem (mem_denominators.mpr ⟨⟨w, hw, rfl⟩, by simpa using hnot⟩)
      rw [List.erase_of_not_mem hmem, Polynomial.isOne_iff.mp hone, Polynomial.toRing_one,
        map_one, one_mul]
  refine ⟨?_, ?_⟩
  · rw [clearDenominators, Polynomial.toRing_mul]
    exact mul_mem hnum (supported_productOf hothers)
  · have hvalue : (pointReading v).value w =
        evalHom v w.numerator.toRing / evalHom v w.denominator.toRing := rfl
    rw [clearDenominators, Polynomial.toRing_mul, map_mul, ← hall, hvalue]
    field_simp

/-! ## Rows -/

/-- That a denominator is not zero holds where it is not. -/
theorem holds_denominator_iff (hσ : Agrees v σ) {d : Polynomial}
    (hd : d.toRing ∈ MvPolynomial.supported ℚ v.domain) :
    (Term.not (.eq (termOfPolynomial d) (.int 0))).Holds σ ↔ evalHom v d.toRing ≠ 0 := by
  have htruth : (Term.eq (termOfPolynomial d) (.int 0)).truth? σ =
      some (evalHom v d.toRing = 0) := by
    rw [Term.truth?_eq (number?_termOfPolynomial hσ hd) (Term.number?_int 0), Int.cast_zero]
  exact Term.holds_not htruth

/-- The weight of one step to a target, if it is not zero, times the denominators. -/
theorem numbers?_oneStep (hσ : Agrees v σ) {dens : List Polynomial} {w : RationalFunction}
    (hclears : Clears v dens w) :
    ∃ xs, Term.numbers? σ (if w.isZero then [] else [termOfPolynomial (clearDenominators dens w)]) =
        some xs ∧ xs.sum = evalHom v (productOf dens).toRing * (pointReading v).value w := by
  split
  · next hzero =>
      refine ⟨[], rfl, ?_⟩
      rw [(pointReading v).eq_zero hzero, mul_zero, List.sum_nil]
  · refine ⟨_, Term.numbers?_singleton (number?_termOfPolynomial hσ hclears.covered), ?_⟩
    rw [List.sum_singleton, hclears.eval_eq]

/-- The assertions of a row say that the unknown of its state solves its equation. -/
theorem holds_rowAssertions_iff (hσ : Agrees v σ) {row : Row RationalFunction}
    {oneStep : RationalFunction} (hrow : Row.Defined (pointReading v) row)
    (hone : (pointReading v).Defined oneStep) (s : Nat) :
    (∀ t ∈ rowAssertions s row oneStep, t.Holds σ) ↔
      σ (probabilityVariable s) =
        (Row.read (pointReading v) row).dot (fun i => σ (probabilityVariable i)) +
          (pointReading v).value oneStep := by
  have hdefined : ∀ w ∈ row.map Prod.snd ++ [oneStep], (pointReading v).Defined w := by
    intro w hw
    rcases List.mem_append.mp hw with hw | hw
    · obtain ⟨e, he, rfl⟩ := List.mem_map.mp hw
      exact hrow e he
    · exact List.mem_singleton.mp hw ▸ hone
  rw [rowAssertions]
  generalize hdens : denominators (row.map Prod.snd ++ [oneStep]) = dens
  have hclears : ∀ w ∈ row.map Prod.snd ++ [oneStep], Clears v dens w :=
    fun w hw => hdens ▸ clears hdefined hw
  have hread : ∀ d ∈ dens, d.toRing ∈ MvPolynomial.supported ℚ v.domain ∧ evalHom v d.toRing ≠ 0 :=
    fun d hd => denominator_read hdefined (hdens ▸ hd)
  have hne : evalHom v (productOf dens).toRing ≠ 0 := hdens ▸ evalHom_productOf_ne_zero hdefined
  -- Both sides of the equation are those of the row times the product of the denominators.
  have hleft : (if dens.isEmpty then Term.var (probabilityVariable s)
      else (termOfPolynomial (productOf dens)).times (.var (probabilityVariable s))).number? σ =
      some (evalHom v (productOf dens).toRing * σ (probabilityVariable s)) := by
    split
    · next hempty =>
        rw [evalHom_productOf, List.isEmpty_iff.mp hempty, List.map_nil, List.prod_nil, one_mul,
          Term.number?_var]
    · exact Term.number?_times
        (number?_termOfPolynomial hσ (supported_productOf fun d hd => (hread d hd).1))
        (Term.number?_var _)
  have hsteps : Term.numbers? σ (row.map fun e =>
      (termOfPolynomial (clearDenominators dens e.2)).times (.var (probabilityVariable e.1))) =
      some (row.map fun e => evalHom v (productOf dens).toRing *
        ((pointReading v).value e.2 * σ (probabilityVariable e.1))) := by
    refine Term.numbers?_map fun e he => ?_
    have he' := hclears e.2 (List.mem_append_left _ (List.mem_map_of_mem he))
    rw [Term.number?_times (number?_termOfPolynomial hσ he'.covered) (Term.number?_var _),
      he'.eval_eq, mul_assoc]
  obtain ⟨xs, hfinal, hxs⟩ := numbers?_oneStep hσ
    (hclears oneStep (List.mem_append_right _ (List.mem_singleton_self _)))
  have hright := Term.number?_sum (Term.numbers?_append hsteps hfinal)
  rw [List.sum_append, List.sum_map_mul_left, hxs, ← mul_add] at hright
  have hdot : (row.map fun e => (pointReading v).value e.2 * σ (probabilityVariable e.1)).sum =
      (Row.read (pointReading v) row).dot fun i => σ (probabilityVariable i) := by
    simp [Row.read, Row.dot, Function.comp_def]
  rw [List.forall_mem_cons, Term.holds_eq hleft hright, mul_right_inj' hne, hdot]
  refine and_iff_left ?_
  intro t ht
  obtain ⟨d, hd, rfl⟩ := List.mem_map.mp ht
  exact (holds_denominator_iff hσ (hread d hd).1).mpr (hread d hd).2

end Denominators

/-! ## Assignments -/

/-- The variables of parameters are not those of states. -/
theorem parameterVariable_ne (p : Parameter) (i : Nat) :
    parameterVariable p ≠ probabilityVariable i := by
  intro h
  have hlist := congrArg String.toList h
  simp [parameterVariable, probabilityVariable] at hlist

theorem parameterVariable_injective : Function.Injective parameterVariable := by
  rintro ⟨p, hp⟩ ⟨q, hq⟩ h
  simpa [parameterVariable] using h

theorem probabilityVariable_injective : Function.Injective probabilityVariable := by
  intro i j h
  have hname : i.repr = j.repr := by simpa [probabilityVariable] using h
  have hvalue := congrArg (fun s : String => Nat.ofDigitChars 10 s.toList 0) hname
  simpa using hvalue

/-- The assignment of values to parameters and states. -/
noncomputable def assignmentOf (a : Parameter → ℚ) (y : Nat → ℚ) (name : String) : ℚ :=
  open Classical in
  if h : ∃ p, parameterVariable p = name then a h.choose
  else if h : ∃ i, probabilityVariable i = name then y h.choose
  else 0

theorem assignmentOf_parameter (a : Parameter → ℚ) (y : Nat → ℚ) (p : Parameter) :
    assignmentOf a y (parameterVariable p) = a p := by
  have h : ∃ q, parameterVariable q = parameterVariable p := ⟨p, rfl⟩
  rw [assignmentOf, dif_pos h, parameterVariable_injective h.choose_spec]

theorem assignmentOf_probability (a : Parameter → ℚ) (y : Nat → ℚ) (i : Nat) :
    assignmentOf a y (probabilityVariable i) = y i := by
  have hnot : ¬ ∃ p, parameterVariable p = probabilityVariable i :=
    fun ⟨p, hp⟩ => parameterVariable_ne p i hp
  have h : ∃ j, probabilityVariable j = probabilityVariable i := ⟨i, rfl⟩
  rw [assignmentOf, dif_neg hnot, dif_pos h, probabilityVariable_injective h.choose_spec]

/-! ## Systems -/

namespace Encoding

open EquationSystem

/-- All assertions of an encoding hold. -/
def Satisfied (e : Encoding) (σ : String → ℝ) : Prop := ∀ t ∈ e.assertions, t.Holds σ

/-- An encoding determines the probabilities of the states it encodes at a point. -/
structure Determines (e : Encoding) (encoded : List Nat) (v : Valuation) (x : Nat → ℝ)
    (initial : Nat) : Prop where
  states_eq : e.states = encoded.length
  /-- The probabilities satisfy the assertions, and nothing else does. -/
  satisfied_iff : ∀ σ, Agrees v σ →
    (e.Satisfied σ ↔ ∀ i s, encoded[i]? = some s → σ (probabilityVariable i) = x s)
  /-- There is a rational assignment that does, whatever the other parameters are. -/
  exists_satisfied : ∀ a : Parameter → ℚ, (∀ p q, v.find? p = some q → a p = q) →
    ∃ σ : String → ℚ, (∀ p, σ (parameterVariable p) = a p) ∧ e.Satisfied fun name => σ name
  mem_unit : ∀ s ∈ encoded, 0 ≤ x s ∧ x s ≤ 1
  initial_eq : ∀ σ, Agrees v σ → e.Satisfied σ → σ e.initialVariable = x initial

section Systems

variable {v : Valuation} {σ : String → ℝ} {e : EquationSystem RationalFunction} {u : Nat → ℝ}

/-- The assertions of a system are those of its rows, and that the unknowns are between zero and
one. -/
theorem satisfied_ofSystem_iff_rows (e : EquationSystem RationalFunction) (initial : Nat)
    (parameters : List Parameter) :
    (ofSystem e initial parameters).Satisfied σ ↔
      ∀ s < e.states, (0 ≤ σ (probabilityVariable s) ∧ σ (probabilityVariable s) ≤ 1) ∧
        ∀ t ∈ rowAssertions s (e.row s) (e.target s), t.Holds σ := by
  have hwithin : ∀ s, (Term.within (.var (probabilityVariable s)) (.int 0) (.int 1)).Holds σ ↔
      0 ≤ σ (probabilityVariable s) ∧ σ (probabilityVariable s) ≤ 1 := by
    intro s
    rw [Term.holds_within (Term.number?_var _) (Term.number?_int 0) (Term.number?_int 1),
      Int.cast_zero, Int.cast_one]
  simp only [Satisfied, ofSystem, List.forall_mem_flatMap, List.mem_range, List.forall_mem_cons,
    hwithin]

/-- The assertions of a system say that the unknowns are between zero and one, and solve it. -/
theorem satisfied_ofSystem_iff (hσ : Agrees v σ) (hread : e.Readable (pointReading v))
    (initial : Nat) (parameters : List Parameter) :
    (ofSystem e initial parameters).Satisfied σ ↔
      ∀ s < e.states, (0 ≤ σ (probabilityVariable s) ∧ σ (probabilityVariable s) ≤ 1) ∧
        σ (probabilityVariable s) =
          e.rhs (pointReading v) (fun i => σ (probabilityVariable i)) s := by
  simp only [satisfied_ofSystem_iff_rows,
    holds_rowAssertions_iff hσ (hread.defined _) (hread.target_defined _), rhs]

/-- The assertions of a system that is solved by numbers between zero and one say that the unknowns
are these. -/
theorem satisfied_ofSystem_iff_eq (hσ : Agrees v σ) (hshape : e.Shape ∅)
    (hsound : e.Sound (pointReading v) u) {y : Nat → ℝ} (hy : e.SolvesOff (pointReading v) ∅ y)
    (hunit : ∀ s < e.states, 0 ≤ y s ∧ y s ≤ 1) (initial : Nat) (parameters : List Parameter) :
    (ofSystem e initial parameters).Satisfied σ ↔
      ∀ s < e.states, σ (probabilityVariable s) = y s := by
  rw [satisfied_ofSystem_iff hσ hsound.readable]
  constructor
  · intro h s hs
    exact hsound.eq_of_solvesOff hshape (fun r hr _ => (h r hr).2) hy s hs (Set.notMem_empty s)
  · intro h s hs
    have hsolves := hy.congr hshape (fun i hi => (h i hi).symm)
    exact ⟨h s hs ▸ hunit s hs, hsolves s hs (Set.notMem_empty s)⟩

/-- The encoding of a system determines the probabilities that solve it. -/
theorem determines_ofSystem (hshape : e.Shape ∅) (hsound : e.Sound (pointReading v) u)
    {encoded : List Nat} (hlength : encoded.length = e.states) {x : Nat → ℝ}
    (hx : e.SolvesOff (pointReading v) ∅ fun i => x (encoded.getD i 0))
    (hunit : ∀ s, 0 ≤ x s ∧ x s ≤ 1) (hrat : ∀ s, ∃ q : ℚ, x s = q) {start initial : Nat}
    (hinitial : encoded[start]? = some initial) (parameters : List Parameter) :
    (ofSystem e start parameters).Determines encoded v x initial := by
  have hiff : ∀ σ, Agrees v σ → ((ofSystem e start parameters).Satisfied σ ↔
      ∀ i s, encoded[i]? = some s → σ (probabilityVariable i) = x s) := by
    intro σ hσ
    rw [satisfied_ofSystem_iff_eq hσ hshape hsound hx fun s _ => hunit _, ← hlength]
    constructor
    · intro h i s hs
      obtain ⟨hi, -⟩ := List.getElem?_eq_some_iff.mp hs
      rw [h i hi, List.getD_eq_getElem?_getD, hs, Option.getD_some]
    · intro h i hi
      rw [List.getD_eq_getElem?_getD, List.getElem?_eq_getElem hi, Option.getD_some]
      exact h i _ (List.getElem?_eq_getElem hi)
  choose q hq using hrat
  refine ⟨hlength.symm, hiff, fun a ha => ?_, fun s _ => hunit s, fun σ hσ h => ?_⟩
  · refine ⟨assignmentOf a fun i => q (encoded.getD i 0), assignmentOf_parameter a _, ?_⟩
    rw [hiff]
    · intro i s hs
      rw [assignmentOf_probability, hq, List.getD_eq_getElem?_getD, hs, Option.getD_some]
    · intro p r hp
      exact congrArg _ ((assignmentOf_parameter a _ p).trans (ha p r hp))
  · exact (hiff σ hσ).mp h start initial hinitial

end Systems

/-! ## Reduced systems -/

section Reduced

variable {e : Eliminator RationalFunction} {gone : Set Nat} (fanBound : Nat)
  (sizeBound : Option Nat)

/-- A step eliminates the state, which then has no loop, or changes nothing. -/
theorem reduceState_cases (e : Eliminator RationalFunction) (s : Nat) :
    reduceState fanBound sizeBound e s = e ∨
      ∃ exit, Row.get? (e.system.row s) s = none ∧ Eliminator.exits e.system s = .ok exit ∧
        reduceState fanBound sizeBound e s = e.eliminated s exit := by
  rw [reduceState]
  split
  · exact Or.inl rfl
  · next hcheap =>
      rcases Eliminator.run_eliminate_cases sizeBound e s with ⟨_, -, herr⟩ |
        ⟨exit, hexit, ⟨_, _, -, -, herr⟩ | hok⟩
      · exact Or.inl (congrArg Prod.snd herr)
      · exact Or.inl (congrArg Prod.snd herr)
      · refine Or.inr ⟨exit, ?_, hexit, congrArg Prod.snd hok⟩
        simp only [Bool.or_eq_true, not_or, Bool.not_eq_true, Option.isSome_eq_false_iff,
          Option.isNone_iff_eq_none] at hcheap
        exact hcheap.2

/-- A run of such steps keeps solutions, and eliminates states of the list only. -/
theorem exists_reduces_foldl (order : List Nat) (hi : e.Indexed) (hshape : e.system.Shape gone) :
    ∃ gone', gone' ⊆ gone ∪ {s | s ∈ order} ∧
      Reduces gone gone' e.system
        (order.foldl (reduceState fanBound sizeBound) e).system := by
  induction order generalizing e gone with
  | nil => exact ⟨gone, by simp, Reduces.refl hshape⟩
  | cons s rest ih =>
      rw [List.foldl_cons]
      rcases reduceState_cases fanBound sizeBound e s with hsame | ⟨exit, -, hexit, heliminated⟩
      · rw [hsame]
        obtain ⟨gone', hsub, hreduces⟩ := ih hi hshape
        refine ⟨gone', hsub.trans ?_, hreduces⟩
        exact Set.union_subset_union_right _ fun t ht => List.mem_cons_of_mem s ht
      · rw [heliminated]
        have hstep := Eliminator.reduces_eliminated hi hshape hexit
        obtain ⟨gone', hsub, hreduces⟩ :=
          ih (Eliminator.indexed_eliminated hi hshape hexit) hstep.shape
        refine ⟨gone', fun t ht => ?_, hstep.trans hreduces⟩
        rcases hsub ht with (rfl | h) | h
        · exact Or.inr List.mem_cons_self
        · exact Or.inl h
        · exact Or.inr (List.mem_cons_of_mem s h)

/-- Reduction keeps the initial state and the solutions. -/
theorem exists_reduces {m : SimplifiedModel} (hm : m.WellFormed) :
    ∃ gone, m.initial ∉ gone ∧ Reduces ∅ gone m.system (reduce m fanBound sizeBound) := by
  obtain ⟨gone, hsub, hreduces⟩ := exists_reduces_foldl fanBound sizeBound
    (m.system.eliminationOrder ((List.range m.system.states).filter (· != m.initial)))
    (Eliminator.indexed_ofSystem hm.shape) hm.shape
  refine ⟨gone, fun h => ?_, hreduces⟩
  have hmem := (hsub h).resolve_left (Set.notMem_empty _)
  simpa using (SimplifiedModel.mem_eliminationOrder.mp hmem)

/-- The states of the chain that a reduced system encodes. -/
def subsystemStates (m : SimplifiedModel) : List Nat :=
  ((reduce m fanBound sizeBound).reachableFrom m.initial).map fun i => m.states.getD i 0

variable {m : SimplifiedModel} {v : Valuation} {x : Nat → ℝ} {initial : Nat}

/-- The equations of a model determine the values that it represents. -/
theorem determines_full (hm : m.WellFormed) (hrep : m.Represents v x initial)
    (hunit : ∀ s, 0 ≤ x s ∧ x s ≤ 1) (hrat : ∀ s, ∃ q : ℚ, x s = q) :
    (full m).Determines m.states v x initial := by
  obtain ⟨u, hu⟩ := hrep.exists_sound
  have hlt : m.initial < m.states.length := hm.length_eq.symm ▸ hm.initial_lt
  have hinitial : m.states[m.initial]? = some initial := by
    rw [← hrep.initial_eq, List.getD_eq_getElem?_getD, List.getElem?_eq_getElem hlt,
      Option.getD_some]
  exact determines_ofSystem hm.shape hu hm.length_eq hrep.solvesOff hunit hrat hinitial _

/-- So do the equations that are left after reduction. -/
theorem determines_subsystem (hm : m.WellFormed) (hrep : m.Represents v x initial)
    (hunit : ∀ s, 0 ≤ x s ∧ x s ≤ 1) (hrat : ∀ s, ∃ q : ℚ, x s = q) :
    (subsystem m fanBound sizeBound).Determines (subsystemStates fanBound sizeBound m) v x
      initial := by
  obtain ⟨u, hu⟩ := hrep.exists_sound
  obtain ⟨gone, hgone, hreduces⟩ := exists_reduces fanBound sizeBound hm
  rw [subsystem, subsystemStates]
  generalize reduce m fanBound sizeBound = reduced at hreduces
  obtain ⟨hkeep, hclosed⟩ := closed_reachableFrom hreduces.shape hgone
  have hmem : m.initial ∈ reduced.reachableFrom m.initial :=
    Qualitative.initial_mem_reachableFrom (hreduces.states_eq.symm ▸ hm.initial_lt)
  have hren := renumbered_restrict reduced (reduced.reachableFrom m.initial)
  obtain ⟨hsound, hsolves⟩ := restrict_inherits hkeep hclosed (hreduces.sound hu)
  have hnew := SimplifiedModel.getElem?_newInitial hmem
  refine determines_ofSystem hren.shape hsound ?_ ?_ hunit hrat ?_ _
  · rw [List.length_map, hren.states_eq]
  · refine (hsolves _ (hreduces.solvesOff hu hrep.solvesOff)).congr hren.shape fun i hi => ?_
    rw [hren.states_eq] at hi
    simp [List.getD_eq_getElem?_getD, hi]
  · rw [List.getElem?_map, hnew, Option.map_some, hrep.initial_eq]

end Reduced

end Encoding

/-! ## Queries -/

section Queries

variable {σ : String → ℝ}

theorem truth?_termOfBound {t : Term} {x : ℝ} (h : t.number? σ = some x) (b : Bound) :
    (termOfBound b t).truth? σ = some (b.Holds x) := by
  rw [termOfBound, Bound.Holds]
  cases b.comparison <;> simp [Term.truth?, h]

theorem holds_goalFails_iff (e : Encoding) (bound : Bound) (goal : Goal) :
    (goalFails e bound goal).Holds σ ↔ goal.Fails bound (σ e.initialVariable) := by
  have htruth := truth?_termOfBound (Term.number?_var e.initialVariable) (σ := σ) bound
  cases goal with
  | allSat => exact Term.holds_not htruth
  | allViolated => exact Term.holds_iff htruth

namespace Encoding

/-- The variables of the encoded parameters are named after them. -/
def Named (e : Encoding) (parameters : List Parameter) : Prop :=
  e.parameters = parameters.map fun p => (p, parameterVariable p)

/-- The terms of a box say that the variables of the parameters lie in its sides. -/
theorem holds_boxTerms_iff {e : Encoding} {parameters : List Parameter} (he : e.Named parameters)
    {b : Box} {terms : List Term} (h : e.boxTerms b = .ok terms) :
    (∀ t ∈ terms, t.Holds σ) ↔ ∀ p ∈ parameters, ∀ side, b.sides.find? p = some side →
      (side.lower : ℝ) ≤ σ (parameterVariable p) ∧ σ (parameterVariable p) ≤ side.upper := by
  rw [boxTerms, he, mapM_eq_ok_iff, List.forall₂_map_left_iff] at h
  clear he
  induction h with
  | nil => simp
  | @cons p t _ _ hp _ ih =>
      obtain ⟨side, hside, hterm⟩ := bind_eq_ok_iff.mp hp
      obtain rfl := pure_eq_ok_iff.mp hterm
      rw [List.forall_mem_cons, List.forall_mem_cons, ih,
        Term.holds_within (Term.number?_var _) (Term.number?_real _) (Term.number?_real _),
        Box.side_eq_ok_iff.mp hside]
      simp only [Option.some.injEq, forall_eq']

/-- An assignment satisfies a query: its point lies in the box, and the goal fails there. -/
def Refutes (e : Encoding) (b : Box) (bound : Bound) (goal : Goal) (σ : String → ℝ) : Prop :=
  e.Satisfied σ ∧ (∃ terms, e.boxTerms b = .ok terms ∧ ∀ t ∈ terms, t.Holds σ) ∧
    (goalFails e bound goal).Holds σ

/-- Queries are satisfied at the same points by encodings that determine the same probability. -/
theorem exists_refutes_of_determines {e e' : Encoding} {encoded encoded' : List Nat}
    {v : Valuation} {x : Nat → ℝ} {initial : Nat} (h : e.Determines encoded v x initial)
    (h' : e'.Determines encoded' v x initial) (parameters : List Parameter)
    (he : e.Named parameters) (he' : e'.Named parameters) {b : Box} {bound : Bound} {goal : Goal}
    (hrefutes : ∃ σ : String → ℚ, Agrees v (fun name => σ name) ∧
      e.Refutes b bound goal fun name => σ name) :
    ∃ σ : String → ℚ, Agrees v (fun name => σ name) ∧
      e'.Refutes b bound goal fun name => σ name := by
  obtain ⟨σ, hσ, hsat, ⟨terms, hterms, hbox⟩, hgoal⟩ := hrefutes
  obtain ⟨σ', hparam, hsat'⟩ := h'.exists_satisfied (fun p => σ (parameterVariable p))
    fun p q hp => Rat.cast_injective (hσ p q hp)
  have hσ' : Agrees v fun name => σ' name :=
    fun p q hp => (congrArg _ (hparam p)).trans (hσ p q hp)
  have hterms' : e'.boxTerms b = .ok terms := by
    rw [boxTerms, he', ← he]
    exact hterms
  refine ⟨σ', hσ', hsat', ⟨terms, hterms', ?_⟩, ?_⟩
  · rw [holds_boxTerms_iff he' hterms']
    intro p hp side hside
    rw [hparam p]
    exact (holds_boxTerms_iff he hterms).mp hbox p hp side hside
  · rw [holds_goalFails_iff] at hgoal ⊢
    rw [h'.initial_eq _ hσ' hsat', ← h.initial_eq _ hσ hsat]
    exact hgoal

end Encoding

end Queries

/-! ## Properties -/

open Encoding in
/-- At an admissible point both encodings of a property determine the probabilities of the
unsimplified chain: these satisfy all assertions, and nothing else does.  So a query has the same
admissible points in both. -/
theorem encodings_determine_probability {file : ModelFile} {c : ParametricChain}
    (hfile : file.toChain = .ok c) {φ target : StateFormula} {bound : Bound}
    (hφ : φ.Checkable c bound target) {v : Valuation} (hv : c.Admissible v)
    (sizeBound : Option Nat) (fanBound : Nat) (reduceBound : Option Nat) :
    ∃ p x, Property.build c φ sizeBound = .ok p ∧ c.IsProbability v (c.targetSet target) x ∧
      (full p.model).Determines p.model.states v x c.initial ∧
      (subsystem p.model fanBound reduceBound).Determines
        (subsystemStates fanBound reduceBound p.model) v x c.initial ∧
      ∀ box query goal,
        (∃ σ : String → ℚ, Agrees v (fun name => σ name) ∧
          (full p.model).Refutes box query goal fun name => σ name) ↔
        ∃ σ : String → ℚ, Agrees v (fun name => σ name) ∧
          (subsystem p.model fanBound reduceBound).Refutes box query goal fun name => σ name := by
  have hc := ModelFile.toChain_regular hfile
  obtain ⟨p, hp, hfaithful⟩ := Property.build_eq_ok hc hφ hv sizeBound
  obtain ⟨x, hx⟩ := hv.exists_isProbability hc (c.targetSet target)
  have hrep := hfaithful.represents v x hv hx
  have hunit := hv.probability_mem_unit hc hx
  have hrat := hfaithful.exists_rat hc hv hx
  have hfull := determines_full hfaithful.wellFormed hrep hunit hrat
  have hsub := determines_subsystem fanBound reduceBound hfaithful.wellFormed hrep hunit hrat
  refine ⟨p, x, hp, hx, hfull, hsub, fun box query goal => ⟨?_, ?_⟩⟩
  · exact exists_refutes_of_determines hfull hsub p.model.parameters rfl rfl
  · exact exists_refutes_of_determines hsub hfull p.model.parameters rfl rfl

open Encoding in
/-- The encodings of the chain with the cycle. -/
theorem encodings_determine_resend : ∃ c v p x, Property.resendFile.toChain = .ok c ∧
    c.Admissible v ∧
    Property.build c (.reaching (.label "delivered") ⟨.greaterEqual, mkRat 1 4⟩) none = .ok p ∧
    c.IsProbability v (c.targetSet (.label "delivered")) x ∧
    (full p.model).Determines p.model.states v x c.initial ∧
    (subsystem p.model 4 none).Determines (subsystemStates 4 none p.model) v x c.initial := by
  obtain ⟨c, v, hc, hv, hφ⟩ := Property.exists_resend_chain
  obtain ⟨p, x, hp, hx, hfull, hsub, -⟩ := encodings_determine_probability hc hφ hv none 4 none
  exact ⟨c, v, p, x, hc, hv, hp, hx, hfull, hsub⟩

end Smt

end MarkovRegion
