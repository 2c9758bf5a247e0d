import Mathlib
import MarkovRegion.Proofs.Analysis.Simplification
import MarkovRegion.Proofs.Region.Box

/-!
# The closed form of a reachability probability

`SimplifiedModel.closedForm` eliminates all states but the initial one and reads the probability off
the equation that is left.  Since elimination keeps solutions at every admissible point, and divides
by nothing that vanishes there, the result has no pole at such a point and its value is the
probability of the chain (`closedForm_cases`).

`Property.build_eq_ok` collects what is known of a property that was built: this is what the other
analyses start from.
-/

namespace MarkovRegion

open RationalFunction (pointReading)

namespace SimplifiedModel

open EquationSystem

/-- The closed form is the value of the initial state wherever the model represents a chain, unless
a weight is beyond the bound. -/
theorem closedForm_cases {m : SimplifiedModel} (hm : m.WellFormed) (bound : Option Nat)
    {v₀ : Valuation} {x₀ : Nat → ℝ} {i₀ : Nat} (h₀ : m.Represents v₀ x₀ i₀) :
    (∃ f, m.closedForm bound = .computed f ∧ ∀ v x i, m.Represents v x i →
        (pointReading v).Defined f ∧ (pointReading v).value f = x i) ∨
      ∃ limit size s, bound = some limit ∧ limit < size ∧
        m.closedForm bound =
          .unusable (EliminationError.sizeBoundExceeded s size limit).message := by
  obtain ⟨u₀, hu₀⟩ := h₀.exists_sound
  rw [closedForm]
  generalize hothers : (List.range m.system.states).filter (· != m.initial) = others
  have hmem : ∀ s, s ∈ m.system.eliminationOrder others ↔ s < m.system.states ∧ s ≠ m.initial := by
    intro s
    rw [mem_eliminationOrder, ← hothers]
    simp
  rcases eliminateStates_cases bound (m.system.eliminationOrder others) hm.shape hu₀ with
    ⟨system, hok, hreduces⟩ | ⟨limit, size, s, hbound, hlt, herr⟩
  · obtain ⟨f, hf⟩ := (hreduces.sound hu₀).exists_initialValue m.initial
    refine Or.inl ⟨f, ?_, fun v x i hrep => ?_⟩
    · have hrun : (m.system.eliminateStates bound (m.system.eliminationOrder others) >>=
          fun system => system.initialValue m.initial) = .ok f := by
        rw [hok]
        exact hf
      rw [hrun]
    · obtain ⟨u, hu⟩ := hrep.exists_sound
      have honly : ∀ d ∈ system.row m.initial, d.1 = m.initial := by
        intro d hd
        by_contra hne
        have hlt := hreduces.shape.column_lt _ d hd
        rw [hreduces.states_eq] at hlt
        exact hreduces.shape.column_notMem _ d hd (Or.inr ((hmem d.1).mpr ⟨hlt, hne⟩))
      have hsolves := hreduces.solvesOff hu hrep.solvesOff m.initial
        (hreduces.states_eq.symm ▸ hm.initial_lt) (by
          rintro (h | h)
          · exact h
          · exact ((hmem _).mp h).2 rfl)
      rw [← hrep.initial_eq]
      exact (hreduces.sound hu).initialValue_read (x := fun i => x (m.states.getD i 0))
        (hreduces.shape.sorted _) honly hf hsolves
  · refine Or.inr ⟨limit, size, s, hbound, hlt, ?_⟩
    rw [herr]
    rfl

end SimplifiedModel

/-- The probabilities at an admissible point are rational: each is a closed form of the chain that
starts in its state. -/
theorem Chain.Admissible.exists_rat {c : ParametricChain} {v : Valuation} (hv : c.Admissible v)
    (hc : c.Regular) {targets : List Nat} (htargets : ∀ s ∈ targets, s < c.states) {x : Nat → ℝ}
    (hx : c.IsProbability v {s | s ∈ targets} x) (s : Nat) : ∃ q : ℚ, x s = q := by
  by_cases hs : s < c.states
  · let c' : ParametricChain := { c with initial := s }
    have hc' : c'.Regular := { hc with initial_lt := hs }
    have hv' : c'.Admissible v := hv
    obtain ⟨m, -, hwell, hrep⟩ := SimplifiedModel.ofChain_eq_ok hc' htargets hv'
    have hm := hrep v x hv' hx
    rcases SimplifiedModel.closedForm_cases hwell none hm with ⟨f, -, hread⟩ | ⟨_, _, _, hnone, -⟩
    · obtain ⟨hdef, hval⟩ := hread v x s hm
      obtain ⟨q, -, hq⟩ := RationalFunction.exists_evaluate_eq_ok hdef
      exact ⟨q, hval.symm.trans hq.symm⟩
    · cases hnone
  · have hnot : s ∉ {s | s ∈ targets} := fun h => hs (htargets s h)
    refine ⟨0, ?_⟩
    rw [IsReachability.eq_dot hx hnot, hv.rowsAt_eq, hc.row_eq_nil s (not_lt.mp hs)]
    simp [Row.read]

/-- A formula that can be checked on a chain: it compares the probability of reaching a
propositional target, whose labels are declared, with a bound. -/
def StateFormula.Checkable (φ : StateFormula) (c : ParametricChain) (bound : Bound)
    (target : StateFormula) : Prop :=
  φ.reachability? = some (bound, target) ∧
    ∀ name ∈ target.labels, (c.labeling.states? name).isSome = true

namespace Property

variable {c : ParametricChain} {φ target : StateFormula} {bound : Bound}

/-- A property that was built has the bound of its formula, and at every admissible point its model
represents the probabilities of reaching the target. -/
structure Faithful (p : Property) (c : ParametricChain) (bound : Bound) (target : StateFormula)
    (sizeBound : Option Nat) : Prop where
  bound_eq : p.bound = bound
  targets_eq : {s | s ∈ p.targets} = c.targetSet target
  wellFormed : p.model.WellFormed
  represents : ∀ v x, c.Admissible v → c.IsProbability v (c.targetSet target) x →
    p.model.Represents v x c.initial
  reachFunction_eq : p.reachFunction.get = p.model.closedForm sizeBound

theorem build_eq_ok (hc : c.Regular) (hφ : φ.Checkable c bound target) {v₀ : Valuation}
    (hv₀ : c.Admissible v₀) (sizeBound : Option Nat) :
    ∃ p, build c φ sizeBound = .ok p ∧ p.Faithful c bound target sizeBound := by
  obtain ⟨hreach, hdeclared⟩ := hφ
  obtain ⟨targets, hok, hiff⟩ := StateFormula.exists_satisfying (n := c.states)
    (fun name found => hc.lt_of_states?) target
    (StateFormula.isPropositional_of_reachability? hreach) hdeclared
  have htargets : {s | s ∈ targets} = c.targetSet target := Set.ext hiff
  obtain ⟨m, hm, hwell, hrep⟩ := SimplifiedModel.ofChain_eq_ok hc
    (fun s hs => ((hiff s).mp hs).1) hv₀
  have hmissing : target.labels.find? (fun name => (c.labeling.states? name).isNone) = none := by
    rw [List.find?_eq_none]
    intro name hname
    simpa [Option.isSome_iff_ne_none] using hdeclared name hname
  refine ⟨⟨φ, bound, targets, m, Thunk.mk fun _ => m.closedForm sizeBound, .notComputed⟩, ?_,
    ⟨rfl, htargets, hwell, fun v x hv hx => hrep v x hv (htargets ▸ hx), rfl⟩⟩
  simp only [build, hreach, hmissing, hok]
  show (SimplifiedModel.ofChain c targets >>= _) = _
  rw [hm]
  rfl

/-- The labels of the target of a property that was built are declared. -/
theorem checkable_of_build {sizeBound : Option Nat} {p : Property}
    (hφ : φ.reachability? = some (bound, target)) (h : build c φ sizeBound = .ok p) :
    φ.Checkable c bound target := by
  refine ⟨hφ, fun name hname => ?_⟩
  unfold build at h
  rw [hφ] at h
  dsimp only at h
  split at h
  · cases h
  · next hmissing =>
      have hfound := List.find?_eq_none.mp hmissing name hname
      simpa [Option.isSome_iff_ne_none] using hfound

namespace Faithful

variable {p : Property} {sizeBound : Option Nat}

/-- The closed form of a faithful property is the probability at every admissible point, or it is
missing because of the size bound.  Only the parameters of the model matter for its value. -/
theorem reachFunction_cases (hp : p.Faithful c bound target sizeBound) (hc : c.Regular)
    {v₀ : Valuation} (hv₀ : c.Admissible v₀) :
    (∃ f, p.reachFunction.get = .computed f ∧ ∀ v x w, c.Admissible v →
        c.IsProbability v (c.targetSet target) x →
        (∀ a ∈ p.model.parameters, w.find? a = v.find? a) →
        ∃ q : ℚ, f.evaluate w = .ok q ∧ q = x c.initial) ∨
      ∃ limit size s, sizeBound = some limit ∧ limit < size ∧ p.reachFunction.get =
        .unusable (EliminationError.sizeBoundExceeded s size limit).message := by
  obtain ⟨x₀, hx₀⟩ := hv₀.exists_isProbability hc (c.targetSet target)
  rw [hp.reachFunction_eq]
  refine (SimplifiedModel.closedForm_cases hp.wellFormed sizeBound
    (hp.represents v₀ x₀ hv₀ hx₀)).imp_left ?_
  rintro ⟨f, hf, hread⟩
  refine ⟨f, hf, fun v x w hv hx hw => ?_⟩
  obtain ⟨hdef, hval⟩ := hread w x c.initial
    ((hp.represents v x hv hx).congr_point hp.wellFormed hw)
  obtain ⟨q, hq, hqval⟩ := RationalFunction.exists_evaluate_eq_ok hdef
  exact ⟨q, hq, hqval.trans hval⟩

/-- A computed closed form has a value at every point that agrees with an admissible one, the
probability there. -/
theorem exists_evaluate_of_agree (hp : p.Faithful c bound target sizeBound) (hc : c.Regular)
    {f : RationalFunction} (hf : p.reachFunction.get = .computed f) {v w : Valuation}
    (hv : c.Admissible v) (hw : ∀ a ∈ p.model.parameters, w.find? a = v.find? a) :
    ∃ x, c.IsProbability v (c.targetSet target) x ∧
      ∃ q : ℚ, f.evaluate w = .ok q ∧ q = x c.initial := by
  obtain ⟨x, hx⟩ := hv.exists_isProbability hc (c.targetSet target)
  refine ⟨x, hx, ?_⟩
  rcases hp.reachFunction_cases hc hv with ⟨f', hf', hread⟩ | ⟨_, _, _, -, -, hnot⟩
  · obtain rfl : f = f' := ReachFunction.computed.inj (hf.symm.trans hf')
    exact hread v x w hv hx hw
  · rw [hf] at hnot
    cases hnot

/-- The probabilities at an admissible point are rational. -/
theorem exists_rat (hp : p.Faithful c bound target sizeBound) (hc : c.Regular) {v : Valuation}
    (hv : c.Admissible v) {x : Nat → ℝ} (hx : c.IsProbability v (c.targetSet target) x) (s : Nat) :
    ∃ q : ℚ, x s = q := by
  have htargets : ∀ t ∈ p.targets, t < c.states := by
    intro t ht
    have htarget : t ∈ c.targetSet target := hp.targets_eq ▸ ht
    exact htarget.1
  exact hv.exists_rat hc htargets (hp.targets_eq ▸ hx) s

end Faithful

/-- A message is sent until it is delivered or lost: it leaves with probability `p` and comes back
with probability `q`. -/
def resendFile : ModelFile where
  states := 4
  initial := 0
  labels := [("delivered", [2])]
  transitions := [⟨0, 1, "p"⟩, ⟨0, 3, "1-p"⟩, ⟨1, 0, "q"⟩, ⟨1, 2, "1-q"⟩, ⟨2, 2, "1"⟩, ⟨3, 3, "1"⟩]

/-- The parameters of the chain. -/
def resendParameters : List Parameter := [⟨"p", by decide⟩, ⟨"q", by decide⟩]

/-- The point at which both probabilities are one half. -/
def resendPoint : Valuation := .ofList (resendParameters.map fun p => (p, mkRat 1 2))

theorem find?_resendSides {side i : Interval} {p : Parameter} :
    (OrderedMap.ofList (resendParameters.map fun p => (p, side))).find? p = some i ↔
      p ∈ resendParameters ∧ i = side := by
  have hkeys : ((resendParameters.map fun p => (p, side)).map Prod.fst).Nodup := by
    show resendParameters.Nodup
    decide
  rw [OrderedMap.find?_ofList hkeys]
  simp [eq_comm]

/-- The values from a quarter to three quarters. -/
def resendSide : Interval := ⟨mkRat 1 4, mkRat 3 4, by decide⟩

/-- The box in which both probabilities have the same side. -/
def resendBox (side : Interval) : Box where
  sides := .ofList (resendParameters.map fun p => (p, side))
  nonempty := List.ne_nil_of_mem
    (OrderedMap.find?_eq_some_iff.mp (find?_resendSides.mpr ⟨List.mem_cons_self, rfl⟩))

theorem resendBox_contains_iff {side : Interval} {v : Valuation} :
    (resendBox side).contains v = true ↔
      ∀ p ∈ resendParameters, ∃ x, v.find? p = some x ∧ side.lower ≤ x ∧ x ≤ side.upper := by
  simp only [Box.contains_iff, resendBox, find?_resendSides]
  constructor
  · intro h p hp
    exact h p side ⟨hp, rfl⟩
  · rintro h p _ ⟨hp, rfl⟩
    exact h p hp

theorem exists_resend_chain : ∃ c v, resendFile.toChain = .ok c ∧ c.Admissible v ∧
    (StateFormula.reaching (.label "delivered") ⟨.greaterEqual, mkRat 1 4⟩).Checkable c
      ⟨.greaterEqual, mkRat 1 4⟩ (.label "delivered") := by
  obtain ⟨c, hc, htest⟩ := exists_ok_of_map resendFile.toChain
    (fun c => decide (c.Admissible resendPoint) && (c.labeling.states? "delivered").isSome) (by cbv)
  obtain ⟨hv, hlabel⟩ := (Bool.and_eq_true _ _).mp htest
  refine ⟨c, resendPoint, hc, of_decide_eq_true hv, rfl, fun name hname => ?_⟩
  rw [List.mem_singleton.mp hname]
  exact hlabel

end Property

end MarkovRegion
