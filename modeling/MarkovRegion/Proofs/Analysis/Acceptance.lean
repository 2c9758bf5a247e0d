import Mathlib
import MarkovRegion.Proofs.Analysis.ClosedForm

/-!
# Which formulas are accepted

A property is built in four walks over the syntax of a formula: its shape is tested, its target is
tested for probability operators, the labels of the target are collected, and the states that
satisfy the target are computed.  Each walk is compared with a description of its own:

* `StateFormula.Asks` are the two shapes of a reachability question, and `StateFormula.Propositional`
  are the formulas without probability operators;
* `StateFormula.Mentions` are the labels that occur, and `StateFormula.FirstUndeclared` is the
  leftmost one without a declaration;
* `StateFormula.HoldsIn` is the meaning of connectives.

Together they say when a property is refused and with which error, and that the last walk cannot
fail once the first three have passed (`Property.build_acceptance`).
-/

namespace MarkovRegion

/-! ## Formulas -/

namespace StateFormula

/-- A formula without probability operators. -/
inductive Propositional : StateFormula → Prop
  | always : Propositional always
  | label (name : String) : Propositional (label name)
  | neg {φ : StateFormula} : Propositional φ → Propositional (neg φ)
  | conj {φ ψ : StateFormula} : Propositional φ → Propositional ψ → Propositional (conj φ ψ)
  | disj {φ ψ : StateFormula} : Propositional φ → Propositional ψ → Propositional (disj φ ψ)

/-- A formula that compares the probability of reaching a target with a bound. -/
inductive Asks (bound : Bound) (target : StateFormula) : StateFormula → Prop
  | eventually : Asks bound target (probability (some bound) (.eventually target))
  | holdsUntil : Asks bound target (probability (some bound) (.holdsUntil always target))

/-- A label occurs in a formula, outside of probability operators. -/
inductive Mentions (name : String) : StateFormula → Prop
  | label : Mentions name (label name)
  | neg {φ : StateFormula} : Mentions name φ → Mentions name (neg φ)
  | conjLeft {φ ψ : StateFormula} : Mentions name φ → Mentions name (conj φ ψ)
  | conjRight {φ ψ : StateFormula} : Mentions name ψ → Mentions name (conj φ ψ)
  | disjLeft {φ ψ : StateFormula} : Mentions name φ → Mentions name (disj φ ψ)
  | disjRight {φ ψ : StateFormula} : Mentions name ψ → Mentions name (disj φ ψ)

/-- All labels of a formula are declared. -/
def Declared (labeling : Labeling) (φ : StateFormula) : Prop :=
  ∀ name, φ.Mentions name → labeling.states? name ≠ none

/-- The leftmost label of a formula that is not declared. -/
inductive FirstUndeclared (labeling : Labeling) (name : String) : StateFormula → Prop
  | label : labeling.states? name = none → FirstUndeclared labeling name (label name)
  | neg {φ : StateFormula} : FirstUndeclared labeling name φ →
      FirstUndeclared labeling name (neg φ)
  | conjLeft {φ ψ : StateFormula} : FirstUndeclared labeling name φ →
      FirstUndeclared labeling name (conj φ ψ)
  | conjRight {φ ψ : StateFormula} : φ.Declared labeling → FirstUndeclared labeling name ψ →
      FirstUndeclared labeling name (conj φ ψ)
  | disjLeft {φ ψ : StateFormula} : FirstUndeclared labeling name φ →
      FirstUndeclared labeling name (disj φ ψ)
  | disjRight {φ ψ : StateFormula} : φ.Declared labeling → FirstUndeclared labeling name ψ →
      FirstUndeclared labeling name (disj φ ψ)

/-! ### The shape -/

theorem isPropositional_iff : (φ : StateFormula) → (φ.isPropositional = true ↔ φ.Propositional)
  | always => iff_of_true rfl .always
  | label name => iff_of_true rfl (.label name)
  | neg φ => by
      simp only [isPropositional, isPropositional_iff φ]
      constructor
      · exact .neg
      · rintro ⟨⟩
        assumption
  | conj φ ψ => by
      simp only [isPropositional, Bool.and_eq_true, isPropositional_iff φ, isPropositional_iff ψ]
      constructor
      · rintro ⟨hφ, hψ⟩
        exact .conj hφ hψ
      · rintro ⟨⟩
        constructor <;> assumption
  | disj φ ψ => by
      simp only [isPropositional, Bool.and_eq_true, isPropositional_iff φ, isPropositional_iff ψ]
      constructor
      · rintro ⟨hφ, hψ⟩
        exact .disj hφ hψ
      · rintro ⟨⟩
        constructor <;> assumption
  | probability .. => iff_of_false Bool.false_ne_true fun h => by cases h

/-- The bound and the target are found exactly in the two shapes. -/
theorem reachability?_eq_some_iff {φ target : StateFormula} {bound : Bound} :
    φ.reachability? = some (bound, target) ↔ Asks bound target φ ∧ target.Propositional := by
  constructor
  · intro h
    refine ⟨?_, (isPropositional_iff target).mp (isPropositional_of_reachability? h)⟩
    unfold reachability? at h
    split at h
    · split at h
      · simp only [Option.some.injEq, Prod.mk.injEq] at h
        obtain ⟨rfl, rfl⟩ := h
        exact .eventually
      · cases h
    · split at h
      · simp only [Option.some.injEq, Prod.mk.injEq] at h
        obtain ⟨rfl, rfl⟩ := h
        exact .holdsUntil
      · cases h
    · cases h
  · rintro ⟨hasks, hprop⟩
    have htest := (isPropositional_iff target).mpr hprop
    cases hasks with
    | eventually => simp [reachability?, htest]
    | holdsUntil => simp [reachability?, htest]

/-! ### The labels -/

variable {labeling : Labeling} {name : String}

theorem mem_labels_iff : (φ : StateFormula) → (name ∈ φ.labels ↔ φ.Mentions name)
  | always => iff_of_false List.not_mem_nil fun h => by cases h
  | label other => by
      rw [labels, List.mem_singleton]
      constructor
      · rintro rfl
        exact .label
      · rintro ⟨⟩
        rfl
  | neg φ => by
      rw [labels, mem_labels_iff φ]
      constructor
      · exact .neg
      · rintro ⟨⟩
        assumption
  | conj φ ψ => by
      rw [labels, List.mem_append, mem_labels_iff φ, mem_labels_iff ψ]
      constructor
      · rintro (h | h)
        · exact .conjLeft h
        · exact .conjRight h
      · intro h
        cases h with
        | conjLeft h => exact .inl h
        | conjRight h => exact .inr h
  | disj φ ψ => by
      rw [labels, List.mem_append, mem_labels_iff φ, mem_labels_iff ψ]
      constructor
      · rintro (h | h)
        · exact .disjLeft h
        · exact .disjRight h
      · intro h
        cases h with
        | disjLeft h => exact .inl h
        | disjRight h => exact .inr h
  | probability .. => iff_of_false List.not_mem_nil fun h => by cases h

/-- The search for an undeclared label among those of a formula. -/
def undeclared? (labeling : Labeling) (φ : StateFormula) : Option String :=
  φ.labels.find? fun name => (labeling.states? name).isNone

theorem undeclared?_eq_none_iff {φ : StateFormula} :
    φ.undeclared? labeling = none ↔ φ.Declared labeling := by
  unfold undeclared? Declared
  simp [List.find?_eq_none, mem_labels_iff]

theorem undeclared?_append {φ ψ χ : StateFormula} (h : χ.labels = φ.labels ++ ψ.labels) :
    χ.undeclared? labeling = some name ↔ φ.undeclared? labeling = some name ∨
      φ.Declared labeling ∧ ψ.undeclared? labeling = some name := by
  rw [← undeclared?_eq_none_iff, undeclared?, h, List.find?_append, Option.or_eq_some_iff]
  rfl

/-- The search from left to right finds the leftmost undeclared label. -/
theorem undeclared?_eq_some_iff :
    (φ : StateFormula) → (φ.undeclared? labeling = some name ↔ φ.FirstUndeclared labeling name)
  | always => iff_of_false (by simp [undeclared?, labels]) fun h => by cases h
  | label other => by
      simp only [undeclared?, labels, List.find?_singleton]
      constructor
      · intro h
        split at h
        · next hnone =>
            obtain rfl := Option.some.inj h
            exact .label (Option.isNone_iff_eq_none.mp hnone)
        · cases h
      · rintro ⟨hnone⟩
        rw [hnone]
        rfl
  | neg φ => by
      have hsame : (neg φ).undeclared? labeling = φ.undeclared? labeling := rfl
      rw [hsame, undeclared?_eq_some_iff φ]
      constructor
      · exact .neg
      · rintro ⟨⟩
        assumption
  | conj φ ψ => by
      rw [undeclared?_append rfl, undeclared?_eq_some_iff φ, undeclared?_eq_some_iff ψ]
      constructor
      · rintro (h | ⟨hdeclared, h⟩)
        · exact .conjLeft h
        · exact .conjRight hdeclared h
      · intro h
        cases h with
        | conjLeft h => exact .inl h
        | conjRight hdeclared h => exact .inr ⟨hdeclared, h⟩
  | disj φ ψ => by
      rw [undeclared?_append rfl, undeclared?_eq_some_iff φ, undeclared?_eq_some_iff ψ]
      constructor
      · rintro (h | ⟨hdeclared, h⟩)
        · exact .disjLeft h
        · exact .disjRight hdeclared h
      · intro h
        cases h with
        | disjLeft h => exact .inl h
        | disjRight hdeclared h => exact .inr ⟨hdeclared, h⟩
  | probability .. => iff_of_false (by simp [undeclared?, labels]) fun h => by cases h

theorem FirstUndeclared.unique {φ : StateFormula} {other : String}
    (h : φ.FirstUndeclared labeling name) (h' : φ.FirstUndeclared labeling other) : name = other := by
  rw [← undeclared?_eq_some_iff] at h h'
  exact Option.some.inj (h.symm.trans h')

theorem FirstUndeclared.not_declared {φ : StateFormula} (h : φ.FirstUndeclared labeling name) :
    ¬ φ.Declared labeling := by
  rw [← undeclared?_eq_some_iff] at h
  rw [← undeclared?_eq_none_iff, h]
  exact Option.some_ne_none name

theorem not_declared_iff {φ : StateFormula} :
    ¬ φ.Declared labeling ↔ ∃ name, φ.Mentions name ∧ labeling.states? name = none := by
  unfold Declared
  push Not
  rfl

end StateFormula

/-! ## Properties -/

/-- Simplification fails only in the construction of the equations. -/
theorem SimplifiedModel.error_of_ofChain {c : ParametricChain} {targets : List Nat} {e : CheckError}
    (h : SimplifiedModel.ofChain c targets = .error e) : ∃ reason, e = .construction reason := by
  have hlift : ∀ {α : Type} {x : Except EliminationError α},
      liftElimination x = .error e → ∃ reason, e = .construction reason := by
    intro α x hx
    obtain ⟨cause, -, rfl⟩ := mapError_eq_error_iff.mp hx
    exact ⟨_, rfl⟩
  unfold SimplifiedModel.ofChain at h
  dsimp only at h
  split at h
  · cases h
  split at h
  · cases h
  split at h
  · cases h
    exact ⟨_, rfl⟩
  · rcases bind_eq_error_iff.mp h with hstates | ⟨system, -, hsystem⟩
    · exact hlift hstates
    · exact hlift hsystem

namespace Property

variable {c : ParametricChain} {φ target : StateFormula} {bound : Bound} {sizeBound : Option Nat}

theorem build_of_unsupported (h : φ.reachability? = none) :
    build c φ sizeBound = .error (.unsupportedFormula φ.write) := by
  rw [build, h]
  rfl

theorem build_of_undeclared (hφ : φ.reachability? = some (bound, target)) {name : String}
    (h : target.undeclared? c.labeling = some name) :
    build c φ sizeBound = .error (.unknownLabel name) := by
  unfold StateFormula.undeclared? at h
  simp only [build, hφ, h]
  rfl

/-- With declared labels the states that satisfy the target are computed and recorded, and only the
construction of the equations can fail. -/
theorem build_of_declared (hvalid : c.validate = .ok ())
    (hφ : φ.reachability? = some (bound, target)) (h : target.Declared c.labeling)
    (sizeBound : Option Nat) :
    ∃ targets, target.satisfying c.labeling c.states = .ok targets ∧
      (∀ s, s ∈ targets ↔ s ∈ c.targetSet target) ∧
      (∀ e, build c φ sizeBound = .error e → ∃ reason, e = .construction reason) ∧
      ∀ p, build c φ sizeBound = .ok p → p.formula = φ ∧ p.bound = bound ∧ p.targets = targets := by
  have hdeclared : ∀ name ∈ target.labels, (c.labeling.states? name).isSome = true := by
    intro name hname
    exact Option.isSome_iff_ne_none.mpr (h name ((StateFormula.mem_labels_iff target).mp hname))
  have hlabels : ∀ name found, c.labeling.states? name = some found → ∀ s ∈ found, s < c.states := by
    intro name found hfound
    exact (Chain.validate_eq_ok hvalid).2.2 _ (Chain.mem_labels_of_states? hfound)
  obtain ⟨targets, hok, hiff⟩ := StateFormula.exists_satisfying hlabels target
    (StateFormula.isPropositional_of_reachability? hφ) hdeclared
  have hbuild : build c φ sizeBound = do
      let model ← SimplifiedModel.ofChain c targets
      return ⟨φ, bound, targets, model, Thunk.mk fun _ => model.closedForm sizeBound,
        .notComputed⟩ := by
    have hnone := StateFormula.undeclared?_eq_none_iff.mpr h
    unfold StateFormula.undeclared? at hnone
    simp only [build, hφ, hnone, hok]
    rfl
  refine ⟨targets, hok, hiff, fun e he => ?_, fun p hp => ?_⟩
  · rw [hbuild] at he
    rcases bind_eq_error_iff.mp he with hchain | ⟨model, -, hpure⟩
    · exact SimplifiedModel.error_of_ofChain hchain
    · cases hpure
  · rw [hbuild] at hp
    obtain ⟨model, -, hp⟩ := bind_eq_ok_iff.mp hp
    obtain rfl := pure_eq_ok_iff.mp hp
    exact ⟨rfl, rfl, rfl⟩

theorem build_ne_unsupported (hvalid : c.validate = .ok ())
    (hφ : φ.reachability? = some (bound, target)) (text : String) :
    build c φ sizeBound ≠ .error (.unsupportedFormula text) := by
  intro herror
  cases h : target.undeclared? c.labeling with
  | some name =>
      rw [build_of_undeclared hφ h] at herror
      cases herror
  | none =>
      obtain ⟨_, -, -, hfails, -⟩ := build_of_declared hvalid hφ
        (StateFormula.undeclared?_eq_none_iff.mp h) sizeBound
      obtain ⟨reason, hreason⟩ := hfails _ herror
      cases hreason

/-- What is refused, with which error, and what is recorded otherwise.  On a valid chain a formula
is unsupported exactly if it does not compare the probability of reaching a propositional target
with a bound.  Of a formula that does, a label is reported exactly if it is the leftmost undeclared
label of the target, and there is one if any label is undeclared.  If all labels are declared, then
the states that satisfy the target can be computed; and the targets of a property that is built are
the states of the chain in which the target holds. -/
theorem build_acceptance (hvalid : c.validate = .ok ()) (φ : StateFormula)
    (sizeBound : Option Nat) :
    (∀ text, build c φ sizeBound = .error (.unsupportedFormula text) ↔
      text = φ.write ∧
        ¬ ∃ bound target, StateFormula.Asks bound target φ ∧ target.Propositional) ∧
    ∀ bound target, StateFormula.Asks bound target φ → target.Propositional →
      (∀ name, build c φ sizeBound = .error (.unknownLabel name) ↔
        target.FirstUndeclared c.labeling name) ∧
      ((∃ name, build c φ sizeBound = .error (.unknownLabel name)) ↔
        ∃ name, target.Mentions name ∧ c.labeling.states? name = none) ∧
      (target.Declared c.labeling →
        ∃ targets, target.satisfying c.labeling c.states = .ok targets) ∧
      ∀ p, build c φ sizeBound = .ok p → p.formula = φ ∧ p.bound = bound ∧
        ∀ s, s ∈ p.targets ↔ s < c.states ∧ target.HoldsIn c.labeling s := by
  constructor
  · intro text
    cases hφ : φ.reachability? with
    | none =>
        rw [build_of_unsupported hφ]
        have hnone :
            ¬ ∃ bound target, StateFormula.Asks bound target φ ∧ target.Propositional := by
          rintro ⟨bound, target, hasks⟩
          rw [StateFormula.reachability?_eq_some_iff.mpr hasks] at hφ
          cases hφ
        simp [hnone, eq_comm]
    | some found =>
        refine iff_of_false (build_ne_unsupported hvalid hφ text) fun h => h.2 ?_
        exact ⟨found.1, found.2, StateFormula.reachability?_eq_some_iff.mp hφ⟩
  · intro bound target hasks hprop
    have hφ := StateFormula.reachability?_eq_some_iff.mpr ⟨hasks, hprop⟩
    cases h : target.undeclared? c.labeling with
    | some name =>
        have hfirst := (StateFormula.undeclared?_eq_some_iff target).mp h
        rw [build_of_undeclared hφ h]
        refine ⟨fun other => ?_, ?_, fun hdeclared => absurd hdeclared hfirst.not_declared, ?_⟩
        · constructor
          · rintro ⟨⟩
            exact hfirst
          · intro hother
            rw [hfirst.unique hother]
        · exact iff_of_true ⟨name, rfl⟩ (StateFormula.not_declared_iff.mp hfirst.not_declared)
        · rintro p ⟨⟩
    | none =>
        have hdeclared := StateFormula.undeclared?_eq_none_iff.mp h
        obtain ⟨targets, hok, htargets, hfails, hbuilt⟩ :=
          build_of_declared hvalid hφ hdeclared sizeBound
        have hlabel : ∀ name, build c φ sizeBound ≠ .error (.unknownLabel name) := by
          intro name herror
          obtain ⟨reason, hreason⟩ := hfails _ herror
          cases hreason
        refine ⟨fun name => ?_, ?_, fun _ => ⟨targets, hok⟩, fun p hp => ?_⟩
        · exact iff_of_false (hlabel name) fun hfirst => hfirst.not_declared hdeclared
        · refine iff_of_false ?_ fun hmissing => ?_
          · rintro ⟨name, herror⟩
            exact hlabel name herror
          · exact StateFormula.not_declared_iff.mpr hmissing hdeclared
        · obtain ⟨hformula, hbound, rfl⟩ := hbuilt p hp
          exact ⟨hformula, hbound, htargets⟩

/-- The message is not delivered, and it is lost or has not been sent. -/
def strayTarget : StateFormula :=
  .conj (.neg (.label "delivered")) (.disj (.label "lost") (.neg (.label "sent")))

/-- On the chain with the cycle: a question without a bound is not supported, the first of two
labels that are not declared is reported, and the states without a delivery are found. -/
theorem build_acceptance_resend : ∃ c, resendFile.toChain = .ok c ∧ c.validate = .ok () ∧
    build c (.probability none (.eventually (.label "delivered"))) none =
      .error (.unsupportedFormula "P=? [F \"delivered\"]") ∧
    build c (.reaching strayTarget ⟨.less, mkRat 1 2⟩) none = .error (.unknownLabel "lost") ∧
    ∀ p, build c (.reaching (.neg (.label "delivered")) ⟨.less, mkRat 1 2⟩) none = .ok p →
      ∀ s, s ∈ p.targets ↔ s < 4 ∧ s ≠ 2 := by
  obtain ⟨c, hc, htest⟩ := exists_ok_of_map resendFile.toChain
    (fun c => decide (c.states = 4 ∧ c.labeling.states? "delivered" = some [2] ∧
      c.labeling.states? "lost" = none)) (by cbv)
  obtain ⟨hstates, hdelivered, hlost⟩ := of_decide_eq_true htest
  have hvalid : c.validate = .ok () := (ModelFile.toChain_eq_ok hc).choose_spec.2.2.2.2
  refine ⟨c, hc, hvalid, ?_, ?_, fun p hp s => ?_⟩
  · refine ((build_acceptance hvalid _ none).1 _).mpr ⟨by decide, ?_⟩
    rintro ⟨bound, target, hasks, -⟩
    cases hasks
  · obtain ⟨hlabel, -⟩ := (build_acceptance hvalid _ none).2 _ _ .eventually
      (.conj (.neg (.label _)) (.disj (.label _) (.neg (.label _))))
    refine (hlabel "lost").mpr (.conjRight ?_ (.disjLeft (.label hlost)))
    intro name hmentions
    cases hmentions with
    | neg h =>
        cases h
        simp [hdelivered]
  · obtain ⟨-, -, -, htargets⟩ := (build_acceptance hvalid _ none).2 _ _ .eventually
      (.neg (.label "delivered"))
    rw [(htargets p hp).2.2 s, hstates]
    simp [StateFormula.HoldsIn, hdelivered]

end Property

end MarkovRegion
