import MarkovRegion.Proofs.Checker.Sessions
import MarkovRegion.Proofs.Region.Growth
import MarkovRegion.Proofs.Smt.Session

/-!
# What the tiers learn is true

A region is truthful if its verdict and its points agree with the probabilities of the chain
(`Region.Truthful`).  Every tier keeps the region truthful and the sessions open
(`Inspection.Sound`), and fails only if a box has too many corners to sample.

The tiers are `Attempt`s on an `Inspection`, so each of them gets a triple; `keeps_firstSettled`
puts them together by induction over the list of tiers, and `keeps_escalate` is the result.
-/

namespace MarkovRegion

open Attempt

/-! ## Truthful regions -/

/-- The probability of reaching the target satisfies the bound at a point. -/
def Chain.Satisfies (c : ParametricChain) (target : StateFormula) (bound : Bound) (v : Valuation) :
    Prop :=
  ∃ x, c.IsProbability v (c.targetSet target) x ∧ bound.Holds (x c.initial)

/-- The probability of reaching the target violates the bound at a point. -/
def Chain.Violates (c : ParametricChain) (target : StateFormula) (bound : Bound) (v : Valuation) :
    Prop :=
  ∃ x, c.IsProbability v (c.targetSet target) x ∧ ¬ bound.Holds (x c.initial)

/-- The probability is as a goal wants it. -/
def Chain.Achieves (c : ParametricChain) (target : StateFormula) (bound : Bound) :
    Goal → Valuation → Prop
  | .allSat => c.Satisfies target bound
  | .allViolated => c.Violates target bound

/-- The second point has the values of the first at the parameters of the box. -/
def Box.Extends (b : Box) (point v : Valuation) : Prop :=
  ∀ a ∈ b.parameters, v.find? a = point.find? a

theorem Box.Extends.contains {b : Box} {point v : Valuation} (h : b.Extends point v)
    (hpoint : b.contains point = true) : b.contains v = true := by
  rw [contains_iff] at hpoint ⊢
  intro a side hside
  rw [h a (mem_parameters.mpr ⟨side, hside⟩)]
  exact hpoint a side hside

/-- What is recorded of a region is true of the chain. -/
structure Region.Truthful (r : Region) (c : ParametricChain) (target : StateFormula)
    (bound : Bound) : Prop where
  all_sat : r.verdict = .allSat → ∀ v, r.box.contains v = true → c.Admissible v →
    c.Satisfies target bound v
  all_violated : r.verdict = .allViolated → ∀ v, r.box.contains v = true → c.Admissible v →
    c.Violates target bound v
  sat_point : ∀ q, r.satPoint = some q → r.box.contains q = true ∧
    ∀ v, c.Admissible v → r.box.Extends q v → c.Satisfies target bound v
  violated_point : ∀ q, r.violatedPoint = some q → r.box.contains q = true ∧
    ∀ v, c.Admissible v → r.box.Extends q v → c.Violates target bound v
  exists_sat : r.verdict = .existsSat ∨ r.verdict = .existsBoth → r.satPoint.isSome = true
  exists_violated : r.verdict = .existsViolated ∨ r.verdict = .existsBoth →
    r.violatedPoint.isSome = true

section Truthful

variable {c : ParametricChain} {target : StateFormula} {bound : Bound}

theorem Chain.achieves_of_not_fails {goal : Goal} {v : Valuation} {x : Nat → ℝ}
    (hx : c.IsProbability v (c.targetSet target) x) (h : ¬ goal.Fails bound (x c.initial)) :
    c.Achieves target bound goal v := by
  cases goal with
  | allSat => exact ⟨x, hx, not_not.mp h⟩
  | allViolated => exact ⟨x, hx, h⟩

/-- A bound is decided by the exact probability. -/
theorem Chain.achieves_of_eq {v : Valuation} {x : Nat → ℝ} {q : ℚ}
    (hx : c.IsProbability v (c.targetSet target) x) (hq : x c.initial = q) :
    c.Achieves target bound (if bound.holds q then .allSat else .allViolated) v := by
  split
  · next hholds => exact ⟨x, hx, hq ▸ Bound.holds_eq_true_iff.mp hholds⟩
  · next hnot => exact ⟨x, hx, fun hholds => hnot (Bound.holds_eq_true_iff.mpr (hq ▸ hholds))⟩

theorem Chain.Satisfies.not_violates {v : Valuation} (h : c.Satisfies target bound v) :
    ¬ c.Violates target bound v := by
  obtain ⟨x, hx, hholds⟩ := h
  rintro ⟨y, hy, hnot⟩
  rw [IsLeast.unique hy hx] at hnot
  exact hnot hholds

namespace Region

variable {r : Region} {q : Valuation}

theorem truthful_fresh (b : Box) : (fresh b).Truthful c target bound := by
  refine ⟨?_, ?_, ?_, ?_, ?_, ?_⟩ <;> simp [fresh]

theorem Truthful.recordSat (h : r.Truthful c target bound) (hq : r.box.contains q = true)
    (hsat : ∀ v, c.Admissible v → r.box.Extends q v → c.Satisfies target bound v) :
    (r.recordSat q).Truthful c target bound := by
  unfold Region.recordSat
  split
  · exact h
  · next hnone =>
      refine ⟨fun hv => h.all_sat ?_, fun hv => h.all_violated ?_, fun q' hq' => ?_,
        h.violated_point, fun _ => rfl, fun hv => h.exists_violated ?_⟩
      · revert hv
        cases r.verdict <;> simp [Verdict.withSat]
      · revert hv
        cases r.verdict <;> simp [Verdict.withSat]
      · obtain rfl := Option.some.inj hq'
        exact ⟨hq, hsat⟩
      · revert hv
        cases r.verdict <;> simp [Verdict.withSat]

theorem Truthful.recordViolated (h : r.Truthful c target bound) (hq : r.box.contains q = true)
    (hviolated : ∀ v, c.Admissible v → r.box.Extends q v → c.Violates target bound v) :
    (r.recordViolated q).Truthful c target bound := by
  unfold Region.recordViolated
  split
  · exact h
  · next hnone =>
      refine ⟨fun hv => h.all_sat ?_, fun hv => h.all_violated ?_, h.sat_point, fun q' hq' => ?_,
        fun hv => h.exists_sat ?_, fun _ => rfl⟩
      · revert hv
        cases r.verdict <;> simp [Verdict.withViolated]
      · revert hv
        cases r.verdict <;> simp [Verdict.withViolated]
      · obtain rfl := Option.some.inj hq'
        exact ⟨hq, hviolated⟩
      · revert hv
        cases r.verdict <;> simp [Verdict.withViolated]

/-- A verdict may be concluded if it is true. -/
theorem Truthful.conclude (h : r.Truthful c target bound) {goal : Goal}
    (htrue : ∀ v, r.box.contains v = true → c.Admissible v → c.Achieves target bound goal v)
    {r' : Region}
    (hr' : r.conclude goal.verdict = .ok r') : r'.box = r.box ∧ r'.Truthful c target bound := by
  unfold Region.conclude at hr'
  split at hr'
  · cases hr'
  · obtain rfl := Except.ok.inj hr'
    refine ⟨rfl, ?_⟩
    cases goal with
    | allSat =>
        exact ⟨fun _ => htrue, by simp [Goal.verdict], h.sat_point, h.violated_point,
          by simp [Goal.verdict], by simp [Goal.verdict]⟩
    | allViolated =>
        exact ⟨by simp [Goal.verdict], fun _ => htrue, h.sat_point, h.violated_point,
          by simp [Goal.verdict], by simp [Goal.verdict]⟩

end Region

end Truthful

/-! ## Decisions at points -/

/-- What the tiers rely on: the closed form of the property is computed and used, the property
depends on parameters of the box only, and every point of the box extends to an admissible one. -/
structure Prepared.Covers (p : Prepared) (options : Options) (c : ParametricChain)
    (target : StateFormula) (b : Box) : Prop where
  regular : c.Regular
  faithful : p.property.Faithful c p.property.bound target options.eliminationSizeBound
  computed : ∃ f, p.property.reachFunction.get = .computed f
  sampleViaFunction : options.sampleViaFunction = true
  approximation : options.approximation = false
  parameters : ∀ a ∈ p.property.model.parameters, a ∈ b.parameters
  admissible : ∀ q, b.contains q = true → ∃ v, c.Admissible v ∧ b.Extends q v

namespace Prepared.Covers

variable {p : Prepared} {options : Options} {c : ParametricChain} {target : StateFormula} {b : Box}

/-- The property is decided at every point of the box, and rightly so. -/
theorem exists_holdsAt (h : p.Covers options c target b) {q : Valuation}
    (hq : b.contains q = true) :
    ∃ found, p.holdsAt options q = .ok found ∧
      ∀ v, c.Admissible v → b.Extends q v →
        c.Achieves target p.property.bound (if found then .allSat else .allViolated) v := by
  obtain ⟨f, hf⟩ := h.computed
  obtain ⟨v₀, hv₀, hext₀⟩ := h.admissible q hq
  have hvalue := fun v (hv : c.Admissible v) (hext : b.Extends q v) =>
    h.faithful.exists_evaluate_of_agree h.regular hf hv
      fun a ha => (hext a (h.parameters a ha)).symm
  obtain ⟨-, -, r, hr, -⟩ := hvalue v₀ hv₀ hext₀
  refine ⟨p.property.bound.holds r, ?_, fun v hv hext => ?_⟩
  · simp [Prepared.holdsAt, Sampler.holdsAt, h.sampleViaFunction, hf, ReachFunction.function?,
      Arena.evaluate, hr]
  · obtain ⟨x, hx, r', hr', hxr⟩ := hvalue v hv hext
    obtain rfl : r = r' := Except.ok.inj (hr.symm.trans hr')
    exact Chain.achieves_of_eq hx hxr.symm

/-- Sampling keeps a region truthful and does not fail. -/
theorem sample (h : p.Covers options c target b) {points : List Valuation}
    (hpoints : ∀ q ∈ points, b.contains q = true) {r : Region} (hbox : r.box = b)
    (hr : r.Truthful c target p.property.bound) :
    ∃ r' both, r.sample (p.holdsAt options) points = (r', .ok both) ∧ r'.box = b ∧
      r'.Truthful c target p.property.bound := by
  induction points generalizing r with
  | nil => exact ⟨r, false, rfl, hbox, hr⟩
  | cons q rest ih =>
      have hq := hpoints q List.mem_cons_self
      obtain ⟨found, hfound, htrue⟩ := h.exists_holdsAt hq
      have hbox' : (r.record found q).box = b := (r.box_record found q).trans hbox
      have hrecord : (r.record found q).Truthful c target p.property.bound := by
        subst hbox
        cases found with
        | true => exact hr.recordSat hq htrue
        | false => exact hr.recordViolated hq htrue
      simp only [Region.sample, hfound]
      split
      · exact ⟨_, true, rfl, hbox', hrecord⟩
      · exact ih (fun q hq => hpoints q (List.mem_cons_of_mem _ hq)) hbox' hrecord

theorem named_encoding (p : Prepared) (options : Options) (kind : Smt.SessionKind) :
    (p.encoding options kind).Named p.property.model.parameters := by
  cases kind with
  | subsystem => rfl
  | full => rfl

theorem exists_boxTerms_of_bounded (options : Options) {p : Prepared} {b : Box}
    (hb : ∀ a ∈ p.parameters, a ∈ b.parameters) (kind : Smt.SessionKind) :
    ∃ terms, (p.encoding options kind).boxTerms b = .ok terms := by
  refine exists_mapM_eq_ok fun e he => ?_
  rw [named_encoding] at he
  obtain ⟨a, ha, rfl⟩ := List.mem_map.mp he
  obtain ⟨side, hside⟩ := Box.mem_parameters.mp (hb a ha)
  exact ⟨_, bind_eq_ok_iff.mpr ⟨side, Box.side_eq_ok_iff.mpr hside, rfl⟩⟩

theorem exists_boxTerms (h : p.Covers options c target b) (kind : Smt.SessionKind) :
    ∃ terms, (p.encoding options kind).boxTerms b = .ok terms :=
  exists_boxTerms_of_bounded options h.parameters kind

/-- Both encodings determine the probability at an admissible point. -/
theorem exists_determines (h : p.Covers options c target b) (kind : Smt.SessionKind) {v : Valuation}
    (hv : c.Admissible v) :
    ∃ x encoded, c.IsProbability v (c.targetSet target) x ∧
      (p.encoding options kind).Determines encoded v x c.initial := by
  obtain ⟨x, hx⟩ := hv.exists_isProbability h.regular (c.targetSet target)
  have hrep := h.faithful.represents v x hv hx
  have hunit := hv.probability_mem_unit h.regular hx
  have hrat := h.faithful.exists_rat h.regular hv hx
  cases kind with
  | subsystem =>
      exact ⟨x, _, hx, Smt.Encoding.determines_subsystem _ _ h.faithful.wellFormed hrep hunit hrat⟩
  | full => exact ⟨x, _, hx, Smt.Encoding.determines_full h.faithful.wellFormed hrep hunit hrat⟩

/-- A goal that is proven for an encoding is achieved at every admissible point of the box. -/
theorem achieves_of_proven (h : p.Covers options c target b) {kind : Smt.SessionKind} {goal : Goal}
    (hproven : Smt.QueryAnswer.proven.Justified (p.encoding options kind) b p.property.bound goal)
    {v : Valuation} (hv : b.contains v = true) (hadmissible : c.Admissible v) :
    c.Achieves target p.property.bound goal v := by
  obtain ⟨x, encoded, hx, hdetermines⟩ := h.exists_determines kind hadmissible
  refine Chain.achieves_of_not_fails hx fun hfails => hproven ?_
  obtain ⟨terms, hterms⟩ := h.exists_boxTerms kind
  obtain ⟨σ, hparam, hsat⟩ := hdetermines.exists_satisfied v.assignment fun a q ha => by
    rw [Valuation.assignment, ha]
    rfl
  have hvalue : ∀ a q, v.find? a = some q → σ (Smt.parameterVariable a) = q := by
    intro a q ha
    rw [hparam a, Valuation.assignment, ha]
    rfl
  have hσ : Smt.Agrees v fun name => σ name := fun a q ha => congrArg _ (hvalue a q ha)
  refine ⟨σ, hsat, ⟨terms, hterms, ?_⟩, ?_⟩
  · rw [Smt.Encoding.holds_boxTerms_iff (named_encoding p options kind) hterms]
    intro a _ side hside
    obtain ⟨q, hq, hlower, hupper⟩ := Box.contains_iff.mp hv a side hside
    rw [hvalue a q hq]
    exact ⟨by exact_mod_cast hlower, by exact_mod_cast hupper⟩
  · rw [Smt.holds_goalFails_iff, hdetermines.initial_eq _ hσ hsat]
    exact hfails

/-- The constant of a model is right at every admissible point. -/
theorem achieves_of_constant (h : p.Covers options c target b) {q : ℚ}
    (hq : p.property.model.constant? = some q) {v : Valuation} (hv : c.Admissible v) :
    c.Achieves target p.property.bound (if p.property.bound.holds q then .allSat else .allViolated)
      v := by
  obtain ⟨x, hx⟩ := hv.exists_isProbability h.regular (c.targetSet target)
  exact Chain.achieves_of_eq hx ((h.faithful.represents v x hv hx).constant_eq q hq)

end Prepared.Covers

/-! ## Prepared properties -/

namespace ReachFunction

variable {r : ReachFunction} {f : RationalFunction}

theorem eq_computed (h : r.function? = some f) : r = .computed f := by
  cases r with
  | computed g => exact congrArg computed (Option.some.inj h)
  | notComputed => cases h
  | unusable reason => cases h

theorem toExcept_eq_ok_iff : r.toExcept = .ok f ↔ r = .computed f := by
  cases r with
  | computed g => simp [toExcept]
  | notComputed => simp [toExcept]
  | unusable reason => simp [toExcept]

end ReachFunction

/-- What is prepared for a formula.  Its weights are all looked at for that. -/
theorem Prepared.build_eq_ok_iff {options : Options} {c : ParametricChain} {φ : StateFormula}
    {p : Prepared} : build options c φ = .ok p ↔ ∃ property linear,
      Property.build c φ options.eliminationSizeBound = .ok property ∧
      property.model.linear = .ok linear ∧
      p = ⟨property, .ofModel property.model options.settings options.tolerance,
        if linear then some (.ofModel property.model options.settings) else none⟩ := by
  rw [build, bind_eq_ok_iff]
  simp only [ofProperty, bind_eq_ok_iff, liftModel, mapError_eq_ok_iff, pure_eq_ok_iff]
  constructor
  · rintro ⟨property, hproperty, linear, hlinear, rfl⟩
    exact ⟨property, linear, hproperty, hlinear, rfl⟩
  · rintro ⟨property, linear, hproperty, hlinear, rfl⟩
    exact ⟨property, hproperty, linear, hlinear, rfl⟩

theorem Prepared.exists_build (options : Options) {c : ParametricChain} {φ : StateFormula}
    {property : Property} {linear : Bool}
    (hproperty : Property.build c φ options.eliminationSizeBound = .ok property)
    (hlinear : property.model.linear = .ok linear) :
    ∃ p, build options c φ = .ok p ∧ p.property = property :=
  ⟨_, build_eq_ok_iff.mpr ⟨property, linear, hproperty, hlinear, rfl⟩, rfl⟩

/-! ## Tiers -/

namespace Inspection

variable {σ ω : Type} {Tracks : σ → List (List Smt.Term) → Prop} {options : Options} {p : Prepared}
  {c : ParametricChain} {target : StateFormula} {b : Box}

/-- The region is truthful, and the sessions are open. -/
structure Sound (Tracks : σ → List (List Smt.Term) → Prop) (options : Options) (p : Prepared)
    (c : ParametricChain) (target : StateFormula) (b : Box) (i : Inspection σ ω) : Prop where
  box_eq : i.region.box = b
  truthful : i.region.Truthful c target p.property.bound
  sessions_open : ∀ kind session, i.sessions.get? kind = some session →
    session.Open Tracks (p.encoding options kind)

/-- The only failure: there are too many corners to sample. -/
def Overflow (options : Options) (b : Box) (e : CheckError) : Prop :=
  options.sampling = true ∧ ∃ cause, Box.Crowded b.parameters.length cause ∧ e = .region cause

/-- A tier keeps what is known, also if it fails. -/
def Keeps {α : Type} (Tracks : σ → List (List Smt.Term) → Prop) (options : Options) (p : Prepared)
    (c : ParametricChain) (target : StateFormula) (b : Box)
    (x : Attempt CheckError (Inspection σ ω) α) : Prop :=
  Meets (Sound Tracks options p c target b) x (fun _ => Sound Tracks options p c target b)
    fun e i => Sound Tracks options p c target b i ∧ Overflow options b e

theorem keeps_pure {α : Type} (a : α) :
    Keeps Tracks options p c target b (pure a : Attempt CheckError (Inspection σ ω) α) :=
  Meets.pure fun _ hi => hi

theorem keeps_onRegion {α : Type} {x : Region → Region × Except CheckError α}
    (h : ∀ r, r.box = b → r.Truthful c target p.property.bound →
      (x r).1.box = b ∧ (x r).1.Truthful c target p.property.bound ∧
        ∀ e, (x r).2 = .error e → Overflow options b e) :
    Keeps Tracks options p c target b (onRegion x : Attempt CheckError (Inspection σ ω) α) := by
  intro i hi
  obtain ⟨hbox, htruthful, hfails⟩ := h i.region hi.box_eq hi.truthful
  have hrun : (onRegion x : Attempt CheckError (Inspection σ ω) α).run i =
      ((x i.region).2, { i with region := (x i.region).1 }) := rfl
  rw [hrun]
  rcases hx : (x i.region).2 with e | a
  · exact ⟨⟨hbox, htruthful, hi.sessions_open⟩, hfails e hx⟩
  · exact ⟨hbox, htruthful, hi.sessions_open⟩

section Covered

variable (h : p.Covers options c target b)
include h

theorem decidePoint_succeeds {q : Valuation} (hq : b.contains q = true) :
    Succeeds (Sound Tracks options p c target b)
      (decidePoint options p q : Attempt CheckError (Inspection σ ω) Bool)
      fun _ => Sound Tracks options p c target b := by
  intro i hi
  obtain ⟨r, both, hsample, hbox, htruthful⟩ := h.sample
    (fun q' hq' => List.mem_singleton.mp hq' ▸ hq) hi.box_eq hi.truthful
  have hrun : (decidePoint options p q : Attempt CheckError (Inspection σ ω) Bool).run i =
      ((i.region.sample (p.holdsAt options) [q]).2,
        { i with region := (i.region.sample (p.holdsAt options) [q]).1 }) := rfl
  rw [hrun, hsample]
  exact ⟨hbox, htruthful, hi.sessions_open⟩

theorem keeps_bySampling : Keeps Tracks options p c target b
    (bySampling options p : Attempt CheckError (Inspection σ ω) Bool) := by
  unfold bySampling
  split
  · next hsampling =>
      refine keeps_onRegion fun r hbox hr => ?_
      rcases b.samplePoints_cases with ⟨points, hpoints, hmem⟩ | ⟨cause, hcrowded, hfails⟩
      · obtain ⟨r', both, hsample, hbox', hr'⟩ := h.sample hmem hbox hr
        have hx : p.sampler.samplePoints p.property options.sampleViaFunction r =
            (r', .ok both) := by
          rw [Sampler.samplePoints, hbox, hpoints]
          exact hsample
        rw [hx]
        exact ⟨hbox', hr', by simp⟩
      · have hx : p.sampler.samplePoints p.property options.sampleViaFunction r =
            (r, .error (.region cause)) := by
          rw [Sampler.samplePoints, hbox, hfails]
        rw [hx]
        exact ⟨hbox, hr, fun e he => ⟨hsampling, cause, hcrowded, (Except.error.inj he).symm⟩⟩
  · exact keeps_pure false

/-- No known point contradicts a true verdict. -/
theorem Sound.not_contradicts {i : Inspection σ ω} (hi : Sound Tracks options p c target b i)
    {goal : Goal} (htrue : ∀ v, b.contains v = true → c.Admissible v →
      c.Achieves target p.property.bound goal v) :
    i.region.contradicts goal.verdict = false := by
  have hpoint : ∀ q, i.region.box.contains q = true →
      ∃ v, c.Admissible v ∧ i.region.box.Extends q v ∧
        c.Achieves target p.property.bound goal v := by
    rw [hi.box_eq]
    intro q hq
    obtain ⟨v, hv, hext⟩ := h.admissible q hq
    exact ⟨v, hv, hext, htrue v (hext.contains hq) hv⟩
  rw [← Bool.not_eq_true]
  cases goal with
  | allSat =>
      intro hsome
      obtain ⟨q, hq⟩ := Option.isSome_iff_exists.mp hsome
      obtain ⟨hbox, hviolates⟩ := hi.truthful.violated_point q hq
      obtain ⟨v, hv, hext, hsat⟩ := hpoint q hbox
      exact hsat.not_violates (hviolates v hv hext)
  | allViolated =>
      intro hsome
      obtain ⟨q, hq⟩ := Option.isSome_iff_exists.mp hsome
      obtain ⟨hbox, hsat⟩ := hi.truthful.sat_point q hq
      obtain ⟨v, hv, hext, hviolates⟩ := hpoint q hbox
      exact (hsat v hv hext).not_violates hviolates

/-- A true verdict is concluded. -/
theorem concludes_succeeds {goal : Goal} (htrue : ∀ v, b.contains v = true → c.Admissible v →
    c.Achieves target p.property.bound goal v) :
    Succeeds (Sound Tracks options p c target b)
      (concludes goal.verdict : Attempt RegionError (Inspection σ ω) Unit)
      fun _ => Sound Tracks options p c target b := by
  refine Meets.bind_get fun i hi => ?_
  have hconclude : i.region.conclude goal.verdict =
      .ok { i.region with verdict := goal.verdict } := by
    rw [Region.conclude, hi.not_contradicts h htrue]
    rfl
  obtain ⟨hbox, htruthful⟩ := hi.truthful.conclude (hi.box_eq.symm ▸ htrue) hconclude
  rw [hconclude]
  refine Meets.bind (Q := fun region _ => region = { i.region with verdict := goal.verdict })
    (Meets.ofExcept (fun region hregion _ _ => (Except.ok.inj hregion).symm) nofun) fun region => ?_
  refine Meets.set fun _ hregion => ?_
  rw [hregion]
  exact ⟨hbox.trans hi.box_eq, htruthful, hi.sessions_open⟩

theorem keeps_byConstantResult : Keeps Tracks options p c target b
    (byConstantResult p : Attempt CheckError (Inspection σ ω) Bool) := by
  unfold byConstantResult
  split
  · exact keeps_pure false
  · next value hvalue =>
      have hverdict : (if p.property.bound.holds value then Verdict.allSat else .allViolated) =
          (if p.property.bound.holds value then Goal.allSat else .allViolated).verdict := by
        split <;> rfl
      rw [hverdict]
      refine Meets.bind (Meets.mapError (concludes_succeeds h fun v _ hv => ?_)
        fun _ _ hfalse => hfalse.elim) fun _ => keeps_pure true
      exact h.achieves_of_constant hvalue hv

theorem keeps_byApproximation : Keeps Tracks options p c target b
    (byApproximation options p : Attempt CheckError (Inspection σ ω) Bool) := by
  unfold byApproximation
  rw [h.approximation]
  exact keeps_pure false

end Covered

/-! ### Solvers -/

section Solvers

variable {f : Smt.SolverFactory σ ω} (hf : f.Trusted Tracks)

theorem sound_iff_open {i : Inspection σ ω} : Sound Tracks options p c target b i ↔
    Open Tracks options p (fun r => r.box = b ∧ r.Truthful c target p.property.bound) i :=
  ⟨fun hi => ⟨⟨hi.box_eq, hi.truthful⟩, hi.sessions_open, trivial⟩,
    fun hi => ⟨hi.region.1, hi.region.2, hi.sessions⟩⟩

include hf

/-- The session of a kind is open. -/
theorem session_succeeds (worker : Nat) (kind : Smt.SessionKind) :
    Succeeds (Sound Tracks options p c target b) (session options p f worker kind)
      fun session i => Sound Tracks options p c target b i ∧
        session.Open Tracks (p.encoding options kind) :=
  (session_opens hf.reliable worker kind).weaken (fun _ hi => sound_iff_open.mp hi)
    (fun _ _ hi => ⟨sound_iff_open.mpr hi.1, hi.2⟩) fun _ _ hfalse => hfalse

theorem query_succeeds (h : p.Covers options c target b) (kind : Smt.SessionKind)
    {session : Smt.Session σ} (hsession : session.Open Tracks (p.encoding options kind))
    (goal : Goal) :
    Succeeds (Sound Tracks options p c target b) (query p f kind session goal)
      fun answer i => Sound Tracks options p c target b i ∧
        answer.Justified (p.encoding options kind) b p.property.bound goal := by
  obtain ⟨terms, hterms⟩ := h.exists_boxTerms kind
  refine (query_opens hf.reliable hsession goal fun r hr => hr.1).weaken
    (fun _ hi => sound_iff_open.mp hi) (fun _ _ hi => ⟨sound_iff_open.mpr hi.1, ?_⟩)
    fun e _ hi => ?_
  · exact Smt.justified_of_answers (Prepared.Covers.named_encoding p options kind) hi.2
  · have hfails : liftRegion ((p.encoding options kind).boxTerms b) = .error e := hi.2
    rw [hterms] at hfails
    cases hfails

omit hf in
/-- A justified answer keeps the region truthful. -/
theorem settle_succeeds (h : p.Covers options c target b) {kind : Smt.SessionKind} {goal : Goal}
    {answer : Smt.QueryAnswer}
    (hanswer : answer.Justified (p.encoding options kind) b p.property.bound goal) :
    Succeeds (Sound Tracks options p c target b)
      (settle options p goal answer : Attempt CheckError (Inspection σ ω) Bool)
      fun _ => Sound Tracks options p c target b := by
  cases answer with
  | proven =>
      refine Meets.bind (concludes_succeeds h fun v hv hadmissible =>
        h.achieves_of_proven hanswer hv hadmissible).outcome fun outcome => ?_
      rcases outcome with e | u
      · exact fun s hs => hs.elim
      · exact Meets.pure fun s hs => hs
  | counterexample point =>
      refine Meets.bind (decidePoint_succeeds h hanswer).outcome fun outcome => ?_
      rcases outcome with e | both
      · exact fun s hs => hs.elim
      · exact Meets.pure fun s hs => hs
  | inconclusive reason => exact Meets.pure fun s hs => hs

/-- A query that is chosen by what is known. -/
theorem ask_succeeds (h : p.Covers options c target b) (kind : Smt.SessionKind)
    {session : Smt.Session σ} (hsession : session.Open Tracks (p.encoding options kind))
    (goal : Goal) :
    Succeeds (Sound Tracks options p c target b)
      (do settle options p goal (← query p f kind session goal))
      fun _ => Sound Tracks options p c target b := by
  refine Meets.bind (query_succeeds hf h kind hsession goal) fun answer => ?_
  exact Meets.of_fact fun hanswer => settle_succeeds h hanswer

/-- What is proved is chosen by the verdict so far. -/
theorem askByVerdict_succeeds (h : p.Covers options c target b) (kind : Smt.SessionKind)
    {session : Smt.Session σ} (hsession : session.Open Tracks (p.encoding options kind)) :
    Succeeds (Sound Tracks options p c target b)
      (do match (← get).region.verdict with
          | .existsSat => settle options p .allSat (← query p f kind session .allSat)
          | .existsViolated => settle options p .allViolated (← query p f kind session .allViolated)
          | _ => return true)
      fun _ => Sound Tracks options p c target b := by
  refine Meets.bind_get fun i hi => ?_
  split
  · exact (ask_succeeds hf h kind hsession .allSat).startingAt hi
  · exact (ask_succeeds hf h kind hsession .allViolated).startingAt hi
  · exact Meets.pure fun s hs => hs ▸ hi

theorem bySolver_succeeds (h : p.Covers options c target b) (worker : Nat)
    (kind : Smt.SessionKind) :
    Succeeds (Sound Tracks options p c target b) (bySolver options p f worker kind)
      fun _ => Sound Tracks options p c target b := by
  refine Meets.bind (session_succeeds hf worker kind) fun session => ?_
  refine Meets.of_fact fun hsession => ?_
  refine Meets.bind_get fun i hi => ?_
  -- Both branches go on with the same query, so it is met first.
  have hquery := askByVerdict_succeeds hf h kind hsession
  dsimp only
  split
  · have hmidpoint : b.contains i.region.box.midpoint = true := hi.box_eq.symm ▸ b.contains_midpoint
    refine Meets.bind ((decidePoint_succeeds h hmidpoint).startingAt hi) fun _ => ?_
    exact hquery
  · exact hquery.startingAt hi

end Solvers

/-! ### All tiers -/

theorem keeps_of_succeeds {α : Type} {x : Attempt CheckError (Inspection σ ω) α}
    (hx : Succeeds (Sound Tracks options p c target b) x fun _ =>
      Sound Tracks options p c target b) :
    Keeps Tracks options p c target b x :=
  hx.weaken (fun _ hs => hs) (fun _ _ hs => hs) fun _ _ hfalse => hfalse.elim

theorem keeps_firstSettled {attempts : List (Tier × Attempt CheckError (Inspection σ ω) Bool)}
    (h : ∀ attempt ∈ attempts, Keeps Tracks options p c target b attempt.2) :
    Keeps Tracks options p c target b (firstSettled attempts) := by
  induction attempts with
  | nil => exact keeps_pure none
  | cons attempt rest ih =>
      refine Meets.bind (h attempt List.mem_cons_self) fun settled => ?_
      cases settled with
      | true => exact keeps_pure (some attempt.1)
      | false => exact ih fun attempt' ha => h attempt' (List.mem_cons_of_mem _ ha)

/-- A check of a region keeps it truthful. -/
theorem keeps_escalate {f : Smt.SolverFactory σ ω} (hf : f.Trusted Tracks)
    (h : p.Covers options c target b) (worker : Nat) :
    Keeps Tracks options p c target b (escalate options p f worker) := by
  have hsolver : ∀ (wanted : Bool) kind, Keeps Tracks options p c target b
      (if wanted then bySolver options p f worker kind else return false) := by
    intro wanted kind
    cases wanted with
    | true => exact keeps_of_succeeds (bySolver_succeeds hf h worker kind)
    | false => exact keeps_pure false
  have htiers : ∀ attempt ∈ tiers options p f worker,
      Keeps Tracks options p c target b attempt.2 := by
    simp only [tiers, List.forall_mem_cons, List.not_mem_nil, false_imp_iff, implies_true, and_true]
    exact ⟨keeps_byConstantResult h, keeps_bySampling h, keeps_byApproximation h,
      hsolver options.subsystemSmt .subsystem, hsolver options.fullSmt .full⟩
  refine Meets.bind_get fun i hi => ?_
  split
  · exact Meets.pure fun s hs => hs ▸ hi
  · exact (keeps_firstSettled htiers).startingAt hi

end Inspection

end MarkovRegion
