import MarkovRegion.Proofs.Region.Growth

/-!
# What calls can do to a region

A caller may record points and set verdicts in any order.  A verdict that the known points
contradict is refused; but a point is recorded whatever the verdict says, and a verdict about all
points can be replaced.  So the verdict need not fit the points: a point that is recorded after a
verdict about all points may contradict it, and a verdict that was set without a point counts as one
when a point of the other kind comes (`Region.Misuses`).

These are the only ways to lose the invariant.  `Region.sound_act_iff` says so of one call, and
`Region.invariant_iff_no_misuse` of all sequences of calls on a region about which nothing is known.
`Region.invariant_fails` shows what is lost.
-/

namespace MarkovRegion

namespace Verdict

/-- Whether a verdict fits the kinds of points that are known. -/
def fits : Verdict → (sat violated : Bool) → Bool
  | existsBoth, sat, violated => sat && violated
  | allSat, _, violated => !violated
  | allViolated, sat, _ => !sat
  | _, _, _ => true

/-- What a satisfying point does to a verdict that fits. -/
theorem fits_withSat_iff : ∀ (v : Verdict) (violated : Bool), v.fits false violated = true →
    ((v.withSat.fits true violated = true ∧ (v.isUniversal = true → v.withSat = v)) ↔
      ¬(v = allViolated ∨ v = existsViolated ∧ violated = false)) := by
  decide

/-- What a violating point does to a verdict that fits. -/
theorem fits_withViolated_iff : ∀ (v : Verdict) (sat : Bool), v.fits sat false = true →
    ((v.withViolated.fits sat true = true ∧ (v.isUniversal = true → v.withViolated = v)) ↔
      ¬(v = allSat ∨ v = existsSat ∧ sat = false)) := by
  decide

end Verdict

namespace Region

/-! ## Calls -/

/-- A call on a region. -/
inductive Action where
  /-- Record a satisfying point. -/
  | sat (point : Valuation)
  /-- Record a violating point. -/
  | violated (point : Valuation)
  /-- Set a verdict. -/
  | conclude (verdict : Verdict)

/-- The region after a call.  A verdict that is refused changes nothing. -/
def act (r : Region) : Action → Region
  | .sat point => r.recordSat point
  | .violated point => r.recordViolated point
  | .conclude verdict =>
    match r.conclude verdict with
    | .ok s => s
    | .error _ => r

/-- The region after a sequence of calls. -/
def actAll (r : Region) (actions : List Action) : Region := actions.foldl act r

variable {r : Region}

theorem actAll_append (r : Region) (done later : List Action) :
    r.actAll (done ++ later) = (r.actAll done).actAll later :=
  List.foldl_append

theorem actAll_concat (r : Region) (done : List Action) (a : Action) :
    r.actAll (done ++ [a]) = (r.actAll done).act a :=
  actAll_append r done [a]

/-- One region has the box of another and its points. -/
structure Keeps (r s : Region) : Prop where
  box_eq : s.box = r.box
  sat_kept : ∀ q, r.satPoint = some q → s.satPoint = some q
  violated_kept : ∀ q, r.violatedPoint = some q → s.violatedPoint = some q

theorem Keeps.refl (r : Region) : r.Keeps r := ⟨rfl, fun _ h => h, fun _ h => h⟩

theorem Keeps.trans {s t : Region} (hs : r.Keeps s) (ht : s.Keeps t) : r.Keeps t where
  box_eq := ht.box_eq.trans hs.box_eq
  sat_kept q hq := ht.sat_kept q (hs.sat_kept q hq)
  violated_kept q hq := ht.violated_kept q (hs.violated_kept q hq)

theorem keeps_act (r : Region) (a : Action) : r.Keeps (r.act a) := by
  cases a with
  | sat point =>
      rw [act, recordSat]
      split
      · exact .refl r
      · next hnone => exact ⟨rfl, by rw [hnone]; nofun, fun _ h => h⟩
  | violated point =>
      rw [act, recordViolated]
      split
      · exact .refl r
      · next hnone => exact ⟨rfl, fun _ h => h, by rw [hnone]; nofun⟩
  | conclude verdict =>
      rw [act, Region.conclude]
      split_ifs
      · exact .refl r
      · exact ⟨rfl, fun _ h => h, fun _ h => h⟩

theorem keeps_actAll (r : Region) (actions : List Action) : r.Keeps (r.actAll actions) := by
  induction actions generalizing r with
  | nil => exact .refl r
  | cons a rest ih => exact (keeps_act r a).trans (ih (r.act a))

/-! ## The invariant -/

/-- The verdict fits the points that are known. -/
structure Consistent (r : Region) : Prop where
  both : r.verdict = .existsBoth → r.satPoint.isSome = true ∧ r.violatedPoint.isSome = true
  allSat : r.verdict = .allSat → r.violatedPoint = none
  allViolated : r.verdict = .allViolated → r.satPoint = none

theorem consistent_iff :
    r.Consistent ↔ r.verdict.fits r.satPoint.isSome r.violatedPoint.isSome = true := by
  constructor
  · rintro ⟨hboth, hsat, hviolated⟩
    cases hverdict : r.verdict with
    | existsBoth => simpa [Verdict.fits] using hboth hverdict
    | allSat => simp [Verdict.fits, hsat hverdict]
    | allViolated => simp [Verdict.fits, hviolated hverdict]
    | unknown | existsSat | existsViolated => rfl
  · intro h
    refine ⟨fun hverdict => ?_, fun hverdict => ?_, fun hverdict => ?_⟩
    · simpa [hverdict, Verdict.fits] using h
    · simpa [hverdict, Verdict.fits] using h
    · simpa [hverdict, Verdict.fits] using h

theorem consistent_fresh (box : Box) : (fresh box).Consistent :=
  consistent_iff.mpr rfl

/-- Calls after which the verdict does not fit the points, or a verdict about all points is
replaced: a point against a verdict about all points, a point when a verdict that no point supports
says that there is one of the other kind, and a verdict after one about all points. -/
def Misuses (r : Region) : Action → Prop
  | .sat _ => r.satPoint = none ∧
      (r.verdict = .allViolated ∨ r.verdict = .existsViolated ∧ r.violatedPoint = none)
  | .violated _ => r.violatedPoint = none ∧
      (r.verdict = .allSat ∨ r.verdict = .existsSat ∧ r.satPoint = none)
  | .conclude verdict => r.contradicts verdict = false ∧ r.verdict.isUniversal = true ∧
      verdict ≠ r.verdict

/-- After the call the verdict fits the points, and a verdict about all points was kept. -/
def SoundStep (r : Region) (a : Action) : Prop :=
  (r.act a).Consistent ∧ (r.verdict.isUniversal = true → (r.act a).verdict = r.verdict)

theorem soundStep_of_act_eq {a : Action} (h : r.Consistent) (hact : r.act a = r) :
    r.SoundStep a := by
  rw [SoundStep, hact]
  exact ⟨h, fun _ => rfl⟩

/-- An accepted verdict fits the points. -/
theorem fits_of_contradicts_eq_false {verdict : Verdict} (h : r.contradicts verdict = false) :
    verdict.fits r.satPoint.isSome r.violatedPoint.isSome = true := by
  cases verdict with
  | existsBoth => simpa [contradicts, Verdict.fits] using h
  | allSat => simpa [contradicts, Verdict.fits] using h
  | allViolated => simpa [contradicts, Verdict.fits] using h
  | unknown | existsSat | existsViolated => rfl

/-- One call keeps the invariant exactly if it is no misuse. -/
theorem sound_act_iff (h : r.Consistent) (a : Action) : r.SoundStep a ↔ ¬r.Misuses a := by
  have hfits := consistent_iff.mp h
  cases a with
  | sat point =>
      cases hpoint : r.satPoint with
      | some q =>
          have hact : r.act (.sat point) = r := by
            rw [act, recordSat, hpoint]
          simp [soundStep_of_act_eq h hact, Misuses, hpoint]
      | none =>
          have hact : r.act (.sat point)
              = { r with satPoint := some point, verdict := r.verdict.withSat } := by
            rw [act, recordSat, hpoint]
          rw [hpoint] at hfits
          rw [SoundStep, hact, consistent_iff]
          simpa [Misuses, hpoint] using Verdict.fits_withSat_iff _ _ hfits
  | violated point =>
      cases hpoint : r.violatedPoint with
      | some q =>
          have hact : r.act (.violated point) = r := by
            rw [act, recordViolated, hpoint]
          simp [soundStep_of_act_eq h hact, Misuses, hpoint]
      | none =>
          have hact : r.act (.violated point)
              = { r with violatedPoint := some point, verdict := r.verdict.withViolated } := by
            rw [act, recordViolated, hpoint]
          rw [hpoint] at hfits
          rw [SoundStep, hact, consistent_iff]
          simpa [Misuses, hpoint] using Verdict.fits_withViolated_iff _ _ hfits
  | conclude verdict =>
      cases hcontradicts : r.contradicts verdict with
      | true =>
          have hact : r.act (.conclude verdict) = r := by
            rw [act, Region.conclude, if_pos hcontradicts]
          simp [soundStep_of_act_eq h hact, Misuses, hcontradicts]
      | false =>
          have hact : r.act (.conclude verdict) = { r with verdict } := by
            rw [act, Region.conclude, hcontradicts]
            rfl
          have hnew := fits_of_contradicts_eq_false hcontradicts
          rw [SoundStep, hact, consistent_iff]
          simp [Misuses, hcontradicts, hnew]

/-! ## Sequences of calls -/

/-- The invariant along a sequence of calls: at each moment the verdict fits the points, and a
verdict about all points is never changed by what comes later. -/
structure Invariant (r : Region) (actions : List Action) : Prop where
  consistent : ∀ done, done <+: actions → (r.actAll done).Consistent
  final : ∀ done later, done ++ later <+: actions →
    (r.actAll done).verdict.isUniversal = true →
      (r.actAll (done ++ later)).verdict = (r.actAll done).verdict

/-- No call of a sequence is a misuse of the region at its moment. -/
def NoMisuse (r : Region) (actions : List Action) : Prop :=
  ∀ done a, done ++ [a] <+: actions → ¬(r.actAll done).Misuses a

theorem NoMisuse.consistent {actions : List Action} (h : r.NoMisuse actions) (hr : r.Consistent)
    (done : List Action) (hdone : done <+: actions) : (r.actAll done).Consistent := by
  induction done using List.reverseRecOn with
  | nil => exact hr
  | append_singleton done a ih =>
      have hbefore := ih ((List.prefix_append done [a]).trans hdone)
      rw [actAll_concat]
      exact ((sound_act_iff hbefore a).mpr (h done a hdone)).1

theorem NoMisuse.final {actions : List Action} (h : r.NoMisuse actions) (hr : r.Consistent)
    (done later : List Action) (hlater : done ++ later <+: actions)
    (huniversal : (r.actAll done).verdict.isUniversal = true) :
    (r.actAll (done ++ later)).verdict = (r.actAll done).verdict := by
  induction later using List.reverseRecOn with
  | nil => rw [List.append_nil]
  | append_singleton later a ih =>
      rw [← List.append_assoc] at hlater ⊢
      have hbefore := (List.prefix_append (done ++ later) [a]).trans hlater
      have hsame := ih hbefore
      have hstep := (sound_act_iff (h.consistent hr _ hbefore) a).mpr (h _ a hlater)
      rw [actAll_concat, hstep.2 (hsame ▸ huniversal), hsame]

/-- Whatever is called, the box and the first point of each kind stay.  The verdict fits the points
and a verdict about all points stays, at every moment of a sequence of calls, exactly if no call of
it is a misuse. -/
theorem invariant_iff_no_misuse (box : Box) (actions : List Action) :
    (∀ done later, done ++ later = actions →
      ((fresh box).actAll done).Keeps ((fresh box).actAll actions)) ∧
    ((fresh box).Invariant actions ↔ (fresh box).NoMisuse actions) := by
  refine ⟨?_, fun h done a hdone => ?_, fun h => ?_⟩
  · rintro done later rfl
    rw [actAll_append]
    exact keeps_actAll _ later
  · have hbefore := h.consistent done ((List.prefix_append done [a]).trans hdone)
    refine (sound_act_iff hbefore a).mp ⟨?_, fun huniversal => ?_⟩
    · rw [← actAll_concat]
      exact h.consistent _ hdone
    · rw [← actAll_concat]
      exact h.final done [a] hdone huniversal
  · exact ⟨h.consistent (consistent_fresh box), h.final (consistent_fresh box)⟩

/-- The bias of a coin. -/
def bias : Parameter := ⟨"bias", by decide⟩

/-- A coin of any bias, about which nothing is known. -/
def anyBias : Region := fresh ⟨.ofList [(bias, ⟨0, 1, by decide⟩)], by decide⟩

/-- The bias of a fair coin. -/
def fairBias : Valuation := .ofList [(bias, mkRat 1 2)]

/-- Two calls are enough to lose each part of the invariant. -/
theorem invariant_fails : anyBias.box.contains fairBias = true ∧
    anyBias.actAll [.conclude .allSat, .violated fairBias]
      = { anyBias with verdict := .allSat, violatedPoint := some fairBias } ∧
    anyBias.actAll [.conclude .allViolated, .sat fairBias]
      = { anyBias with verdict := .allViolated, satPoint := some fairBias } ∧
    anyBias.actAll [.conclude .existsViolated, .sat fairBias]
      = { anyBias with verdict := .existsBoth, satPoint := some fairBias } ∧
    anyBias.actAll [.conclude .allSat, .conclude .unknown] = anyBias := by
  refine ⟨?_, rfl, rfl, rfl, rfl⟩
  decide +kernel

end Region

end MarkovRegion
