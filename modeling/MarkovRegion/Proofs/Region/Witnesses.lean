import Mathlib.Data.List.Infix
import MarkovRegion.Proofs.Region.Repetition

/-!
# The first points of each kind

Sampling decides points one after the other.  Of each kind it keeps the point that was known before,
or else the first one that is met (`Region.Learned`); it ends at the first moment at which points of
both kinds are known, or at the first failure, whichever comes before.

As long as neither has come, sampling is at the same place as if it started from what it has learned
(`Region.Unsettled.sample_append`).  What happens next is then a matter of one point, and the three
ways to end are told apart by the outcomes alone (`Region.outcome_cases`).  `Region.FindsFirst` is
what results, and `Sampler.samplePoints_findsFirst` says it of the corners and the midpoint of a
box.
-/

namespace MarkovRegion

namespace Region

variable {r s : Region} {holds : Valuation → Except CheckError Bool} {done points : List Valuation}
  {q : Valuation} {found : Bool}

/-! ## What points tell -/

/-- The property is decided at all points of a list. -/
def Decided (holds : Valuation → Except CheckError Bool) (done : List Valuation) : Prop :=
  ∀ q ∈ done, ∃ found, holds q = .ok found

/-- The first point of a kind. -/
def first (holds : Valuation → Except CheckError Bool) (done : List Valuation) (found : Bool) :
    Option Valuation :=
  done.find? fun q => (holds q).toOption == some found

/-- Both kinds of points are known after the points of a list, which are all decided: a point was
known before, or is among them. -/
structure Completes (r : Region) (holds : Valuation → Except CheckError Bool)
    (done : List Valuation) : Prop where
  decided : Decided holds done
  known : ∀ found, (r.witness found).isSome = true ∨ ∃ q ∈ done, holds q = .ok found

/-- What a region has become after the points of a list: of each kind it keeps its own point, or
else has the first one. -/
structure Learned (r : Region) (holds : Valuation → Except CheckError Bool) (done : List Valuation)
    (s : Region) : Prop where
  box_eq : s.box = r.box
  witness_eq : ∀ found, s.witness found = (r.witness found).or (first holds done found)
  undecided : s.Undecided

theorem toOption_beq_some_iff {x : Except CheckError Bool} :
    (x.toOption == some found) = true ↔ x = .ok found := by
  rw [beq_iff_eq]
  cases x with
  | error e => simp [Except.toOption]
  | ok b => simp [Except.toOption]

theorem isSome_first_iff :
    (first holds done found).isSome = true ↔ ∃ q ∈ done, holds q = .ok found := by
  simp only [first, List.find?_isSome, toOption_beq_some_iff]

theorem decided_append_singleton :
    Decided holds (done ++ [q]) ↔ Decided holds done ∧ ∃ found, holds q = .ok found := by
  simp [Decided, or_imp, forall_and]

theorem Completes.of_prefix (h : r.Completes holds done) (hinitial : done <+: points)
    (hpoints : Decided holds points) : r.Completes holds points := by
  refine ⟨hpoints, fun found => (h.known found).imp_right ?_⟩
  rintro ⟨q, hq, hfound⟩
  exact ⟨q, hinitial.subset hq, hfound⟩

/-- Points that are all decided come before a failure. -/
theorem prefix_of_decided {later : List Valuation} {e : CheckError} (hdone : Decided holds done)
    (hinitial : done <+: points ++ q :: later) (hq : holds q = .error e) : done <+: points := by
  rcases List.prefix_or_prefix_of_prefix hinitial (List.prefix_append points _) with h | ⟨more, rfl⟩
  · exact h
  · cases more with
    | nil => rw [List.append_nil]
    | cons p more =>
        have hrest := (List.prefix_append_right_inj points).mp hinitial
        obtain ⟨rfl, -⟩ := List.cons_prefix_cons.mp hrest
        obtain ⟨found, hfound⟩ := hdone p (by simp)
        cases hq.symm.trans hfound

theorem Learned.nil (holds : Valuation → Except CheckError Bool) (h : r.Undecided) :
    r.Learned holds [] r where
  box_eq := rfl
  witness_eq found := by simp [first]
  undecided := h

/-- Recording a point gives its kind a point if it had none. -/
theorem witness_record (s : Region) (found kind : Bool) (q : Valuation) :
    (s.record found q).witness kind =
      (s.witness kind).or (if kind = found then some q else none) := by
  cases found with
  | true => cases h : s.satPoint <;> cases kind <;> simp [witness, record, recordSat, h]
  | false => cases h : s.violatedPoint <;> cases kind <;> simp [witness, record, recordViolated, h]

theorem Learned.record (h : r.Learned holds done s) (hq : holds q = .ok found) :
    r.Learned holds (done ++ [q]) (s.record found q) where
  box_eq := (box_record s found q).trans h.box_eq
  witness_eq kind := by
    have hlast : first holds [q] kind = if kind = found then some q else none := by
      by_cases hkind : kind = found
      · simp [first, hq, hkind, Except.toOption]
      · simp [first, hq, hkind, Except.toOption, Ne.symm hkind]
    rw [witness_record, h.witness_eq, ← hlast, Option.or_assoc, first, first, first,
      ← List.find?_append]
  undecided := (h.undecided.record found q).1

/-- The verdict tells that both kinds are known. -/
theorem Learned.hasBoth_iff (h : r.Learned holds done s) (hdone : Decided holds done) :
    s.hasBoth = true ↔ r.Completes holds done := by
  have hknown : ∀ found, (s.witness found).isSome = true ↔
      (r.witness found).isSome = true ∨ ∃ q ∈ done, holds q = .ok found := by
    intro found
    rw [h.witness_eq, Option.isSome_or, Bool.or_eq_true, isSome_first_iff]
  rw [hasBoth, decide_eq_true_eq, h.undecided]
  refine (Verdict.ofPoints_eq_iff _ _ true true).trans ⟨fun hboth => ⟨hdone, ?_⟩, fun hboth => ?_⟩
  · rintro (_ | _)
    · exact (hknown false).mp hboth.2
    · exact (hknown true).mp hboth.1
  · exact ⟨(hknown true).mpr (hboth.known true), (hknown false).mpr (hboth.known false)⟩

/-! ## Runs -/

/-- As long as no point fails and not both kinds are known, sampling goes on from what it has
learned; later points and their outcomes play no part. -/
theorem Unsettled.sample_append (hr : r.Unsettled) (hdone : Decided holds done)
    (hopen : ¬r.Completes holds done) :
    ∃ s, r.Learned holds done s ∧ ∀ (holds' : Valuation → Except CheckError Bool) later,
      (∀ q ∈ done, holds' q = holds q) →
        r.sample holds' (done ++ later) = s.sample holds' later := by
  induction done using List.reverseRecOn with
  | nil => exact ⟨r, .nil _ hr.undecided, fun _ _ _ => rfl⟩
  | append_singleton done q ih =>
      obtain ⟨hbefore, found, hq⟩ := decided_append_singleton.mp hdone
      obtain ⟨s, hs, hsample⟩ := ih hbefore fun h =>
        hopen (h.of_prefix (List.prefix_append _ _) hdone)
      have hnext := hs.record hq
      refine ⟨_, hnext, fun holds' later hagree => ?_⟩
      rw [List.append_assoc, hsample holds' _ fun p hp => hagree p (List.mem_append_left _ hp)]
      have hboth : (s.record found q).hasBoth = false := by
        rw [Bool.eq_false_iff, Ne, hnext.hasBoth_iff hdone]
        exact hopen
      simp [Region.sample, hagree q (by simp), hq, hboth]

/-- Sampling ends when both kinds are known, fails, or comes to the end of the points.  Which one is
told by the outcomes at the points. -/
theorem outcome_cases (r : Region) (holds : Valuation → Except CheckError Bool)
    (points : List Valuation) :
    (Decided holds points ∧ ¬r.Completes holds points) ∨
    (∃ done q later e, points = done ++ q :: later ∧ Decided holds done ∧
      ¬r.Completes holds done ∧ holds q = .error e) ∨
    ∃ done, done <+: points ∧ r.Completes holds done ∧
      ∀ earlier, earlier <+: done → r.Completes holds earlier → earlier = done := by
  induction points using List.reverseRecOn with
  | nil =>
      have hdecided : Decided holds [] := by simp [Decided]
      by_cases h : r.Completes holds []
      · exact .inr (.inr ⟨[], List.prefix_rfl, h, fun _ hearlier _ => List.prefix_nil.mp hearlier⟩)
      · exact .inl ⟨hdecided, h⟩
  | append_singleton points q ih =>
      rcases ih with ⟨hdecided, hopen⟩ | ⟨done, p, later, e, rfl, hrest⟩ | ⟨done, hdone, hrest⟩
      · rcases hq : holds q with e | found
        · exact .inr (.inl ⟨points, q, [], e, rfl, hdecided, hopen, hq⟩)
        · have hnext : Decided holds (points ++ [q]) :=
            decided_append_singleton.mpr ⟨hdecided, found, hq⟩
          by_cases h : r.Completes holds (points ++ [q])
          · refine .inr (.inr ⟨_, List.prefix_rfl, h, fun earlier hearlier hcompletes => ?_⟩)
            refine (List.prefix_concat_iff.mp hearlier).resolve_right fun hbefore => ?_
            exact hopen (hcompletes.of_prefix hbefore hdecided)
          · exact .inl ⟨hnext, h⟩
      · exact .inr (.inl ⟨done, p, later ++ [q], e, by simp, hrest⟩)
      · exact .inr (.inr ⟨done, hdone.trans (List.prefix_append _ _), hrest⟩)

/-- The result of sampling some points. -/
structure FindsFirst (r : Region) (holds : Valuation → Except CheckError Bool)
    (points : List Valuation) (result : Region × Except CheckError Bool) : Prop where
  /-- The answer is yes exactly if both kinds are known after some points without failure. -/
  true_iff : result.2 = .ok true ↔ ∃ done, done <+: points ∧ r.Completes holds done
  /-- At the first moment at which both kinds are known the region has the first points so far, and
  neither the later points nor their outcomes play a part. -/
  completes : ∀ done, done <+: points → r.Completes holds done →
    (∀ earlier, earlier <+: done → r.Completes holds earlier → earlier = done) →
      r.Learned holds done result.1 ∧ ∀ (holds' : Valuation → Except CheckError Bool) later,
        (∀ q ∈ done, holds' q = holds q) → r.sample holds' (done ++ later) = result
  /-- A failure before that is returned, and the region has the first points before it. -/
  fails : ∀ done q later e, points = done ++ q :: later → Decided holds done →
    ¬r.Completes holds done → holds q = .error e →
      result.2 = .error e ∧ r.Learned holds done result.1
  /-- If there is neither, then the answer is no, and the region has the first points of all. -/
  exhausts : Decided holds points → ¬r.Completes holds points →
    result.2 = .ok false ∧ r.Learned holds points result.1

section FindsFirst

variable (hr : r.Unsettled)
include hr

theorem Unsettled.sample_completes (hdone : r.Completes holds done)
    (hfirst : ∀ earlier, earlier <+: done → r.Completes holds earlier → earlier = done) :
    ∃ s, r.Learned holds done s ∧ ∀ (holds' : Valuation → Except CheckError Bool) later,
      (∀ q ∈ done, holds' q = holds q) → r.sample holds' (done ++ later) = (s, .ok true) := by
  rcases done.eq_nil_or_concat' with rfl | ⟨before, q, rfl⟩
  · have hboth := (Learned.nil holds hr.undecided).hasBoth_iff hdone.decided
    exact absurd (hboth.mpr hdone) (Bool.eq_false_iff.mp hr.hasBoth_eq_false)
  · obtain ⟨hbefore, found, hq⟩ := decided_append_singleton.mp hdone.decided
    obtain ⟨s, hs, hsample⟩ := hr.sample_append hbefore fun h =>
      absurd (hfirst before (List.prefix_append _ _) h) (by simp)
    have hnext := hs.record hq
    refine ⟨_, hnext, fun holds' later hagree => ?_⟩
    rw [List.append_assoc, hsample holds' _ fun p hp => hagree p (List.mem_append_left _ hp)]
    simp [Region.sample, hagree q (by simp), hq, (hnext.hasBoth_iff hdone.decided).mpr hdone]

theorem Unsettled.sample_fails {e : CheckError} (hdone : Decided holds done)
    (hopen : ¬r.Completes holds done) (hq : holds q = .error e) (later : List Valuation) :
    ∃ s, r.Learned holds done s ∧ r.sample holds (done ++ q :: later) = (s, .error e) := by
  obtain ⟨s, hs, hsample⟩ := hr.sample_append hdone hopen
  refine ⟨s, hs, ?_⟩
  rw [hsample holds _ fun _ _ => rfl, Region.sample, hq]

theorem Unsettled.sample_exhausts (hpoints : Decided holds points)
    (hopen : ¬r.Completes holds points) :
    ∃ s, r.Learned holds points s ∧ r.sample holds points = (s, .ok false) := by
  obtain ⟨s, hs, hsample⟩ := hr.sample_append hpoints hopen
  refine ⟨s, hs, ?_⟩
  rw [← List.append_nil points, hsample holds _ fun _ _ => rfl]
  rfl

theorem Unsettled.findsFirst_sample (holds : Valuation → Except CheckError Bool)
    (points : List Valuation) :
    r.FindsFirst holds points (r.sample holds points) where
  true_iff := by
    constructor
    · intro htrue
      rcases outcome_cases r holds points with
        ⟨hpoints, hopen⟩ | ⟨done, q, later, e, rfl, hdone, hopen, hq⟩ | ⟨done, hinitial, hdone, -⟩
      · obtain ⟨s, -, hsample⟩ := hr.sample_exhausts hpoints hopen
        rw [hsample] at htrue
        cases htrue
      · obtain ⟨s, -, hsample⟩ := hr.sample_fails hdone hopen hq later
        rw [hsample] at htrue
        cases htrue
      · exact ⟨done, hinitial, hdone⟩
    · rintro ⟨done, hinitial, hdone⟩
      rcases outcome_cases r holds points with
        ⟨hpoints, hopen⟩ | ⟨before, q, later, e, rfl, hbefore, hopen, hq⟩ |
        ⟨before, ⟨later, rfl⟩, hbefore, hfirst⟩
      · exact absurd (hdone.of_prefix hinitial hpoints) hopen
      · have hearlier := prefix_of_decided hdone.decided hinitial hq
        exact absurd (hdone.of_prefix hearlier hbefore) hopen
      · obtain ⟨s, -, hsample⟩ := hr.sample_completes hbefore hfirst
        rw [hsample holds later fun _ _ => rfl]
  completes := by
    rintro done ⟨later, rfl⟩ hdone hfirst
    obtain ⟨s, hs, hsample⟩ := hr.sample_completes hdone hfirst
    rw [hsample holds later fun _ _ => rfl]
    exact ⟨hs, hsample⟩
  fails := by
    rintro done q later e rfl hdone hopen hq
    obtain ⟨s, hs, hsample⟩ := hr.sample_fails hdone hopen hq _
    rw [hsample]
    exact ⟨rfl, hs⟩
  exhausts := by
    intro hpoints hopen
    obtain ⟨s, hs, hsample⟩ := hr.sample_exhausts hpoints hopen
    rw [hsample]
    exact ⟨rfl, hs⟩

end FindsFirst

end Region

namespace Sampler

variable {α : Type} [Scalar α]

/-- Sampling finds the first points of each kind, among the corners of a box and then its midpoint.
If the corners are too many to be listed, nothing is learned. -/
theorem samplePoints_findsFirst (s : Sampler α) (p : Property) (viaFunction : Bool) {r : Region}
    (hr : r.Coherent) (hopen : r.verdict.isTerminal = false) :
    (∀ vertices, r.box.allVertices = .ok vertices →
      r.FindsFirst (s.holdsAt p viaFunction) (vertices ++ [r.box.midpoint])
        (s.samplePoints p viaFunction r)) ∧
    ∀ e, r.box.allVertices = .error e →
      s.samplePoints p viaFunction r = (r, .error (.region e)) := by
  have hunsettled := hr.unsettled hopen
  refine ⟨fun vertices hvertices => ?_, fun e he => ?_⟩
  · rw [samplePoints, Box.samplePoints, hvertices]
    exact hunsettled.findsFirst_sample _ _
  · rw [samplePoints, Box.samplePoints, he]
    rfl

/-- The chance of a win. -/
def luck : Parameter := ⟨"luck", by decide⟩

/-- A game that is won with this chance. -/
def luckModel : SimplifiedModel where
  states := [0]
  system := { rows := #[[]], oneStep := #[.ofParameter luck] }
  initial := 0
  parameters := [luck]
  linear := .ok true
  constant? := none

/-- The game is won in at least half of all cases. -/
def likely : Property where
  formula := .reaching (.label "win") ⟨.greaterEqual, 1 / 2⟩
  bound := ⟨.greaterEqual, 1 / 2⟩
  targets := [1]
  model := luckModel
  reachFunction := Thunk.mk fun _ => luckModel.closedForm none
  cached := .notComputed

/-- A value of the chance. -/
def luckAt (x : Rat) : Valuation := .ofList [(luck, x)]

/-- Chances from a quarter on, with a point that satisfies a property. -/
def someLuck : Region :=
  (Region.fresh ⟨.ofList [(luck, ⟨1 / 4, 1, by decide +kernel⟩)], by decide⟩).recordSat
    (luckAt (2 / 3))

/-- A likely win is known at two thirds, so the first corner, where a win is not likely, is the only
point that is looked at: had the other points failed, the result would be the same. -/
theorem samplePoints_findsFirst_luck :
    let s : Sampler Rat := ofModel luckModel ⟨1 / 100, 10⟩ 0
    let failing : Valuation → Except CheckError Bool := fun q =>
      if q = luckAt (1 / 4) then .ok false else .error (.unknownLabel "win")
    (someLuck.Coherent ∧ someLuck.verdict.isTerminal = false ∧
      someLuck.box.allVertices = .ok [luckAt (1 / 4), luckAt 1] ∧
      s.holdsAt likely true (luckAt (1 / 4)) = .ok false) ∧
    (s.samplePoints likely true someLuck).2 = .ok true ∧
    (s.samplePoints likely true someLuck).1.witness true = some (luckAt (2 / 3)) ∧
    (s.samplePoints likely true someLuck).1.witness false = some (luckAt (1 / 4)) ∧
    someLuck.sample failing [luckAt (1 / 4), luckAt 1, luckAt (5 / 8)] =
      s.samplePoints likely true someLuck := by
  intro s failing
  have hcoherent : someLuck.Coherent := .undecided rfl
  have hvertices : someLuck.box.allVertices = .ok [luckAt (1 / 4), luckAt 1] := by decide +kernel
  have hfirst : s.holdsAt likely true (luckAt (1 / 4)) = .ok false := by decide +kernel
  have hresult := (samplePoints_findsFirst s likely true hcoherent rfl).1 _ hvertices
  have hinitial : [luckAt (1 / 4)] <+: [luckAt (1 / 4), luckAt 1] ++ [someLuck.box.midpoint] :=
    ⟨[luckAt 1, someLuck.box.midpoint], rfl⟩
  have hcompletes : someLuck.Completes (s.holdsAt likely true) [luckAt (1 / 4)] := by
    refine ⟨List.forall_mem_singleton.mpr ⟨false, hfirst⟩, ?_⟩
    rintro (_ | _)
    · exact Or.inr ⟨_, List.mem_singleton_self _, hfirst⟩
    · exact Or.inl rfl
  have hopen : ¬someLuck.Completes (s.holdsAt likely true) [] := by
    intro h
    rcases h.known false with hknown | ⟨q, hq, -⟩
    · cases hknown
    · cases hq
  obtain ⟨hlearned, hsample⟩ := hresult.completes _ hinitial hcompletes fun earlier hearlier h =>
    (List.prefix_concat_iff.mp hearlier).resolve_right fun hnil =>
      hopen (List.prefix_nil.mp hnil ▸ h)
  have hviolated : Region.first (s.holdsAt likely true) [luckAt (1 / 4)] false =
      some (luckAt (1 / 4)) := by
    refine List.find?_cons_of_pos ?_
    rw [hfirst]
    rfl
  refine ⟨⟨hcoherent, rfl, hvertices, hfirst⟩, hresult.true_iff.mpr ⟨_, hinitial, hcompletes⟩,
    hlearned.witness_eq true, (hlearned.witness_eq false).trans ?_, hsample failing _ ?_⟩
  · rw [hviolated]
    rfl
  · exact List.forall_mem_singleton.mpr ((if_pos rfl).trans hfirst.symm)

end Sampler

end MarkovRegion
