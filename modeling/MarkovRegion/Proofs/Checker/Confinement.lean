import MarkovRegion.Proofs.Checker.Outcome
import MarkovRegion.Proofs.Region.Growth

/-!
# What a check keeps, and how it fails

A tier does not change the box of a region, keeps its sessions, and fails with the errors of its
steps.  `Inspection.Confines` says so of one step: what is good about the sessions and the world
stays, and all errors belong to a class `F`.

What starting a session, asking a query and looking at points keep, and the errors with which they
fail, a whole check keeps and fails with (`Inspection.escalate_confined`).  Nothing is assumed of
solvers.
-/

namespace MarkovRegion

open Attempt

/-! ## Boxes -/

namespace Prepared

variable {options : Options} {p : Prepared} (r : Region)

theorem box_byConstantResult : (p.byConstantResult r).1.box = r.box := by
  unfold byConstantResult
  split
  · rfl
  · split
    · next hconclude => exact Region.box_conclude hconclude
    · rfl

theorem box_bySampling : (p.bySampling options r).1.box = r.box := by
  unfold bySampling Sampler.samplePoints
  split
  · split
    · rfl
    · exact r.box_sample _ _
  · rfl

theorem box_byApproximation : (p.byApproximation options r).1.box = r.box := by
  unfold byApproximation
  split
  · rfl
  · next a _ =>
      split
      · next o s hcheck =>
          obtain ⟨process, -, hdecide⟩ := bind_eq_ok_iff.mp hcheck
          have hcases := Approximator.pursue_cases p.property.bound (a.solve process)
            r.verdict.goals ⟨none, none, false⟩ r
          rw [← Approximator.decideWith, Except.ok.inj hdecide] at hcases
          rcases hcases with rfl | ⟨-, goal, hconclude⟩
          · rfl
          · exact Region.box_conclude hconclude
      · rfl

theorem box_byAnswer (goal : Goal) (answer : Smt.QueryAnswer) :
    (p.byAnswer options goal r answer).1.box = r.box := by
  cases answer with
  | proven =>
      rw [byAnswer]
      split
      · next hconclude => exact Region.box_conclude hconclude
      · rfl
  | counterexample point =>
      have hsample := r.box_sample (p.holdsAt options) [point]
      rw [byAnswer, atPoint]
      split
      · next heq =>
          rw [heq] at hsample
          exact hsample
      · exact hsample
  | inconclusive reason => rfl

end Prepared

/-! ## Tiers -/

namespace Inspection

variable {σ ω : Type} {Good : Smt.SessionKind → Smt.Session σ → Prop} {W : ω → Prop}
  {F : CheckError → Prop} {options : Options} {p : Prepared} {f : Smt.SolverFactory σ ω}
  {worker : Nat} {b : Box}

/-- A step that keeps the sessions good and the box, and fails only with some errors. -/
def Confines (Good : Smt.SessionKind → Smt.Session σ → Prop) (W : ω → Prop)
    (F : CheckError → Prop) (b : Box) {α : Type} (x : Attempt CheckError (Inspection σ ω) α) :
    Prop :=
  Meets (Idle Good W fun r => r.box = b) x (fun _ => Idle Good W fun r => r.box = b)
    fun e i => Idle Good W (fun r => r.box = b) i ∧ F e

theorem confines_pure {α : Type} (a : α) :
    Confines Good W F b (pure a : Attempt CheckError (Inspection σ ω) α) :=
  Meets.pure fun _ hi => hi

theorem onRegion_confined {α : Type} {learn : Region → Region × Except CheckError α}
    {R : Region → Prop} (hR : ∀ r, R r → r.box = b) (hbox : ∀ r, (learn r).1.box = r.box)
    (hfails : ∀ r e, R r → (learn r).2 = .error e → F e) :
    Meets (Idle Good W R) (onRegion learn : Attempt CheckError (Inspection σ ω) α)
      (fun _ => Idle Good W fun r => r.box = b)
      fun e i => Idle Good W (fun r => r.box = b) i ∧ F e := by
  intro i hi
  have hidle : Idle Good W (fun r => r.box = b) { i with region := (learn i.region).1 } :=
    ⟨(hbox i.region).trans (hR _ hi.region), hi.sessions, hi.world⟩
  rw [run_onRegion]
  rcases hlearn : (learn i.region).2 with e | a
  · exact ⟨hidle, hfails i.region e hi.region hlearn⟩
  · exact hidle

theorem confines_firstSettled {attempts : List (Tier × Attempt CheckError (Inspection σ ω) Bool)}
    (h : ∀ attempt ∈ attempts, Confines Good W F b attempt.2) :
    Confines Good W F b (firstSettled attempts) := by
  induction attempts with
  | nil => exact confines_pure none
  | cons attempt rest ih =>
      refine Meets.bind (h attempt List.mem_cons_self) fun settled => ?_
      cases settled with
      | true => exact confines_pure (some attempt.1)
      | false => exact ih fun attempt' ha => h attempt' (List.mem_cons_of_mem _ ha)

section Queries

variable {Q : Smt.QueryAnswer → Prop}
  (hstart : ∀ kind, Meets W (startSession options p f worker kind)
    (fun session world => Good kind session ∧ W world) fun e world => W world ∧ F e)
  (hquery : ∀ kind goal, Meets (fun s => Good kind s.1 ∧ W s.2)
    (Smt.Session.query f b p.property.bound goal)
    (fun answer s => (Good kind s.1 ∧ W s.2) ∧ Q answer)
    fun e s => (Good kind s.1 ∧ W s.2) ∧ F e)
  (hmidpoint : ∀ r e, r.box = b → (p.atPoint options b.midpoint r).2 = .error e → F e)
  (hanswer : ∀ goal answer, Q answer → ∀ r e, r.box = b →
    (p.byAnswer options goal r answer).2 = .error e → F e)

include hquery hanswer in
theorem confines_ask {kind : Smt.SessionKind} {session : Smt.Session σ}
    (hsession : Good kind session) :
    Confines Good W F b (do match (← get).region.verdict with
      | .existsSat => settle options p .allSat (← query p f kind session .allSat)
      | .existsViolated => settle options p .allViolated (← query p f kind session .allViolated)
      | _ => return true) := by
  have hask : ∀ goal, Confines Good W F b
      (do settle options p goal (← query p f kind session goal)) := by
    intro goal
    refine Meets.bind (query_meets hsession (fun _ hr => hr) (hquery kind goal)) fun answer => ?_
    refine Meets.of_fact fun hQ => ?_
    rw [settle_eq]
    exact onRegion_confined (fun _ hr => hr) (fun r => Prepared.box_byAnswer r goal answer)
      (hanswer goal answer hQ)
  refine Meets.bind_get fun i hi => ?_
  split
  · exact (hask .allSat).startingAt hi
  · exact (hask .allViolated).startingAt hi
  · exact (confines_pure true).startingAt hi

include hstart hquery hmidpoint hanswer

theorem confines_bySolver (kind : Smt.SessionKind) :
    Confines Good W F b (bySolver options p f worker kind) := by
  refine Meets.bind (session_meets (hstart kind)) fun session => ?_
  refine Meets.of_fact fun hgood => ?_
  refine Meets.bind_get fun i hi => ?_
  -- Both branches go on with the same query, so it is met first.
  have hask := confines_ask hquery hanswer hgood
  dsimp only
  split
  · have hpoint : Confines Good W F b
        (decidePoint options p i.region.box.midpoint : Attempt CheckError (Inspection σ ω) Bool) :=
      onRegion_confined (fun _ hr => hr) (fun r => r.box_sample _ _) fun r e hr =>
        hi.region ▸ hmidpoint r e hr
    exact Meets.bind (hpoint.startingAt hi) fun _ => hask
  · exact hask.startingAt hi

/-- A check keeps what its steps keep, and fails with their errors.  The first tier may rely on more
than the box of the region. -/
theorem escalate_confined {R : Region → Prop} (hR : ∀ r, R r → r.box = b)
    (hconstant : ∀ r e, R r → (p.byConstantResult r).2 = .error e → F e)
    (hsampling : ∀ r e, r.box = b → (p.bySampling options r).2 = .error e → F e)
    (happroximation : ∀ r e, r.box = b → (p.byApproximation options r).2 = .error e → F e) :
    Meets (Idle Good W R) (escalate options p f worker) (fun _ => Idle Good W fun r => r.box = b)
      fun e i => Idle Good W (fun r => r.box = b) i ∧ F e := by
  have hfirst : Meets (Idle Good W R)
      (byConstantResult p : Attempt CheckError (Inspection σ ω) Bool)
      (fun _ => Idle Good W fun r => r.box = b)
      fun e i => Idle Good W (fun r => r.box = b) i ∧ F e :=
    byConstantResult_eq ▸ onRegion_confined hR Prepared.box_byConstantResult hconstant
  have hsolver : ∀ (wanted : Bool) kind, Confines Good W F b
      (if wanted then bySolver options p f worker kind else return false) := by
    intro wanted kind
    cases wanted with
    | true => exact confines_bySolver hstart hquery hmidpoint hanswer kind
    | false => exact confines_pure false
  have hothers : ∀ attempt ∈ (tiers options p f worker).tail, Confines Good W F b attempt.2 := by
    simp only [tiers, List.tail_cons, List.forall_mem_cons, List.not_mem_nil, false_imp_iff,
      implies_true, and_true]
    refine ⟨?_, ?_, hsolver options.subsystemSmt .subsystem, hsolver options.fullSmt .full⟩
    · exact bySampling_eq ▸ onRegion_confined (fun _ hr => hr) Prepared.box_bySampling hsampling
    · exact byApproximation_eq ▸
        onRegion_confined (fun _ hr => hr) Prepared.box_byApproximation happroximation
  refine Meets.bind_get fun i hi => ?_
  split
  · exact Meets.pure fun j hj => hj ▸ ⟨hR _ hi.region, hi.sessions, hi.world⟩
  · refine Meets.bind (hfirst.startingAt hi) fun settled => ?_
    cases settled with
    | true => exact confines_pure (some Tier.constantResult)
    | false => exact confines_firstSettled hothers

end Queries

end Inspection

end MarkovRegion
