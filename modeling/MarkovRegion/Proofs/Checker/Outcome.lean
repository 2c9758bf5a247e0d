import MarkovRegion.Proofs.Checker.Sessions

/-!
# A check as a function of the region

Suppose that solvers do not fail and that their replies are a function of the active assertions and
of the variables whose values are asked for (`SolverFactory.Functional`).  Then every tier does to a
region what a function says, whichever sessions are open before, by whichever worker and in
whichever world (`Inspection.Performs`).  So a check is a function of the region,
`Prepared.outcome` (`Inspection.performs_escalate`).
-/

namespace MarkovRegion

open Attempt

/-! ## Replies that are a function -/

namespace Smt

variable {σ ω : Type}

/-- The replies of a solver as a function of the active assertions and the variables asked for. -/
abbrev ReplyFunction := List Term → List (String × ValueSort) → SatResult × Option Model

/-- Solvers that do not fail and reply by a function. -/
def SolverFactory.Functional (f : SolverFactory σ ω) (Tracks : σ → List (List Term) → Prop)
    (reply : ReplyFunction) : Prop :=
  f.Reliable Tracks fun active asked answer => answer = reply active asked

/-- The answer to a query. -/
def Encoding.answer (reply : ReplyFunction) (e : Encoding) (b : Box) (bound : Bound) (goal : Goal) :
    Except CheckError QueryAnswer := do
  let terms ← liftRegion (e.boxTerms b)
  return interpret e b (reply (e.active terms bound goal) e.asked)

theorem Encoding.Answers.eq_answer {reply : ReplyFunction} {e : Encoding} {b : Box} {bound : Bound}
    {goal : Goal} {outcome : Except CheckError QueryAnswer}
    (h : e.Answers (fun active asked answer => answer = reply active asked) b bound goal outcome) :
    e.answer reply b bound goal = outcome := by
  cases outcome with
  | error failure =>
      have hfails : liftRegion (e.boxTerms b) = .error failure := h
      rw [answer, hfails]
      rfl
  | ok a =>
      obtain ⟨terms, _, hterms, rfl, rfl⟩ := h
      rw [answer, hterms]
      rfl

end Smt

/-! ## Tiers as functions -/

namespace Prepared

section Tiers

variable (reply : Smt.ReplyFunction) (options : Options) (p : Prepared)

/-- What is learned at a point. -/
def atPoint (point : Valuation) (r : Region) : Region × Except CheckError Bool :=
  r.sample (p.holdsAt options) [point]

/-- What a constant probability tells. -/
def byConstantResult (r : Region) : Region × Except CheckError Bool :=
  match p.property.model.constant? with
  | none => (r, .ok false)
  | some value =>
    match r.conclude (if p.property.bound.holds value then .allSat else .allViolated) with
    | .ok s => (s, .ok true)
    | .error e => (r, .error (.region e))

/-- What the corners and the midpoint tell. -/
def bySampling (r : Region) : Region × Except CheckError Bool :=
  if options.sampling then p.sampler.samplePoints p.property options.sampleViaFunction r
  else (r, .ok false)

/-- What the bounding process tells. -/
def byApproximation (r : Region) : Region × Except CheckError Bool :=
  match if options.approximation then p.approximator else none with
  | none => (r, .ok false)
  | some a =>
    match a.check p.property.bound r with
    | .ok (outcome, s) => (s, .ok outcome.proven)
    | .error e => (r, .error e)

/-- What an answer to a query tells. -/
def byAnswer (goal : Goal) (r : Region) : Smt.QueryAnswer → Region × Except CheckError Bool
  | .proven =>
    match r.conclude goal.verdict with
    | .ok s => (s, .ok true)
    | .error _ => (r, .ok false)
  | .counterexample point =>
    match p.atPoint options point r with
    | (s, .error (.illDefinedPoint ..)) => (s, .ok false)
    | found => found
  | .inconclusive _ => (r, .ok false)

/-- What a query for a goal tells. -/
def byQuery (kind : Smt.SessionKind) (goal : Goal) (r : Region) :
    Region × Except CheckError Bool :=
  match (p.encoding options kind).answer reply r.box p.property.bound goal with
  | .ok answer => p.byAnswer options goal r answer
  | .error e => (r, .error e)

/-- What the query tells that is chosen by the verdict so far. -/
def byOpenGoal (kind : Smt.SessionKind) (r : Region) : Region × Except CheckError Bool :=
  match r.verdict with
  | .existsSat => p.byQuery reply options kind .allSat r
  | .existsViolated => p.byQuery reply options kind .allViolated r
  | _ => (r, .ok true)

/-- What a solver tells. -/
def bySolver (kind : Smt.SessionKind) (r : Region) : Region × Except CheckError Bool :=
  if r.verdict = .unknown then
    match p.atPoint options r.box.midpoint r with
    | (s, .ok _) => p.byOpenGoal reply options kind s
    | (s, .error e) => (s, .error e)
  else p.byOpenGoal reply options kind r

/-- The tiers in the order of their cost. -/
def tiers : List (Tier × (Region → Region × Except CheckError Bool)) :=
  [(.constantResult, p.byConstantResult),
    (.sampling, p.bySampling options),
    (.approximation, p.byApproximation options),
    (.subsystemSmt,
      if options.subsystemSmt then p.bySolver reply options .subsystem else fun r => (r, .ok false)),
    (.fullSmt,
      if options.fullSmt then p.bySolver reply options .full else fun r => (r, .ok false))]

end Tiers

/-- What the first tier tells that settles the region, and those before it. -/
def firstSettled : List (Tier × (Region → Region × Except CheckError Bool)) → Region →
    Region × Except CheckError (Option Tier)
  | [], r => (r, .ok none)
  | (tier, learn) :: rest, r =>
    match learn r with
    | (s, .error e) => (s, .error e)
    | (s, .ok true) => (s, .ok (some tier))
    | (s, .ok false) => firstSettled rest s

/-- What becomes of a region by a check, and the tier that settles it. -/
def outcome (reply : Smt.ReplyFunction) (options : Options) (p : Prepared) (r : Region) :
    Region × Except CheckError (Option Tier) :=
  if r.verdict.isTerminal then (r, .ok none) else firstSettled (p.tiers reply options) r

end Prepared

/-! ## Tiers perform their functions -/

namespace Inspection

variable {σ ω α : Type} {Tracks : σ → List (List Smt.Term) → Prop} {reply : Smt.ReplyFunction}
  {options : Options} {p : Prepared} {f : Smt.SolverFactory σ ω}

/-- If all sessions are open, then a step does to the region what a function says, and the sessions
stay open. -/
def Performs (Tracks : σ → List (List Smt.Term) → Prop) (options : Options) (p : Prepared)
    (x : Attempt CheckError (Inspection σ ω) α) (learn : Region → Region × Except CheckError α) :
    Prop :=
  ∀ r, Meets (Open Tracks options p fun s => s = r) x
    (fun a i => Open Tracks options p (fun s => s = (learn r).1) i ∧ (learn r).2 = .ok a)
    fun e i => Open Tracks options p (fun s => s = (learn r).1) i ∧ (learn r).2 = .error e

theorem run_onRegion (learn : Region → Region × Except CheckError α) (i : Inspection σ ω) :
    (onRegion learn : Attempt CheckError (Inspection σ ω) α).run i =
      ((learn i.region).2, { i with region := (learn i.region).1 }) := rfl

theorem performs_onRegion (learn : Region → Region × Except CheckError α) :
    Performs Tracks options p (onRegion learn : Attempt CheckError (Inspection σ ω) α) learn := by
  rintro r i hi
  obtain ⟨rfl, hsessions, hworld⟩ := hi
  rw [run_onRegion]
  rcases hlearn : (learn i.region).2 with e | a
  · exact ⟨⟨rfl, hsessions, hworld⟩, rfl⟩
  · exact ⟨⟨rfl, hsessions, hworld⟩, rfl⟩

/-! ### Tiers that touch the region alone -/

theorem run_concludes (verdict : Verdict) (i : Inspection σ ω) :
    (concludes verdict : Attempt RegionError (Inspection σ ω) Unit).run i =
      match i.region.conclude verdict with
      | .ok s => (.ok (), { i with region := s })
      | .error e => (.error e, i) := by
  have hrun : (concludes verdict : Attempt RegionError (Inspection σ ω) Unit).run i =
      ((Attempt.ofExcept (i.region.conclude verdict) : Attempt RegionError (Inspection σ ω) Region)
        >>= fun region => set { i with region }).run i := rfl
  rw [hrun, run_bind]
  rcases i.region.conclude verdict with e | s
  · rfl
  · rfl

theorem byConstantResult_eq : (byConstantResult p : Attempt CheckError (Inspection σ ω) Bool) =
    onRegion p.byConstantResult := by
  refine Attempt.ext fun i => ?_
  rw [run_onRegion]
  unfold byConstantResult Prepared.byConstantResult
  rcases p.property.model.constant? with _ | value
  · rfl
  · dsimp only
    rw [run_bind, run_mapError, run_concludes]
    rcases i.region.conclude _ with e | s
    · rfl
    · rfl

theorem bySampling_eq : (bySampling options p : Attempt CheckError (Inspection σ ω) Bool) =
    onRegion (p.bySampling options) := by
  unfold bySampling Prepared.bySampling
  split
  · rfl
  · rfl

theorem byApproximation_eq :
    (byApproximation options p : Attempt CheckError (Inspection σ ω) Bool) =
      onRegion (p.byApproximation options) := by
  unfold byApproximation Prepared.byApproximation
  rcases if options.approximation then p.approximator else none with _ | a
  · rfl
  · rfl

theorem settle_eq (goal : Goal) (answer : Smt.QueryAnswer) :
    (settle options p goal answer : Attempt CheckError (Inspection σ ω) Bool) =
      onRegion fun r => p.byAnswer options goal r answer := by
  refine Attempt.ext fun i => ?_
  rw [run_onRegion]
  cases answer with
  | proven =>
      rw [settle, run_bind, run_outcome, run_concludes, Prepared.byAnswer]
      rcases i.region.conclude goal.verdict with e | s
      · rfl
      · rfl
  | counterexample point =>
      have hpoint : (decidePoint options p point : Attempt CheckError (Inspection σ ω) Bool) =
          onRegion (p.atPoint options point) := rfl
      rw [settle, run_bind, run_outcome, hpoint, run_onRegion, Prepared.byAnswer]
      rcases p.atPoint options point i.region with ⟨s, e | both⟩
      · cases e <;> rfl
      · rfl
  | inconclusive reason => rfl

/-! ### Solvers -/

section Solvers

variable (hf : f.Functional Tracks reply)
include hf

theorem performs_ask {kind : Smt.SessionKind} {session : Smt.Session σ}
    (hsession : session.Open Tracks (p.encoding options kind)) (goal : Goal) :
    Performs Tracks options p (do settle options p goal (← query p f kind session goal))
      (p.byQuery reply options kind goal) := by
  intro r
  have hquery := query_opens (P := fun s => s = r) hf hsession goal
    fun s hs => congrArg Region.box hs
  refine Meets.bind (hquery.weaken (fun _ hi => hi) (fun _ _ hi => hi) fun e i hi => ?_)
    fun answer => ?_
  · rw [Prepared.byQuery, hi.2.eq_answer]
    exact ⟨hi.1, rfl⟩
  · refine Meets.of_fact fun hanswer => ?_
    rw [Prepared.byQuery, hanswer.eq_answer, settle_eq]
    exact performs_onRegion (fun r => p.byAnswer options goal r answer) r

/-- What is proved is chosen by the verdict so far. -/
theorem performs_askByVerdict {kind : Smt.SessionKind} {session : Smt.Session σ}
    (hsession : session.Open Tracks (p.encoding options kind)) :
    Performs Tracks options p
      (do match (← get).region.verdict with
          | .existsSat => settle options p .allSat (← query p f kind session .allSat)
          | .existsViolated => settle options p .allViolated (← query p f kind session .allViolated)
          | _ => return true)
      (p.byOpenGoal reply options kind) := by
  intro r
  refine Meets.bind_get fun i hi => ?_
  rw [hi.region, Prepared.byOpenGoal]
  split
  · exact (performs_ask hf hsession .allSat r).startingAt hi
  · exact (performs_ask hf hsession .allViolated r).startingAt hi
  · exact Meets.pure fun j hj => hj ▸ ⟨hi, rfl⟩

theorem performs_bySolver (worker : Nat) (kind : Smt.SessionKind) :
    Performs Tracks options p (bySolver options p f worker kind)
      (p.bySolver reply options kind) := by
  intro r
  refine Meets.bind ((session_opens hf worker kind).weaken (fun _ hi => hi) (fun _ _ hi => hi)
    fun _ _ hfalse => hfalse.elim) fun session => ?_
  refine Meets.of_fact fun hsession => ?_
  refine Meets.bind_get fun i hi => ?_
  -- Both branches go on with the same query, so it is met first.
  have hquery := performs_askByVerdict hf hsession
  rw [hi.region, Prepared.bySolver]
  dsimp only
  split
  · have hpoint : Performs Tracks options p
        (decidePoint options p r.box.midpoint : Attempt CheckError (Inspection σ ω) Bool)
        (p.atPoint options r.box.midpoint) := performs_onRegion _
    refine Meets.bind (((hpoint r).startingAt hi).weaken (fun _ hj => hj) (fun _ _ hj => hj)
      fun e j hj => ?_) fun both => ?_
    · rcases hs : p.atPoint options r.box.midpoint r with ⟨s, outcome⟩
      rw [hs] at hj
      obtain ⟨hj, rfl⟩ := hj
      exact ⟨hj, rfl⟩
    · refine Meets.of_fact fun hboth => ?_
      rcases hs : p.atPoint options r.box.midpoint r with ⟨s, outcome⟩
      rw [hs] at hboth
      obtain rfl := hboth
      exact hquery s
  · exact (hquery r).startingAt hi

end Solvers

/-! ### All tiers -/

theorem performs_firstSettled
    {attempts : List (Tier × Attempt CheckError (Inspection σ ω) Bool)}
    {functions : List (Tier × (Region → Region × Except CheckError Bool))}
    (h : List.Forall₂ (fun attempt function => attempt.1 = function.1 ∧
      Performs Tracks options p attempt.2 function.2) attempts functions) :
    Performs Tracks options p (firstSettled attempts) (Prepared.firstSettled functions) := by
  induction h with
  | nil => exact fun r => Meets.pure fun i hi => ⟨hi, rfl⟩
  | @cons attempt function attempts functions hhead _ ih =>
      obtain ⟨htier, hperforms⟩ := hhead
      intro r
      refine Meets.bind ((hperforms r).weaken (fun _ hi => hi) (fun _ _ hi => hi)
        fun e i hi => ?_) fun settled => ?_
      · rw [Prepared.firstSettled]
        rcases hs : function.2 r with ⟨s, outcome⟩
        rw [hs] at hi
        obtain ⟨hi, rfl⟩ := hi
        exact ⟨hi, rfl⟩
      · refine Meets.of_fact fun hsettled => ?_
        rw [Prepared.firstSettled]
        rcases hs : function.2 r with ⟨s, outcome⟩
        rw [hs] at hsettled
        obtain rfl := hsettled
        cases settled with
        | true => exact Meets.pure fun i hi => ⟨hi, htier ▸ rfl⟩
        | false => exact ih s

/-- A check does to a region what a function says, whichever sessions are open. -/
theorem performs_escalate (hf : f.Functional Tracks reply) (worker : Nat) :
    Performs Tracks options p (escalate options p f worker) (p.outcome reply options) := by
  have hsolver : ∀ (wanted : Bool) kind, Performs Tracks options p
      (if wanted then bySolver options p f worker kind else return false)
      (if wanted then p.bySolver reply options kind else fun r => (r, .ok false)) := by
    intro wanted kind
    cases wanted with
    | true => exact performs_bySolver hf worker kind
    | false => exact performs_onRegion fun r => (r, .ok false)
  have htiers : Performs Tracks options p (firstSettled (tiers options p f worker))
      (Prepared.firstSettled (p.tiers reply options)) := by
    refine performs_firstSettled (.cons ⟨rfl, ?_⟩ (.cons ⟨rfl, ?_⟩ (.cons ⟨rfl, ?_⟩
      (.cons ⟨rfl, hsolver _ .subsystem⟩ (.cons ⟨rfl, hsolver _ .full⟩ .nil)))))
    · exact byConstantResult_eq ▸ performs_onRegion p.byConstantResult
    · exact bySampling_eq ▸ performs_onRegion (p.bySampling options)
    · exact byApproximation_eq ▸ performs_onRegion (p.byApproximation options)
  intro r
  refine Meets.bind_get fun i hi => ?_
  rw [hi.region, Prepared.outcome]
  split
  · exact Meets.pure fun j hj => hj ▸ ⟨hi, rfl⟩
  · exact (htiers r).startingAt hi

end Inspection

end MarkovRegion
