import MarkovRegion.Proofs.Checker.Confinement
import MarkovRegion.Proofs.Checker.Requests
import MarkovRegion.Proofs.Smt.Frames

/-!
# What a check sees of earlier ones

A checker keeps its sessions whatever the outcome of a query is.  If any call of a solver may fail,
then at every check the active assertions are those of the encoding, those of the current query, and
those of the queries whose frames could not be closed (`Checker.checks_carry_leftovers`).  So checks
of different regions are kept apart exactly as long as every frame of the session can be closed.

One frame that stays open is enough for a wrong verdict (`Checker.leftover_misleads`).

The proof follows the tiers: what starting a session and asking a query keep of sessions and of the
world, a check keeps (`Inspection.respects_escalate`).
-/

namespace MarkovRegion

open Attempt

/-! ## Tiers -/

namespace Inspection

variable {σ ω : Type} {Good : Smt.SessionKind → Smt.Session σ → Prop} {W : ω → Prop}
  {options : Options} {p : Prepared} {f : Smt.SolverFactory σ ω} {worker : Nat} {b : Box}

/-- A step that keeps the sessions good and the box. -/
def Respects (Good : Smt.SessionKind → Smt.Session σ → Prop) (W : ω → Prop) (b : Box) {α : Type}
    (x : Attempt CheckError (Inspection σ ω) α) : Prop :=
  Meets (Idle Good W fun r => r.box = b) x (fun _ => Idle Good W fun r => r.box = b)
    fun _ => Idle Good W fun r => r.box = b

/-- What starting a session and asking a query keep of sessions and of the world, a check keeps. -/
theorem respects_escalate
    (hstart : ∀ kind, Meets W (startSession options p f worker kind)
      (fun session world => Good kind session ∧ W world) fun _ world => W world)
    (hquery : ∀ kind goal, Meets (fun s => Good kind s.1 ∧ W s.2)
      (Smt.Session.query f b p.property.bound goal) (fun _ s => Good kind s.1 ∧ W s.2)
      fun _ s => Good kind s.1 ∧ W s.2) :
    Respects Good W b (escalate options p f worker) := by
  refine (escalate_confined (F := fun _ => True) (Q := fun _ => True) (fun kind => ?_)
    (fun kind goal => ?_) (fun _ _ _ _ => trivial) (fun _ _ _ _ _ _ _ => trivial) (fun _ hr => hr)
    (fun _ _ _ _ => trivial) (fun _ _ _ _ => trivial) fun _ _ _ _ => trivial).weaken
    (fun _ hi => hi) (fun _ _ hi => hi) fun _ _ hi => hi.1
  · exact (hstart kind).weaken (fun _ hw => hw) (fun _ _ hw => hw) fun _ _ hw => ⟨hw, trivial⟩
  · exact (hquery kind goal).weaken (fun _ hs => hs) (fun _ _ hs => ⟨hs, trivial⟩)
      fun _ _ hs => ⟨hs, trivial⟩

end Inspection

/-! ## Checkers -/

namespace Checker

variable {σ ω τ : Type} {t : Smt.Temper τ} {options : Options} {p : Prepared}

/-- Check regions one after the other, whether that succeeds or fails. -/
def checkEach (f : Smt.SolverFactory σ ω) (s : Checker σ × ω) (regions : List Region) :
    Checker σ × ω :=
  regions.foldl (fun s r => ((checkRegion f).run (r, s)).2.2) s

/-- The stack at a check of a query on a box. -/
def Asks (options : Options) (p : Prepared) (b : Box) (s : Smt.Stack) : Prop :=
  let e := p.encoding options s.kind
  ∃ goal terms, e.boxTerms b = .ok terms ∧ s.remark = goal.title ++ " on " ++ b.write ∧
    s.Carries [Smt.goalFails e p.property.bound goal :: terms.reverse] e.assertions.reverse

/-- A checker between two regions. -/
structure Tended (options : Options) (p : Prepared) (k : Checker Smt.Stack) : Prop where
  options_eq : k.options = options
  prepared_eq : k.prepared = some p
  sessions : k.sessions.All fun kind => Smt.Temper.AtRest kind (p.encoding options kind)

theorem respects_escalate_temper (b : Box) (old : List Smt.Stack) (worker : Nat) :
    Inspection.Respects (fun kind => Smt.Temper.AtRest kind (p.encoding options kind))
      (Smt.Temper.Notes (Asks options p b) old) b
      (Inspection.escalate options p t.factory worker) := by
  refine Inspection.respects_escalate (fun kind => ?_) fun kind goal => ?_
  · refine Meets.bind ((Smt.Temper.create_meets worker).mapError fun _ _ h => h) fun s => ?_
    exact fun bench hs => Smt.Temper.start_carries hs.1 _ bench hs.2
  · refine Smt.Temper.query_carries _ b p.property.bound goal
      fun s terms hkind hterms hremark h => ?_
    subst hkind
    exact ⟨goal, terms, hterms, hremark, h⟩

/-- What a check keeps of sessions and of the world, the checker keeps. -/
theorem checkRegion_kept {σ ω : Type} {f : Smt.SolverFactory σ ω}
    {Good : Smt.SessionKind → Smt.Session σ → Prop} {W : ω → Prop} {k : Checker σ} {r : Region}
    {world : ω} (h : Inspection.Respects Good W r.box (Inspection.escalate k.options p f 0))
    (hprepared : k.prepared = some p) (hsessions : k.sessions.All Good) (hworld : W world) :
    ∃ outcome region sessions statistics world',
      (checkRegion f).run (r, k, world) =
        (outcome, region, { k with sessions, statistics }, world') ∧
      sessions.All Good ∧ W world' := by
  have hrun := meets_iff_run.mp h ⟨r, k.sessions, world⟩ ⟨rfl, hsessions, hworld⟩
  unfold checkRegion
  simp only [ExceptT.run_mk]
  split
  · exact ⟨_, _, k.sessions, k.statistics, _, rfl, hsessions, hworld⟩
  · next p' haccepts =>
      obtain rfl : p = p' := Option.some.inj (hprepared.symm.trans (prepared_of_accepts haccepts).1)
      unfold Workplace.checkRegion
      simp only [ExceptT.run_mk]
      rcases hescalate : (Inspection.escalate k.options p f 0).run ⟨r, k.sessions, world⟩ with
        ⟨e | tier, i⟩
      · rw [hescalate] at hrun
        exact ⟨_, _, i.sessions, k.statistics, _, rfl, hrun.sessions, hrun.world⟩
      · rw [hescalate] at hrun
        exact ⟨_, _, i.sessions, _, _, rfl, hrun.sessions, hrun.world⟩

theorem tended_checkRegion {k : Checker Smt.Stack} (hk : k.Tended options p) (r : Region)
    (bench : Smt.Bench τ) :
    ((checkRegion t.factory).run (r, k, bench)).2.2.1.Tended options p ∧
      Smt.Temper.Notes (Asks options p r.box) bench.checks
        ((checkRegion t.factory).run (r, k, bench)).2.2.2 := by
  obtain ⟨rfl, hprepared, hopen⟩ := hk
  obtain ⟨outcome, region, sessions, statistics, bench', hrun, hsessions, hnotes⟩ :=
    checkRegion_kept (respects_escalate_temper (t := t) r.box bench.checks 0) hprepared hopen
      ⟨[], rfl, nofun⟩
  rw [hrun]
  exact ⟨⟨rfl, hprepared, hsessions⟩, hnotes⟩

theorem tended_checkEach {s : Checker Smt.Stack × Smt.Bench τ} (hs : s.1.Tended options p)
    (regions : List Region) : (checkEach t.factory s regions).1.Tended options p := by
  induction regions generalizing s with
  | nil => exact hs
  | cons r regions ih => exact ih (tended_checkRegion hs r s.2).1

/-- Solvers whose calls may fail.  Take a checker with a formula that has checked any regions, with
any outcomes, and let it check one more.  At every check of a solver the active assertions are those
of the query on this region and those of the encoding, with as many frames in between as the session
has failed to close.  After the region the sessions that are kept have as many frames above the
encoding.  So there is nothing else in a session exactly if it has closed all frames. -/
theorem checks_carry_leftovers (t : Smt.Temper τ) (c : ParametricChain) (options : Options)
    (p : Prepared) (statistics : Statistics) (bench : Smt.Bench τ) (before : List Region)
    (r : Region) :
    let s := checkEach t.factory (⟨c, options, some p, .empty, statistics⟩, bench) before
    let after := ((checkRegion t.factory).run (r, s)).2.2
    (∃ new, after.2.checks = new ++ s.2.checks ∧ ∀ stack ∈ new,
      let e := p.encoding options stack.kind
      ∃ goal terms, e.boxTerms r.box = .ok terms ∧
        stack.remark = goal.title ++ " on " ++ r.box.write ∧
        let query := Smt.goalFails e p.property.bound goal :: terms.reverse
        stack.Carries [query] e.assertions.reverse ∧
          (stack.frames = [query, e.assertions.reverse] ↔ stack.failedPops = 0)) ∧
    ∀ kind session, after.1.sessions.get? kind = some session →
      let base := (p.encoding options kind).assertions.reverse
      session.solver.Carries [] base ∧
        (session.solver.frames = [base] ↔ session.solver.failedPops = 0) := by
  intro s after
  have hnew : Tended options p ⟨c, options, some p, .empty, statistics⟩ :=
    ⟨rfl, rfl, Sessions.all_empty⟩
  have hs : s.1.Tended options p := tended_checkEach (s := (_, bench)) hnew before
  obtain ⟨hafter, new, hchecks, hnew⟩ := tended_checkRegion (t := t) hs r s.2
  refine ⟨⟨new, hchecks, fun stack hstack => ?_⟩, fun kind session hsession => ?_⟩
  · obtain ⟨goal, terms, hterms, hremark, hcarries⟩ := hnew stack hstack
    exact ⟨goal, terms, hterms, hremark, hcarries, hcarries.frames_eq_iff⟩
  · obtain ⟨-, -, hcarries⟩ := hafter.sessions kind session hsession
    exact ⟨hcarries, hcarries.frames_eq_iff⟩

/-! ## A frame that stays open -/

/-- A coin that shows heads with probability `b`. -/
def coinFile : ModelFile where
  states := 3
  initial := 0
  labels := [("heads", [1])]
  transitions := [⟨0, 1, "b"⟩, ⟨0, 2, "1-b"⟩, ⟨1, 1, "1"⟩, ⟨2, 2, "1"⟩]

/-- Heads are at least as likely as tails. -/
def coinFormula : StateFormula := .reaching (.label "heads") ⟨.greaterEqual, mkRat 1 2⟩

/-- The probability of heads. -/
def coinBias : Parameter := ⟨"b", by decide⟩

/-- The coins with a bias in an interval. -/
def coinBox (bias : Interval) : Box where
  sides := .ofList [(coinBias, bias)]
  nonempty := List.cons_ne_nil _ _

/-- The biases from three fifths to nine tenths. -/
def highBias : Interval := ⟨mkRat 3 5, mkRat 9 10, by decide⟩

/-- The biases up to eleven twentieths. -/
def lowBias : Interval := ⟨0, mkRat 11 20, by decide⟩

/-- The options with which only a solver is asked, about all equations. -/
def fullOnly (o : Options) : Options :=
  { o with
    sampling := false
    approximation := false
    subsystemSmt := false
    fullSmt := true
    sampleViaFunction := true
    eliminationSizeBound := none
    dump := none }

/-- A frame cannot be closed the first time, and no check has a solution. -/
def stubborn : Smt.Temper Bool where
  refuses _ _ mood := (none, mood)
  fails
    | .pop, _, false => (some "pop", true)
    | _, _, mood => (none, mood)
  answers _ _ mood := ((.unsat, none), mood)

/-- Check the high biases, then the low ones. -/
def checkCoins (o : Options) (c : ParametricChain) (p : Prepared) :
    Except CheckError Unit × Region × Checker Smt.Stack × Smt.Bench Bool :=
  (checkRegion stubborn.factory).run (.fresh (coinBox lowBias),
    checkEach stubborn.factory (⟨c, fullOnly o, some p, .empty, .zero⟩, ⟨false, []⟩)
      [.fresh (coinBox highBias)])

/-- Heads are at least as likely as tails, as a term. -/
def headsTerm : Smt.Term := .ge (.var "prob_0") (.real (mkRat 1 2))

/-- The frame of a query on the coins with a bias in an interval. -/
def coinQuery (counterexample : Smt.Term) (bias : Interval) : List Smt.Term :=
  [counterexample, .within (.var "par_b") (.real bias.lower) (.real bias.upper)]

/-- The frame of the encoding. -/
def coinBase : List Smt.Term :=
  [.eq (.var "prob_0") (.sum [.var "par_b"]), .within (.var "prob_0") (.int 0) (.int 1)]

/-- The stack at the check of the high biases. -/
def firstCheck : Smt.Stack where
  kind := .full
  frames := [coinQuery headsTerm.not highBias, coinBase]
  remark := "ProveAllSat on 0.6<=b<=0.9"
  failedPops := 0

/-- The stack at the check of the low biases. -/
def secondCheck : Smt.Stack where
  kind := .full
  frames := [coinQuery headsTerm lowBias, coinQuery headsTerm.not highBias, coinBase]
  remark := "ProveAllViolated on 0<=b<=0.55"
  failedPops := 1

section Terms

variable {a : String → ℚ}

theorem satisfies_frame {frames : List (List Smt.Term)} (h : Smt.Satisfies a frames.flatten)
    {frame : List Smt.Term} (hframe : frame ∈ frames) : Smt.Satisfies a frame :=
  fun t ht => h t (List.mem_flatten_of_mem hframe ht)

theorem bias_of_satisfies {goal : Smt.Term} {bias : Interval}
    (h : Smt.Satisfies a (coinQuery goal bias)) :
    bias.lower ≤ a "par_b" ∧ a "par_b" ≤ bias.upper := by
  have hholds := (Smt.Term.holds_within (Smt.Term.number?_var _) (Smt.Term.number?_real _)
    (Smt.Term.number?_real _)).mp (h _ (List.mem_cons_of_mem _ List.mem_cons_self))
  exact_mod_cast hholds

theorem heads_eq_of_satisfies (h : Smt.Satisfies a coinBase) : a "prob_0" = a "par_b" := by
  have hsum := Smt.Term.number?_sum (Smt.Term.numbers?_singleton
    (Smt.Term.number?_var (σ := fun name => (a name : ℝ)) "par_b"))
  have hholds := (Smt.Term.holds_eq (Smt.Term.number?_var _) hsum).mp (h _ List.mem_cons_self)
  simpa using hholds

theorem heads_lt_of_satisfies {bias : Interval}
    (h : Smt.Satisfies a (coinQuery headsTerm.not bias)) : a "prob_0" < mkRat 1 2 := by
  have htruth : (headsTerm.truth? fun name => a name) = some ((mkRat 1 2 : ℝ) ≤ a "prob_0") := by
    simp [headsTerm, Smt.Term.truth?]
  have hholds := (Smt.Term.holds_not htruth).mp (h _ List.mem_cons_self)
  exact_mod_cast not_le.mp hholds

/-- No coin with a high bias shows heads less often than tails. -/
theorem not_satisfies_firstCheck : ¬ Smt.Satisfies a firstCheck.frames.flatten := by
  intro h
  have hquery := satisfies_frame h List.mem_cons_self
  have hbase := satisfies_frame h (List.mem_cons_of_mem _ List.mem_cons_self)
  have hbias : mkRat 3 5 < mkRat 1 2 :=
    calc mkRat 3 5 ≤ a "par_b" := (bias_of_satisfies hquery).1
      _ = a "prob_0" := (heads_eq_of_satisfies hbase).symm
      _ < mkRat 1 2 := heads_lt_of_satisfies hquery
  exact absurd hbias (by decide)

/-- No bias is low and high. -/
theorem not_satisfies_secondCheck : ¬ Smt.Satisfies a secondCheck.frames.flatten := by
  intro h
  have hlow := satisfies_frame h List.mem_cons_self
  have hhigh := satisfies_frame h (List.mem_cons_of_mem _ List.mem_cons_self)
  have hbias : mkRat 3 5 ≤ mkRat 11 20 :=
    (bias_of_satisfies hhigh).1.trans (bias_of_satisfies hlow).2
  exact absurd hbias (by decide)

end Terms

/-- With only a solver and no other tier, two regions of coins are checked.  The frame of the first
one cannot be closed.  Then all coins of the second one are said to violate the formula, though the
one with the greatest bias satisfies it.  The solver is not to blame: every answer is right for the
assertions that were active, but the second time those of both regions were. -/
theorem leftover_misleads : ∃ c p, coinFile.toChain = .ok c ∧
    Prepared.build (fullOnly .usual) c coinFormula = .ok p ∧
    let (outcome, r, _, bench) := checkCoins .usual c p
    let heads : Valuation := .ofList [(coinBias, lowBias.upper)]
    outcome = .ok () ∧ r.verdict = .allViolated ∧
    r.box.contains heads = true ∧ p.holdsAt (fullOnly .usual) heads = .ok true ∧
    bench.checks = [secondCheck, firstCheck] ∧
    ∀ stack ∈ bench.checks, ¬ ∃ a, Smt.Satisfies a stack.frames.flatten := by
  -- The tolerances are not computed with, so they need not be evaluated.
  generalize Options.usual = o
  have hseen : coinFile.toChain.toOption.map (fun c =>
      (Prepared.build (fullOnly o) c coinFormula).toOption.map fun p =>
        let (outcome, r, _, bench) := checkCoins o c p
        let heads : Valuation := .ofList [(coinBias, lowBias.upper)]
        (outcome, r.verdict, r.box.contains heads, p.holdsAt (fullOnly o) heads, bench.checks)) =
      some (some (.ok (), .allViolated, true, .ok true, [secondCheck, firstCheck])) := by
    cbv
  obtain ⟨c, hc, hseen⟩ := exists_ok_of_map_eq hseen
  obtain ⟨p, hp, hseen⟩ := exists_ok_of_map_eq hseen
  simp only [Prod.mk.injEq] at hseen
  obtain ⟨houtcome, hverdict, hbox, hholds, hchecks⟩ := hseen
  refine ⟨c, p, hc, hp, houtcome, hverdict, hbox, hholds, hchecks, fun stack hstack => ?_⟩
  have hmem : stack ∈ [secondCheck, firstCheck] := hchecks ▸ hstack
  rintro ⟨a, ha⟩
  obtain rfl | rfl := List.mem_pair.mp hmem
  · exact not_satisfies_secondCheck ha
  · exact not_satisfies_firstCheck ha

end Checker

end MarkovRegion
