import MarkovRegion.Json.Value
import MarkovRegion.Region.Verdict

/-!
# Statistics of a checker

A checker counts the regions that it has checked, by the tier that settled them and by their
verdicts.  The time that each activity took is kept apart, in `Times`.
-/

namespace MarkovRegion

/-- The ways in which a region can be settled, cheapest first. -/
inductive Tier where
  /-- The probability does not depend on the parameters. -/
  | constantResult
  /-- Sampling found a satisfying and a violating point. -/
  | sampling
  /-- A bounding process proved a statement about all points. -/
  | approximation
  /-- A solver settled the reduced system. -/
  | subsystemSmt
  /-- A solver settled all equations. -/
  | fullSmt
  deriving DecidableEq, Repr

/-- Counts of checked regions. -/
structure Statistics where
  /-- All regions. -/
  checked : Nat
  /-- Regions settled by a constant probability. -/
  byConstantResult : Nat
  /-- Regions settled by sampling. -/
  bySampling : Nat
  /-- Regions settled by a bounding process. -/
  byApproximation : Nat
  /-- Regions settled by the reduced system. -/
  bySubsystemSmt : Nat
  /-- Regions settled by all equations. -/
  byFullSmt : Nat
  /-- Regions with satisfying and violating points. -/
  existsBoth : Nat
  /-- Regions all of whose points satisfy the property. -/
  allSat : Nat
  /-- Regions all of whose points violate the property. -/
  allViolated : Nat
  /-- Regions that are not settled. -/
  unresolved : Nat
  deriving DecidableEq, Repr

namespace Statistics

/-- No region has been checked. -/
def zero : Statistics := ⟨0, 0, 0, 0, 0, 0, 0, 0, 0, 0⟩

/-- Count the tier that settled a region, if one did. -/
def countTier (s : Statistics) : Option Tier → Statistics
  | none => s
  | some .constantResult => { s with byConstantResult := s.byConstantResult + 1 }
  | some .sampling => { s with bySampling := s.bySampling + 1 }
  | some .approximation => { s with byApproximation := s.byApproximation + 1 }
  | some .subsystemSmt => { s with bySubsystemSmt := s.bySubsystemSmt + 1 }
  | some .fullSmt => { s with byFullSmt := s.byFullSmt + 1 }

/-- Count the verdict of a region. -/
def countVerdict (s : Statistics) : Verdict → Statistics
  | .existsBoth => { s with existsBoth := s.existsBoth + 1 }
  | .allSat => { s with allSat := s.allSat + 1 }
  | .allViolated => { s with allViolated := s.allViolated + 1 }
  | _ => { s with unresolved := s.unresolved + 1 }

/-- Count a region that has been checked. -/
def record (s : Statistics) (tier : Option Tier) (verdict : Verdict) : Statistics :=
  { (s.countTier tier).countVerdict verdict with checked := s.checked + 1 }

/-- Add the counts of another checker. -/
def merge (s t : Statistics) : Statistics where
  checked := s.checked + t.checked
  byConstantResult := s.byConstantResult + t.byConstantResult
  bySampling := s.bySampling + t.bySampling
  byApproximation := s.byApproximation + t.byApproximation
  bySubsystemSmt := s.bySubsystemSmt + t.bySubsystemSmt
  byFullSmt := s.byFullSmt + t.byFullSmt
  existsBoth := s.existsBoth + t.existsBoth
  allSat := s.allSat + t.allSat
  allViolated := s.allViolated + t.allViolated
  unresolved := s.unresolved + t.unresolved

/-- The counts with their names in a report. -/
def counters (s : Statistics) : List (String × Nat) :=
  [("checked_regions", s.checked), ("solved_by_constant_result", s.byConstantResult),
    ("solved_by_sampling", s.bySampling), ("solved_by_approximation", s.byApproximation),
    ("solved_by_subsystem_smt", s.bySubsystemSmt), ("solved_by_full_smt", s.byFullSmt),
    ("exists_both", s.existsBoth), ("all_sat", s.allSat), ("all_violated", s.allViolated),
    ("unresolved", s.unresolved)]

end Statistics

/-- The time that each activity took, in milliseconds. -/
structure Times where
  /-- The simplification of the model. -/
  preprocessing : Nat
  /-- The closed form. -/
  reachFunction : Nat
  /-- All checks of regions. -/
  check : Nat
  /-- Sampling. -/
  sampling : Nat
  /-- Approximation. -/
  approximation : Nat
  /-- The building of bounding processes. -/
  processBuild : Nat
  /-- Queries on the reduced system. -/
  subsystemSmt : Nat
  /-- Queries on all equations. -/
  fullSmt : Nat
  deriving DecidableEq, Repr

namespace Times

/-- Nothing has been timed. -/
def zero : Times := ⟨0, 0, 0, 0, 0, 0, 0, 0⟩

/-- The times with their names in a report. -/
def entries (t : Times) : List (String × Nat) :=
  [("preprocessing_time", t.preprocessing), ("reach_function_time", t.reachFunction),
    ("check_time", t.check), ("sampling_time", t.sampling),
    ("approximation_time", t.approximation), ("mdp_build_time", t.processBuild),
    ("subsystem_smt_time", t.subsystemSmt), ("full_smt_time", t.fullSmt)]

end Times

namespace Statistics

/-- A name and a value, the value at a fixed column. -/
def aligned (indentation : Nat) (name value : String) : String :=
  let start := Text.replicate indentation ' ' ++ name ++ ":"
  start ++ Text.replicate (26 - start.length) ' ' ++ value

/-- A count at the fixed column. -/
def countLine (indentation : Nat) (name : String) (count : Nat) : String :=
  aligned indentation name (toString count)

/-- A time in seconds at the fixed column. -/
def timeLine (indentation : Nat) (name : String) (milliseconds : Nat) : String :=
  aligned indentation name (Numeral.ofThousandths milliseconds).write

/-- The counts and times as lines. -/
def lines (s : Statistics) (t : Times) : List String :=
  ["Region check statistics",
    countLine 2 "checked regions" s.checked,
    "  solved by",
    countLine 4 "constant result" s.byConstantResult,
    countLine 4 "sampling" s.bySampling,
    countLine 4 "approximation" s.byApproximation,
    countLine 4 "subsystem SMT" s.bySubsystemSmt,
    countLine 4 "full SMT" s.byFullSmt,
    "  verdicts",
    countLine 4 "EXISTSBOTH" s.existsBoth,
    countLine 4 "ALLSAT" s.allSat,
    countLine 4 "ALLVIOLATED" s.allViolated,
    countLine 4 "unresolved" s.unresolved,
    "  time (s)",
    timeLine 4 "preprocessing" t.preprocessing,
    timeLine 4 "reach function" t.reachFunction,
    timeLine 4 "region checks" t.check,
    timeLine 6 "sampling" t.sampling,
    timeLine 6 "approximation" t.approximation,
    timeLine 8 "MDP building" t.processBuild,
    timeLine 6 "subsystem SMT" t.subsystemSmt,
    timeLine 6 "full SMT" t.fullSmt]

/-- The counts and times as a document. -/
def report (s : Statistics) (t : Times) : Json :=
  .ofMembers (s.counters.map (fun e => (e.1, .ofNat e.2))
    ++ t.entries.map fun e => (e.1, .number (.ofThousandths e.2)))

end Statistics

end MarkovRegion
