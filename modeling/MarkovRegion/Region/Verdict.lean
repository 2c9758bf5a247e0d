/-!
# Verdicts on regions

What is known about a property on a region, from nothing over single points to all points.
-/

namespace MarkovRegion

/-- What is known about a property on a region. -/
inductive Verdict where
  /-- Nothing is known. -/
  | unknown
  /-- Some point satisfies the property. -/
  | existsSat
  /-- Some point violates the property. -/
  | existsViolated
  /-- Some point satisfies the property and some point violates it. -/
  | existsBoth
  /-- Every point satisfies the property. -/
  | allSat
  /-- Every point violates the property. -/
  | allViolated
  deriving DecidableEq, Repr

namespace Verdict

/-- All verdicts. -/
def all : List Verdict := [unknown, existsSat, existsViolated, existsBoth, allSat, allViolated]

/-- Whether nothing more is looked for. -/
def isTerminal : Verdict → Bool
  | allSat | allViolated | existsBoth => true
  | _ => false

/-- The text of a verdict. -/
def write : Verdict → String
  | unknown => "UNKNOWN"
  | existsSat => "EXISTSSAT"
  | existsViolated => "EXISTSVIOLATED"
  | existsBoth => "EXISTSBOTH"
  | allSat => "ALLSAT"
  | allViolated => "ALLVIOLATED"

/-- The name of a verdict in documents. -/
def name : Verdict → String
  | unknown => "Unknown"
  | existsSat => "ExistsSat"
  | existsViolated => "ExistsViolated"
  | existsBoth => "ExistsBoth"
  | allSat => "AllSat"
  | allViolated => "AllViolated"

/-- The verdict once a satisfying point is known. -/
def withSat : Verdict → Verdict
  | unknown => existsSat
  | existsViolated => existsBoth
  | other => other

/-- The verdict once a violating point is known. -/
def withViolated : Verdict → Verdict
  | unknown => existsViolated
  | existsSat => existsBoth
  | other => other

end Verdict

end MarkovRegion
