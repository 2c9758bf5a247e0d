import MarkovRegion.Error
import MarkovRegion.Region.Basic

/-!
# Errors of the analysis

What can go wrong in checking a region, from the formula to the solver.
-/

namespace MarkovRegion

/-- What can go wrong in checking a region. -/
inductive CheckError where
  | noFormula
  | unsupportedFormula (formula : String)
  | unknownLabel (name : String)
  /-- The parameters of a region are not those of the property. -/
  | regionMismatch (region property : List String)
  | region (cause : RegionError)
  | model (cause : ModelError)
  | construction (reason : String)
  /-- At this point some row is no distribution. -/
  | illDefinedPoint (point reason : String)
  | solver (reason : String)
  | io (reason : String)
  deriving DecidableEq

namespace CheckError

/-- A list of names, each in quotation marks. -/
def nameList (names : List String) : String :=
  "[" ++ Text.join ", " (names.map fun name => "\"" ++ name ++ "\"") ++ "]"

/-- The text of an error. -/
def message : CheckError → String
  | noFormula => "No formula has been specified"
  | unsupportedFormula formula =>
    "Unsupported formula `" ++ formula ++ "`: expected P<op>threshold [F <propositional formula>]"
  | unknownLabel name => "Unknown label `" ++ name ++ "`"
  | regionMismatch found expected =>
    "Region over " ++ nameList found ++ " does not match the property parameters "
      ++ nameList expected
  | region cause => "Region error: " ++ cause.message
  | model cause => "Model error: " ++ cause.message
  | construction reason => "Construction error: " ++ reason
  | illDefinedPoint point reason =>
    "The model is not a valid DTMC at " ++ point ++ ": " ++ reason
  | solver reason => "Solver error: " ++ reason
  | io reason => "I/O error: " ++ reason

/-- Whether the check stops here without an answer. -/
def stops : CheckError → Bool
  | region cause => cause.stops
  | model cause => cause.stops
  | _ => false

end CheckError

/-- A failure of a region within a check. -/
def liftRegion {α : Type} (x : Except RegionError α) : Except CheckError α :=
  x.mapError .region

/-- A failure of a model within a check. -/
def liftModel {α : Type} (x : Except ModelError α) : Except CheckError α :=
  x.mapError .model

end MarkovRegion
