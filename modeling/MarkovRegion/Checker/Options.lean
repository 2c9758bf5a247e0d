import MarkovRegion.Analysis.Error
import MarkovRegion.Analysis.Reachability
import MarkovRegion.Json.Reader
import MarkovRegion.Smt.Command
import MarkovRegion.Smt.Dialogue

/-!
# Options of a checker

The options say which tiers a check may use, how precise the numeric ones are, and which solver the
exact ones ask.  A document gives some of them; the others keep their usual values.
-/

namespace MarkovRegion

/-- What a checker may do. -/
structure Options where
  /-- How near to the threshold a sampled value counts as on it. -/
  tolerance : Float
  /-- The gap at which an interval iteration ends. -/
  precision : Float
  /-- The number of sweeps after which an interval iteration ends. -/
  maxIterations : Nat
  /-- Whether single points are sampled. -/
  sampling : Bool
  /-- Whether bounding processes are solved. -/
  approximation : Bool
  /-- Whether a solver is asked about a reduced system. -/
  subsystemSmt : Bool
  /-- Whether a solver is asked about all equations. -/
  fullSmt : Bool
  /-- Whether points are sampled through the closed form where it is defined. -/
  sampleViaFunction : Bool
  /-- The greatest size of a weight that elimination may create; absent for no limit. -/
  eliminationSizeBound : Option Nat
  /-- The greatest product of predecessors and successors of a state that the reduced system leaves
  out. -/
  subsystemFanBound : Nat
  /-- The solver. -/
  solver : Smt.Flavor
  /-- The time limit of a query on the reduced system in milliseconds; zero for none. -/
  subsystemTimeout : Nat
  /-- The time limit of a query on all equations in milliseconds; zero for none. -/
  fullTimeout : Nat
  /-- What the paths of transcripts start with, if transcripts are wanted. -/
  dump : Option String

namespace Options

/-- The usual values. -/
def usual : Options where
  tolerance := 1e-6
  precision := 1e-9
  maxIterations := 100000
  sampling := true
  approximation := true
  subsystemSmt := true
  fullSmt := true
  sampleViaFunction := true
  eliminationSizeBound := some 10000
  subsystemFanBound := 4
  solver := .z3
  subsystemTimeout := 5000
  fullTimeout := 0
  dump := none

/-- When interval iterations end. -/
def settings (o : Options) : IterationSettings Float where
  precision := o.precision
  maxIterations := o.maxIterations

/-- The time limit of a query. -/
def timeout (o : Options) : Smt.SessionKind → Nat
  | .subsystem => o.subsystemTimeout
  | .full => o.fullTimeout

/-- How solver processes are started. -/
def plan (o : Options) : Smt.Recorded.Plan where
  flavor := o.solver
  timeout := o.timeout
  dump := o.dump

/-- The names of the options in a document. -/
def names : List String :=
  ["tolerance", "precision", "max_iterations", "sampling", "approximation", "subsystem_smt",
    "full_smt", "sample_via_function", "elimination_size_bound", "subsystem_fan_bound", "solver",
    "subsystem_timeout_ms", "full_timeout_ms", "dump_smt"]

/-- The solver of a name in a document. -/
def flavor? (j : Json) : Option Smt.Flavor :=
  match j.asAlternative? with
  | some "z3" => some .z3
  | some "cvc5" => some .cvc5
  | _ => none

/-- The options that a document gives. -/
def ofJson? (j : Json) : Option Options := do
  match ← j.record? names .refused with
  | [tolerance, precision, maxIterations, sampling, approximation, subsystemSmt, fullSmt,
      sampleViaFunction, eliminationSizeBound, subsystemFanBound, solver, subsystemTimeout,
      fullTimeout, dump] =>
    return {
      tolerance := ← Json.optional Json.asDouble? usual.tolerance tolerance
      precision := ← Json.optional Json.asDouble? usual.precision precision
      maxIterations := ← Json.optional Json.asNat? usual.maxIterations maxIterations
      sampling := ← Json.optional Json.asBool? usual.sampling sampling
      approximation := ← Json.optional Json.asBool? usual.approximation approximation
      subsystemSmt := ← Json.optional Json.asBool? usual.subsystemSmt subsystemSmt
      fullSmt := ← Json.optional Json.asBool? usual.fullSmt fullSmt
      sampleViaFunction := ← Json.optional Json.asBool? usual.sampleViaFunction sampleViaFunction
      eliminationSizeBound := ← Json.optional (Json.asOption? Json.asNat?)
        usual.eliminationSizeBound eliminationSizeBound
      subsystemFanBound := ← Json.optional Json.asNat? usual.subsystemFanBound subsystemFanBound
      solver := ← Json.optional flavor? usual.solver solver
      subsystemTimeout := ← Json.optional Json.asNat? usual.subsystemTimeout subsystemTimeout
      fullTimeout := ← Json.optional Json.asNat? usual.fullTimeout fullTimeout
      dump := ← Json.optional (Json.asOption? Json.asString?) usual.dump dump }
  | _ => none

/-- Read options from the text of a document. -/
def read (text : String) : Except CheckError Options :=
  match (Json.read? text).bind ofJson? with
  | some options => .ok options
  | none => .error (.construction "invalid options")

end Options

end MarkovRegion
