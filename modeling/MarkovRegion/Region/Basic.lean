import MarkovRegion.Algebra.Parameter
import MarkovRegion.Region.Verdict

/-!
# Regions

A region is a box of parameter values together with what is known about a property on it: a verdict
and at most one satisfying and one violating point.

* `Box.ofBounds` builds a box from lower and upper bounds.
* `Box.vertices` lists the corners over some of the parameters; the first parameter changes fastest.
* `Region.recordSat` and `Region.recordViolated` keep the first point of their kind, and
  `Region.conclude` sets a verdict that no point contradicts.
-/

namespace MarkovRegion

/-- What can go wrong with a region. -/
inductive RegionError where
  | empty
  | mismatchedBounds
  | invertedBounds (name : String) (lower upper : Rat)
  | unknownParameter (name : String)
  | tooManyVertices (parameters : Nat)
  /-- There is no room for so many corners.  This is no refusal: the computation stops. -/
  | capacityOverflow (parameters : Nat)
  | contradictingWitness (verdict : Verdict)
  /-- The text of a region is refused for a reason. -/
  | unreadable (text reason : String)
  deriving DecidableEq

/-- The text of an error. -/
def RegionError.message : RegionError → String
  | empty => "A region needs at least one parameter"
  | mismatchedBounds => "Lower and upper bounds are given for different parameters"
  | invertedBounds name lower upper =>
    "Upper bound " ++ Coefficient.write upper ++ " of `" ++ name ++ "` is below its lower bound "
      ++ Coefficient.write lower
  | unknownParameter name => "Parameter `" ++ name ++ "` is not bounded by this region"
  | tooManyVertices parameters =>
    "Too many parameters (" ++ toString parameters ++ ") to enumerate region vertices"
  | capacityOverflow _ => "capacity overflow"
  | contradictingWitness verdict =>
    "Cannot mark region as " ++ verdict.write ++ ": a contradicting witness is already known"
  | unreadable text reason => "Invalid region `" ++ text ++ "`: " ++ reason

/-- Whether the computation stops here without an answer. -/
def RegionError.stops : RegionError → Bool
  | capacityOverflow _ => true
  | _ => false

/-- A closed interval of exact values. -/
structure Interval where
  /-- The least value. -/
  lower : Rat
  /-- The greatest value. -/
  upper : Rat
  ordered : lower ≤ upper
  deriving DecidableEq

/-- The value half way between the ends. -/
def Interval.middle (i : Interval) : Rat := (i.lower + i.upper) / 2

/-- A box: an interval for each of one or more parameters. -/
structure Box where
  /-- The interval of each parameter. -/
  sides : OrderedMap Parameter Interval
  nonempty : sides.entries ≠ []
  deriving DecidableEq

namespace Box

/-- The parameters of a box, in their order. -/
def parameters (b : Box) : List Parameter := b.sides.keys

/-- The interval of a parameter. -/
def side (b : Box) (p : Parameter) : Except RegionError Interval :=
  match b.sides.find? p with
  | some i => .ok i
  | none => .error (.unknownParameter p.name)

/-- The lower ends. -/
def lower (b : Box) : Valuation := .ofList (b.sides.entries.map fun e => (e.1, e.2.lower))

/-- The upper ends. -/
def upper (b : Box) : Valuation := .ofList (b.sides.entries.map fun e => (e.1, e.2.upper))

/-- The interval from a lower to an upper bound of a parameter. -/
def interval (p : Parameter) (lower upper : Rat) : Except RegionError Interval :=
  if ordered : lower ≤ upper then .ok { lower, upper, ordered }
  else .error (.invertedBounds p.name lower upper)

/-- The box of lower and upper bounds for the same parameters. -/
def ofBounds (lower upper : Valuation) : Except RegionError Box := do
  if lower.isEmpty then throw .empty
  if lower.keys ≠ upper.keys then throw .mismatchedBounds
  let sides ← (lower.entries.zip upper.entries).mapM fun (l, u) => do
    return (l.1, ← interval l.1 l.2 u.2)
  let sides := OrderedMap.ofList sides
  if nonempty : sides.entries ≠ [] then return { sides, nonempty } else throw .empty

/-- The box of parameters with their bounds; the last bounds of a parameter count. -/
def ofList (bounds : List (Parameter × Rat × Rat)) : Except RegionError Box :=
  ofBounds (.ofList (bounds.map fun e => (e.1, e.2.1))) (.ofList (bounds.map fun e => (e.1, e.2.2)))

/-- All choices of an end for each side; the first side changes fastest. -/
def corners : List (Parameter × Interval) → List (List (Parameter × Rat))
  | [] => [[]]
  | (p, i) :: rest =>
    (corners rest).flatMap fun corner => [(p, i.lower) :: corner, (p, i.upper) :: corner]

/-- From this number of parameters on the corners are not listed. -/
def vertexLimit : Nat := 63

/-- A list takes less than this number of bytes. -/
def capacityLimit : Nat := 1 <<< 63

/-- The number of bytes that a list takes for each point. -/
def pointBytes : Nat := 24

/-- The corners over some parameters, given in their order. -/
def vertices (b : Box) (parameters : List Parameter) : Except RegionError (List Valuation) := do
  let sides ← parameters.mapM fun p => return (p, ← b.side p)
  if vertexLimit ≤ parameters.length then throw (.tooManyVertices parameters.length)
  if capacityLimit ≤ (1 <<< parameters.length) * pointBytes then
    throw (.capacityOverflow parameters.length)
  return (corners sides).map OrderedMap.ofList

/-- The corners over all parameters. -/
def allVertices (b : Box) : Except RegionError (List Valuation) := b.vertices b.parameters

/-- The point half way between the ends of every side. -/
def midpoint (b : Box) : Valuation := .ofList (b.sides.entries.map fun e => (e.1, e.2.middle))

/-- Whether a point gives every parameter of the box a value of its side. -/
def contains (b : Box) (point : Valuation) : Bool :=
  b.sides.entries.all fun e =>
    match point.find? e.1 with
    | some x => e.2.lower ≤ x && x ≤ e.2.upper
    | none => false

/-- The text of a box, such as `0.3<=p<=0.4,0.2<=q<=0.5`. -/
def write (b : Box) : String :=
  Text.join "," (b.sides.entries.map fun e =>
    Coefficient.write e.2.lower ++ "<=" ++ e.1.name ++ "<=" ++ Coefficient.write e.2.upper)

end Box

/-- A box with what is known about it. -/
structure Region where
  /-- The points of the region. -/
  box : Box
  /-- What is known. -/
  verdict : Verdict
  /-- A point that satisfies the property. -/
  satPoint : Option Valuation
  /-- A point that violates the property. -/
  violatedPoint : Option Valuation
  deriving DecidableEq

namespace Region

/-- A region about which nothing is known. -/
def fresh (box : Box) : Region := ⟨box, .unknown, none, none⟩

/-- Record a satisfying point, unless one is known. -/
def recordSat (r : Region) (point : Valuation) : Region :=
  match r.satPoint with
  | some _ => r
  | none => { r with satPoint := some point, verdict := r.verdict.withSat }

/-- Record a violating point, unless one is known. -/
def recordViolated (r : Region) (point : Valuation) : Region :=
  match r.violatedPoint with
  | some _ => r
  | none => { r with violatedPoint := some point, verdict := r.verdict.withViolated }

/-- Whether the known points speak against a verdict. -/
def contradicts (r : Region) : Verdict → Bool
  | .allSat => r.violatedPoint.isSome
  | .allViolated => r.satPoint.isSome
  | .existsBoth => r.satPoint.isNone || r.violatedPoint.isNone
  | _ => false

/-- Set a verdict that the known points do not contradict. -/
def conclude (r : Region) (verdict : Verdict) : Except RegionError Region :=
  if r.contradicts verdict then .error (.contradictingWitness verdict)
  else .ok { r with verdict }

end Region

end MarkovRegion
