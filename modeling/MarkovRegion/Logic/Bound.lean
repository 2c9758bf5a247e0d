import MarkovRegion.Json.Value
import MarkovRegion.Weight

/-!
# Bounds on probabilities

A bound compares a probability with an exact threshold.

* `Bound.holds` decides an exact value.
* `Bound.holdsNear` decides a rounded value; values near the threshold count as on it.
* `Bound.classify` tells what an interval of probabilities proves.

The last two are for any scalar, and round the threshold to it.
-/

namespace MarkovRegion

/-- How a probability is compared with the threshold. -/
inductive Comparison where
  | less
  | lessEqual
  | greater
  | greaterEqual
  | equal
  deriving DecidableEq, Repr

namespace Comparison

/-- The sign of a comparison. -/
def symbol : Comparison → String
  | less => "<"
  | lessEqual => "<="
  | greater => ">"
  | greaterEqual => ">="
  | equal => "="

/-- Whether small values satisfy the comparison. -/
def isUpper : Comparison → Bool
  | less | lessEqual => true
  | _ => false

/-- Whether large values satisfy the comparison. -/
def isLower : Comparison → Bool
  | greater | greaterEqual => true
  | _ => false

/-- The comparison of a sign. -/
def ofSymbol? : String → Option Comparison
  | "<" => some less
  | "<=" => some lessEqual
  | ">" => some greater
  | ">=" => some greaterEqual
  | "=" => some equal
  | _ => none

/-- The comparison in front of a text, and what follows its sign. -/
def read? : List Char → Option (Comparison × List Char)
  | '<' :: '=' :: rest => some (lessEqual, rest)
  | '>' :: '=' :: rest => some (greaterEqual, rest)
  | '<' :: rest => some (less, rest)
  | '>' :: rest => some (greater, rest)
  | '=' :: rest => some (equal, rest)
  | _ => none

end Comparison

/-- What an interval that contains all probabilities proves about a bound. -/
inductive IntervalVerdict where
  /-- Every value of the interval satisfies the bound. -/
  | allSatisfy
  /-- No value of the interval satisfies the bound. -/
  | allViolate
  | inconclusive
  deriving DecidableEq, Repr

/-- A bound on a probability. -/
structure Bound where
  /-- How the probability is compared. -/
  comparison : Comparison
  /-- What it is compared with. -/
  threshold : Rat
  deriving DecidableEq

namespace Bound

/-- Whether an exact value satisfies the bound. -/
def holds (b : Bound) (value : Rat) : Bool :=
  match b.comparison with
  | .less => value < b.threshold
  | .lessEqual => value ≤ b.threshold
  | .greater => b.threshold < value
  | .greaterEqual => b.threshold ≤ value
  | .equal => value = b.threshold

section Scalar

variable {α : Type} [Scalar α]

/-- The distance of two scalars. -/
def distance (x y : α) : α :=
  let d := Weight.sub x y
  if Scalar.lt d Weight.zero then Weight.sub Weight.zero d else d

/-- Whether a rounded value satisfies the bound; values within the tolerance of the threshold count
as on it. -/
def holdsNear (b : Bound) (value tolerance : α) : Bool :=
  let t : α := Scalar.ofRat b.threshold
  let near := Scalar.le (distance value t) tolerance
  match b.comparison with
  | .less => Scalar.lt value t && !near
  | .lessEqual => Scalar.le value t || near
  | .greater => Scalar.lt t value && !near
  | .greaterEqual => Scalar.le t value || near
  | .equal => near

/-- Whether the ends of an interval prove that all its values satisfy the bound. -/
def allSatisfy (b : Bound) (lower upper : α) : Bool :=
  let t : α := Scalar.ofRat b.threshold
  match b.comparison with
  | .less => Scalar.lt upper t
  | .lessEqual => Scalar.le upper t
  | .greater => Scalar.lt t lower
  | .greaterEqual => Scalar.le t lower
  | .equal => Scalar.same lower t && Scalar.same upper t

/-- Whether the ends of an interval prove that none of its values satisfies the bound. -/
def allViolate (b : Bound) (lower upper : α) : Bool :=
  let t : α := Scalar.ofRat b.threshold
  match b.comparison with
  | .less => Scalar.le t lower
  | .lessEqual => Scalar.lt t lower
  | .greater => Scalar.le upper t
  | .greaterEqual => Scalar.lt upper t
  | .equal => Scalar.lt upper t || Scalar.lt t lower

/-- What an interval of probabilities proves. -/
def classify (b : Bound) (lower upper : α) : IntervalVerdict :=
  if b.allSatisfy lower upper then .allSatisfy
  else if b.allViolate lower upper then .allViolate
  else .inconclusive

end Scalar

/-! ## Texts -/

/-- The text of a bound, such as `>=0.5`. -/
def write (b : Bound) : String := b.comparison.symbol ++ Coefficient.write b.threshold

/-- Read a bound such as `>=0.5` or `< 1/3`. -/
def read (text : String) : Except ModelError Bound := do
  let cs := Text.trim text.toList
  match Comparison.read? cs with
  | some (comparison, rest) =>
    return { comparison, threshold := ← Coefficient.read (String.ofList rest) }
  | none =>
    throw (.invalid ("bound `" ++ String.ofList cs ++ "` must start with a comparison operator"))

/-- The document of a bound. -/
def toJson (b : Bound) : Json :=
  .ofMembers [("comparison", .ofString b.comparison.symbol),
    ("threshold", .ofString (Coefficient.write b.threshold))]

/-- The bound of a document; other members are ignored. -/
def ofJson? (j : Json) : Option Bound := do
  match ← j.record? ["comparison", "threshold"] .ignored with
  | [comparison, threshold] =>
    let sign ← Json.required Json.asAlternative? comparison
    let text ← Json.required Json.asString? threshold
    return { comparison := ← Comparison.ofSymbol? sign
             threshold := ← (Coefficient.read text).toOption }
  | _ => none

end Bound

end MarkovRegion
