import MarkovRegion.Json.Value
import MarkovRegion.Region.Basic

/-!
# Regions as text

A region is read from `0.3<=p<=0.4,0.2<=q<=0.5`: a part for each parameter, blanks around parts and
bounds, empty parts skipped, semicolons at the end.  `Region.line` and `Region.report` show what is
known about it.
-/

namespace MarkovRegion

namespace Box

/-- A reason of a model error within a region text. -/
def withReason {α : Type} (text : String) (x : Except ModelError α) : Except RegionError α :=
  match x with
  | .ok x => .ok x
  | .error e => .error (.unreadable text e.message)

/-- One part of a region text; the whole text stands in the error. -/
def readSide (text : String) (part : List Char) :
    Except RegionError (Parameter × Rat × Rat) :=
  match (Text.splitAtPair '<' '=' part).map Text.trim with
  | [lower, name, upper] => do
    let p ← withReason text (Parameter.ofName (String.ofList name))
    let lower ← withReason text (Coefficient.read (String.ofList lower))
    let upper ← withReason text (Coefficient.read (String.ofList upper))
    return (p, lower, upper)
  | _ =>
    .error (.unreadable text ("expected `lower<=param<=upper`, got `" ++ String.ofList part ++ "`"))

/-- The parts of a region text after those that were read; a parameter may have one part only. -/
def readSides (text : String) (done : List (Parameter × Rat × Rat)) :
    List (List Char) → Except RegionError (List (Parameter × Rat × Rat))
  | [] => .ok done
  | part :: parts => do
    let side ← readSide text part
    if done.any fun e => e.1 = side.1 then
      throw (.unreadable text ("`" ++ side.1.name ++ "` is bounded twice"))
    readSides text (done ++ [side]) parts

/-- The parts of a region text, without blanks and without empty parts. -/
def parts (text : String) : List (List Char) :=
  let body := Text.dropEndWhile (· == ';') (Text.trim text.toList)
  ((Text.splitAtChar ',' body).map Text.trim).filter fun part => !part.isEmpty

/-- Read a box. -/
def read (text : String) : Except RegionError Box := do
  ofList (← readSides text [] (parts text))

end Box

namespace Region

/-- Read a region about which nothing is known. -/
def read (text : String) : Except RegionError Region := return fresh (← Box.read text)

/-- The region, its verdict and its points on one line. -/
def line (r : Region) : String :=
  r.box.write ++ ": " ++ r.verdict.write
    ++ (match r.satPoint with
      | some point => " sat at " ++ Valuation.write point
      | none => "")
    ++ (match r.violatedPoint with
      | some point => " violated at " ++ Valuation.write point
      | none => "")

/-- The region, its verdict and its points as a document. -/
def report (r : Region) : Json :=
  .ofMembers
    [("region", .ofString r.box.write), ("verdict", .ofString r.verdict.write),
      ("sat_point", .ofString? (r.satPoint.map Valuation.write)),
      ("violated_point", .ofString? (r.violatedPoint.map Valuation.write))]

end Region

end MarkovRegion
