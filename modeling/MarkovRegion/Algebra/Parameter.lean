import MarkovRegion.Algebra.OrderedMap
import MarkovRegion.Number.Coefficient

/-!
# Parameters and their values

A parameter is the name of a symbolic variable.  Names are identifiers, so they can be printed
verbatim in regions and SMT-LIB scripts.  A valuation gives exact values to finitely many
parameters.
-/

namespace MarkovRegion

/-- The first character of an identifier. -/
def isIdentifierStart (c : Char) : Bool :=
  ('a' ≤ c && c ≤ 'z') || ('A' ≤ c && c ≤ 'Z') || c == '_'

/-- The other characters of an identifier. -/
def isIdentifierRest (c : Char) : Bool :=
  isIdentifierStart c || Coefficient.isDigit c

/-- ASCII letters, digits and underscores, with no digit in front. -/
def isIdentifier : List Char → Bool
  | [] => false
  | c :: cs => isIdentifierStart c && cs.all isIdentifierRest

/-- The name of one symbolic variable. -/
structure Parameter where
  /-- The name, an identifier. -/
  name : String
  identifier : isIdentifier name.toList = true
  deriving DecidableEq

namespace Parameter

instance : Ord Parameter := ⟨compareOn Parameter.name⟩

instance : Std.TransOrd Parameter :=
  (Std.instTransCmpCompareOnOfTransOrd : Std.TransCmp (compareOn Parameter.name))

instance : Std.LawfulEqOrd Parameter where
  eq_of_compare {a b} h := by
    have hn : compare a.name b.name = .eq := h
    have hn : a.name = b.name := Std.LawfulEqCmp.eq_of_compare hn
    cases a; cases b; cases hn; rfl

/-- The parameter of this name, if it is an identifier. -/
def ofName (name : String) : Except ModelError Parameter :=
  if h : isIdentifier name.toList = true then .ok ⟨name, h⟩
  else .error (.invalidParameterName name)

/-- Read a name with blanks around it. -/
def read (text : String) : Except ModelError Parameter :=
  ofName (String.ofList (Text.trim text.toList))

end Parameter

/-- Exact values of finitely many parameters. -/
abbrev Valuation := OrderedMap Parameter Rat

namespace Valuation

/-- The value of a parameter that has one. -/
def value (v : Valuation) (p : Parameter) : Except ModelError Rat :=
  match v.find? p with
  | some x => .ok x
  | none => .error (.missingParameterValue p.name)

/-- Write a valuation as `p=0.3, q=1/3`. -/
def write (v : Valuation) : String :=
  Text.join ", " (v.entries.map fun e => e.1.name ++ "=" ++ Coefficient.write e.2)

end Valuation

end MarkovRegion
