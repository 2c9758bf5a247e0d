import MarkovRegion.Json.Numeral
import MarkovRegion.Text.Pieces

/-!
# Values of the data format

`Json` is the tree of a document, and `Json.pretty` its text over several lines.  The `as…?`
functions take a value as what a record expects; `Json.record?` finds the members of a record, which
may be written as an object or as an array in the order of its members.
-/

namespace MarkovRegion

/-- The tree of a document.  A text is absent where its escapes name half of a surrogate pair: such
a text may be skipped but not used. -/
inductive Json where
  | null
  | bool (value : Bool)
  | number (value : Numeral)
  | text (value : Option String)
  | array (elements : List Json)
  | object (members : List (Option String × Json))

namespace Json

/-! ## Building -/

/-- The value of a natural number. -/
def ofNat (n : Nat) : Json := number (.ofNat n)

/-- The value of a text. -/
def ofString (s : String) : Json := text (some s)

/-- The value of a text or `null`. -/
def ofString? : Option String → Json
  | some s => ofString s
  | none => null

/-- The object of named members. -/
def ofMembers (members : List (String × Json)) : Json :=
  object (members.map fun e => (some e.1, e.2))

/-! ## Taking apart -/

/-- A natural number of at most 64 bits. -/
def asNat? : Json → Option Nat
  | number n => n.toNat?
  | _ => none

/-- A double. -/
def asDouble? : Json → Option Float
  | number n => n.toDouble?
  | _ => none

/-- A truth value. -/
def asBool? : Json → Option Bool
  | bool b => some b
  | _ => none

/-- A text. -/
def asString? : Json → Option String
  | text s => s
  | _ => none

/-- The elements of an array. -/
def asArray? : Json → Option (List Json)
  | array xs => some xs
  | _ => none

/-- The members of an object whose names can be used. -/
def asObject? : Json → Option (List (String × Json))
  | object members => members.mapM fun e => e.1.map fun name => (name, e.2)
  | _ => none

/-- The name of an alternative, alone or as the only member of an object with the value `null`. -/
def asAlternative? : Json → Option String
  | text s => s
  | object [(name, null)] => name
  | _ => none

/-- A value that may be `null`. -/
def asOption? {α : Type} (read : Json → Option α) : Json → Option (Option α)
  | null => some none
  | j => (read j).map some

/-- Whether a record may have members beside its own. -/
inductive Extra where
  | refused
  | ignored
  deriving DecidableEq

/-- The members of a record in their order, each absent if it is not given.  In an object no member
may be given twice; in an array the last members may be missing. -/
def record? (names : List String) (extra : Extra) : Json → Option (List (Option Json))
  | array xs =>
    if xs.length ≤ names.length then
      some (xs.map some ++ List.replicate (names.length - xs.length) none)
    else none
  | j => do
    let members ← j.asObject?
    let given := members.map Prod.fst
    if extra = .refused && given.any fun name => !names.contains name then none
    else if names.any fun name => 1 < given.count name then none
    else some (names.map fun name => members.lookup name)

/-- A member that must be given. -/
def required {α : Type} (read : Json → Option α) (member : Option Json) : Option α :=
  member.bind read

/-- A member with a value for its absence. -/
def optional {α : Type} (read : Json → Option α) (absent : α) : Option Json → Option α
  | none => some absent
  | some j => read j

/-! ## Writing -/

/-- The digit of a number below sixteen. -/
def hexDigit (n : Nat) : Char :=
  if n < 10 then Char.ofNat (48 + n) else Char.ofNat (87 + n)

/-- A character within quotation marks. -/
def escape (c : Char) : List Char :=
  match c with
  | '\x22' => ['\\', '\x22']
  | '\\' => ['\\', '\\']
  | '\x08' => ['\\', 'b']
  | '\x0c' => ['\\', 'f']
  | '\n' => ['\\', 'n']
  | '\r' => ['\\', 'r']
  | '\t' => ['\\', 't']
  | c =>
    if c.toNat < 32 then ['\\', 'u', '0', '0', hexDigit (c.toNat / 16), hexDigit (c.toNat % 16)]
    else [c]

/-- A text in quotation marks. -/
def quote (s : String) : String :=
  String.ofList ('\x22' :: s.toList.flatMap escape ++ ['\x22'])

/-- A new line with its indentation. -/
def newLine (depth : Nat) : String := "\n" ++ Text.replicate (2 * depth) ' '

mutual

/-- The text of a value at a depth of nesting. -/
def prettyAt (depth : Nat) : Json → String
  | null => "null"
  | bool b => if b then "true" else "false"
  | number n => n.write
  | text s => quote (s.getD "")
  | array [] => "[]"
  | array (x :: xs) =>
    "[" ++ newLine (depth + 1) ++ prettyAt (depth + 1) x ++ prettyElements (depth + 1) xs
      ++ newLine depth ++ "]"
  | object [] => "\x7b\x7d"
  | object ((name, x) :: members) =>
    "\x7b" ++ newLine (depth + 1) ++ quote (name.getD "") ++ ": " ++ prettyAt (depth + 1) x
      ++ prettyMembers (depth + 1) members ++ newLine depth ++ "\x7d"

/-- The elements after the first. -/
def prettyElements (depth : Nat) : List Json → String
  | [] => ""
  | x :: xs => "," ++ newLine depth ++ prettyAt depth x ++ prettyElements depth xs

/-- The members after the first. -/
def prettyMembers (depth : Nat) : List (Option String × Json) → String
  | [] => ""
  | (name, x) :: members =>
    "," ++ newLine depth ++ quote (name.getD "") ++ ": " ++ prettyAt depth x
      ++ prettyMembers depth members

end

/-- The text of a value over several lines, two blanks for each depth. -/
def pretty (j : Json) : String := prettyAt 0 j

end Json

end MarkovRegion
