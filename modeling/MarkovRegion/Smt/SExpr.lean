import MarkovRegion.Number.Coefficient

/-!
# S-expressions

The answers of a solver are s-expressions: atoms and lists of s-expressions.  Blanks and comments,
which run from a semicolon to the end of the line, separate them.  An atom may be quoted with
quotation marks or bars, which stay part of it.

`SExpr.read` reads exactly one s-expression, character by character, and `SExpr.write` is its text.
-/

namespace MarkovRegion.Smt

/-- An atom or a list. -/
inductive SExpr where
  | atom (text : String)
  | list (items : List SExpr)

/-- Why a text is no s-expression. -/
inductive SExprError where
  /-- A closing parenthesis without partner at a byte offset. -/
  | unbalancedClose (offset : Nat)
  /-- The quoted atom that starts at a byte offset does not end. -/
  | unterminatedQuote (offset : Nat)
  /-- An opening parenthesis without partner. -/
  | unbalancedOpen
  | empty
  /-- A second s-expression. -/
  | trailing (found : String)
  deriving DecidableEq

/-- The text of an error. -/
def SExprError.message : SExprError → String
  | unbalancedClose offset => "unbalanced `)` at offset " ++ toString offset
  | unterminatedQuote offset => "unterminated quoted atom at offset " ++ toString offset
  | unbalancedOpen => "unbalanced `(`"
  | empty => "empty input"
  | trailing found => "trailing input `" ++ found ++ "`"

namespace SExpr

/-! ## Writing -/

mutual

/-- The text of an s-expression. -/
def write : SExpr → String
  | atom text => text
  | list [] => "()"
  | list (x :: xs) => "(" ++ x.write ++ writeRest xs ++ ")"

/-- The texts of the items after the first. -/
def writeRest : List SExpr → String
  | [] => ""
  | x :: xs => " " ++ x.write ++ writeRest xs

end

/-! ## Values -/

/-- A number without sign: digits, and digits after a point. -/
def decimal? (cs : List Char) : Option Rat :=
  let (whole, places) := (Text.cutAt? ['.'] cs).getD (cs, [])
  if whole.isEmpty then none
  else if (whole ++ places).all Coefficient.isDigit then
    some (mkRat (Coefficient.digitsValue (whole ++ places)) (Nat.pow 10 places.length))
  else none

/-- The exact number that a solver writes as `2`, `0.5`, `(- 3.0)` or `(/ 1.0 3.0)`. -/
def toRational? : SExpr → Option Rat
  | atom text => decimal? text.toList
  | list [atom "-", inner] => inner.toRational?.map fun x => -x
  | list [atom "/", numerator, denominator] => do
    let d ← denominator.toRational?
    if d = 0 then none else return (← numerator.toRational?) / d
  | _ => none

/-! ## Reading -/

/-- What has been read: the open lists, innermost first and their items in reverse, and the finished
s-expression. -/
structure Progress where
  /-- The open lists. -/
  stack : List (List SExpr)
  /-- The finished s-expression. -/
  result : Option SExpr

/-- What the next character belongs to. -/
inductive Mode where
  /-- Nothing has been started. -/
  | between
  | comment
  /-- An atom, its characters in reverse. -/
  | atom (chars : List Char)
  /-- A quoted atom, the mark that closes it, where it started and its characters in reverse. -/
  | quoted (close : Char) (start : Nat) (chars : List Char)

/-- Add a finished s-expression. -/
def emit (s : SExpr) (p : Progress) : Except SExprError Progress :=
  match p.stack, p.result with
  | items :: rest, result => .ok { stack := (s :: items) :: rest, result }
  | [], none => .ok { stack := [], result := some s }
  | [], some _ => .error (.trailing s.write)

/-- The atom of characters in reverse. -/
def ofReversed (chars : List Char) : SExpr := atom (String.ofList chars.reverse)

/-- Close the innermost list. -/
def closeList (offset : Nat) (p : Progress) : Except SExprError Progress :=
  match p.stack with
  | [] => .error (.unbalancedClose offset)
  | items :: rest => emit (list items.reverse) { p with stack := rest }

/-- The character at an offset where nothing has been started. -/
def start (offset : Nat) (c : Char) (p : Progress) : Except SExprError (Mode × Progress) :=
  if c = '(' then .ok (.between, { p with stack := [] :: p.stack })
  else if c = ')' then (closeList offset p).map fun p => (.between, p)
  else if c = ';' then .ok (.comment, p)
  else if Text.isBlank c then .ok (.between, p)
  else if c = '\x22' || c = '|' then .ok (.quoted c offset [c], p)
  else .ok (.atom [c], p)

/-- Whether a character ends an atom. -/
def endsAtom (c : Char) : Bool := Text.isBlank c || c == '(' || c == ')'

/-- One character at an offset. -/
def step (offset : Nat) (c : Char) : Mode → Progress → Except SExprError (Mode × Progress)
  | .between, p => start offset c p
  | .comment, p => .ok (if c = '\n' then .between else .comment, p)
  | .atom chars, p =>
    if endsAtom c then do start offset c (← emit (ofReversed chars) p)
    else .ok (.atom (c :: chars), p)
  | .quoted close first chars, p =>
    if c = close then do return (.between, ← emit (ofReversed (c :: chars)) p)
    else .ok (.quoted close first (c :: chars), p)

/-- The end of the text. -/
def finish (mode : Mode) (p : Progress) : Except SExprError SExpr := do
  let p ← match mode with
    | .between | .comment => pure p
    | .atom chars => emit (ofReversed chars) p
    | .quoted _ first _ => throw (.unterminatedQuote first)
  match p.stack, p.result with
  | _ :: _, _ => throw .unbalancedOpen
  | [], none => throw .empty
  | [], some s => return s

/-- Read the characters from an offset on. -/
def readFrom (offset : Nat) (mode : Mode) (p : Progress) : List Char → Except SExprError SExpr
  | [] => finish mode p
  | c :: cs => do
    let (mode, p) ← step offset c mode p
    readFrom (offset + c.utf8Size) mode p cs

/-- Read exactly one s-expression. -/
def read (text : String) : Except SExprError SExpr :=
  readFrom 0 .between { stack := [], result := none } text.toList

end SExpr

end MarkovRegion.Smt
