import MarkovRegion.Expression.Tree

/-!
# Reading weight expressions

The grammar, with blanks (space, tab, carriage return, line feed) between any two tokens:

```text
sum      = product (("+" | "-") product)*
product  = operand (("*" | "/") operand)*
operand  = "-" operand | atom ("^" digits)?
atom     = number | identifier | "(" sum ")"
```

One character decides every choice, so the first character that fits nowhere is where the text is
refused.  The fuel of the recursive functions bounds their depth: between two nested calls at least
one character is read.
-/

namespace MarkovRegion.Expression

/-- What is left of a text, and how many bytes have been read. -/
structure Cursor where
  /-- The number of bytes read. -/
  offset : Nat
  /-- The characters not yet read. -/
  rest : List Char

/-- Where and why a text is refused. -/
structure Refusal where
  /-- The byte offset of the refused character, or of the end. -/
  offset : Nat
  /-- What was expected there. -/
  fault : ExpressionFault

/-- The blanks of expressions. -/
def isSpace (c : Char) : Bool :=
  c == ' ' || c == '\t' || c == '\r' || c == '\n'

namespace Cursor

/-- Move over the given characters. -/
def past (c : Cursor) (taken rest : List Char) : Cursor :=
  ⟨c.offset + Text.byteLength taken, rest⟩

/-- Move over blanks. -/
def skip (c : Cursor) : Cursor :=
  c.past (c.rest.takeWhile isSpace) (c.rest.dropWhile isSpace)

/-- Refuse the text here. -/
def refuse {α : Type} (c : Cursor) (fault : ExpressionFault) : Except Refusal α :=
  .error ⟨c.offset, fault⟩

end Cursor

/-- The longest number at the front: digits with at most one point, and a digit before the point or
right after it. -/
def numeral? (cs : List Char) : Option (List Char × List Char) :=
  let whole := cs.takeWhile Coefficient.isDigit
  match whole, cs.dropWhile Coefficient.isDigit with
  | [], '.' :: more =>
    match more.takeWhile Coefficient.isDigit with
    | [] => none
    | places => some ('.' :: places, more.dropWhile Coefficient.isDigit)
  | [], _ => none
  | whole, '.' :: more =>
    some (whole ++ '.' :: more.takeWhile Coefficient.isDigit, more.dropWhile Coefficient.isDigit)
  | whole, rest => some (whole, rest)

/-- A number or a parameter at the front. -/
def leaf? (c : Cursor) : Option (Expression × Cursor) :=
  match numeral? c.rest with
  | some (text, rest) =>
    (Coefficient.readDecimal? text).map fun q => (.number q, c.past text rest)
  | none =>
    let name := c.rest.takeWhile isIdentifierRest
    match Parameter.ofName (String.ofList name) with
    | .ok p => some (.parameter p, c.past name (c.rest.dropWhile isIdentifierRest))
    | .error _ => none

/-- The exponent after an atom, if there is one. -/
def powerOf (base : Expression) (c : Cursor) : Except Refusal (Expression × Cursor) :=
  match c.skip.rest with
  | '^' :: rest =>
    let d := (c.skip.past ['^'] rest).skip
    let digits := d.rest.takeWhile Coefficient.isDigit
    if digits.isEmpty then d.refuse .exponent
    else
      .ok (.pow base d.offset (Coefficient.digitsValue digits),
        d.past digits (d.rest.dropWhile Coefficient.isDigit))
  | _ => .ok (base, c)

mutual

/-- An operand; `signed` says whether a minus sign stands right before it. -/
def operand : Nat → Bool → Cursor → Except Refusal (Expression × Cursor)
  | 0, _, c => c.refuse .operand
  | fuel + 1, signed, c =>
    let c := c.skip
    match c.rest with
    | '-' :: rest => do
      let (e, c) ← operand fuel true (c.past ['-'] rest)
      return (.neg e, c)
    | '(' :: rest => do
      let (e, c) ← operand fuel false (c.past ['('] rest)
      let (e, c) ← productFrom fuel e c
      let (e, c) ← sumFrom fuel e c
      let c := c.skip
      match c.rest with
      | ')' :: rest => powerOf e (c.past [')'] rest)
      | _ => c.refuse .operator
    | _ =>
      match leaf? c with
      | some (e, c) => powerOf e c
      | none => c.refuse (if signed then .signedOperand else .operand)

/-- The rest of a product that starts with `left`. -/
def productFrom : Nat → Expression → Cursor → Except Refusal (Expression × Cursor)
  | 0, left, c => .ok (left, c)
  | fuel + 1, left, c =>
    match c.skip.rest with
    | '*' :: rest => do
      let (e, c) ← operand fuel false (c.skip.past ['*'] rest)
      productFrom fuel (.mul left e) c
    | '/' :: rest => do
      let d := (c.skip.past ['/'] rest).skip
      let (e, c) ← operand fuel false d
      productFrom fuel (.div left d.offset e) c
    | _ => .ok (left, c)

/-- The rest of a sum that starts with `left`. -/
def sumFrom : Nat → Expression → Cursor → Except Refusal (Expression × Cursor)
  | 0, left, c => .ok (left, c)
  | fuel + 1, left, c =>
    match c.skip.rest with
    | '+' :: rest => do
      let (e, c) ← operand fuel false (c.skip.past ['+'] rest)
      let (e, c) ← productFrom fuel e c
      sumFrom fuel (.add left e) c
    | '-' :: rest => do
      let (e, c) ← operand fuel false (c.skip.past ['-'] rest)
      let (e, c) ← productFrom fuel e c
      sumFrom fuel (.sub left e) c
    | _ => .ok (left, c)

end

/-- A sum that fills the whole text. -/
def readChars (cs : List Char) : Except Refusal Expression := do
  let fuel := cs.length + 2
  let (e, c) ← operand fuel false ⟨0, cs⟩
  let (e, c) ← productFrom fuel e c
  let (e, c) ← sumFrom fuel e c
  let c := c.skip
  if c.rest.isEmpty then return e else c.refuse .operatorOrEnd

/-- Read the tree of an expression. -/
def read (text : String) : Except ModelError Expression :=
  match readChars text.toList with
  | .ok e => .ok e
  | .error r => .error (.expression r.offset r.fault)

end MarkovRegion.Expression

namespace MarkovRegion.RationalFunction

/-- Read the function of a weight expression. -/
def read (text : String) : Except ModelError RationalFunction := do
  (← Expression.read text).toFunction

end MarkovRegion.RationalFunction
