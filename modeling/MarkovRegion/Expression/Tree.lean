import MarkovRegion.Algebra.RationalFunction

/-!
# Weight expressions and the functions they denote

`Expression` is the tree of a weight expression.  Divisions and powers keep the byte offset of their
right side, which only the errors of `toFunction` use.
-/

namespace MarkovRegion

/-- Arithmetic over numbers and parameters. -/
inductive Expression where
  /-- A number. -/
  | number (value : Rat)
  /-- A parameter. -/
  | parameter (p : Parameter)
  /-- A change of sign. -/
  | neg (e : Expression)
  /-- A sum. -/
  | add (l r : Expression)
  /-- A difference. -/
  | sub (l r : Expression)
  /-- A product. -/
  | mul (l r : Expression)
  /-- A quotient, whose divisor stands at the given offset. -/
  | div (l : Expression) (offset : Nat) (r : Expression)
  /-- A power, whose exponent stands at the given offset. -/
  | pow (base : Expression) (offset : Nat) (exponent : Nat)
  deriving DecidableEq

namespace Expression

/-- The rational function of an expression, computed from left to right with checked exponents. -/
def toFunction : Expression → Except ModelError RationalFunction
  | number value => .ok (.constant value)
  | parameter p => .ok (.ofParameter p)
  | neg e => do return (← e.toFunction).neg
  | add l r => do
    let f ← l.toFunction
    let g ← r.toFunction
    f.addChecked g
  | sub l r => do
    let f ← l.toFunction
    let g ← r.toFunction
    f.subChecked g
  | mul l r => do
    let f ← l.toFunction
    let g ← r.toFunction
    f.mulChecked g
  | div l offset r => do
    let f ← l.toFunction
    let g ← r.toFunction
    match ← f.divChecked? g with
    | some h => return h
    | none => throw (.expression offset .divisionByZero)
  | pow base offset exponent => do
    let f ← base.toFunction
    if exponent < exponentLimit then f.powChecked exponent
    else throw (.expression offset .exponentRange)

end Expression

end MarkovRegion
