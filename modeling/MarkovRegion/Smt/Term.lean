import MarkovRegion.Number.Coefficient

/-!
# Terms of real arithmetic

The terms that are asserted to a solver, and their texts in the solver's language.  An empty sum is
written `0.0`, an empty product `1.0`, an empty conjunction `true` and an empty disjunction `false`;
a sum, product, conjunction or disjunction of one term is written as that term.
-/

namespace MarkovRegion.Smt

/-- The sorts of variables. -/
inductive ValueSort where
  | bool
  | real
  deriving DecidableEq, Repr

/-- The text of a sort. -/
def ValueSort.write : ValueSort → String
  | bool => "Bool"
  | real => "Real"

/-- Terms of real arithmetic with Boolean connectives. -/
inductive Term where
  | var (name : String)
  | real (value : Rat)
  | bool (value : Bool)
  | sum (terms : List Term)
  | product (terms : List Term)
  | sub (left right : Term)
  | neg (inner : Term)
  | eq (left right : Term)
  | lt (left right : Term)
  | le (left right : Term)
  | gt (left right : Term)
  | ge (left right : Term)
  | conj (terms : List Term)
  | disj (terms : List Term)
  | not (inner : Term)
  | implies (left right : Term)

namespace Term

/-! ## Building -/

/-- The term of an integer. -/
def int (n : Int) : Term := real (Rat.ofInt n)

/-- Add a term; a sum on the left is extended. -/
def plus : Term → Term → Term
  | sum terms, t => sum (terms ++ [t])
  | s, t => sum [s, t]

/-- Multiply by a term; a product on the left is extended. -/
def times : Term → Term → Term
  | product terms, t => product (terms ++ [t])
  | s, t => product [s, t]

/-- The term that a value lies between two others. -/
def within (value lower upper : Term) : Term := conj [ge value lower, le value upper]

/-! ## Writing -/

/-- The text of the magnitude of a number. -/
def writeMagnitude (numerator denominator : Nat) : String :=
  if denominator = 1 then toString numerator ++ ".0"
  else "(/ " ++ toString numerator ++ ".0 " ++ toString denominator ++ ".0)"

/-- The text of an exact number. -/
def writeReal (value : Rat) : String :=
  let body := writeMagnitude value.num.natAbs value.den
  if value.num < 0 then "(- " ++ body ++ ")" else body

/-- The text of an operator with two operands. -/
def writeBinary (op left right : String) : String :=
  "(" ++ op ++ " " ++ left ++ " " ++ right ++ ")"

/-- The text of an operator with any number of operands. -/
def writeMany (op neutral : String) : List String → String
  | [] => neutral
  | [single] => single
  | operands => "(" ++ op ++ " " ++ Text.join " " operands ++ ")"

mutual

/-- The text of a term. -/
def write : Term → String
  | var name => name
  | real value => writeReal value
  | bool value => if value then "true" else "false"
  | sum terms => writeMany "+" "0.0" (writeAll terms)
  | product terms => writeMany "*" "1.0" (writeAll terms)
  | sub left right => writeBinary "-" left.write right.write
  | neg inner => "(- " ++ inner.write ++ ")"
  | eq left right => writeBinary "=" left.write right.write
  | lt left right => writeBinary "<" left.write right.write
  | le left right => writeBinary "<=" left.write right.write
  | gt left right => writeBinary ">" left.write right.write
  | ge left right => writeBinary ">=" left.write right.write
  | conj terms => writeMany "and" "true" (writeAll terms)
  | disj terms => writeMany "or" "false" (writeAll terms)
  | not inner => "(not " ++ inner.write ++ ")"
  | implies left right => writeBinary "=>" left.write right.write

/-- The texts of terms. -/
def writeAll : List Term → List String
  | [] => []
  | t :: ts => t.write :: writeAll ts

end

end Term

end MarkovRegion.Smt
