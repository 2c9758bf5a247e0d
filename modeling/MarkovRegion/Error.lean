/-!
# Errors of models and their texts

Each constructor is one cause.  `ModelError.message` is the only place where their wording stands.
-/

namespace MarkovRegion

/-- Why a weight expression is refused. -/
inductive ExpressionFault where
  /-- An operand was expected, and no minus sign has been read for it. -/
  | operand
  /-- An operand was expected after one or more minus signs. -/
  | signedOperand
  /-- The digits of an exponent were expected. -/
  | exponent
  /-- After an operand inside a parenthesis. -/
  | operator
  /-- After an operand outside every parenthesis. -/
  | operatorOrEnd
  /-- The right operand of a division is the zero function. -/
  | divisionByZero
  /-- The exponent does not fit into 32 bits. -/
  | exponentRange
  deriving DecidableEq, Repr

/-- The text of a fault. -/
def ExpressionFault.message : ExpressionFault → String
  | operand => "expected unary"
  | signedOperand => "expected neg_op or power"
  | exponent => "expected exponent"
  | operator => "expected add_op or mul_op"
  | operatorOrEnd => "expected EOI, add_op, or mul_op"
  | divisionByZero => "division by zero"
  | exponentRange => "exponent out of range"

/-- What can go wrong in reading, building and evaluating a model. -/
inductive ModelError where
  /-- The name is no identifier. -/
  | invalidParameterName (name : String)
  /-- The text is no exact number. -/
  | invalidNumber (text : String)
  /-- The expression is refused at this byte offset. -/
  | expression (offset : Nat) (fault : ExpressionFault)
  /-- The valuation gives no value to a parameter that occurs. -/
  | missingParameterValue (name : String)
  /-- The denominator of this function is zero. -/
  | divisionByZero (text : String)
  /-- A state at or beyond the number of states. -/
  | stateOutOfRange (state states : Nat)
  /-- A state without transitions. -/
  | deadlock (state : Nat)
  /-- Any other flaw of a model. -/
  | invalid (reason : String)
  /-- The model file cannot be read. -/
  | format (reason : String)
  /-- A sum of exponents does not fit into 32 bits.  This is no refusal: the computation stops. -/
  | overflow
  deriving DecidableEq, Repr

/-- The text of an error. -/
def ModelError.message : ModelError → String
  | invalidParameterName name => "Invalid parameter name `" ++ name ++ "`"
  | invalidNumber text => "Invalid number `" ++ text ++ "`"
  | expression offset fault =>
    "Expression parse error at offset " ++ toString offset ++ ": " ++ fault.message
  | missingParameterValue name => "No value given for parameter `" ++ name ++ "`"
  | divisionByZero text => "Division by zero while evaluating `" ++ text ++ "`"
  | stateOutOfRange state states =>
    "State " ++ toString state ++ " out of range (model has " ++ toString states ++ " states)"
  | deadlock state => "State " ++ toString state ++ " has no outgoing transitions"
  | invalid reason => "Invalid model: " ++ reason
  | format reason => "Malformed model file: " ++ reason
  | overflow => "attempt to add with overflow"

/-- Whether the computation stops here without an answer. -/
def ModelError.stops : ModelError → Bool
  | overflow => true
  | _ => false

end MarkovRegion
