import LazyDecl.Arithmetic
import LazyDecl.Eval.Error

/-! What operators do to values. -/

namespace LazyDecl

/-- A prefix operator on the value of its operand. -/
def UnaryOp.apply : UnaryOp → Value → Except EvalCause Value
  | not, .boolean b => .ok (.boolean !b)
  | not, v => .error (.notBoolean v.typeName)
  | negate, .integer n => .ok (.integer (-n))
  | negate, .decimal d => .ok (.decimal d.neg)
  | plus, .integer n => .ok (.integer n)
  | plus, .decimal d => .ok (.decimal d)
  | complement, _ => .error .unsupportedComplement
  | _, v => .error (.notNumber v.typeName)

namespace BinaryOp

/-- Two numbers, or the complaint that they are not. -/
def operands (operator : String) (left right : Value) : Except EvalCause Operands :=
  match Operands.ofValues? left right with
  | some operands => .ok operands
  | none => .error (.notNumbers operator left.typeName right.typeName)

def arithmetic (op : BinaryOp) (operator : String) (left right : Value) :
    Except EvalCause Value := do
  match (← operands operator left right).apply op with
  | .ok value => .ok value
  | .error .divisionByZero => .error .divisionByZero
  | .error .notArithmetic => .error (.notArithmetic operator)

def ordered (holds : Ordering → Bool) (operator : String) (left right : Value) :
    Except EvalCause Value := do
  return .boolean (holds (← operands operator left right).compare)

/-- An infix operator on two values; `operator` is how it is written. -/
def apply (op : BinaryOp) (operator : String) (left right : Value) : Except EvalCause Value :=
  match op with
  | equal => .ok (.boolean (left == right))
  | notEqual => .ok (.boolean (left != right))
  | less => ordered Ordering.isLT operator left right
  | lessEqual => ordered Ordering.isLE operator left right
  | greater => ordered Ordering.isGT operator left right
  | greaterEqual => ordered Ordering.isGE operator left right
  | add =>
    if left.isString || right.isString then .ok (.string (left.text ++ right.text))
    else arithmetic add operator left right
  | sub | mul | div => arithmetic op operator left right

end BinaryOp

/-- The left operand that settles a logical operator on its own. -/
def LogicalOp.settledBy : LogicalOp → Bool
  | and => false
  | or => true

end LazyDecl
