import LazyDecl.Decimal.Division
import LazyDecl.Value.Basic

/-! Arithmetic on values. Two integers stay integers; as soon as one operand is a
decimal, both are. -/

namespace LazyDecl

/-- Two numbers of one kind. -/
inductive Operands where
  | integers (a b : Int)
  | decimals (a b : Decimal)
  deriving DecidableEq

inductive ArithmeticError where
  | divisionByZero
  | notArithmetic
  deriving DecidableEq

namespace Operands

/-- The operands that two values make, if both are numbers. -/
def ofValues? : Value → Value → Option Operands
  | .integer a, .integer b => some (integers a b)
  | .decimal a, .decimal b => some (decimals a b)
  | .integer a, .decimal b => some (decimals (.ofInt a) b)
  | .decimal a, .integer b => some (decimals a (.ofInt b))
  | _, _ => none

/-- Applies one of the four arithmetic operators. Integer division drops the
fraction of the quotient. -/
def apply (op : BinaryOp) : Operands → Except ArithmeticError Value
  | integers a b =>
    match op with
    | .add => .ok (.integer (a + b))
    | .sub => .ok (.integer (a - b))
    | .mul => .ok (.integer (a * b))
    | .div => if b = 0 then .error .divisionByZero else .ok (.integer (a.tdiv b))
    | _ => .error .notArithmetic
  | decimals a b =>
    match op with
    | .add => .ok (.decimal (a.add b))
    | .sub => .ok (.decimal (a.sub b))
    | .mul => .ok (.decimal (a.mul b))
    | .div => if b.isZero then .error .divisionByZero else .ok (.decimal (a.div b))
    | _ => .error .notArithmetic

def compare : Operands → Ordering
  | integers a b => Ord.compare a b
  | decimals a b => a.compare b

end Operands

end LazyDecl
