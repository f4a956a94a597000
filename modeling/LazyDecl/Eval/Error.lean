import LazyDecl.Diagnostic
import LazyDecl.Value.Text

/-! What can go wrong while a unit is evaluated, and what is worth a warning. -/

namespace LazyDecl

inductive EvalCause where
  | expectedBinding
  | unknownName (name : String)
  | cyclicDeclaration (name : String)
  | divisionByZero
  | notBoolean (got : String)
  | notNumber (got : String)
  | notBooleans (operator got : String)
  | notNumbers (operator left right : String)
  | unsupportedComplement
  | expectedEntry
  | expectedElement
  | notArithmetic (operator : String)
  deriving DecidableEq

namespace EvalCause

def message : EvalCause → String
  | expectedBinding => "expect named binding"
  | unknownName name => "cannot find variable `" ++ name ++ "`"
  | cyclicDeclaration name => "cyclic declaration `" ++ name ++ "`"
  | divisionByZero => "division by zero"
  | notBoolean got => "operand must be a Boolean, got " ++ got
  | notNumber got => "operand must be a number, got " ++ got
  | notBooleans operator got => "operands of `" ++ operator ++ "` must be Booleans, got " ++ got
  | notNumbers operator left right =>
    "operands of `" ++ operator ++ "` must be numbers, got " ++ left ++ " and " ++ right
  | unsupportedComplement => "unsupported operation: `~`"
  | expectedEntry => "expect table entry"
  | expectedElement => "expect sequence element"
  | notArithmetic operator => "`" ++ operator ++ "` is not an arithmetic operator"

/-- Trees that no source text spells, and the operator without a meaning, are
faults. -/
def severity : EvalCause → Severity
  | unsupportedComplement | expectedEntry | expectedElement | notArithmetic _ => .fault
  | _ => .error

end EvalCause

structure EvalError where
  cause : EvalCause
  token : Token
  deriving DecidableEq

def EvalError.diagnostic (e : EvalError) : Diagnostic :=
  { phase := .evaluation, severity := e.cause.severity, message := e.cause.message, token := e.token }

inductive WarningCause where
  | redeclared (name : String)
  | duplicateKey (key : Value)

def WarningCause.message : WarningCause → String
  | redeclared name => "redeclared `" ++ name ++ "`"
  | duplicateKey key => "duplicate key in table: " ++ key.text

structure EvalWarning where
  cause : WarningCause
  token : Token

def EvalWarning.diagnostic (w : EvalWarning) : Diagnostic :=
  { phase := .evaluation, severity := .warning, message := w.cause.message, token := w.token }

end LazyDecl
