import LazyDecl.Diagnostic
import LazyDecl.Input

/-! Parsers over the input that is left. A parser that fails still tells how far
it read, because recovery starts there. -/

namespace LazyDecl

/-- What was expected where a unit does not go on. -/
inductive SyntaxCause where
  | expectedTag
  | expectedStatementEnd
  | expectedExpressionEnd
  | expectedExpression
  | expectedCloseParen
  | expectedCloseBrace
  | expectedCloseBracket
  | expectedEntry
  | expectedElement
  | invalidInteger
  | invalidDecimal
  deriving DecidableEq

def SyntaxCause.message : SyntaxCause → String
  | expectedTag => "expect statement type identifier"
  | expectedStatementEnd => "expect ';' or newline after statement"
  | expectedExpressionEnd => "expect ';' or newline after expression"
  | expectedExpression => "expect expression"
  | expectedCloseParen => "expect ')' after expression"
  | expectedCloseBrace => "expect '\x7d' after builder"
  | expectedCloseBracket => "expect ']' after sequence"
  | expectedEntry => "expect table entry"
  | expectedElement => "expect sequence element"
  | invalidInteger => "invalid integer literal"
  | invalidDecimal => "invalid decimal literal"

structure SyntaxError where
  cause : SyntaxCause
  token : Token
  deriving DecidableEq

def SyntaxError.diagnostic (e : SyntaxError) : Diagnostic :=
  { phase := .parsing, severity := .error, message := e.cause.message, token := e.token }

abbrev Parser := EStateM SyntaxError Input

namespace Parser

def peek (v : View) : Parser Token := do return (← get).peek v

def check (v : View) (kind : TokenKind) : Parser Bool := do return (← get).check v kind

def advance (v : View) : Parser Token := modifyGet (·.advance v)

def fail (cause : SyntaxCause) (t : Token) : Parser α := throw ⟨cause, t⟩

/-- Takes the next token if `f` has a use for its kind. -/
def take? (v : View) (f : TokenKind → Option α) : Parser (Option (α × Token)) := do
  match f (← peek v).kind with
  | some a => return some (a, ← advance v)
  | none => return none

/-- Takes the next token if it is of this kind. -/
def accept (kind : TokenKind) : Parser (Option Token) := do
  if ← check .visible kind then return some (← advance .visible) else return none

/-- Takes the next token, which must be of this kind. -/
def expect (kind : TokenKind) (cause : SyntaxCause) : Parser Token := do
  match ← accept kind with
  | some t => return t
  | none => fail cause (← peek .visible)

/-- Repeats a step until it declines; one that reads nothing is the last. -/
def many (step : Parser (Option α)) (i : Input) : EStateM.Result SyntaxError Input (List α) :=
  match step i with
  | .error e j => .error e j
  | .ok none j => .ok [] j
  | .ok (some a) j =>
    if j.size < i.size then
      match many step j with
      | .ok as k => .ok (a :: as) k
      | .error e k => .error e k
    else .ok [a] j
termination_by i.size

end Parser

end LazyDecl
