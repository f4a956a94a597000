import LazyDecl.Decimal.Text
import LazyDecl.Expr
import LazyDecl.Grammar.Parser
import LazyDecl.Text.Quoted

/-! The grammar of expressions and statements. Six levels of infix operators
stand over the operand, which is a prefix operator with its operand or a
binding; the right side of a binding is again a whole expression. Each parser is
given the parser of operands, which is tied to itself at the end: it is only
ever called on less input. -/

namespace LazyDecl.Grammar

open LazyDecl.Parser

/-- The strength of infix operators, the weakest first. -/
inductive Level where
  | or
  | and
  | equality
  | comparison
  | term
  | factor
  deriving DecidableEq

/-- The node that an operator of this level builds. -/
def infixNode? : Level → TokenKind → Option (Token → Expr → Expr → Expr)
  | .or, .doublePipe => some (.logical .or)
  | .and, .doubleAmpersand => some (.logical .and)
  | .equality, .equalEqual => some (.binary .equal)
  | .equality, .bangEqual => some (.binary .notEqual)
  | .comparison, .less => some (.binary .less)
  | .comparison, .lessEqual => some (.binary .lessEqual)
  | .comparison, .greater => some (.binary .greater)
  | .comparison, .greaterEqual => some (.binary .greaterEqual)
  | .term, .plus => some (.binary .add)
  | .term, .minus => some (.binary .sub)
  | .factor, .star => some (.binary .mul)
  | .factor, .slash => some (.binary .div)
  | _, _ => none

def prefixOp? : TokenKind → Option UnaryOp
  | .bang => some .not
  | .minus => some .negate
  | .plus => some .plus
  | .tilde => some .complement
  | _ => none

/-- The literal that a token denotes, if tokens of its kind denote any. -/
def literal? (t : Token) : Option (Except SyntaxCause Literal) :=
  match t.kind with
  | .boolean b => some (.ok (.boolean b))
  | .string => some (.ok (.string (Quoted.decode t.lexeme)))
  | .integer => some <|
    match Numeral.integer? t.lexeme.toList with
    | some n => .ok (.integer n)
    | none => .error .invalidInteger
  | .decimal => some <|
    match Decimal.ofText? t.lexeme with
    | some d => .ok (.decimal d)
    | none => .error .invalidDecimal
  | _ => none

/-- Operands joined from the left by the operators of one level. -/
def infixLevel (level : Level) (operand : Parser Expr) : Parser Expr := do
  let first ← operand
  let joined ← many do
    match ← take? .visible (infixNode? level) with
    | some (node, operator) => return some (node operator, ← operand)
    | none => return none
  return joined.foldl (fun left (node, right) => node left right) first

def expressionOver (operand : Parser Expr) : Parser Expr :=
  infixLevel .or <| infixLevel .and <| infixLevel .equality <|
    infixLevel .comparison <| infixLevel .term <| infixLevel .factor operand

/-- The end of a unit: the end of the input, a line end that was stepped over, a
semicolon or line end, which is taken, or the brace that closes a builder. -/
def unitEnd (inBuilder : Bool) (cause : SyntaxCause) : Parser Unit := do
  let i ← get
  let t := i.peek .hidden
  if i.isAtEnd .hidden || i.skipped then return
  else if t.kind = .semicolon || t.kind = .eol then let _ ← advance .hidden
  else if inBuilder && t.kind = .rightBrace then return
  else fail cause t

def statementOver (operand : Parser Expr) (inBuilder : Bool) : Parser Statement := do
  let tag ← expect .identifier .expectedTag
  let value ← expressionOver operand
  unitEnd inBuilder .expectedStatementEnd
  return { tag, value }

/-- The statements of a builder and its closing brace. -/
def builderOver (operand : Parser Expr) (kind : Token) : Parser Expr := do
  let _ ← advance .visible
  let body ← many do
    let i ← get
    if i.check .visible .rightBrace || i.isAtEnd .visible then return none
    else return some (← statementOver operand true)
  let _ ← expect .rightBrace .expectedCloseBrace
  return .builder kind body

def isSeparator (kind : TokenKind) : Bool :=
  kind = .eol || kind = .comma || kind = .semicolon

/-- Takes separators and tells whether there were any. A line end that was
stepped over is one. -/
def separators : Parser Bool := do
  let stepped := (← get).skipped
  let run ← many (take? .hidden fun kind => if isSeparator kind then some () else none)
  return stepped || !run.isEmpty

/-- A further element of a sequence that starts with `first`. Bindings and other
expressions do not mix. -/
def elementOver (operand : Parser Expr) (first : Expr) : Parser Expr := do
  let element ← expressionOver operand
  if first.isBinding && !element.isBinding then fail .expectedEntry element.anchor
  else if !first.isBinding && element.isBinding then fail .expectedElement element.anchor
  else return element

/-- The elements of a sequence and its closing bracket. -/
def sequenceOver (operand : Parser Expr) (opening : Token) : Parser Expr := do
  if (← accept .rightBracket).isSome then return .sequence opening []
  let first ← expressionOver operand
  let others ← many do
    if (← separators) && !(← check .visible .rightBracket) then
      return some (← elementOver operand first)
    else return none
  let _ ← expect .rightBracket .expectedCloseBracket
  return .sequence opening (first :: others)

/-- Behind a name: a brace on the same line makes it a builder. -/
def nameOver (operand : Parser Expr) (t : Token) : Parser Expr := do
  let i ← get
  if !i.skipped && i.check .hidden .leftBrace then builderOver operand t else return .name t

def primaryOver (operand : Parser Expr) : Parser Expr := do
  let t ← peek .visible
  match literal? t with
  | some read =>
    let _ ← advance .visible
    match read with
    | .ok value => return .literal value t
    | .error cause => fail cause t
  | none =>
    match t.kind with
    | .identifier =>
      let _ ← advance .visible
      nameOver operand t
    | .leftParen =>
      let _ ← advance .visible
      let inner ← expressionOver operand
      let _ ← expect .rightParen .expectedCloseParen
      return .grouping inner
    | .leftBracket =>
      let _ ← advance .visible
      sequenceOver operand t
    | _ => fail .expectedExpression t

/-- A primary, or a binding with a primary on its left. -/
def bindingOver (operand : Parser Expr) : Parser Expr := do
  let left ← primaryOver operand
  match ← accept .colon with
  | some colon => return .binding left colon (← expressionOver operand)
  | none => return left

def operandOver (operand : Parser Expr) : Parser Expr := do
  match ← take? .visible prefixOp? with
  | some (op, operator) => return .unary op operator (← operand)
  | none => bindingOver operand

/-- An operand holds operands only behind a token of its own, so the call on
input that is not shorter never comes about. -/
def operand (i : Input) : EStateM.Result SyntaxError Input Expr :=
  operandOver (fun j =>
    if j.size < i.size then operand j else .error ⟨.expectedExpression, j.peek .visible⟩ j) i
termination_by i.size

def expression : Parser Expr := expressionOver operand

/-- A statement outside builders. -/
def statement : Parser Statement := statementOver operand false

end LazyDecl.Grammar
