import LazyDecl.Declarations
import LazyDecl.Eval.Operator

/-! The value of an expression. A name is looked up in the table of declarations
and forced; the expression that it stands for is evaluated at most once with
success. -/

namespace LazyDecl

structure EvalState where
  declarations : Declarations Expr Value
  warnings : List EvalWarning := []

abbrev Eval := EStateM EvalError EvalState

namespace Eval

def fail (cause : EvalCause) (t : Token) : Eval α := throw ⟨cause, t⟩

def lift (t : Token) : Except EvalCause α → Eval α
  | .ok a => pure a
  | .error cause => fail cause t

def warn (cause : WarningCause) (t : Token) : Eval Unit :=
  modify fun s => { s with warnings := s.warnings ++ [⟨cause, t⟩] }

def put (name : String) (memo : Memo Expr Value) (s : EvalState) : EvalState :=
  { s with declarations := s.declarations.set name memo }

mutual

/-- The value of an expression, where `force` gives the value of a name. A bare
name in front of a colon is not looked up, and a builder is left as it is. -/
def valueOver (force : Token → Eval Value) : Expr → Eval Value
  | .literal value _ => pure (.ofLiteral value)
  | .name t => force t
  | .grouping inner => valueOver force inner
  | .unary op operator operand => do
    if op = .complement then fail .unsupportedComplement operator
    lift operator (op.apply (← valueOver force operand))
  | .binary op operator left right => do
    let l ← valueOver force left
    let r ← valueOver force right
    lift operator (op.apply operator.lexeme l r)
  | .logical op operator left right => do
    let l ← valueOver force left
    match l.boolean? with
    | none => fail (.notBooleans operator.lexeme l.typeName) operator
    | some b =>
      if b = op.settledBy then return .boolean b
      let r ← valueOver force right
      if r.boolean?.isNone then fail (.notBooleans operator.lexeme r.typeName) operator
      return r
  | .binding left _ right => do
    let key ← match left.name? with
      | some t => pure (.reference t.lexeme)
      | none => valueOver force left
    return .pair key (← valueOver force right)
  | .sequence _ elements => do
    if elements.head?.any Expr.isBinding then return .table (← entriesOver force [] elements)
    else return .list (← itemsOver force elements)
  | .builder kind _ => pure (.builder kind.lexeme)

/-- The items of a list, none of which may be a binding. -/
def itemsOver (force : Token → Eval Value) : List Expr → Eval (List Value)
  | [] => pure []
  | e :: es => do
    if e.isBinding then fail .expectedElement e.anchor
    let v ← valueOver force e
    return v :: (← itemsOver force es)

/-- Adds the entries of a table, each of which must be a binding. -/
def entriesOver (force : Token → Eval Value) (t : Table) : List Expr → Eval Table
  | [] => pure t
  | .binding left colon right :: es => do
    let key ← match left.name? with
      | some name => pure (.string name.lexeme)
      | none => valueOver force left
    let v ← valueOver force right
    if t.contains key then warn (.duplicateKey key) colon
    entriesOver force (t.insert key v) es
  | e :: _ => fail .expectedEntry e.anchor

end

/-- Forces the declaration of a name, where `force` serves the names in it. -/
def forceOver (force : Token → Eval Value) (t : Token) : Eval Value := do
  match (← get).declarations.find? t.lexeme with
  | none => fail (.unknownName t.lexeme) t
  | some memo =>
    memo.force (put t.lexeme) ⟨.cyclicDeclaration t.lexeme, t⟩ (valueOver force)

/-- The value of a name. Names are forced one inside the other, each marked while
it is forced, so that fewer of them are pending on every such call. -/
def force (t : Token) (s : EvalState) : EStateM.Result EvalError EvalState Value :=
  forceOver (fun u s' =>
    if s'.declarations.pending < s.declarations.pending then force u s'
    else .error ⟨.cyclicDeclaration u.lexeme, u⟩ s') t s
termination_by s.declarations.pending

def value (e : Expr) : Eval Value := valueOver force e

end Eval

end LazyDecl
