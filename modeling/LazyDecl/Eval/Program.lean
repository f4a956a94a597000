import LazyDecl.Eval.Expression
import LazyDecl.Program

/-! Programs are evaluated unit by unit. Each unit yields a value, installs a
declaration, or fails on its own; the table of declarations and the warnings go
on from one to the next. -/

namespace LazyDecl

namespace Eval

/-- The tag of a statement that declares instead of yielding a value. -/
def declarationTag : String := "decl"

/-- Installs the right side of a binding under the name on its left. -/
def declare (s : Statement) : Eval Unit := do
  match s.value with
  | .binding left _ body =>
    match left.name? with
    | none => fail .expectedBinding left.anchor
    | some name =>
      let d := (← get).declarations
      modify fun s => { s with declarations := d.declare name.lexeme (.deferred body) }
      if d.contains name.lexeme then warn (.redeclared name.lexeme) name
  | _ => fail .expectedBinding s.tag

def statement (s : Statement) : Eval (Option Value) := do
  if s.tag.lexeme = declarationTag then
    declare s
    return none
  else return some (← value s.value)

/-- Follows a reference to the declaration that it names. -/
def dereference (anchor : Token) : Value → Eval Value
  | .reference name => do
    match (← get).declarations.find? name with
    | none => return .reference name
    | some memo => memo.force (put name) ⟨.cyclicDeclaration name, anchor⟩ value
  | v => pure v

/-- A unit of the prompt. -/
def item : Item → Eval (Option Value)
  | .statement s => do
    match ← statement s with
    | some v => return some (← dereference s.tag v)
    | none => return none
  | .expression e => do return some (← dereference e.anchor (← value e))

/-- Runs units in order, past those that fail. -/
def all : List (Eval α) → EvalState → List (Except EvalError α) × EvalState
  | [], s => ([], s)
  | u :: us, s =>
    match u s with
    | .ok a t => let (rest, last) := all us t; (.ok a :: rest, last)
    | .error e t => let (rest, last) := all us t; (.error e :: rest, last)

end Eval

/-- The units of a program. -/
def Program.units : Program → List (Eval (Option Value))
  | .batch statements => statements.map Eval.statement
  | .interactive items => items.map Eval.item

/-- What the evaluation of a program came to: one result for each unit. -/
structure Evaluation where
  results : List (Except EvalError (Option Value))
  warnings : List EvalWarning

namespace Evaluation

/-- The values that were yielded. -/
def values (e : Evaluation) : List Value :=
  e.results.filterMap fun
    | .ok v => v
    | .error _ => none

def errors (e : Evaluation) : List EvalError :=
  e.results.filterMap fun
    | .ok _ => none
    | .error err => some err

def diagnostics (e : Evaluation) : Diagnostics :=
  { phase := .evaluation
    errors := e.errors.map EvalError.diagnostic
    warnings := e.warnings.map EvalWarning.diagnostic }

end Evaluation

/-- Evaluates a program on a table of declarations. -/
def Program.evaluate (p : Program) (d : Declarations Expr Value) :
    Evaluation × Declarations Expr Value :=
  let (results, s) := Eval.all p.units { declarations := d }
  ({ results, warnings := s.warnings }, s.declarations)

end LazyDecl
