import LazyDecl.Grammar.Expression
import LazyDecl.Program

/-! Programs from tokens. Units are read one after the other; a unit that fails
is reported once, and reading goes on behind the next line end or semicolon. -/

namespace LazyDecl.Grammar

open LazyDecl.Parser

/-- What is left behind the next line end or semicolon. -/
def pastBoundary : List Token → List Token
  | [] => []
  | t :: ts =>
    if t.kind = .eof then t :: ts
    else if t.kind = .eol || t.kind = .semicolon then ts
    else pastBoundary ts

/-- Where reading goes on after a unit that began at `start` has failed at `i`.
A unit that has stepped over a line end has its boundary behind it. -/
def recover (start i : Input) : Input :=
  if i.size ≠ start.size && i.skipped then i
  else { i with rest := pastBoundary i.rest, skipped := false }

/-- The input at the start of a unit; only the prompt drops line ends there. -/
def unitStart (mode : Mode) (i : Input) : Input :=
  match mode with
  | .batch => { i with skipped := false }
  | .interactive =>
    { i with rest := i.rest.dropWhile fun t => t.hidden && t.kind ≠ .eof, skipped := false }

/-- One unit or its error, and the input behind it. -/
def turn (unit : Parser α) (i : Input) : Except SyntaxError α × Input :=
  match unit i with
  | .ok a j => (.ok a, j)
  | .error e j => (.error e, recover i j)

/-- All units in order, with the errors of those that failed in their places. -/
def units (mode : Mode) (unit : Parser α) (i : Input) : List (Except SyntaxError α) :=
  if i.isAtEnd .visible then []
  else
    let (result, j) := turn unit (unitStart mode i)
    if j.size < i.size then result :: units mode unit j else [result]
termination_by i.size

/-- At the prompt a name opens a statement unless the unit ends behind it. -/
def opensStatement (i : Input) : Bool :=
  i.check .visible .identifier &&
    match (i.peekNext .hidden).kind with
    | .semicolon | .eol | .eof => false
    | _ => true

/-- A unit of the prompt. -/
def item : Parser Item := do
  if opensStatement (← get) then return .statement (← statement)
  else
    let e ← expression
    unitEnd false .expectedExpressionEnd
    return .expression e

/-- The units that were read. -/
def accepted (results : List (Except SyntaxError α)) : List α :=
  results.filterMap Except.toOption

/-- The errors of the units that were not. -/
def rejected (results : List (Except SyntaxError α)) : List SyntaxError :=
  results.filterMap fun
    | .ok _ => none
    | .error e => some e

/-- The program that a run of tokens holds, and the errors in it. -/
def program (mode : Mode) (ts : List Token) : Program × List SyntaxError :=
  match mode with
  | .batch =>
    let results := units .batch statement (.ofTokens ts)
    (.batch (accepted results), rejected results)
  | .interactive =>
    let results := units .interactive item (.ofTokens ts)
    (.interactive (accepted results), rejected results)

/-- Syntax errors as the diagnostics of their phase. -/
def diagnostics (errors : List SyntaxError) : Diagnostics :=
  { phase := .parsing, errors := errors.map SyntaxError.diagnostic }

end LazyDecl.Grammar
