import LazyDecl.Eval.Program
import LazyDecl.Grammar.Units
import LazyDecl.Segment

/-! Sessions: source texts run one after the other against one table of
declarations. All phases always run, so that what was read without an error is
evaluated beside what was not. -/

namespace LazyDecl

/-- What one run of a session came to. -/
structure Outcome where
  values : List Value
  lexical : Diagnostics
  syntactic : Diagnostics
  evaluation : Diagnostics

namespace Outcome

def phases (o : Outcome) : List Diagnostics := [o.lexical, o.syntactic, o.evaluation]

def errors (o : Outcome) : List Diagnostic := o.phases.flatMap (·.errors)

def warnings (o : Outcome) : List Diagnostic := o.phases.flatMap (·.warnings)

def hasErrors (o : Outcome) : Bool := o.phases.any (·.hasErrors)

/-- One line for each error, then one for each warning. -/
def report (o : Outcome) : List String := (o.errors ++ o.warnings).map (·.text)

/-- The values, or the first error of the earliest phase that has one. -/
def result (o : Outcome) : Except Diagnostic (List Value) :=
  match o.errors with
  | [] => .ok o.values
  | d :: _ => .error d

end Outcome

structure Session where
  declarations : Declarations Expr Value := ∅

namespace Session

/-- Runs a source text. -/
def run (s : Session) (mode : Mode) (source : String) : Outcome × Session :=
  let (program, errors) := Grammar.program mode (tokens source)
  let (evaluation, declarations) := program.evaluate s.declarations
  ({ values := evaluation.values
     lexical := scanDiagnostics source
     syntactic := Grammar.diagnostics errors
     evaluation := evaluation.diagnostics }, { declarations })

/-- Runs a source text as input of the prompt, up to its result. What it declared
stays, even if it failed. -/
def eval (s : Session) (source : String) : Except Diagnostic (List Value) × Session :=
  let (outcome, next) := s.run .interactive source
  (outcome.result, next)

end Session

end LazyDecl
