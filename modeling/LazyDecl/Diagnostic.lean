import LazyDecl.Token

/-! Diagnostics: a message of one phase, pinned to a token. Every phase
collects its errors and its warnings apart. -/

namespace LazyDecl

inductive Phase where
  | scanning
  | parsing
  | evaluation
  deriving DecidableEq

/-- The word that opens every diagnostic of the phase. -/
def Phase.label : Phase → String
  | scanning => "lexer"
  | parsing => "parser"
  | evaluation => "runtime"

/-- An error ends the unit it arises in, a warning ends nothing, and a fault
marks an operation that no well-formed program asks for. -/
inductive Severity where
  | error
  | warning
  | fault
  deriving DecidableEq

structure Diagnostic where
  phase : Phase
  severity : Severity
  message : String
  token : Token
  deriving DecidableEq

/-- One line of a report. Only warnings carry their severity in words. -/
def Diagnostic.text (d : Diagnostic) : String :=
  (if d.severity = .warning then "warning: " else "") ++ d.phase.label ++ ": " ++ d.message ++
    " [line " ++ toString d.token.start.line ++ ", col " ++ toString d.token.start.column ++ "]"

/-- What one phase has to report, in the order in which it arose. -/
structure Diagnostics where
  phase : Phase
  errors : List Diagnostic := []
  warnings : List Diagnostic := []

namespace Diagnostics

/-- Files a diagnostic by its severity; faults stand among the errors. -/
def add (ds : Diagnostics) (d : Diagnostic) : Diagnostics :=
  match d.severity with
  | .warning => { ds with warnings := ds.warnings ++ [d] }
  | .error | .fault => { ds with errors := ds.errors ++ [d] }

/-- Files an error of the collection's own phase. -/
def addError (ds : Diagnostics) (t : Token) (message : String) : Diagnostics :=
  ds.add { phase := ds.phase, severity := .error, message, token := t }

/-- Files a warning of the collection's own phase. -/
def addWarning (ds : Diagnostics) (t : Token) (message : String) : Diagnostics :=
  ds.add { phase := ds.phase, severity := .warning, message, token := t }

def hasErrors (ds : Diagnostics) : Bool := !ds.errors.isEmpty

def isEmpty (ds : Diagnostics) : Bool := ds.errors.isEmpty && ds.warnings.isEmpty

end Diagnostics

end LazyDecl
