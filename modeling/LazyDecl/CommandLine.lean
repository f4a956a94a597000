import LazyDecl.Prompt
import LazyDecl.Text.Line

/-! The commands of the program, up to reading and writing: what each prints and
the code it ends with. -/

namespace LazyDecl

/-- Why an input cannot be read. -/
inductive ReadError where
  | notUtf8
  | noSuchFile
  deriving DecidableEq

def ReadError.message : ReadError → String
  | notUtf8 => "stream did not contain valid UTF-8"
  | noSuchFile => "No such file or directory (os error 2)"

/-- What is printed on the two outputs, and the exit code. -/
structure Transcript where
  out : String := ""
  err : String := ""
  code : UInt32 := 0
  deriving DecidableEq

namespace Transcript

/-- Prints `out` and `err` before the rest. -/
def after (out err : String) (t : Transcript) : Transcript :=
  { t with out := out ++ t.out, err := err ++ t.err }

end Transcript

namespace CommandLine

def dataError : UInt32 := 65

def softwareError : UInt32 := 70

def ioError : UInt32 := 74

def unlines (lines : List String) : String := String.join (lines.map (· ++ "\n"))

/-- The values of an outcome, a line each. -/
def shown (o : Outcome) : String := unlines (o.values.map Value.text)

/-- The report of an outcome, a line each. -/
def reported (o : Outcome) : String := unlines o.report

def exitCode (o : Outcome) : UInt32 :=
  if o.lexical.hasErrors || o.syntactic.hasErrors then dataError
  else if o.evaluation.hasErrors then softwareError
  else 0

/-- Runs a source text in a session of its own. -/
def runSource (mode : Mode) (source : String) : Transcript :=
  let (o, _) := ({} : Session).run mode source
  { out := shown o, err := reported o, code := exitCode o }

/-- The message about an input that cannot be read as a whole. -/
def unreadable (message : String) : Transcript :=
  { err := "error: I/O error: " ++ message ++ "\n", code := ioError }

/-- The message about a line that cannot be read. -/
def unreadableLine (message : String) : Transcript :=
  { err := "error: line editor error: " ++ message ++ "\n", code := ioError }

/-- Runs the bytes of a file. -/
def runFile (bytes : List UInt8) : Transcript :=
  match Line.text? bytes with
  | some source => runSource .batch source
  | none => unreadable ReadError.notUtf8.message

/-- What a prompt prints in answer to a line, and the prompt for the next line unless this one is
the last. -/
def answer (p : Prompt) (bytes : List UInt8) : Transcript × Option Prompt :=
  match Line.entered? bytes with
  | none => (unreadableLine ReadError.notUtf8.message, none)
  | some line =>
    match p.react line with
    | .leave => ({}, none)
    | .ignore => ({}, some p)
    | .take =>
      match p.push line with
      | (some o, next) => ({ out := shown o, err := reported o }, some next)
      | (none, next) => ({}, some next)

/-- A prompt that reads the given lines and then meets the end of its input. -/
def converse (p : Prompt) : List (List UInt8) → Transcript
  | [] => { out := p.mark }
  | bytes :: rest =>
    match answer p bytes with
    | (printed, some next) => (converse next rest).after (p.mark ++ printed.out) printed.err
    | (printed, none) => printed.after p.mark ""

/-- A prompt on the bytes of an input. -/
def runPrompt (bytes : List UInt8) : Transcript :=
  converse {} (Line.split bytes)

inductive Command where
  | run (path : String)
  | eval (source : String)
  | prompt
  deriving DecidableEq

/-- The command that the arguments spell; without any it is the prompt. -/
def command? : List String → Option Command
  | [] | ["repl"] => some .prompt
  | ["run", path] | ["run", "--", path] => some (.run path)
  | ["eval", source] | ["eval", "--", source] => some (.eval source)
  | _ => none

def usage : String := "usage: [run <script> | eval <source> | repl]\n"

end CommandLine

end LazyDecl
