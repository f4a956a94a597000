import LazyDecl.CommandLine

/-! The command line. -/

namespace LazyDecl.CommandLine

def print (t : Transcript) : IO UInt32 := do
  IO.print t.out
  IO.eprint t.err
  return t.code

/-- All bytes up to the end of a stream. -/
partial def readBytes (input : IO.FS.Stream) (before : ByteArray) : IO ByteArray := do
  let bytes ← input.read 4096
  if bytes.isEmpty then return before else readBytes input (before ++ bytes)

/-- The bytes of the next line, its newline included; none at the end. -/
partial def readLine (input : IO.FS.Stream) : IO (List UInt8) := do
  match (← input.read 1).toList with
  | [] => return []
  | b :: _ => if b = Line.newline then return [b] else return b :: (← readLine input)

def readScript (path : String) : IO ByteArray := do
  if path = "-" then readBytes (← IO.getStdin) ByteArray.empty else IO.FS.readBinFile path

def ioMessage : IO.Error → String
  | .noFileOrDirectory .. => ReadError.noSuchFile.message
  | e => toString e

/-- An action, or the message of the error that it ends in. -/
def attempt (action : IO α) : IO (Except String α) := do
  try return .ok (← action)
  catch e => return .error (ioMessage e)

/-- Reads lines from the terminal until the prompt is left. -/
partial def interact (p : Prompt) : IO UInt32 := do
  IO.print p.mark
  (← IO.getStdout).flush
  let bytes ← readLine (← IO.getStdin)
  if bytes.isEmpty then return 0
  let (printed, next?) := answer p bytes
  let code ← print printed
  match next? with
  | some next => interact next
  | none => return code

def perform : Command → IO UInt32
  | .run path => do
    match ← attempt (readScript path) with
    | .ok bytes => print (runFile bytes.toList)
    | .error message => print (unreadable message)
  | .eval source => print (runSource .interactive source)
  | .prompt => do
    match ← attempt (interact {}) with
    | .ok code => return code
    | .error message => print (unreadableLine message)

end LazyDecl.CommandLine

def main (args : List String) : IO UInt32 := do
  match LazyDecl.CommandLine.command? args with
  | some command => LazyDecl.CommandLine.perform command
  | none =>
    IO.eprint LazyDecl.CommandLine.usage
    return 2
