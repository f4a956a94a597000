import LazyDecl.Session
import LazyDecl.Text.Blank

/-! The prompt collects lines until their brackets balance and runs them as one
source text. -/

namespace LazyDecl

structure Prompt where
  session : Session := {}
  /-- The lines that wait for a closing bracket. -/
  pending : List String := []

namespace Prompt

/-- Lines with a newline between them. -/
def joinLines (lines : List String) : String := "\n".intercalate lines

/-- Takes a line; runs all that is pending unless a bracket is still open. -/
def push (p : Prompt) (line : String) : Option Outcome × Prompt :=
  let lines := p.pending ++ [line]
  let source := joinLines lines
  if 0 < bracketDepth (tokens source) then (none, { p with pending := lines })
  else
    let (outcome, session) := p.session.run .interactive source
    (some outcome, { session, pending := [] })

/-- What is written in front of each line: how many lines are pending. -/
def mark (p : Prompt) : String :=
  let count := toString p.pending.length
  ":" ++ (if p.pending.length < 10 then "0" else "") ++ count ++ "> "

/-- What a line is to the prompt. -/
inductive Reaction where
  | leave
  | ignore
  | take
  deriving DecidableEq

/-- Only where no line is pending may a line leave or be ignored. -/
def react (p : Prompt) (line : String) : Reaction :=
  let trimmed := String.ofList (trim line.toList)
  if !p.pending.isEmpty then .take
  else if trimmed = ":q" || trimmed = ":quit" then .leave
  else if trimmed = "" then .ignore
  else .take

end Prompt

end LazyDecl
