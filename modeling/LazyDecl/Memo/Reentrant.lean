import LazyDecl.Memo.Basic

/-! A single memo whose computation may ask about the memo itself or for its value
while it runs, any number of times, and go on as it likes with what it is told. -/

namespace LazyDecl

/-- One run of a computation: it ends, or it looks at its own memo or forces it, and
goes on with what it sees or with the outcome. -/
inductive Reentrant (ε α : Type) where
  | finish (outcome : Except ε α)
  | look (next : Memo Unit α → Reentrant ε α)
  | force (next : Except ε α → Reentrant ε α)

/-- A memo on its own, with a record of what was done. -/
structure Cell (ε α : Type) where
  /-- The memo; its body tells what each run does, counted from zero. -/
  memo : Memo (Nat → Reentrant ε α) α
  /-- How many runs have been started. -/
  runs : Nat := 0
  /-- The memo as each force from inside found it. -/
  inside : List (Memo (Nat → Reentrant ε α) α) := []

namespace Cell

variable {ε α : Type}

def put (memo : Memo (Nat → Reentrant ε α) α) (c : Cell ε α) : Cell ε α := { c with memo }

/-- A force from inside. The memo is being forced, so no body is ever run. -/
def forceInside (cycle : ε) (c : Cell ε α) : EStateM.Result ε (Cell ε α) α :=
  c.memo.force put cycle (fun _ => throw cycle) { c with inside := c.inside ++ [c.memo] }

def perform (cycle : ε) : Reentrant ε α → EStateM ε (Cell ε α) α
  | .finish (.ok value) => pure value
  | .finish (.error e) => throw e
  | .look next => fun c => perform cycle (next c.memo.seen) c
  | .force next => fun c =>
    match forceInside cycle c with
    | .ok value d => perform cycle (next (.ok value)) d
    | .error e d => perform cycle (next (.error e)) d

/-- Starts the next run of a body. -/
def start (cycle : ε) (body : Nat → Reentrant ε α) : EStateM ε (Cell ε α) α :=
  fun c => perform cycle (body c.runs) { c with runs := c.runs + 1 }

/-- A force from outside. -/
def force (cycle : ε) (c : Cell ε α) : EStateM.Result ε (Cell ε α) α :=
  c.memo.force put cycle (start cycle) c

end Cell

end LazyDecl
