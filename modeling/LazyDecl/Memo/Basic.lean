/-! Memos: a value that is computed when it is first asked for. A computation that
fails leaves its memo as it was, so that it is run again next time, and a memo
that is asked for by its own computation reports a cycle. -/

namespace LazyDecl

inductive Memo (β α : Type) where
  | deferred (body : β)
  /-- The computation is running. -/
  | forcing
  | ready (value : α)

namespace Memo

variable {β α σ ε : Type}

def isDeferred : Memo β α → Bool
  | deferred _ => true
  | _ => false

def isForcing : Memo β α → Bool
  | forcing => true
  | _ => false

def isForced : Memo β α → Bool
  | ready _ => true
  | _ => false

def value? : Memo β α → Option α
  | ready value => some value
  | _ => none

/-- What can be seen of a memo: all but the body of its computation. -/
def seen : Memo β α → Memo Unit α
  | deferred _ => deferred ()
  | forcing => forcing
  | ready value => ready value

/-- Gives the value of a memo that `put` keeps in the state. A deferred one is
marked while `run` works out its body. -/
def force (put : Memo β α → σ → σ) (cycle : ε) (run : β → EStateM ε σ α) (memo : Memo β α) :
    EStateM ε σ α :=
  match memo with
  | ready value => pure value
  | forcing => throw cycle
  | deferred body => fun s =>
    match run body (put forcing s) with
    | .ok value t => .ok value (put (ready value) t)
    | .error e t => .error e (put (deferred body) t)

/-- The state of a memo in words. -/
def describe (text : α → String) : Memo β α → String
  | deferred _ => "Lazy(<deferred>)"
  | forcing => "Lazy(<forcing>)"
  | ready value => "Lazy(" ++ text value ++ ")"

end Memo

end LazyDecl
