import LazyDecl.Input

/-! A cursor on a run of tokens: the input ahead of it, how many tokens it has
passed, and the token that it took last. -/

namespace LazyDecl

structure Cursor extends Input where
  position : Nat := 0
  last? : Option Token := none

namespace Cursor

def ofTokens (ts : List Token) : Cursor := { toInput := .ofTokens ts }

/-- Takes a token; every token that falls behind counts as passed. -/
def advance (c : Cursor) (v : View) : Token × Cursor :=
  let (t, next) := c.toInput.advance v
  (t, { toInput := next, position := c.position + (c.size - next.size), last? := some t })

/-- The token that the cursor took last, or the first one before it took any. -/
def previous (c : Cursor) : Token := c.last?.getD (c.peek .hidden)

end Cursor

end LazyDecl
