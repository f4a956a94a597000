import LazyDecl.Expr

/-! Programs: the units of a source text in order. A file holds statements only;
at the prompt a unit may also be a bare expression. -/

namespace LazyDecl

inductive Mode where
  | batch
  | interactive
  deriving DecidableEq

inductive Item where
  | statement (s : Statement)
  | expression (e : Expr)

inductive Program where
  | batch (statements : List Statement)
  | interactive (items : List Item)

/-- How many units a program has. -/
def Program.size : Program → Nat
  | batch statements => statements.length
  | interactive items => items.length

end LazyDecl
