/-! Positions in a source text. Lines and columns are counted from one; a
column counts characters, not bytes. -/

namespace LazyDecl

structure Position where
  line : Nat := 1
  column : Nat := 1
  deriving DecidableEq

namespace Position

def start : Position := {}

/-- The position just behind one character: a newline starts the next line. -/
def next (p : Position) (c : Char) : Position :=
  if c = '\n' then ⟨p.line + 1, 1⟩ else ⟨p.line, p.column + 1⟩

/-- The position just behind a whole text. -/
def advance (p : Position) (cs : List Char) : Position := cs.foldl next p

@[simp] theorem advance_nil (p : Position) : p.advance [] = p := rfl

@[simp] theorem advance_cons (p : Position) (c : Char) (cs : List Char) :
    p.advance (c :: cs) = (p.next c).advance cs := rfl

@[simp] theorem advance_append (p : Position) (cs ds : List Char) :
    p.advance (cs ++ ds) = (p.advance cs).advance ds := by
  simp [advance, List.foldl_append]

end Position

end LazyDecl
