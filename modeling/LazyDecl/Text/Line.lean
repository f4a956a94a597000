import LazyDecl.Text.Typed

/-! Lines of input as bytes. A line ends behind a newline; the last one may lack
it. -/

namespace LazyDecl.Line

def newline : UInt8 := 10

def carriageReturn : UInt8 := 13

/-- The lines of an input, each with its newline. -/
def split : List UInt8 → List (List UInt8)
  | [] => []
  | b :: bs =>
    if b = newline then [b] :: split bs
    else
      match split bs with
      | [] => [[b]]
      | line :: lines => (b :: line) :: lines

/-- A line without its newline and without a carriage return in front of it. -/
def content (line : List UInt8) : List UInt8 :=
  match line.reverse with
  | b :: rest =>
    if b = newline then
      match rest with
      | c :: front => if c = carriageReturn then front.reverse else rest.reverse
      | [] => []
    else line
  | [] => []

/-- The text that bytes encode, if they are UTF-8. -/
def text? (bytes : List UInt8) : Option String := String.fromUTF8? ⟨bytes.toArray⟩

/-- The text that a line enters, after its backspaces. -/
def entered? (line : List UInt8) : Option String := (text? (content line)).map Typed.result

end LazyDecl.Line
