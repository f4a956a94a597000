/-! String literals. Inside the quotes a backslash pairs with the character
behind it, whether or not that pair means anything, so the quote that ends a
literal is the same for a good body and for a bad one. Here are the end of a
literal, its first meaningless pair, and the text that a literal denotes. -/

namespace LazyDecl.Quoted

/-- The characters that may stand behind a backslash. -/
def isEscape (c : Char) : Bool := c = 'n' || c = '\\' || c = '"' || c = '\n'

/-- How many characters behind the opening quote belong to the literal, its
closing quote included; `none` if nothing closes it. -/
def closing? : List Char → Option Nat
  | [] => none
  | c :: cs =>
    if c = '"' then some 1
    else if c = '\\' then
      match cs with
      | [] => none
      | _ :: ds => (closing? ds).map (· + 2)
    else (closing? cs).map (· + 1)

/-- The first pair without a meaning before the literal ends: how many
characters lead up to and include its backslash, and what stands behind it. -/
def badEscape? : List Char → Option (Nat × Char)
  | [] => none
  | c :: cs =>
    if c = '"' then none
    else if c = '\\' then
      match cs with
      | [] => none
      | d :: ds =>
        if isEscape d then (badEscape? ds).map fun (n, e) => (n + 2, e) else some (1, d)
    else (badEscape? cs).map fun (n, e) => (n + 1, e)

/-- The text that stands for the inside of a literal. A pair means its second
character, except that `n` means a newline and a newline means nothing. -/
def decodeBody : List Char → List Char
  | [] => []
  | c :: cs =>
    if c = '\\' then
      match cs with
      | [] => []
      | d :: ds =>
        if d = 'n' then '\n' :: decodeBody ds
        else if d = '\n' then decodeBody ds
        else d :: decodeBody ds
    else c :: decodeBody cs

/-- The inside of a lexeme. One that lacks a quote at either end is its own
inside. -/
def body (lexeme : List Char) : List Char :=
  match lexeme with
  | '"' :: cs => if cs.getLast? = some '"' then cs.dropLast else lexeme
  | _ => lexeme

/-- The text that a lexeme denotes, quotes included. -/
def decode (lexeme : String) : String := String.ofList (decodeBody (body lexeme.toList))

end LazyDecl.Quoted
