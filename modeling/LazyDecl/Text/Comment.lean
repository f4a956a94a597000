/-! Comments. A line comment ends before the newline. Block comments nest: each
opening mark needs a closing mark of its own. -/

namespace LazyDecl.Comment

/-- How many characters a line comment goes on for. -/
def lineLength (cs : List Char) : Nat := (cs.takeWhile (· ≠ '\n')).length

/-- How many characters it takes to close a block comment inside which `depth`
further ones are open; `none` if the text ends first. -/
def closing? (depth : Nat) : List Char → Option Nat
  | [] | [_] => none
  | c :: d :: cs =>
    if c = '/' ∧ d = '*' then (closing? (depth + 1) cs).map (· + 2)
    else if c = '*' ∧ d = '/' then
      match depth with
      | 0 => some 2
      | depth + 1 => (closing? depth cs).map (· + 2)
    else (closing? depth (d :: cs)).map (· + 1)

end LazyDecl.Comment
