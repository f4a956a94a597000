import LazyDecl.Text.Position

/-! Tokens: a kind, the exact piece of source text, where it starts, and
whether it is hidden. A hidden token (a line end) separates units without
being part of an expression. -/

namespace LazyDecl

inductive TokenKind where
  | identifier
  | integer
  | decimal
  | string
  /-- One of the two keywords, `true` and `false`. -/
  | boolean (b : Bool)
  | leftParen
  | rightParen
  | leftBrace
  | rightBrace
  | leftBracket
  | rightBracket
  | comma
  | dot
  | colon
  | question
  | tilde
  | arrow
  | fatArrow
  | assign
  | plus
  | minus
  | star
  | slash
  | ampersand
  | pipe
  | doubleAmpersand
  | doublePipe
  | bang
  | bangEqual
  | equalEqual
  | less
  | lessEqual
  | greater
  | greaterEqual
  | semicolon
  | eol
  | unknown
  | eof
  deriving DecidableEq

namespace TokenKind

/-- Brackets and operators written with one character. -/
def ofChar? : Char → Option TokenKind
  | '(' => some leftParen
  | ')' => some rightParen
  | '{' => some leftBrace
  | '}' => some rightBrace
  | '[' => some leftBracket
  | ']' => some rightBracket
  | ',' => some comma
  | '.' => some dot
  | ':' => some colon
  | '?' => some question
  | '~' => some tilde
  | '+' => some plus
  | '-' => some minus
  | '*' => some star
  | '/' => some slash
  | '=' => some assign
  | '&' => some ampersand
  | '|' => some pipe
  | '!' => some bang
  | '<' => some less
  | '>' => some greater
  | _ => none

/-- Operators written with two characters. -/
def ofPair? : Char → Char → Option TokenKind
  | '-', '>' => some arrow
  | '=', '>' => some fatArrow
  | '=', '=' => some equalEqual
  | '!', '=' => some bangEqual
  | '&', '&' => some doubleAmpersand
  | '|', '|' => some doublePipe
  | '<', '=' => some lessEqual
  | '>', '=' => some greaterEqual
  | _, _ => none

/-- The change of bracket depth that a token of this kind brings. -/
def depth : TokenKind → Int
  | leftParen | leftBracket | leftBrace => 1
  | rightParen | rightBracket | rightBrace => -1
  | _ => 0

end TokenKind

structure Token where
  kind : TokenKind
  lexeme : String
  start : Position
  hidden : Bool := false
  deriving DecidableEq

namespace Token

/-- The mark at the end of the input. -/
def eof (p : Position) : Token := { kind := .eof, lexeme := "", start := p }

/-- How a token is named to a reader, with its position. -/
def describe (t : Token) : String :=
  let name := match t.kind with
    | .eol => "end of line"
    | .eof => "end of input"
    | _ => "`" ++ t.lexeme ++ "`"
  name ++ " at " ++ toString t.start.line ++ ":" ++ toString t.start.column

end Token

/-- Net count of the brackets that a run of tokens opens. -/
def bracketDepth (ts : List Token) : Int :=
  ts.foldl (fun depth t => depth + t.kind.depth) 0

end LazyDecl
