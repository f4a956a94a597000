import LazyDecl.Decimal.Basic
import LazyDecl.Token

/-! Expressions and statements. Every node keeps the tokens that a message about
it points at. -/

namespace LazyDecl

inductive Literal where
  | boolean (b : Bool)
  | integer (n : Int)
  | decimal (d : Decimal)
  | string (s : String)
  deriving DecidableEq

inductive UnaryOp where
  | not
  | negate
  | plus
  | complement
  deriving DecidableEq

inductive BinaryOp where
  | add
  | sub
  | mul
  | div
  | equal
  | notEqual
  | less
  | lessEqual
  | greater
  | greaterEqual
  deriving DecidableEq

inductive LogicalOp where
  | and
  | or
  deriving DecidableEq

mutual

inductive Expr where
  | literal (value : Literal) (token : Token)
  | name (token : Token)
  | grouping (inner : Expr)
  | unary (op : UnaryOp) (operator : Token) (operand : Expr)
  | binary (op : BinaryOp) (operator : Token) (left right : Expr)
  | logical (op : LogicalOp) (operator : Token) (left right : Expr)
  /-- A key and a value with a colon between them. -/
  | binding (left : Expr) (colon : Token) (right : Expr)
  /-- A list or a table in brackets; the first element tells which. -/
  | sequence (opening : Token) (elements : List Expr)
  /-- A type name and statements in braces. -/
  | builder (kind : Token) (body : List Statement)

/-- An expression under a tag that says what to do with it. -/
structure Statement where
  tag : Token
  value : Expr

end

namespace Expr

/-- The token that a message about the expression points at. -/
def anchor : Expr → Token
  | literal _ token => token
  | name token => token
  | grouping inner => inner.anchor
  | unary _ operator _ => operator
  | binary _ operator _ _ => operator
  | logical _ operator _ _ => operator
  | binding _ colon _ => colon
  | sequence opening _ => opening
  | builder kind _ => kind

def isBinding : Expr → Bool
  | binding .. => true
  | _ => false

/-- The token of an expression that is nothing but a name. -/
def name? : Expr → Option Token
  | name token => some token
  | _ => none

end Expr

end LazyDecl
