import LazyDecl.Expr

/-! Values. Equality compares decimals by worth and tables without regard to
their order; a number is never equal to one of the other kind. -/

namespace LazyDecl

inductive Value where
  | boolean (b : Bool)
  | integer (n : Int)
  | decimal (d : Decimal)
  | string (s : String)
  | list (items : List Value)
  /-- Keys and their values, in the order in which the keys were first put in. -/
  | table (entries : List (Value × Value))
  | pair (key value : Value)
  /-- The name of a declaration. -/
  | reference (name : String)
  /-- A builder that was left as it is. -/
  | builder (kind : String)

namespace Value

def ofLiteral : Literal → Value
  | .boolean b => boolean b
  | .integer n => integer n
  | .decimal d => decimal d
  | .string s => string s

def typeName : Value → String
  | boolean _ => "Boolean"
  | integer _ => "Integer"
  | decimal _ => "Decimal"
  | string _ => "String"
  | list _ => "List"
  | table _ => "Table"
  | pair _ _ => "Pair"
  | reference _ => "Reference"
  | builder _ => "Builder"

def isString : Value → Bool
  | string _ => true
  | _ => false

def boolean? : Value → Option Bool
  | boolean b => some b
  | _ => none

mutual

def beq : Value → Value → Bool
  | boolean a, boolean b => a == b
  | integer a, integer b => a == b
  | decimal a, decimal b => a == b
  | string a, string b => a == b
  | list as, list bs => beqItems as bs
  | table as, table bs => as.length == bs.length && beqEntries as bs
  | pair a x, pair b y => beq a b && beq x y
  | reference a, reference b => a == b
  | builder a, builder b => a == b
  | _, _ => false

def beqItems : List Value → List Value → Bool
  | [], [] => true
  | a :: as, b :: bs => beq a b && beqItems as bs
  | _, _ => false

/-- Whether every entry has an equal value under its key in the other table. -/
def beqEntries : List (Value × Value) → List (Value × Value) → Bool
  | [], _ => true
  | (key, value) :: rest, others =>
    (match others.find? fun other => beq key other.1 with
      | some other => beq value other.2
      | none => false) && beqEntries rest others

end

instance : BEq Value := ⟨beq⟩

end Value

/-- Keys with values, each key once. -/
abbrev Table := List (Value × Value)

namespace Table

def contains (t : Table) (key : Value) : Bool := t.any (key == ·.1)

/-- Puts a value under a key. An equal key that is there already keeps its place
and its own form. -/
def insert (t : Table) (key value : Value) : Table :=
  match t with
  | [] => [(key, value)]
  | (k, v) :: rest => if key == k then (k, value) :: rest else (k, v) :: insert rest key value

end Table

end LazyDecl
