import LazyDecl.Value.Basic

/-! What of a value goes into a hash. Of a table that is the number of its entries
alone, since equality does not regard their order. How numbers are hashed is left
open. -/

namespace LazyDecl

/-- A piece of what is hashed. -/
inductive Datum where
  /-- Which of the constructors of its type a value has, counted from zero. -/
  | variant (index : Nat)
  | boolean (b : Bool)
  | text (s : String)
  | size (n : Nat)
  | word (n : Nat)
  deriving DecidableEq

/-- What goes into a hash of a number, behind its variant. -/
structure NumberDigest where
  integer : Int → List Datum
  decimal : Decimal → List Datum

namespace Value

mutual

def digest (numbers : NumberDigest) : Value → List Datum
  | boolean b => [.variant 0, .boolean b]
  | integer n => .variant 1 :: numbers.integer n
  | decimal d => .variant 2 :: numbers.decimal d
  | string s => [.variant 3, .text s]
  | list items => .variant 4 :: .size items.length :: digestItems numbers items
  | table entries => [.variant 5, .size entries.length]
  | pair key value => .variant 6 :: (digest numbers key ++ digest numbers value)
  | reference name => [.variant 7, .text name]
  | builder kind => [.variant 8, .text kind]

def digestItems (numbers : NumberDigest) : List Value → List Datum
  | [] => []
  | v :: vs => digest numbers v ++ digestItems numbers vs

end

end Value

end LazyDecl
