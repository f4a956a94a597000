/-! Numerals in base ten: the value of a run of digits, and integers with an
optional sign. Underscores may group digits, though never in front of them. -/

namespace LazyDecl.Numeral

def digitValue (c : Char) : Nat := c.toNat - '0'.toNat

/-- The number that the digits of a run spell; underscores add nothing. -/
def value (cs : List Char) : Nat :=
  cs.foldl (fun n c => if c = '_' then n else 10 * n + digitValue c) 0

/-- A digit, and behind it digits and underscores. -/
def natural? (cs : List Char) : Option Nat :=
  if cs.head?.any Char.isDigit && cs.all (fun c => c.isDigit || c = '_') then some (value cs)
  else none

/-- A natural number behind at most one sign. -/
def integer? : List Char → Option Int
  | '-' :: cs => (natural? cs).map fun n => -(n : Int)
  | '+' :: cs => (natural? cs).map Int.ofNat
  | cs => (natural? cs).map Int.ofNat

/-- The digits of a number, the highest first. -/
def digits (n : Nat) : List Char := Nat.toDigits 10 n

def count (n : Nat) : Nat := (digits n).length

end LazyDecl.Numeral
