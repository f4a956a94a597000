import LazyDecl.Decimal.Basic
import LazyDecl.Text.Numeral

/-! Division of decimals: long division that stops at an exact quotient or at a
hundred digits, where a last digit of five or more rounds away from zero. -/

namespace LazyDecl.Decimal

/-- The most digits that a quotient is worked out to. -/
def precision : Nat := 100

/-- How many times a dividend must be taken tenfold to reach the divisor. -/
def placesBefore (num den : Nat) : Nat :=
  if 0 < num ∧ num < den then placesBefore (10 * num) den + 1 else 0
termination_by den - num

/-- A long division in progress: the digits found, the remainder taken tenfold,
and how many places have been added to the scale. -/
structure Division where
  quotient : Nat
  remainder : Nat
  places : Nat

/-- Finds up to `n` further digits; an exact quotient needs no more. -/
def Division.extend (den : Nat) : Nat → Division → Division
  | 0, d => d
  | n + 1, d =>
    if d.remainder = 0 then d
    else extend den n
      { quotient := d.quotient * 10 + d.remainder / den
        remainder := d.remainder % den * 10
        places := d.places + 1 }

/-- The quotient, rounded by the next digit. -/
def Division.rounded (den : Nat) (d : Division) : Nat :=
  if d.remainder ≠ 0 ∧ 5 ≤ d.remainder / den then d.quotient + 1 else d.quotient

/-- The quotient of two positive numbers, and the places of its scale. -/
def longDivision (num den : Nat) : Nat × Nat :=
  let before := placesBefore num den
  let num := num * tenTo before
  let whole := num / den
  let d := Division.extend den (precision - Numeral.count whole)
    { quotient := whole, remainder := num % den * 10, places := before }
  (d.rounded den, d.places)

/-- The quotient by a divisor that is not zero. -/
def div (a b : Decimal) : Decimal :=
  if a.isZero || b.isOne then a
  else if a.digits = b.digits then ⟨1, a.scale - b.scale⟩
  else
    let (q, places) := longDivision a.digits.natAbs b.digits.natAbs
    ⟨a.digits.sign * b.digits.sign * q, a.scale - b.scale + places⟩

end LazyDecl.Decimal
