import LazyDecl.Decimal.Basic
import LazyDecl.Text.Numeral

/-! The text of a decimal. Digits are never dropped or added for rounding; only
a very small or a very large scale is written as an exponent. -/

namespace LazyDecl.Decimal

/-- The most zeros written between the point and the first digit. -/
def leadingZeros : Nat := 5

/-- The most zeros written behind the last digit. -/
def trailingZeros : Nat := 15

/-- Lays out the digits of a number for a scale. -/
def layout (ds : List Char) (scale : Int) : List Char :=
  if ds.length + leadingZeros < scale then
    let point := if ds.length = 1 then [] else ['.']
    ds.take 1 ++ point ++ ds.drop 1 ++ ['E', '-'] ++ Numeral.digits (scale + 1 - ds.length).toNat
  else if scale < -trailingZeros then ds ++ ['e', '+'] ++ Numeral.digits (-scale).toNat
  else if scale ≤ 0 then ds ++ List.replicate (-scale).toNat '0'
  else
    let places := scale.toNat
    if places < ds.length then
      ds.take (ds.length - places) ++ '.' :: ds.drop (ds.length - places)
    else ['0', '.'] ++ List.replicate (places - ds.length) '0' ++ ds

/-- The text of a decimal. Every zero is written alike. -/
def text (d : Decimal) : String :=
  let ds := layout (Numeral.digits d.digits.natAbs) (if d.isZero then 0 else d.scale)
  String.ofList (if d.digits < 0 then '-' :: ds else ds)

def isExponentMark (c : Char) : Bool := c = 'e' || c = 'E'

/-- An exponent may carry a sign; it groups no digits. -/
def exponent? (cs : List Char) : Option Int :=
  if cs.contains '_' then none else Numeral.integer? cs

/-- Scales are 64-bit numbers. -/
def scaleInRange (s : Int) : Bool :=
  -9223372036854775808 ≤ s && s ≤ 9223372036854775807

/-- Reads an integer whose digits may hold one point, and an exponent behind a
mark. Each place behind the point counts towards the scale. -/
def ofText? (s : String) : Option Decimal := do
  let cs := s.toList
  let mantissa := cs.takeWhile (!isExponentMark ·)
  let exponent ← match cs.dropWhile (!isExponentMark ·) with
    | [] => some 0
    | _ :: e => exponent? e
  let whole := mantissa.takeWhile (· ≠ '.')
  let fraction := (mantissa.dropWhile (· ≠ '.')).drop 1
  let digits ← Numeral.integer? (whole ++ fraction)
  let scale := (fraction.countP (· ≠ '_') : Int) - exponent
  if scaleInRange scale then some ⟨digits, scale⟩ else none

end LazyDecl.Decimal
