/-! Decimal numbers: an integer and a scale, worth `digits * 10 ^ (-scale)`.
Several pairs have the same worth; sums, products and texts keep the scale that
their operands were written with. -/

namespace LazyDecl

/-- A power of ten. -/
def tenTo (n : Nat) : Nat := Nat.pow 10 n

structure Decimal where
  digits : Int
  scale : Int
  deriving DecidableEq

namespace Decimal

def ofInt (n : Int) : Decimal := ⟨n, 0⟩

def isZero (d : Decimal) : Bool := d.digits = 0

/-- A factor or divisor of worth one that leaves the other operand as it is
written: its scale must lie between zero and 38. -/
def isOne (d : Decimal) : Bool :=
  0 ≤ d.scale && d.scale ≤ 38 && d.digits = tenTo d.scale.toNat

/-- The digits of `d` at a scale that is no smaller than its own. -/
def digitsAt (d : Decimal) (scale : Int) : Int :=
  d.digits * tenTo (scale - d.scale).toNat

def commonScale (a b : Decimal) : Int := max a.scale b.scale

/-- The order of two decimals by worth. -/
def compare (a b : Decimal) : Ordering :=
  let s := commonScale a b
  Ord.compare (a.digitsAt s) (b.digitsAt s)

/-- Equality by worth. -/
instance : BEq Decimal where
  beq a b := a.compare b = .eq

def neg (d : Decimal) : Decimal := { d with digits := -d.digits }

def add (a b : Decimal) : Decimal :=
  let s := commonScale a b
  ⟨a.digitsAt s + b.digitsAt s, s⟩

/-- A difference with a zero keeps the scale of the other operand. -/
def sub (a b : Decimal) : Decimal :=
  if b.isZero then a
  else if a.isZero then b.neg
  else
    let s := commonScale a b
    ⟨a.digitsAt s - b.digitsAt s, s⟩

def mul (a b : Decimal) : Decimal :=
  if a.isOne then b
  else if b.isOne then a
  else ⟨a.digits * b.digits, a.scale + b.scale⟩

end Decimal

end LazyDecl
