/-! Sets of code points as ranges. -/

namespace LazyDecl

/-- Whether a code point lies in one of the ranges, ends included. -/
def inRanges (code : Nat) (ranges : List (Nat × Nat)) : Bool :=
  ranges.any fun (low, high) => low ≤ code && code ≤ high

end LazyDecl
