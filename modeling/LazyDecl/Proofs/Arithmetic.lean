import Mathlib.Data.List.Chain
import LazyDecl.Eval.Operator
import LazyDecl.Proofs.Decimal.Quotient

/-!
Arithmetic with numbers of both kinds. An integer and a decimal meet as two decimals, and the
rational numbers that values stand for do not notice.

* `mixed_arithmetic`: sums, differences and products are exact, and the four comparisons are
  those of one order in which integers and decimals stand among each other;
* `mixed_division`: a division fails if the divisor is worth nothing and for no other reason;
  the quotient of integers is cut off towards zero, any other is right to a hundred digits.
-/

namespace LazyDecl

/-- A number of one of the two kinds. -/
inductive Number where
  | integer (n : Int)
  | decimal (d : Decimal)

namespace Number

def value : Number → Value
  | integer n => .integer n
  | decimal d => .decimal d

/-- The rational number that a number denotes. -/
def worth : Number → ℚ
  | integer n => n
  | decimal d => d.worth

def isDecimal : Number → Bool
  | integer _ => false
  | decimal _ => true

/-- The number as a decimal, which it is or is made. -/
def toDecimal : Number → Decimal
  | integer n => .ofInt n
  | decimal d => d

theorem worth_toDecimal (n : Number) : n.toDecimal.worth = n.worth := by
  cases n with
  | integer n => exact Decimal.worth_ofInt n
  | decimal d => rfl

/-- The operands that two numbers make. -/
def operands : Number → Number → Operands
  | integer a, integer b => .integers a b
  | l, r => .decimals l.toDecimal r.toDecimal

theorem ofValues?_value (l r : Number) :
    Operands.ofValues? l.value r.value = some (operands l r) := by
  cases l <;> cases r <;> rfl

/-- Two integers stay integers; any other two numbers meet as decimals. -/
theorem operands_cases (l r : Number) :
    (∃ a b, l = integer a ∧ r = integer b) ∨
      ((l.isDecimal || r.isDecimal) = true ∧
        operands l r = .decimals l.toDecimal r.toDecimal) := by
  cases l with
  | integer a =>
    cases r with
    | integer b => exact .inl ⟨a, b, rfl, rfl⟩
    | decimal d => exact .inr ⟨rfl, rfl⟩
  | decimal d => exact .inr ⟨rfl, by cases r <;> rfl⟩

/-! ## Sums, differences and products -/

/-- The operation comes to a number that is worth `x`, a decimal if `decimal` says so. -/
def ComesTo (os : Operands) (op : BinaryOp) (x : ℚ) (decimal : Bool) : Prop :=
  ∃ n : Number, os.apply op = .ok n.value ∧ n.worth = x ∧ n.isDecimal = decimal

section Exact

variable (l r : Number)

theorem comesTo_add :
    ComesTo (operands l r) .add (l.worth + r.worth) (l.isDecimal || r.isDecimal) := by
  obtain ⟨a, b, rfl, rfl⟩ | ⟨hdecimal, hoperands⟩ := operands_cases l r
  · exact ⟨integer (a + b), rfl, Int.cast_add a b, rfl⟩
  · rw [hoperands, hdecimal, ← worth_toDecimal l, ← worth_toDecimal r]
    exact ⟨decimal (l.toDecimal.add r.toDecimal), rfl, Decimal.worth_add .., rfl⟩

theorem comesTo_sub :
    ComesTo (operands l r) .sub (l.worth - r.worth) (l.isDecimal || r.isDecimal) := by
  obtain ⟨a, b, rfl, rfl⟩ | ⟨hdecimal, hoperands⟩ := operands_cases l r
  · exact ⟨integer (a - b), rfl, Int.cast_sub a b, rfl⟩
  · rw [hoperands, hdecimal, ← worth_toDecimal l, ← worth_toDecimal r]
    exact ⟨decimal (l.toDecimal.sub r.toDecimal), rfl, Decimal.worth_sub .., rfl⟩

theorem comesTo_mul :
    ComesTo (operands l r) .mul (l.worth * r.worth) (l.isDecimal || r.isDecimal) := by
  obtain ⟨a, b, rfl, rfl⟩ | ⟨hdecimal, hoperands⟩ := operands_cases l r
  · exact ⟨integer (a * b), rfl, Int.cast_mul a b, rfl⟩
  · rw [hoperands, hdecimal, ← worth_toDecimal l, ← worth_toDecimal r]
    exact ⟨decimal (l.toDecimal.mul r.toDecimal), rfl, Decimal.worth_mul .., rfl⟩

/-! ## Comparisons -/

theorem compare_operands : (operands l r).compare = Ord.compare l.worth r.worth := by
  obtain ⟨a, b, rfl, rfl⟩ | ⟨-, hoperands⟩ := operands_cases l r
  · show Ord.compare a b = Ord.compare (a : ℚ) (b : ℚ)
    rw [← cmp_eq_compare, ← cmp_eq_compare]
    exact (Int.cast_strictMono.cmp_map_eq a b).symm
  · rw [hoperands, ← worth_toDecimal l, ← worth_toDecimal r]
    exact Decimal.compare_eq ..

/-- A comparison answers what it reads off the order of the worths. -/
theorem ordered_value {holds : Ordering → Bool} {p : Prop} [Decidable p]
    (h : holds (Ord.compare l.worth r.worth) = true ↔ p) (operator : String) :
    BinaryOp.ordered holds operator l.value r.value = .ok (.boolean p) := by
  have hholds : holds (operands l r).compare = decide p := by
    rw [compare_operands, Bool.eq_iff_iff, decide_eq_true_iff]
    exact h
  rw [← hholds]
  unfold BinaryOp.ordered BinaryOp.operands
  rw [ofValues?_value]
  rfl

end Exact

/-- The comparison of the numbers comes out true. -/
def Holds (operator : String) (op : BinaryOp) (l r : Number) : Prop :=
  op.apply operator l.value r.value = .ok (.boolean true)

/-- Numbers of both kinds stand in one order, and the four comparisons tell how. -/
structure Ordered (operator : String) : Prop where
  less : ∀ l r : Number,
    BinaryOp.less.apply operator l.value r.value = .ok (.boolean (l.worth < r.worth))
  lessEqual : ∀ l r : Number,
    BinaryOp.lessEqual.apply operator l.value r.value = .ok (.boolean (l.worth ≤ r.worth))
  greater : ∀ l r : Number,
    BinaryOp.greater.apply operator l.value r.value = .ok (.boolean (r.worth < l.worth))
  greaterEqual : ∀ l r : Number,
    BinaryOp.greaterEqual.apply operator l.value r.value = .ok (.boolean (r.worth ≤ l.worth))
  refl : ∀ n, Holds operator .lessEqual n n
  trans : ∀ l m n, Holds operator .lessEqual l m → Holds operator .lessEqual m n →
    Holds operator .lessEqual l n
  total : ∀ l r, Holds operator .lessEqual l r ∨ Holds operator .lessEqual r l
  strict : ∀ l r, Holds operator .less l r ↔
    Holds operator .lessEqual l r ∧ ¬Holds operator .lessEqual r l
  converse : ∀ l r, (Holds operator .greater l r ↔ Holds operator .less r l) ∧
    (Holds operator .greaterEqual l r ↔ Holds operator .lessEqual r l)
  chain : ∀ ns : List Number, ns.IsChain (Holds operator .lessEqual) →
    ns.Pairwise (Holds operator .lessEqual)

section Order

variable (operator : String) (l r : Number)

theorem apply_less :
    BinaryOp.less.apply operator l.value r.value = .ok (.boolean (l.worth < r.worth)) :=
  ordered_value l r (Ordering.isLT_iff_eq_lt.trans compare_lt_iff_lt) operator

theorem apply_lessEqual :
    BinaryOp.lessEqual.apply operator l.value r.value = .ok (.boolean (l.worth ≤ r.worth)) :=
  ordered_value l r (Ordering.isLE_iff_ne_gt.trans compare_le_iff_le) operator

theorem apply_greater :
    BinaryOp.greater.apply operator l.value r.value = .ok (.boolean (r.worth < l.worth)) :=
  ordered_value l r (Ordering.isGT_iff_eq_gt.trans compare_gt_iff_gt) operator

theorem apply_greaterEqual :
    BinaryOp.greaterEqual.apply operator l.value r.value = .ok (.boolean (r.worth ≤ l.worth)) :=
  ordered_value l r (Ordering.isGE_iff_ne_lt.trans compare_ge_iff_ge) operator

variable {operator l r}

theorem holds_iff {op : BinaryOp} {p : Prop} [Decidable p]
    (h : op.apply operator l.value r.value = .ok (.boolean p)) : Holds operator op l r ↔ p := by
  rw [Holds, h]
  simp

theorem holds_less : Holds operator .less l r ↔ l.worth < r.worth := holds_iff (apply_less ..)

theorem holds_lessEqual : Holds operator .lessEqual l r ↔ l.worth ≤ r.worth :=
  holds_iff (apply_lessEqual ..)

theorem holds_greater : Holds operator .greater l r ↔ r.worth < l.worth :=
  holds_iff (apply_greater ..)

theorem holds_greaterEqual : Holds operator .greaterEqual l r ↔ r.worth ≤ l.worth :=
  holds_iff (apply_greaterEqual ..)

/-- A chain of numbers that goes up from each to the next goes up altogether. -/
theorem pairwise_of_chain {ns : List Number} (h : ns.IsChain (Holds operator .lessEqual)) :
    ns.Pairwise (Holds operator .lessEqual) := by
  have hworth : ns.IsChain fun l r => l.worth ≤ r.worth := h.imp fun _ _ => holds_lessEqual.1
  have hpairwise : ns.Pairwise fun l r => l.worth ≤ r.worth := by
    rw [← List.pairwise_map (R := (· ≤ ·)), ← List.isChain_iff_pairwise, List.isChain_map]
    exact hworth
  exact hpairwise.imp holds_lessEqual.2

theorem ordered (operator : String) : Ordered operator where
  less := apply_less operator
  lessEqual := apply_lessEqual operator
  greater := apply_greater operator
  greaterEqual := apply_greaterEqual operator
  refl n := holds_lessEqual.2 (le_refl _)
  trans l m n h h' := holds_lessEqual.2 (le_trans (holds_lessEqual.1 h) (holds_lessEqual.1 h'))
  total l r := by
    rw [holds_lessEqual, holds_lessEqual]
    exact le_total ..
  strict l r := by
    rw [holds_less, holds_lessEqual, holds_lessEqual]
    exact lt_iff_le_not_ge
  converse l r := by
    rw [holds_greater, holds_less, holds_greaterEqual, holds_lessEqual]
    exact ⟨Iff.rfl, Iff.rfl⟩
  chain _ := pairwise_of_chain

end Order

/-- **Mixed arithmetic is exact, and comparison is one order.** Any two numbers make operands
whose sum, difference and product are worth those of the numbers, and are decimals just if one
of the numbers is; and the operands compare as the numbers are worth. So the four comparisons
tell one total preorder, in which integers and decimals stand among each other. -/
theorem mixed_arithmetic :
    (∀ l r : Number, ∃ os, Operands.ofValues? l.value r.value = some os ∧
      ComesTo os .add (l.worth + r.worth) (l.isDecimal || r.isDecimal) ∧
      ComesTo os .sub (l.worth - r.worth) (l.isDecimal || r.isDecimal) ∧
      ComesTo os .mul (l.worth * r.worth) (l.isDecimal || r.isDecimal) ∧
      os.compare = Ord.compare l.worth r.worth) ∧
    ∀ operator, Ordered operator := by
  refine ⟨fun l r => ⟨operands l r, ofValues?_value l r, ?_, ?_, ?_, ?_⟩, ordered⟩
  · exact comesTo_add l r
  · exact comesTo_sub l r
  · exact comesTo_mul l r
  · exact compare_operands l r

/-! ## Quotients -/

section Quotients

variable (l r : Number)

theorem apply_div_eq_error :
    (operands l r).apply .div = .error .divisionByZero ↔ r.worth = 0 := by
  obtain ⟨a, b, rfl, rfl⟩ | ⟨-, hoperands⟩ := operands_cases l r
  · by_cases hb : b = 0 <;> simp [operands, Operands.apply, worth, hb]
  · rw [hoperands, ← worth_toDecimal r, ← Decimal.isZero_iff]
    by_cases hb : r.toDecimal.isZero = true <;> simp [Operands.apply, hb]

/-- The quotient of integers with what remains of the dividend, which has the sign of it. -/
theorem tdiv_balance (a : Int) {b : Int} (hb : b ≠ 0) :
    ∃ rest, a = b * a.tdiv b + rest ∧ |rest| < |b| ∧ (rest = 0 ∨ rest.sign = a.sign) := by
  refine ⟨a.tmod b, (Int.mul_tdiv_add_tmod a b).symm, ?_, ?_⟩
  · rw [Int.abs_eq_natAbs, Int.abs_eq_natAbs, Int.natAbs_tmod]
    have := Nat.mod_lt a.natAbs (Int.natAbs_pos.2 hb)
    omega
  · rw [Int.sign_tmod]
    split
    · next hdvd => exact .inl (Int.tmod_eq_zero_of_dvd hdvd)
    · exact .inr rfl

/-- The quotient of integers is cut off towards zero. -/
theorem apply_div_integers (a : Int) {b : Int} (hb : b ≠ 0) :
    (operands (integer a) (integer b)).apply .div = .ok (.integer (a.tdiv b)) := by
  simp [operands, Operands.apply, hb]

/-- Any other quotient is the nearest decimal of its length. -/
theorem apply_div_decimal (hdecimal : (l.isDecimal || r.isDecimal) = true) (hr : r.worth ≠ 0) :
    ∃ d, (operands l r).apply .div = .ok (.decimal d) ∧
      Decimal.Rounds Decimal.precision (l.worth / r.worth) d := by
  obtain ⟨a, b, rfl, rfl⟩ | ⟨-, hoperands⟩ := operands_cases l r
  · cases hdecimal
  · have hb : r.toDecimal.worth ≠ 0 := by rwa [worth_toDecimal]
    have hzero : r.toDecimal.isZero = false := by
      rw [Bool.eq_false_iff]
      exact mt (Decimal.isZero_iff _).1 hb
    refine ⟨l.toDecimal.div r.toDecimal, ?_, ?_⟩
    · rw [hoperands]
      simp [Operands.apply, hzero]
    · rw [← worth_toDecimal l, ← worth_toDecimal r]
      exact Decimal.rounds_div _ hb

end Quotients

/-- **Division.** It fails just if the divisor is worth zero. Otherwise the quotient of two
integers leaves a rest that is smaller than the divisor and has the sign of the dividend, if it
is not zero; and where a decimal takes part the quotient is a decimal, which is exact if a
hundred significant digits are enough, and else has at least so many and is off by half a unit
of the last of them at most. -/
theorem mixed_division (l r : Number) :
    ∃ os, Operands.ofValues? l.value r.value = some os ∧
      (os.apply .div = .error .divisionByZero ↔ r.worth = 0) ∧
      (r.worth ≠ 0 →
        (∀ a b, l = integer a → r = integer b →
          ∃ q rest, os.apply .div = .ok (.integer q) ∧ a = b * q + rest ∧ |rest| < |b| ∧
            (rest = 0 ∨ rest.sign = a.sign)) ∧
        ((l.isDecimal || r.isDecimal) = true →
          ∃ d, os.apply .div = .ok (.decimal d) ∧ Decimal.Rounds 100 (l.worth / r.worth) d)) := by
  refine ⟨operands l r, ofValues?_value l r, apply_div_eq_error l r, fun hr => ⟨?_, ?_⟩⟩
  · rintro a b rfl rfl
    have hb : b ≠ 0 := by
      rintro rfl
      exact hr rfl
    obtain ⟨rest, hbalance, hsmall, hsign⟩ := tdiv_balance a hb
    exact ⟨a.tdiv b, rest, apply_div_integers a hb, hbalance, hsmall, hsign⟩
  · intro hdecimal
    exact apply_div_decimal l r hdecimal hr

/-- A third has no last digit. -/
theorem mixed_division_third :
    (decimal ⟨30, 1⟩).worth ≠ 0 ∧ ∃ os,
      Operands.ofValues? (.integer 1) (.decimal ⟨30, 1⟩) = some os ∧
      ∃ d, os.apply .div = .ok (.decimal d) ∧
        Decimal.Rounds 100 ((integer 1).worth / (decimal ⟨30, 1⟩).worth) d := by
  have hr : (decimal ⟨30, 1⟩).worth ≠ 0 := by
    norm_num [worth, Decimal.worth]
  obtain ⟨os, hos, -, hdiv⟩ := mixed_division (integer 1) (decimal ⟨30, 1⟩)
  exact ⟨hr, os, hos, (hdiv hr).2 rfl⟩

end Number

end LazyDecl
