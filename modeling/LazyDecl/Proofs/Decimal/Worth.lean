import Mathlib.Algebra.Order.Field.Power
import Mathlib.Algebra.Order.Field.Rat
import Mathlib.Data.Rat.Cast.Order
import Mathlib.Tactic.Ring
import LazyDecl.Decimal.Basic

/-!
What a decimal is worth: the rational number `digits * 10 ^ (-scale)`. Scales are aligned,
kept or added up, but none of this shows in the worth.

* `worth_add`, `worth_sub`, `worth_mul`, `worth_neg`: arithmetic is exact, also where it takes
  the short way with a zero or a one;
* `compare_eq`, `beq_iff`: decimals are compared by worth.
-/

namespace LazyDecl

theorem cast_tenTo (n : Nat) : ((tenTo n : Nat) : ℚ) = 10 ^ n := by
  rw [tenTo, Nat.pow_eq, Nat.cast_pow]
  rfl

namespace Decimal

/-- The rational number that a decimal stands for. -/
def worth (d : Decimal) : ℚ := d.digits * (10 : ℚ) ^ (-d.scale)

variable (a b : Decimal)

theorem ten_zpow_pos (s : Int) : (0 : ℚ) < 10 ^ s := zpow_pos (by norm_num) s

theorem ten_zpow_ne_zero (s : Int) : (10 : ℚ) ^ s ≠ 0 := (ten_zpow_pos s).ne'

theorem ten_zpow_add (s t : Int) : (10 : ℚ) ^ (s + t) = 10 ^ s * 10 ^ t :=
  zpow_add₀ (by norm_num) s t

/-- Digits at a scale are the worth in units of that scale. -/
theorem cast_digitsAt {d : Decimal} {s : Int} (h : d.scale ≤ s) :
    ((d.digitsAt s : Int) : ℚ) = d.worth * 10 ^ s := by
  obtain ⟨k, hk⟩ := Int.le.dest h
  have hplaces : (s - d.scale).toNat = k := by omega
  have hpower : (10 : ℚ) ^ (-d.scale) * 10 ^ s = 10 ^ k := by
    rw [← ten_zpow_add, show -d.scale + s = (k : Int) by omega, zpow_natCast]
  rw [digitsAt, hplaces, Int.cast_mul, Int.cast_natCast, cast_tenTo, worth, mul_assoc, hpower]

theorem cast_left : ((a.digitsAt (commonScale a b) : Int) : ℚ) = a.worth * 10 ^ commonScale a b :=
  cast_digitsAt (le_max_left ..)

theorem cast_right : ((b.digitsAt (commonScale a b) : Int) : ℚ) = b.worth * 10 ^ commonScale a b :=
  cast_digitsAt (le_max_right ..)

theorem worth_mk {n s : Int} {x : ℚ} (h : (n : ℚ) = x * 10 ^ s) : worth ⟨n, s⟩ = x := by
  rw [worth, h, mul_assoc, ← ten_zpow_add, add_neg_cancel, zpow_zero, mul_one]

theorem worth_ofInt (n : Int) : (ofInt n).worth = n := by
  simp [worth, ofInt]

theorem isZero_iff : a.isZero = true ↔ a.worth = 0 := by
  simp [isZero, worth, ten_zpow_ne_zero]

theorem worth_of_isOne {a : Decimal} (h : a.isOne = true) : a.worth = 1 := by
  simp only [isOne, Bool.and_eq_true, decide_eq_true_eq] at h
  obtain ⟨⟨hscale, -⟩, hdigits⟩ := h
  apply worth_mk
  rw [hdigits, Int.cast_natCast, cast_tenTo, one_mul, ← zpow_natCast, Int.toNat_of_nonneg hscale]

/-! ## Arithmetic -/

theorem worth_neg : a.neg.worth = -a.worth := by
  simp [worth, neg]

theorem worth_add : (a.add b).worth = a.worth + b.worth := by
  apply worth_mk
  rw [Int.cast_add, cast_left, cast_right, add_mul]

theorem worth_sub : (a.sub b).worth = a.worth - b.worth := by
  unfold sub
  split
  · next h => rw [(isZero_iff b).1 h, sub_zero]
  · split
    · next h => rw [worth_neg, (isZero_iff a).1 h, zero_sub]
    · apply worth_mk
      rw [Int.cast_sub, cast_left, cast_right, sub_mul]

theorem worth_mul : (a.mul b).worth = a.worth * b.worth := by
  unfold mul
  split
  · next h => rw [worth_of_isOne h, one_mul]
  · split
    · next h => rw [worth_of_isOne h, mul_one]
    · rw [worth, neg_add, ten_zpow_add, Int.cast_mul, worth, worth]
      ring

/-! ## Order -/

theorem compare_eq : a.compare b = Ord.compare a.worth b.worth := by
  calc a.compare b
      = cmp (a.digitsAt (commonScale a b)) (b.digitsAt (commonScale a b)) :=
        (cmp_eq_compare ..).symm
    _ = cmp (a.worth * 10 ^ commonScale a b) (b.worth * 10 ^ commonScale a b) := by
        rw [← cast_left, ← cast_right, Int.cast_strictMono.cmp_map_eq]
    _ = cmp a.worth b.worth := cmp_mul_pos_right (ten_zpow_pos _) ..
    _ = Ord.compare a.worth b.worth := cmp_eq_compare ..

theorem beq_iff : (a == b) = true ↔ a.worth = b.worth := by
  show decide (a.compare b = .eq) = true ↔ a.worth = b.worth
  rw [decide_eq_true_iff, compare_eq, compare_eq_iff_eq]

end Decimal

end LazyDecl
