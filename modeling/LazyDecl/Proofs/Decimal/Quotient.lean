import Mathlib.Tactic.FieldSimp
import Mathlib.Tactic.Linarith
import LazyDecl.Decimal.Division
import LazyDecl.Proofs.Decimal.Worth

/-!
Quotients of decimals. A quotient that has few digits is exact; any other has a hundred digits
or more and is off by half a unit of its last digit at most.

* `Division.Holds.extend`: what a long division keeps true with each digit that it finds, and
  how many digits it has found if nothing has come out even;
* `not_fits_of_between`: a number strictly between two long integers in a row is itself long;
* `rounds_div`: so the quotient is the nearest decimal of this length, in each of its shortcuts
  and in the long division.
-/

namespace LazyDecl

theorem Numeral.pow_count_le {n : Nat} (h : 0 < n) : 10 ^ (count n - 1) ≤ n := by
  by_cases hone : count n - 1 = 0
  · rw [hone]
    exact h
  · have hlength : ¬(Nat.toDigits 10 n).length ≤ count n - 1 := by
      have hcount : count n = (Nat.toDigits 10 n).length := rfl
      omega
    rw [Nat.length_toDigits_le_iff (by norm_num) (by omega)] at hlength
    omega

namespace Decimal

/-- The number can be written with at most `n` significant digits. -/
def Fits (n : Nat) (x : ℚ) : Prop := ∃ d : Decimal, d.digits.natAbs < 10 ^ n ∧ d.worth = x

/-- The decimal is the number `x` to `n` digits: if `x` does not need more than that it is `x`
itself, and if it does the decimal has at least as many digits and is off by half a unit of the
last one at most. -/
structure Rounds (n : Nat) (x : ℚ) (d : Decimal) : Prop where
  exact : Fits n x → d.worth = x
  digits : ¬Fits n x → 10 ^ (n - 1) ≤ d.digits.natAbs
  near : ¬Fits n x → |d.worth - x| ≤ 1 / 2 * 10 ^ (-d.scale)

theorem worth_shift (q s t : Int) : worth ⟨q, t + s⟩ = worth ⟨q, s⟩ * 10 ^ (-t) := by
  rw [worth, worth, neg_add, ten_zpow_add]
  ring

section Fits

variable {n : Nat} {x : ℚ}

theorem Fits.shift (h : Fits n x) (t : Int) : Fits n (x * 10 ^ (-t)) := by
  obtain ⟨⟨q, s⟩, hdigits, rfl⟩ := h
  exact ⟨⟨q, t + s⟩, hdigits, worth_shift q s t⟩

theorem fits_shift (t : Int) : Fits n (x * 10 ^ (-t)) ↔ Fits n x := by
  refine ⟨fun h => ?_, fun h => h.shift t⟩
  have hback := h.shift (-t)
  rwa [mul_assoc, ← ten_zpow_add, add_neg_cancel, zpow_zero, mul_one] at hback

theorem Fits.neg (h : Fits n x) : Fits n (-x) := by
  obtain ⟨d, hdigits, rfl⟩ := h
  exact ⟨d.neg, by rwa [Decimal.neg, Int.natAbs_neg], worth_neg d⟩

theorem fits_neg : Fits n (-x) ↔ Fits n x :=
  ⟨fun h => neg_neg x ▸ h.neg, Fits.neg⟩

/-- A number strictly between two integers in a row has a digit behind the point, and in front
of it as many as they have. -/
theorem not_fits_of_between {k : Nat} (hk : 10 ^ (n - 1) ≤ k) (hn : 1 ≤ n) (hlow : (k : ℚ) < x)
    (hhigh : x < k + 1) : ¬Fits n x := by
  rintro ⟨⟨m, s⟩, hdigits, rfl⟩
  rcases le_or_gt s 0 with hs | hs
  · -- Nothing stands behind the point.
    obtain ⟨p, hp⟩ := Int.eq_ofNat_of_zero_le (neg_nonneg.2 hs)
    have hworth : worth ⟨m, s⟩ = ((m * 10 ^ p : Int) : ℚ) := by
      rw [worth, hp, zpow_natCast]
      push_cast
      rfl
    rw [hworth] at hlow hhigh
    have hlow' : (k : Int) < m * 10 ^ p := by exact_mod_cast hlow
    have hhigh' : m * 10 ^ p < (k : Int) + 1 := by exact_mod_cast hhigh
    omega
  · obtain ⟨p, hp⟩ := Int.eq_ofNat_of_zero_le (show 0 ≤ s - 1 by omega)
    have hm : (m : ℚ) = worth ⟨m, s⟩ * 10 ^ p * 10 := by
      rw [worth, show (-s : Int) = -((p : Int) + 1) by omega, neg_add, ten_zpow_add, zpow_neg,
        zpow_natCast, zpow_neg_one]
      field_simp
    have hone : (1 : ℚ) ≤ 10 ^ p := one_le_pow₀ (by norm_num)
    have hpos : (0 : ℚ) < worth ⟨m, s⟩ := lt_of_le_of_lt (Nat.cast_nonneg k) hlow
    have hlong : ((k * 10 : Nat) : ℚ) < ((m : Int) : ℚ) := by
      rw [hm, Nat.cast_mul, Nat.cast_ofNat]
      have := mul_le_mul_of_nonneg_left hone hpos.le
      linarith
    have hlong' : ((k * 10 : Nat) : Int) < m := by exact_mod_cast hlong
    have hpow : (10 : Nat) ^ n = 10 ^ (n - 1) * 10 := by
      rw [← pow_succ, Nat.sub_add_cancel hn]
    have hdigits' : m.natAbs < 10 ^ (n - 1) * 10 := hpow ▸ hdigits
    omega

end Fits

namespace Rounds

variable {n : Nat} {x : ℚ} {d : Decimal} {q s : Int}

/-- What is exact needs no excuse. -/
theorem of_worth (n : Nat) (h : d.worth = x) : Rounds n x d where
  exact _ := h
  digits hlong := by
    by_contra hfew
    have hpow : (10 : Nat) ^ (n - 1) ≤ 10 ^ n := Nat.pow_le_pow_right (by norm_num) (by omega)
    exact hlong ⟨d, by omega, h⟩
  near _ := by
    rw [h, sub_self, abs_zero]
    exact mul_nonneg (by norm_num) (ten_zpow_pos _).le

theorem shift (h : Rounds n x ⟨q, s⟩) (t : Int) : Rounds n (x * 10 ^ (-t)) ⟨q, t + s⟩ where
  exact hfits := by rw [worth_shift, h.exact ((fits_shift t).1 hfits)]
  digits hlong := h.digits (mt (fits_shift t).2 hlong)
  near hlong := by
    have hnear := h.near (mt (fits_shift t).2 hlong)
    have hpos := ten_zpow_pos (-t)
    rw [worth_shift, ← sub_mul, abs_mul, abs_of_pos hpos]
    calc |worth ⟨q, s⟩ - x| * 10 ^ (-t)
        ≤ 1 / 2 * 10 ^ (-s) * 10 ^ (-t) := mul_le_mul_of_nonneg_right hnear hpos.le
      _ = 1 / 2 * 10 ^ (-(t + s)) := by rw [neg_add, ten_zpow_add]; ring

theorem neg (h : Rounds n x d) : Rounds n (-x) d.neg where
  exact hfits := by rw [worth_neg, h.exact (fits_neg.1 hfits)]
  digits hlong := by
    rw [Decimal.neg, Int.natAbs_neg]
    exact h.digits (mt fits_neg.2 hlong)
  near hlong := by
    rw [worth_neg, ← neg_sub', abs_neg]
    exact h.near (mt fits_neg.2 hlong)

/-- The sign of a quotient is put on in the end. -/
theorem signed (h : Rounds n x ⟨q, s⟩) {σ : Int} (hσ : σ = 1 ∨ σ = -1) :
    Rounds n (σ * x) ⟨σ * q, s⟩ := by
  rcases hσ with rfl | rfl
  · rw [Int.cast_one, one_mul, one_mul]
    exact h
  · rw [Int.cast_neg, Int.cast_one, neg_one_mul, neg_one_mul]
    exact h.neg

end Rounds

/-! ## Long division -/

theorem le_mul_placesBefore {num den : Nat} (h : 0 < num) :
    den ≤ num * tenTo (placesBefore num den) := by
  fun_induction placesBefore num den with
  | case1 num hlt ih =>
    have hten := ih (by omega)
    calc den ≤ 10 * num * tenTo (placesBefore (10 * num) den) := hten
      _ = num * tenTo (placesBefore (10 * num) den + 1) := by
        simp only [tenTo, Nat.pow_eq, Nat.pow_succ]
        ring
  | case2 num hge =>
    simp only [tenTo, Nat.pow_eq, Nat.pow_zero]
    omega

namespace Division

/-- What a long division of `num` by `den` has found, with what remains, makes up `num` at the
places that it has come to. -/
structure Holds (num den : Nat) (d : Division) : Prop where
  balance : num * 10 ^ d.places * 10 = d.quotient * den * 10 + d.remainder
  small : d.remainder < den * 10

variable {num den : Nat} {d : Division}

/-- One more digit. -/
theorem Holds.next (h : d.Holds num den) (hden : 0 < den) :
    Holds num den ⟨d.quotient * 10 + d.remainder / den, d.remainder % den * 10, d.places + 1⟩ where
  balance := by
    have hdigit := Nat.div_add_mod d.remainder den
    calc num * 10 ^ (d.places + 1) * 10
        = num * 10 ^ d.places * 10 * 10 := by ring
      _ = (d.quotient * den * 10 + (den * (d.remainder / den) + d.remainder % den)) * 10 := by
        rw [h.balance, hdigit]
      _ = (d.quotient * 10 + d.remainder / den) * den * 10 + d.remainder % den * 10 := by ring
  small := by
    show d.remainder % den * 10 < den * 10
    have := Nat.mod_lt d.remainder hden
    omega

/-- A division that goes on by `n` digits either comes out even or has them all. -/
theorem Holds.extend (h : d.Holds num den) (hden : 0 < den) (n : Nat) :
    (extend den n d).Holds num den ∧
      ((extend den n d).remainder = 0 ∨ d.quotient * 10 ^ n ≤ (extend den n d).quotient) := by
  induction n generalizing d with
  | zero => exact ⟨h, .inr (by simp [Division.extend])⟩
  | succ n ih =>
    rw [Division.extend]
    split
    · next hzero => exact ⟨h, .inl hzero⟩
    · obtain ⟨hholds, hlong⟩ := ih (h.next hden)
      refine ⟨hholds, hlong.imp_right fun hle => le_trans ?_ hle⟩
      rw [pow_succ']
      calc d.quotient * (10 * 10 ^ n) = d.quotient * 10 * 10 ^ n := by ring
        _ ≤ (d.quotient * 10 + d.remainder / den) * 10 ^ n :=
          Nat.mul_le_mul_right _ (Nat.le_add_right ..)

/-- Where something remains, the exact quotient lies strictly above the digits found and below
the next ones. -/
theorem Holds.between (h : d.Holds num den) (hremains : d.remainder ≠ 0) :
    d.quotient * den < num * 10 ^ d.places ∧ num * 10 ^ d.places < (d.quotient + 1) * den := by
  obtain ⟨hbalance, hsmall⟩ := h
  rw [Nat.add_mul, one_mul]
  constructor <;> omega

/-- The last digit is rounded to the nearer side. -/
theorem Holds.rounded (h : d.Holds num den) (hden : 0 < den) :
    2 * (d.rounded den * den) ≤ 2 * (num * 10 ^ d.places) + den ∧
      2 * (num * 10 ^ d.places) ≤ 2 * (d.rounded den * den) + den := by
  obtain ⟨hbalance, hsmall⟩ := h
  unfold Division.rounded
  split
  · next hup =>
    have hhalf : 5 * den ≤ d.remainder := (Nat.le_div_iff_mul_le hden).1 hup.2
    rw [Nat.add_mul, one_mul]
    constructor <;> omega
  · next hdown =>
    have hhalf : d.remainder ≤ 5 * den := by
      by_contra hmore
      refine hdown ⟨by omega, ?_⟩
      rw [Nat.le_div_iff_mul_le hden]
      omega
    constructor <;> omega

end Division

/-- The long division in full. Its result is exact, or else there are that many digits below
the exact quotient, and the result is the nearer one of its neighbours. -/
theorem longDivision_cases {num den : Nat} (hnum : 0 < num) (hden : 0 < den) :
    ∃ q places, longDivision num den = (q, places) ∧
      (q * den = num * 10 ^ places ∨
        (∃ k, 10 ^ (precision - 1) ≤ k ∧ k ≤ q ∧ k * den < num * 10 ^ places ∧
          num * 10 ^ places < (k + 1) * den) ∧
        2 * (q * den) ≤ 2 * (num * 10 ^ places) + den ∧
        2 * (num * 10 ^ places) ≤ 2 * (q * den) + den) := by
  let before := placesBefore num den
  let whole := num * tenTo before / den
  let start : Division := ⟨whole, num * tenTo before % den * 10, before⟩
  let last := Division.extend den (precision - Numeral.count whole) start
  have hten : tenTo before = 10 ^ before := rfl
  have hstart : start.Holds num den := by
    constructor
    · have hdigits := Nat.div_add_mod (num * tenTo before) den
      calc num * 10 ^ before * 10
          = (den * whole + num * tenTo before % den) * 10 := by rw [hdigits, hten]
        _ = whole * den * 10 + num * tenTo before % den * 10 := by ring
    · show num * tenTo before % den * 10 < den * 10
      have := Nat.mod_lt (num * tenTo before) hden
      omega
  have hwhole : 0 < whole := Nat.div_pos (le_mul_placesBefore hnum) hden
  obtain ⟨hlast, hlong⟩ := hstart.extend hden (precision - Numeral.count whole)
  refine ⟨last.rounded den, last.places, rfl, ?_⟩
  by_cases hremains : last.remainder = 0
  · left
    have hbalance : num * 10 ^ last.places * 10 = last.quotient * den * 10 + last.remainder :=
      hlast.balance
    have hrounded : last.rounded den = last.quotient := if_neg fun h => h.1 hremains
    rw [hrounded]
    omega
  · right
    obtain ⟨hlow, hhigh⟩ := hlast.between hremains
    refine ⟨⟨last.quotient, ?_, ?_, hlow, hhigh⟩, hlast.rounded hden⟩
    · have hfound : whole * 10 ^ (precision - Numeral.count whole) ≤ last.quotient :=
        hlong.resolve_left hremains
      calc 10 ^ (precision - 1)
          ≤ 10 ^ ((Numeral.count whole - 1) + (precision - Numeral.count whole)) :=
            Nat.pow_le_pow_right (by norm_num) (by omega)
        _ = 10 ^ (Numeral.count whole - 1) * 10 ^ (precision - Numeral.count whole) := pow_add ..
        _ ≤ whole * 10 ^ (precision - Numeral.count whole) :=
          Nat.mul_le_mul_right _ (Numeral.pow_count_le hwhole)
        _ ≤ last.quotient := hfound
    · unfold Division.rounded
      split <;> omega

/-- A long division gives the exact quotient to a hundred digits. -/
theorem rounds_longDivision {num den : Nat} (hnum : 0 < num) (hden : 0 < den) :
    ∃ q places : Nat, longDivision num den = (q, places) ∧
      Rounds precision (num / den : ℚ) ⟨q, places⟩ := by
  obtain ⟨q, places, heq, hcases⟩ := longDivision_cases hnum hden
  refine ⟨q, places, heq, ?_⟩
  have hden' : (0 : ℚ) < den := by exact_mod_cast hden
  -- The exact quotient in units of the last place.
  obtain ⟨y, hy⟩ : ∃ y : ℚ, y = num * 10 ^ places / den := ⟨_, rfl⟩
  have hquotient : (num / den : ℚ) = y * 10 ^ (-(places : Int)) := by
    rw [hy, zpow_neg, zpow_natCast]
    field_simp
  have hexact : y * den = num * 10 ^ places := by
    rw [hy, div_mul_cancel₀ _ hden'.ne']
  rcases hcases with heven | ⟨⟨k, hk, hkq, hlow, hhigh⟩, hup, hdown⟩
  · refine .of_worth _ ?_
    have hq : (q : ℚ) = y := by
      have hcast : (q : ℚ) * den = num * 10 ^ places := by exact_mod_cast heven
      exact mul_right_cancel₀ hden'.ne' (hcast.trans hexact.symm)
    rw [hquotient, worth, Int.cast_natCast, hq]
  · have hlong : ¬Fits precision y := by
      have hlow' : (k : ℚ) * den < y * den := by rw [hexact]; exact_mod_cast hlow
      have hhigh' : y * den < (k + 1) * den := by rw [hexact]; exact_mod_cast hhigh
      exact not_fits_of_between hk (by norm_num [precision]) (lt_of_mul_lt_mul_right hlow' hden'.le)
        (lt_of_mul_lt_mul_right hhigh' hden'.le)
    have hhalf : |(q : ℚ) - y| ≤ 1 / 2 := by
      have hup' : 2 * ((q : ℚ) * den) ≤ 2 * (y * den) + den := by rw [hexact]; exact_mod_cast hup
      have hdown' : 2 * (y * den) ≤ 2 * ((q : ℚ) * den) + den := by
        rw [hexact]
        exact_mod_cast hdown
      rw [abs_le]
      constructor <;> nlinarith
    have hpos := ten_zpow_pos (-(places : Int))
    refine ⟨fun hfits => ?_, fun _ => le_trans hk hkq, fun _ => ?_⟩
    · rw [hquotient, fits_shift] at hfits
      exact absurd hfits hlong
    · rw [hquotient, worth, Int.cast_natCast, ← sub_mul, abs_mul, abs_of_pos hpos]
      exact mul_le_mul_of_nonneg_right hhalf hpos.le

/-! ## Quotients -/

theorem sign_cases {n : Int} (h : n ≠ 0) : n.sign = 1 ∨ n.sign = -1 := by
  rcases lt_or_gt_of_ne h with hneg | hpos
  · exact .inr (Int.sign_eq_neg_one_of_neg hneg)
  · exact .inl (Int.sign_eq_one_of_pos hpos)

/-- A quotient of integers is that of their sizes with the sign of both. -/
theorem div_eq_signed {n m : Int} (hm : m ≠ 0) :
    (n / m : ℚ) = ((n.sign * m.sign : Int) : ℚ) * (n.natAbs / m.natAbs) := by
  have hsize : ∀ k : Int, (k : ℚ) = k.sign * k.natAbs := by
    intro k
    rw [← Int.cast_natCast, ← Int.cast_mul, Int.sign_mul_natAbs]
  have hcancel : (m.sign : ℚ)⁻¹ = m.sign := by
    rcases sign_cases hm with h | h <;> norm_num [h]
  rw [hsize n, hsize m, mul_div_mul_comm, div_eq_mul_inv (n.sign : ℚ), hcancel, Int.cast_mul]

/-- **A quotient is exact, or the nearest decimal with a hundred digits.** -/
theorem rounds_div (a : Decimal) {b : Decimal} (hb : b.worth ≠ 0) :
    Rounds precision (a.worth / b.worth) (a.div b) := by
  have hdigits : b.digits ≠ 0 := by
    intro hzero
    exact hb (by rw [worth, hzero, Int.cast_zero, zero_mul])
  have hworth : a.worth / b.worth = (a.digits / b.digits : ℚ) * 10 ^ (-(a.scale - b.scale)) := by
    rw [worth, worth, mul_div_mul_comm, ← zpow_sub₀ (by norm_num)]
    congr 2
    omega
  unfold div
  split
  · next hshort =>
    refine .of_worth _ ?_
    rcases Bool.or_eq_true_iff.1 hshort with hzero | hone
    · rw [(isZero_iff a).1 hzero, zero_div]
    · rw [worth_of_isOne hone, div_one]
  · next hlong =>
    split
    · next hsame =>
      refine .of_worth _ ?_
      have hdigits' : (b.digits : ℚ) ≠ 0 := by exact_mod_cast hdigits
      rw [hworth, hsame, div_self hdigits', worth, Int.cast_one]
    · have ha : a.digits ≠ 0 := by
        intro hzero
        exact hlong (by simp [isZero, hzero])
      obtain ⟨q, places, heq, hrounds⟩ :=
        rounds_longDivision (Int.natAbs_pos.2 ha) (Int.natAbs_pos.2 hdigits)
      have hsign : a.digits.sign * b.digits.sign = 1 ∨ a.digits.sign * b.digits.sign = -1 := by
        rcases sign_cases ha with h | h <;> rcases sign_cases hdigits with h' | h' <;> simp [h, h']
      rw [heq, hworth, div_eq_signed hdigits]
      exact (hrounds.signed hsign).shift _

end Decimal

end LazyDecl
