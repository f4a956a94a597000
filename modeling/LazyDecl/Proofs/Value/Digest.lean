import Mathlib.Data.Nat.Digits.Defs
import LazyDecl.Proofs.Value.Equality
import LazyDecl.Value.Digest

/-!
Equal values are hashed alike. The digest of a value has to say less than the value: neither how
a decimal is written nor in which order a table came to its entries.

* `digest_eq_of_beq`: equal values have one digest, at any depth;
* `Decimal.plain_eq`: the plain notation of a decimal, without the zeros at its end, is the same
  for all decimals of one worth, so that it will do for what goes into a hash of it.
-/

namespace LazyDecl

/-- Decimals of one worth have one digest. -/
def NumberDigest.Consistent (numbers : NumberDigest) : Prop :=
  ∀ a b : Decimal, (a == b) = true → numbers.decimal a = numbers.decimal b

namespace Value

variable {numbers : NumberDigest}

mutual

/-- **Equal values have one digest.** -/
theorem digest_eq_of_beq (hnumbers : numbers.Consistent) {v w : Value} (h : (v == w) = true) :
    v.digest numbers = w.digest numbers := by
  match v, w, same_iff.1 h with
  | _, _, .boolean b => rfl
  | _, _, .integer n => rfl
  | .decimal a, .decimal b, .decimal hworth =>
    rw [digest, digest, hnumbers a b ((Decimal.beq_iff a b).2 hworth)]
  | _, _, .string s => rfl
  | .list vs, .list ws, .list hall =>
    rw [digest, digest, hall.length_eq, digestItems_eq hnumbers hall]
  | _, _, .table hlength _ => rw [digest, digest, hlength]
  | .pair k v, .pair l w, .pair hkey hvalue =>
    rw [digest, digest, digest_eq_of_beq hnumbers hkey, digest_eq_of_beq hnumbers hvalue]
  | _, _, .reference name => rfl
  | _, _, .builder kind => rfl

theorem digestItems_eq (hnumbers : numbers.Consistent) {vs ws : List Value}
    (h : List.Forall₂ (fun v w => (v == w) = true) vs ws) :
    digestItems numbers vs = digestItems numbers ws := by
  match vs, ws, h with
  | _, _, .nil => rfl
  | v :: vs, w :: ws, .cons hhead htail =>
    rw [digestItems, digestItems, digest_eq_of_beq hnumbers hhead, digestItems_eq hnumbers htail]

end

end Value

/-! ## Decimals in plain notation -/

/-- Takes off zeros at the end, at most so many. -/
def dropZeros : Nat → Int → Int
  | 0, n => n
  | places + 1, n => if n % 10 = 0 then dropZeros places (n / 10) else n

theorem dropZeros_spec (places : Nat) (n : Int) : ∃ k : Nat,
    n * 10 ^ k = dropZeros places n * 10 ^ places ∧ (k = 0 ∨ dropZeros places n % 10 ≠ 0) := by
  induction places generalizing n with
  | zero => exact ⟨0, rfl, .inl rfl⟩
  | succ places ih =>
    by_cases hzero : n % 10 = 0
    · obtain ⟨k, hk, hend⟩ := ih (n / 10)
      have hn : n = 10 * (n / 10) := by omega
      rw [dropZeros, if_pos hzero]
      refine ⟨k, ?_, hend⟩
      calc n * 10 ^ k = 10 * (n / 10 * 10 ^ k) := by rw [← mul_assoc, ← hn]
        _ = dropZeros places (n / 10) * 10 ^ (places + 1) := by rw [hk]; ring
    · rw [dropZeros, if_neg hzero]
      exact ⟨places + 1, rfl, .inr hzero⟩

namespace Decimal

/-- The digits in plain notation, without the point and the zeros at the end behind it. -/
def plain (d : Decimal) : Int :=
  if d.scale ≤ 0 then d.digitsAt 0 else dropZeros d.scale.toNat d.digits

/-- There are `k` digits behind the point, and the last of them is no zero. -/
theorem plain_spec (d : Decimal) : ∃ k : Nat,
    d.worth * 10 ^ k = d.plain ∧ (k = 0 ∨ d.plain % 10 ≠ 0) := by
  unfold plain
  split
  · next hscale => exact ⟨0, by simpa using (cast_digitsAt hscale).symm, .inl rfl⟩
  · next hscale =>
    obtain ⟨k, hk, hend⟩ := dropZeros_spec d.scale.toNat d.digits
    have hplaces : ((d.scale.toNat : Nat) : Int) = d.scale := by omega
    refine ⟨k, ?_, hend⟩
    have hcast : (d.digits : ℚ) * 10 ^ k =
        dropZeros d.scale.toNat d.digits * 10 ^ d.scale := by
      rw [← hplaces, zpow_natCast]
      exact_mod_cast hk
    calc d.worth * 10 ^ k = d.digits * 10 ^ k * 10 ^ (-d.scale) := by rw [worth]; ring
      _ = dropZeros d.scale.toNat d.digits * (10 ^ d.scale * 10 ^ (-d.scale)) := by
        rw [hcast, mul_assoc]
      _ = dropZeros d.scale.toNat d.digits := by
        rw [← ten_zpow_add, add_neg_cancel, zpow_zero, mul_one]

/-- With as many digits behind the point or more, there are no more of them, as the last one is
no zero. -/
theorem plain_eq_of_le {a b : Decimal} {k l : Nat} (hab : a.worth = b.worth)
    (ha : a.worth * 10 ^ k = a.plain) (hb : b.worth * 10 ^ l = b.plain)
    (hend : l = 0 ∨ b.plain % 10 ≠ 0) (h : k ≤ l) : a.plain = b.plain := by
  obtain ⟨j, rfl⟩ := Nat.exists_eq_add_of_le h
  have hshift : a.plain * 10 ^ j = b.plain := by
    have hcast : (a.plain : ℚ) * 10 ^ j = b.plain := by
      rw [← ha, ← hb, hab, pow_add, mul_assoc]
    exact_mod_cast hcast
  cases j with
  | zero => simpa using hshift
  | succ j =>
    have hzero : b.plain % 10 = 0 := by
      rw [← hshift, pow_succ, ← mul_assoc]
      exact Int.mul_emod_left ..
    rcases hend with hl | hend
    · omega
    · exact absurd hzero hend

/-- **Decimals of one worth have one plain notation.** -/
theorem plain_eq {a b : Decimal} (h : a.worth = b.worth) : a.plain = b.plain := by
  obtain ⟨k, ha, hk⟩ := plain_spec a
  obtain ⟨l, hb, hl⟩ := plain_spec b
  rcases Nat.le_total k l with hkl | hlk
  · exact plain_eq_of_le h ha hb hl hkl
  · exact (plain_eq_of_le h.symm hb ha hk hlk).symm

example : plain ⟨-1500, 3⟩ = plain ⟨-15, 1⟩ := by decide

end Decimal

namespace NumberDigest

/-- An integer by its sign and its words of 64 bits, a decimal by its plain notation. -/
def plain : NumberDigest where
  integer n :=
    let words := Nat.digits (2 ^ 64) n.natAbs
    .variant (n.sign + 1).toNat ::
      if n = 0 then [] else .size words.length :: words.map .word
  decimal d := [.text (toString d.plain)]

theorem consistent_plain : plain.Consistent := by
  intro a b h
  have hplain : a.plain = b.plain := Decimal.plain_eq ((Decimal.beq_iff a b).1 h)
  simp only [plain, hplain]

end NumberDigest

end LazyDecl
