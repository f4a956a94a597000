import Mathlib.Data.List.Basic
import Mathlib.Data.List.TakeWhile
import LazyDecl.Decimal.Text

/-!
Numbers written out and read back.

* `Numeral.integer?_digits`: the digits of a number spell it;
* `Decimal.layout_point`: the layout of digits with a scale that is neither too small nor too
  large is digits with a point in them;
* `Decimal.ofText?_text`: such a text is read as the same digits with the same scale.
-/

namespace LazyDecl

namespace Numeral

/-- All characters are digits. -/
def Digits (cs : List Char) : Prop := ∀ c ∈ cs, c.isDigit = true

variable {cs ds : List Char}

theorem Digits.append (hcs : Digits cs) (hds : Digits ds) : Digits (cs ++ ds) :=
  List.forall_mem_append.2 ⟨hcs, hds⟩

theorem digits_digits (n : Nat) : Digits (digits n) :=
  fun _ hc => Nat.isDigit_of_mem_toDigits (by decide) (by decide) hc

theorem digits_ne_nil (n : Nat) : digits n ≠ [] := Nat.toDigits_ne_nil

theorem Digits.not_mem (h : Digits cs) {c : Char} (hc : c.isDigit = false) : c ∉ cs :=
  fun hmem => absurd ((h c hmem).symm.trans hc) nofun

/-- Digits without underscores among them have the worth of base ten. -/
theorem value_eq (h : Digits cs) : value cs = Nat.ofDigitChars 10 cs 0 := by
  unfold value
  rw [Nat.ofDigitChars_eq_foldl]
  refine List.foldl_ext _ _ 0 fun n c hc => ?_
  exact if_neg (ne_of_mem_of_not_mem hc (h.not_mem (by decide)))

theorem value_digits (n : Nat) : value (digits n) = n := by
  rw [value_eq (digits_digits n)]
  exact Nat.ofDigitChars_ten_toDigits

/-- Zeros in front are worth nothing. -/
theorem value_zeros (n : Nat) (cs : List Char) :
    value (List.replicate n '0' ++ cs) = value cs := by
  unfold value
  rw [List.foldl_append]
  congr 1
  induction n with
  | zero => rfl
  | succ n ih => rw [List.replicate_succ, List.foldl_cons]; exact ih

theorem natural?_digits (h : Digits cs) (hne : cs ≠ []) : natural? cs = some (value cs) := by
  obtain ⟨c, ds, rfl⟩ := List.exists_cons_of_ne_nil hne
  have hall : (c :: ds).all (fun c => c.isDigit || c = '_') = true :=
    List.all_eq_true.2 fun d hd => by simp [h d hd]
  have hhead : (c :: ds).head?.any Char.isDigit = true := h c List.mem_cons_self
  rw [natural?, hall, hhead]
  rfl

/-- **Digits without a sign are an integer.** -/
theorem integer?_digits (h : Digits cs) (hne : cs ≠ []) : integer? cs = some (value cs : Int) := by
  have hn := natural?_digits h hne
  unfold integer?
  split
  · exact absurd (h '-' List.mem_cons_self) (by decide)
  · exact absurd (h '+' List.mem_cons_self) (by decide)
  · rw [hn]
    rfl

end Numeral

namespace Decimal

open Numeral

/-- Digits on both sides of a point. -/
structure Pointed (whole fraction : List Char) : Prop where
  whole_digits : Digits whole
  whole_ne : whole ≠ []
  fraction_digits : Digits fraction
  fraction_ne : fraction ≠ []

/-- **The layout has a point,** and behind it as many digits as the scale says. No digit is lost,
and zeros are added in front only. -/
theorem layout_point {ds : List Char} (h : Digits ds) {scale : Int} (hlow : 1 ≤ scale)
    (hhigh : scale ≤ ds.length + leadingZeros) :
    ∃ whole fraction, layout ds scale = whole ++ '.' :: fraction ∧ Pointed whole fraction ∧
      (fraction.length : Int) = scale ∧ value (whole ++ fraction) = value ds := by
  unfold layout
  rw [if_neg (by omega), if_neg (by simp only [trailingZeros]; omega), if_neg (by omega)]
  dsimp only
  obtain ⟨places, rfl⟩ := Int.eq_ofNat_of_zero_le (by omega : 0 ≤ scale)
  rw [Int.toNat_natCast]
  split
  · -- The point stands between two digits.
    next hlt =>
    refine ⟨_, _, rfl, ⟨fun c hc => h c (List.mem_of_mem_take hc), ?_,
      fun c hc => h c (List.mem_of_mem_drop hc), ?_⟩, ?_, by rw [List.take_append_drop]⟩
    · exact List.ne_nil_of_length_pos (by rw [List.length_take]; omega)
    · exact List.ne_nil_of_length_pos (by rw [List.length_drop]; omega)
    · rw [List.length_drop]
      omega
  · -- All digits stand behind the point, and zeros in front of them.
    next hle =>
    have hzeros : Digits (List.replicate (places - ds.length) '0') := by
      intro c hc
      rw [List.eq_of_mem_replicate hc]
      decide
    have hlength : (List.replicate (places - ds.length) '0' ++ ds).length = places := by
      rw [List.length_append, List.length_replicate]
      omega
    refine ⟨['0'], List.replicate (places - ds.length) '0' ++ ds, rfl,
      ⟨by simp [Digits], by simp, hzeros.append h, ?_⟩, by rw [hlength], ?_⟩
    · exact List.ne_nil_of_length_pos (by omega)
    · rw [← List.append_assoc, List.singleton_append, ← List.replicate_succ, value_zeros]

/-- **Digits with a point are read as they stand,** if the number of places is a scale. -/
theorem ofText?_pointed_eq {whole fraction : List Char} (h : Pointed whole fraction) :
    ofText? (String.ofList (whole ++ '.' :: fraction)) =
      if scaleInRange fraction.length then some ⟨value (whole ++ fraction), fraction.length⟩
      else none := by
  have hmark : ∀ c ∈ whole ++ '.' :: fraction, (!isExponentMark c) = true := by
    have hdigit : ∀ c : Char, c.isDigit = true → (!isExponentMark c) = true := by
      intro c hc
      have he : c ≠ 'e' := by rintro rfl; exact absurd hc (by decide)
      have hE : c ≠ 'E' := by rintro rfl; exact absurd hc (by decide)
      simp [isExponentMark, he, hE]
    refine List.forall_mem_append.2 ⟨fun c hc => hdigit c (h.whole_digits c hc),
      List.forall_mem_cons.2 ⟨by decide, fun c hc => hdigit c (h.fraction_digits c hc)⟩⟩
  have hpoint : ∀ c ∈ whole, decide (c ≠ '.') = true := fun c hc =>
    decide_eq_true (ne_of_mem_of_not_mem hc (h.whole_digits.not_mem (by decide)))
  have htake : (whole ++ '.' :: fraction).takeWhile (fun c => decide (c ≠ '.')) = whole := by
    rw [List.takeWhile_append_of_pos hpoint]
    simp
  have hdrop : (whole ++ '.' :: fraction).dropWhile (fun c => decide (c ≠ '.')) =
      '.' :: fraction := by
    rw [List.dropWhile_append_of_pos hpoint]
    simp
  have hcount : fraction.countP (fun c => decide (c ≠ '_')) = fraction.length :=
    List.countP_eq_length.2 fun c hc =>
      decide_eq_true (ne_of_mem_of_not_mem hc (h.fraction_digits.not_mem (by decide)))
  have hinteger : integer? (whole ++ fraction) = some (value (whole ++ fraction) : Int) :=
    integer?_digits (h.whole_digits.append h.fraction_digits) (by simp [h.whole_ne])
  have hmantissa : (whole ++ '.' :: fraction).takeWhile (!isExponentMark ·) =
      whole ++ '.' :: fraction := List.takeWhile_eq_self_iff.2 hmark
  have hexponent : (whole ++ '.' :: fraction).dropWhile (!isExponentMark ·) = [] :=
    List.dropWhile_eq_nil_iff.2 hmark
  unfold ofText?
  simp only [String.toList_ofList, hmantissa, hexponent, htake, hdrop, List.drop_succ_cons,
    List.drop_zero, hinteger, hcount, Option.bind_eq_bind, Option.bind_some, Int.sub_zero]

theorem ofText?_pointed {whole fraction : List Char} (h : Pointed whole fraction)
    (hrange : scaleInRange fraction.length = true) :
    ofText? (String.ofList (whole ++ '.' :: fraction)) =
      some ⟨value (whole ++ fraction), fraction.length⟩ := by
  rw [ofText?_pointed_eq h, if_pos hrange]

/-- The decimal is written with a point: it is no zero, and its scale is at least one and lets no
more than five zeros come behind the point. Scales are held in 64 bits, so `range` leaves out no
decimal that there is: it stands here because the type of `scale` does not say so. -/
structure WrittenWithPoint (d : Decimal) : Prop where
  nonzero : d.digits ≠ 0
  low : 1 ≤ d.scale
  high : d.scale ≤ count d.digits.natAbs + leadingZeros
  range : scaleInRange d.scale = true

instance (d : Decimal) : Decidable d.WrittenWithPoint :=
  decidable_of_iff (d.digits ≠ 0 ∧ 1 ≤ d.scale ∧ d.scale ≤ count d.digits.natAbs + leadingZeros ∧
      scaleInRange d.scale = true)
    ⟨fun ⟨h₁, h₂, h₃, h₄⟩ => ⟨h₁, h₂, h₃, h₄⟩, fun ⟨h₁, h₂, h₃, h₄⟩ => ⟨h₁, h₂, h₃, h₄⟩⟩

/-- **A decimal that is written with a point is read back** from the text behind its sign. -/
theorem text_pointed {d : Decimal} (h : d.WrittenWithPoint) :
    ∃ whole fraction, Pointed whole fraction ∧
      d.text.toList = (if d.digits < 0 then ['-'] else []) ++ (whole ++ '.' :: fraction) ∧
      ofText? (String.ofList (whole ++ '.' :: fraction)) = some ⟨d.digits.natAbs, d.scale⟩ := by
  obtain ⟨whole, fraction, hlayout, hpointed, hscale, hvalue⟩ :=
    layout_point (digits_digits d.digits.natAbs) h.low h.high
  have hread := ofText?_pointed hpointed (hscale ▸ h.range)
  rw [hscale, hvalue, value_digits] at hread
  refine ⟨whole, fraction, hpointed, ?_, hread⟩
  have hzero : d.isZero = false := decide_eq_false h.nonzero
  simp only [text, hzero, Bool.false_eq_true, if_false, hlayout, String.toList_ofList]
  split <;> rfl

end Decimal

end LazyDecl
