import Mathlib
import Stencil.Proofs.CanonicalDecimals

/-!
# How numbers are written

The text of a finite number is a canonical decimal, half a unit of the fourth place away from the
number at most. Whole numbers are written exactly, whatever their size: the zeros that are trimmed
stand behind the point.

* `patternValue` — the number that a bit pattern stands for
* `inSteps` — the text step by step: whole numbers by their digits, other numbers with all their
  places, which are trimmed then
* `shortened_placesText`, `fixedText_eq_inSteps` — the steps give the text of the number
* `text_canonical` — the text of every finite bit pattern
-/

namespace Stencil.Number

/-! ## What a bit pattern stands for -/

/-- The eleven bits of the exponent. -/
def exponentBits (bits : UInt64) : Nat := (bits.toBitVec.extractLsb' 52 11).toNat

/-- The fifty-two bits of the fraction. -/
def fractionBits (bits : UInt64) : Nat := (bits.toBitVec.extractLsb' 0 52).toNat

/-- Whether a pattern stands for a finite number: the bits of the exponent are not all ones. -/
def IsFinite (bits : UInt64) : Prop := exponentBits bits ≠ 2 ^ 11 - 1

instance (bits : UInt64) : Decidable (IsFinite bits) := inferInstanceAs (Decidable (_ ≠ _))

/-- The number that a finite pattern stands for. The highest bit is the sign. A one stands before
the fraction, except at the lowest exponent. -/
def patternValue (bits : UInt64) : ℚ :=
  signed bits.toBitVec.msb <|
    if exponentBits bits = 0 then fractionBits bits / 2 ^ 52 * 2 ^ (-1022 : ℤ)
    else (1 + fractionBits bits / 2 ^ 52) * 2 ^ ((exponentBits bits : ℤ) - 1023)

/-- Every finite pattern is the pattern of a double. -/
theorem toBits_ofBits {bits : UInt64} (h : IsFinite bits) : (Float.ofBits bits).toBits = bits := by
  have hvalid : Float.Model.Format.binary64.Valid bits.toBitVec :=
    ⟨fun hexponent => absurd (congrArg BitVec.toNat hexponent) h⟩
  have hx : Float.ofBits (Float.ofModel ⟨bits, hvalid⟩).toBits = .ofModel ⟨bits, hvalid⟩ :=
    Float.ofBits_toBits _
  exact congrArg Float.toBits hx

section Fields

variable (bits : UInt64)

theorem msb_eq : bits.toBitVec.msb = (bits.toNat / Nat.pow 2 63 == 1) := by
  have hlt : bits.toNat < 2 ^ 64 := bits.toNat_lt
  rw [BitVec.msb_eq_decide, UInt64.toNat_toBitVec, Bool.eq_iff_iff, decide_eq_true_iff, beq_iff_eq]
  show 2 ^ 63 ≤ bits.toNat ↔ bits.toNat / 2 ^ 63 = 1
  omega

theorem exponentBits_eq : exponentBits bits = bits.toNat / Nat.pow 2 52 % Nat.pow 2 11 := by
  rw [exponentBits, BitVec.extractLsb'_toNat, UInt64.toNat_toBitVec, Nat.shiftRight_eq_div_pow]

theorem fractionBits_eq : fractionBits bits = bits.toNat % Nat.pow 2 52 := by
  rw [fractionBits, BitVec.extractLsb'_toNat, UInt64.toNat_toBitVec, Nat.shiftRight_zero]

end Fields

theorem ofBits_eq {bits : UInt64} (h : IsFinite bits) :
    Reading.ofBits bits = if exponentBits bits = 0
      then .finite bits.toBitVec.msb (fractionBits bits) (-1074)
      else .finite bits.toBitVec.msb (2 ^ 52 + fractionBits bits) (exponentBits bits - 1075) := by
  have hexponent : ¬bits.toNat / Nat.pow 2 52 % Nat.pow 2 11 = 2047 := by
    rw [← exponentBits_eq]
    exact h
  rw [msb_eq, exponentBits_eq, fractionBits_eq, Reading.ofBits]
  simp only [if_neg hexponent]
  rfl

theorem cast_fraction (m : Nat) (e : Int) :
    ((fraction m e).1 : ℚ) / (fraction m e).2 = m * 2 ^ e := by
  have hnum : (fraction m e).1 = m * 2 ^ e.toNat := rfl
  have hden : (fraction m e).2 = 2 ^ (-e).toNat := rfl
  rw [hnum, hden]
  push_cast
  rw [mul_div_assoc, ← zpow_natCast, ← zpow_natCast, ← zpow_sub₀ two_ne_zero]
  congr 2
  omega

/-- A finite pattern is read as the number that it stands for. -/
theorem exists_ofBits {bits : UInt64} (h : IsFinite bits) :
    ∃ m e, Reading.ofBits bits = .finite bits.toBitVec.msb m e ∧
      patternValue bits = signed bits.toBitVec.msb (m * 2 ^ e) := by
  have hscale : ∀ (x : ℚ) (k : ℤ), x / 2 ^ 52 * 2 ^ k = x * 2 ^ (k - 52) := by
    intro x k
    rw [zpow_sub₀ two_ne_zero, div_mul_eq_mul_div, mul_div_assoc]
    rfl
  rw [ofBits_eq h, patternValue]
  split
  · refine ⟨_, _, rfl, ?_⟩
    rw [hscale]
    norm_num
  · refine ⟨_, _, rfl, ?_⟩
    have hone : 1 + (fractionBits bits : ℚ) / 2 ^ 52 = (2 ^ 52 + fractionBits bits) / 2 ^ 52 := by
      rw [add_div, div_self (by positivity)]
    rw [hone, hscale, sub_sub]
    push_cast
    norm_num

/-- The text of a finite pattern is that of a fraction, which is the number that it stands for. -/
theorem exists_text_ofBits {bits : UInt64} (h : IsFinite bits) :
    ∃ num den : Nat, 0 < den ∧ patternValue bits = signed bits.toBitVec.msb (num / den) ∧
      (text (Float.ofBits bits)).toList
        = fixedText bits.toBitVec.msb (roundHalfEven (num * 10 ^ 4) den) := by
  obtain ⟨m, e, hread, hvalue⟩ := exists_ofBits h
  refine ⟨(fraction m e).1, (fraction m e).2, fraction_den_pos m e, ?_, ?_⟩
  · rw [hvalue, cast_fraction]
  · rw [text, String.toList_ofList, read, toBits_ofBits h, hread]
    rfl

/-! ## Rounding -/

section Rounding

variable {num den : Nat}

theorem abs_roundHalfEven_sub (num : Nat) (hden : 0 < den) :
    |(roundHalfEven num den : ℚ) - num / den| ≤ 1 / 2 := by
  obtain ⟨hlow, hhigh⟩ := roundHalfEven_near num den hden
  have hpos : (0 : ℚ) < den := Nat.cast_pos.mpr hden
  have hlow' : (2 * num : ℚ) ≤ (2 * roundHalfEven num den + 1) * den := by exact_mod_cast hlow
  have hhigh' : (2 * (roundHalfEven num den * den) : ℚ) ≤ 2 * num + den := by exact_mod_cast hhigh
  rw [abs_sub_le_iff, sub_le_iff_le_add, sub_le_iff_le_add, div_le_iff₀ hpos, ← sub_le_iff_le_add',
    le_div_iff₀ hpos]
  constructor <;> linarith

/-- A whole number is rounded to itself. -/
theorem roundHalfEven_whole (k : Nat) (hden : 0 < den) : roundHalfEven (k * den) den = k := by
  simp [roundHalfEven, Nat.mul_div_cancel k hden, hden]

theorem roundHalfEven_mul_mul {k : Nat} (hk : 0 < k) :
    roundHalfEven (num * k) (den * k) = roundHalfEven num den := by
  have hlt : 2 * (num % den * k) < den * k ↔ 2 * (num % den) < den := by
    rw [← Nat.mul_assoc, Nat.mul_lt_mul_right hk]
  have hgt : den * k < 2 * (num % den * k) ↔ den < 2 * (num % den) := by
    rw [← Nat.mul_assoc, Nat.mul_lt_mul_right hk]
  simp only [roundHalfEven, Nat.mul_div_mul_right _ _ hk, Nat.mul_mod_mul_right, hlt, hgt]

/-- Rounding depends on the number only, not on how it is written as a fraction. -/
theorem roundHalfEven_congr {num' den' : Nat} (hden : 0 < den) (hden' : 0 < den')
    (h : num * den' = num' * den) : roundHalfEven num den = roundHalfEven num' den' := by
  rw [← roundHalfEven_mul_mul hden', h, Nat.mul_comm den, roundHalfEven_mul_mul hden]

/-- The decimal of a rounded number is half a unit of the fourth place away from it at most. -/
theorem abs_value_ofUnits_sub (negative : Bool) (hden : 0 < den) :
    |(Decimal.ofUnits negative (roundHalfEven (num * 10 ^ 4) den)).value
      - signed negative (num / den)| ≤ 0.00005 := by
  have hround := abs_roundHalfEven_sub (num * 10 ^ 4) hden
  generalize roundHalfEven (num * 10 ^ 4) den = n at hround ⊢
  have hscale : (n : ℚ) / 10 ^ 4 - num / den = (n - (num * 10 ^ 4 : Nat) / den) / 10 ^ 4 := by
    push_cast
    ring
  have hpos : (0 : ℚ) < 10 ^ 4 := by positivity
  rw [Decimal.value_ofUnits, abs_signed_sub, hscale, abs_div, abs_of_pos hpos, div_le_iff₀ hpos]
  refine hround.trans ?_
  norm_num

/-- The decimal of a whole number is this number. -/
theorem value_ofUnits_whole (negative : Bool) (hden : 0 < den) {z : ℤ}
    (hz : signed negative (num / den) = z) :
    (Decimal.ofUnits negative (roundHalfEven (num * 10 ^ 4) den)).value = z := by
  have hpos : (den : ℚ) ≠ 0 := Nat.cast_ne_zero.mpr hden.ne'
  have habs : (num : ℚ) / den = z.natAbs := by
    rw [Nat.cast_natAbs, Int.cast_abs, ← hz, abs_signed, abs_of_nonneg (by positivity)]
  have hnum : num = z.natAbs * den := by
    rw [div_eq_iff hpos] at habs
    exact_mod_cast habs
  have hround : roundHalfEven (num * 10 ^ 4) den = z.natAbs * 10 ^ 4 := by
    rw [hnum, Nat.mul_right_comm, roundHalfEven_whole _ hden]
  rw [hround, Decimal.value_ofUnits, Nat.cast_mul, ← hz, habs]
  norm_num

end Rounding

/-! ## The text in steps -/

/-- The text of `± n / 10^4` with all four places, and with the sign also if it is zero. -/
def placesText (negative : Bool) (n : Nat) : List Char :=
  (if negative then ['-'] else []) ++ Text.digits (n / 10 ^ 4) ++ '.' :: paddedDigits 4 (n % 10 ^ 4)

/-- Takes the zeros off the end, and then the point. What is left of a zero becomes `0`. -/
def shortened (cs : List Char) : List Char :=
  let trimmed := (cs.rdropWhile (· == '0')).rdropWhile (· == '.')
  if trimmed = ['-', '0'] ∨ trimmed = [] then ['0'] else trimmed

/-- The text of a number with a given sign bit, step by step. A whole number that is not too large
is written by its digits, any other number with all its places, which are shortened then. -/
def inSteps (negative : Bool) (v : ℚ) : List Char :=
  if v.den = 1 ∧ |v| < 10 ^ 15 then (toString v.num).toList
  else shortened (placesText negative (roundHalfEven (v.num.natAbs * 10 ^ 4) v.den))

theorem rdropWhile_append_cons {p : Char → Bool} {c : Char} (hc : ¬p c) (l l' : List Char) :
    (l ++ c :: l').rdropWhile p = l ++ c :: l'.rdropWhile p := by
  induction l' using List.reverseRecOn with
  | nil => exact List.rdropWhile_concat_neg _ _ _ hc
  | append_singleton l' d ih =>
    rw [← List.cons_append, ← List.append_assoc, List.rdropWhile_concat, List.rdropWhile_concat, ih]
    split <;> simp

theorem rdropWhile_point {l : List Char} (hl : ∀ h : l ≠ [], (l.getLast h).isDigit) :
    l.rdropWhile (· == '.') = l := by
  refine List.rdropWhile_eq_self_iff.mpr fun h hlast => ?_
  have hdigit := hl h
  rw [beq_iff_eq.mp hlast] at hdigit
  exact absurd hdigit (by decide)

/-- The zeros that are trimmed are decimal places: the point keeps those before it. -/
theorem trimmed_places {l : List Char} (hl : ∀ h : l ≠ [], (l.getLast h).isDigit) (n : Nat) :
    ((l ++ '.' :: paddedDigits 4 (n % 10 ^ 4)).rdropWhile (· == '0')).rdropWhile (· == '.')
      = l ++ (if (decimalsOf n).isEmpty then [] else '.' :: decimalsOf n) := by
  have hzeros : (paddedDigits 4 (n % 10 ^ 4)).rdropWhile (· == '0') = decimalsOf n := rfl
  rw [rdropWhile_append_cons (by decide), hzeros]
  by_cases hd : decimalsOf n = []
  · rw [hd, List.rdropWhile_concat_pos _ _ _ (by decide), rdropWhile_point hl]
    simp
  · rw [if_neg (by simpa using hd)]
    refine rdropWhile_point fun h => ?_
    rw [List.getLast_append_of_ne_nil _ (List.cons_ne_nil _ _), List.getLast_cons hd]
    exact isDigit_of_mem_decimalsOf (List.getLast_mem hd)

/-- Shortening the text with all places gives the text of the number. -/
theorem shortened_placesText (negative : Bool) (n : Nat) :
    shortened (placesText negative n) = fixedText negative n := by
  by_cases hn : n = 0
  · subst hn
    cases negative <;> decide
  · have htext : ((placesText negative n).rdropWhile (· == '0')).rdropWhile (· == '.')
        = (Decimal.ofUnits negative n).characters := by
      rw [placesText, trimmed_places (isDigit_getLast_digits _ _), Decimal.characters_ofUnits,
        fixedText, bne_iff_ne.mpr hn, Bool.and_true]
      rfl
    -- What is trimmed is the text of a decimal already, so nothing is left to mend.
    rw [shortened, htext, if_neg, Decimal.characters_ofUnits]
    rintro (h | h)
    · exact Decimal.characters_ne_minus_zero _ h
    · exact Decimal.characters_ne_nil _ h

/-- A whole number is written by its digits. -/
theorem fixedText_whole (negative : Bool) (k : Nat) :
    fixedText negative (k * 10 ^ 4) = (toString (if negative then -(k : ℤ) else k)).toList := by
  have hdecimals : dropZeros (paddedDigits places (k * 10 ^ 4 % Nat.pow 10 places)) = [] :=
    decimalsOf_eq_nil_iff.mpr (Nat.mul_mod_left k _)
  have hwhole : k * 10 ^ 4 / Nat.pow 10 places = k := Nat.mul_div_cancel k (by decide)
  simp only [fixedText, hdecimals, hwhole, List.isEmpty_nil, if_true, List.append_nil]
  cases k with
  | zero => cases negative <;> decide
  | succ k =>
    have hne : (k + 1) * 10 ^ 4 ≠ 0 := by omega
    rw [bne_iff_ne.mpr hne, Bool.and_true]
    cases negative with
    | false => exact Nat.toList_repr.symm
    | true =>
      show '-' :: Text.digits (k + 1) = ("-" ++ Nat.repr (k + 1)).toList
      rw [String.toList_append, Nat.toList_repr]
      rfl

theorem abs_eq_natAbs_div_den (v : ℚ) : |v| = v.num.natAbs / v.den := by
  conv_lhs => rw [← Rat.num_div_den v]
  rw [abs_div, Nat.abs_cast, Nat.cast_natAbs, Int.cast_abs]

/-- The text of a number is the one that the steps lead to. -/
theorem fixedText_eq_inSteps (negative : Bool) {num den : Nat} (hden : 0 < den) :
    fixedText negative (roundHalfEven (num * 10 ^ 4) den)
      = inSteps negative (signed negative (num / den)) := by
  generalize hv : signed negative (num / den) = v
  have hpos : (den : ℚ) ≠ 0 := Nat.cast_ne_zero.mpr hden.ne'
  have habs : |v| = num / den := by
    rw [← hv, abs_signed, abs_of_nonneg (by positivity)]
  have hcross : num * v.den = v.num.natAbs * den := by
    have h := habs.symm.trans (abs_eq_natAbs_div_den v)
    rw [div_eq_div_iff hpos (Nat.cast_ne_zero.mpr v.den_ne_zero)] at h
    exact_mod_cast h
  rw [inSteps]
  split
  · next hwhole =>
    rw [hwhole.1, Nat.mul_one] at hcross
    have hcast : (v.num : ℚ) = signed negative v.num.natAbs := calc
      (v.num : ℚ) = v := Rat.coe_int_num_of_den_eq_one hwhole.1
      _ = signed negative (num / den) := hv.symm
      _ = signed negative v.num.natAbs := by
        rw [hcross, Nat.cast_mul, mul_div_cancel_right₀ _ hpos]
    have hnum : v.num = if negative then -(v.num.natAbs : ℤ) else v.num.natAbs :=
      Int.cast_injective (hcast.trans (signed_natCast negative _))
    have hround : roundHalfEven (num * 10 ^ 4) den = v.num.natAbs * 10 ^ 4 := by
      rw [hcross, Nat.mul_right_comm, roundHalfEven_whole _ hden]
    rw [hround, fixedText_whole, ← hnum]
  · have hround : roundHalfEven (num * 10 ^ 4) den
        = roundHalfEven (v.num.natAbs * 10 ^ 4) v.den := by
      refine roundHalfEven_congr hden v.den_pos ?_
      rw [Nat.mul_right_comm, hcross, Nat.mul_right_comm]
    rw [hround, shortened_placesText]

/-! ## The text of a finite number -/

/-- **The text of a finite number is a canonical decimal.** The steps lead to it, and it is the text of
one decimal only. This decimal is half a unit of the fourth place away from the number at most, and
it is the number if that is whole. -/
theorem text_canonical (bits : UInt64) (hfinite : IsFinite bits) :
    (text (Float.ofBits bits)).toList = inSteps bits.toBitVec.msb (patternValue bits) ∧
    text (Float.ofBits bits) ≠ "" ∧ text (Float.ofBits bits) ≠ "-0" ∧
    ∃ d : Decimal, (∀ d' : Decimal, d'.characters = (text (Float.ofBits bits)).toList ↔ d' = d) ∧
      |d.value - patternValue bits| ≤ 0.00005 ∧ ∀ z : ℤ, patternValue bits = z → d.value = z := by
  obtain ⟨num, den, hden, hvalue, htext⟩ := exists_text_ofBits hfinite
  have hsteps := htext.trans (fixedText_eq_inSteps _ hden)
  rw [← hvalue] at hsteps
  rw [← Decimal.characters_ofUnits] at htext
  refine ⟨hsteps, fun h => ?_, fun h => ?_,
    .ofUnits bits.toBitVec.msb (roundHalfEven (num * 10 ^ 4) den), fun d' => ?_, ?_, fun z hz => ?_⟩
  · rw [h] at htext
    exact Decimal.characters_ne_nil _ htext.symm
  · rw [h] at htext
    exact Decimal.characters_ne_minus_zero _ htext.symm
  · rw [htext]
    exact Decimal.characters_injective.eq_iff
  · rw [hvalue]
    exact abs_value_ofUnits_sub _ hden
  · exact value_ofUnits_whole _ hden (hvalue.symm.trans hz)

/-- The double `-10^22` ends in zeros, which are kept. -/
theorem text_canonical_huge :
    IsFinite 0xC480F0CF064DD592 ∧ patternValue 0xC480F0CF064DD592 = -10 ^ 22 ∧
      ∃ d : Decimal, d.characters = "-10000000000000000000000".toList ∧ d.value = -10 ^ 22 := by
  have hvalue : patternValue 0xC480F0CF064DD592 = -10 ^ 22 := by decide +kernel
  have htext : text (Float.ofBits 0xC480F0CF064DD592) = "-10000000000000000000000" := by
    decide +kernel
  obtain ⟨-, -, -, d, hd, -, hwhole⟩ := text_canonical 0xC480F0CF064DD592 (by decide)
  refine ⟨by decide, hvalue, d, ?_, ?_⟩
  · rw [(hd d).mpr rfl, htext]
  · have hz := hwhole (-10 ^ 22) (by rw [hvalue]; norm_num)
    rw [hz]
    norm_num

/-- A negative number close to zero has no sign: the double next to `-0.00001`. -/
example : text (Float.ofBits 0xBEE4F8B588E368F1) = "0" := by decide +kernel

end Stencil.Number
