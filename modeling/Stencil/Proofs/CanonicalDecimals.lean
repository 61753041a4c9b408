import Mathlib.Algebra.Order.Field.Rat
import Mathlib.Data.List.DropRight
import Mathlib.Tactic.FieldSimp
import Mathlib.Tactic.Linarith
import Stencil.Number.Fixed

/-!
# Canonical decimals

A decimal has digits before the point and perhaps some after it. In canonical form it has no zero
that could be left out, no point without places and no sign before zero.

* `Decimal` — the canonical decimals with at most four places, `Decimal.characters` and
  `Decimal.value` — their texts and the numbers that they denote
* `Decimal.characters_injective` — a text is the text of one decimal at most
* `Decimal.ofUnits` — the decimal of a whole number of units of the fourth place
* `Decimal.characters_ofUnits`, `Decimal.value_ofUnits` — its text is `fixedText`, and no digit that
  counts is lost
-/

namespace Stencil.Number

/-! ## Signs -/

/-- A magnitude with its sign. -/
def signed (negative : Bool) (x : ℚ) : ℚ := if negative then -x else x

theorem abs_signed (negative : Bool) (x : ℚ) : |signed negative x| = |x| := by
  cases negative <;> simp [signed]

theorem abs_signed_sub (negative : Bool) (x y : ℚ) :
    |signed negative x - signed negative y| = |x - y| := by
  cases negative with
  | false => rfl
  | true => simp only [signed, if_true, neg_sub_neg, abs_sub_comm]

/-- A whole number with a sign is an integer. -/
theorem signed_natCast (negative : Bool) (k : Nat) :
    signed negative k = ((if negative then -(k : ℤ) else k : ℤ) : ℚ) := by
  cases negative <;> simp [signed]

/-! ## The decimals -/

/-- A decimal in canonical form. It is written without a point if it has no decimal places. -/
@[ext]
structure Decimal where
  negative : Bool
  whole : List Char
  decimals : List Char
  digits : ∀ c ∈ whole ++ decimals, c.isDigit
  whole_ne_nil : whole ≠ []
  /-- No superfluous zero stands in front. -/
  head_ne_zero : whole ≠ ['0'] → whole.head? ≠ some '0'
  decimals_length : decimals.length ≤ 4
  /-- No zero stands at the end of the decimal places. -/
  last_ne_zero : decimals.getLast? ≠ some '0'
  /-- Zero has no sign. -/
  ne_zero : negative → whole = ['0'] → decimals ≠ []

namespace Decimal

/-- How a decimal is written. -/
def characters (d : Decimal) : List Char :=
  (if d.negative then ['-'] else []) ++ d.whole ++
    (if d.decimals.isEmpty then [] else '.' :: d.decimals)

/-- The number that a decimal denotes. -/
def value (d : Decimal) : ℚ :=
  signed d.negative
    (Nat.ofDigitChars 10 d.whole 0 + Nat.ofDigitChars 10 d.decimals 0 / 10 ^ d.decimals.length)

variable (d : Decimal)

theorem not_mem_of_not_isDigit {c : Char} (hc : ¬c.isDigit) : c ∉ d.whole ∧ c ∉ d.decimals :=
  ⟨fun h => hc (d.digits c (List.mem_append_left _ h)),
    fun h => hc (d.digits c (List.mem_append_right _ h))⟩

/-- The sign can be read off, since digits are no signs. -/
theorem minus_mem_characters : '-' ∈ d.characters ↔ d.negative = true := by
  have hno := d.not_mem_of_not_isDigit (c := '-') (by decide)
  cases hn : d.negative <;> cases hd : d.decimals.isEmpty <;> simp [characters, hn, hd, hno]

/-- So can a point. -/
theorem point_mem_characters : '.' ∈ d.characters ↔ d.decimals.isEmpty = false := by
  have hno := d.not_mem_of_not_isDigit (c := '.') (by decide)
  cases hn : d.negative <;> cases hd : d.decimals.isEmpty <;> simp [characters, hn, hd, hno]

/-- A text is the text of one decimal at most. -/
theorem characters_injective : Function.Injective characters := by
  intro d d' h
  -- The minus and the point are no digits: the text has them just if the decimal has these parts.
  have hnegative : d.negative = d'.negative := by
    rw [Bool.eq_iff_iff, ← minus_mem_characters, ← minus_mem_characters, h]
  have hempty : d.decimals.isEmpty = d'.decimals.isEmpty := by
    rw [← Bool.not_inj_iff, Bool.eq_iff_iff, Bool.not_eq_true', Bool.not_eq_true',
      ← point_mem_characters, ← point_mem_characters, h]
  simp only [characters, hnegative, hempty, List.append_assoc, List.append_cancel_left_eq] at h
  cases hd : d'.decimals.isEmpty with
  | true =>
    rw [hd, List.isEmpty_iff] at hempty
    rw [List.isEmpty_iff] at hd
    refine Decimal.ext hnegative ?_ (hempty.trans hd.symm)
    simpa [hd] using h
  | false =>
    simp only [hd, Bool.false_eq_true, if_false] at h
    obtain ⟨hwhole, hdecimals⟩ := Text.append_mark_inj
      (d.not_mem_of_not_isDigit (by decide)).1 (d'.not_mem_of_not_isDigit (by decide)).1 h
    exact Decimal.ext hnegative hwhole hdecimals

theorem characters_ne_nil : d.characters ≠ [] := by
  simp [characters, d.whole_ne_nil]

/-- Zero is written without a sign. -/
theorem characters_ne_minus_zero : d.characters ≠ ['-', '0'] := by
  intro h
  have hnegative : d.negative = true := by
    rw [← minus_mem_characters, h]
    exact List.mem_cons_self
  have hempty : d.decimals.isEmpty = true := by
    rw [← Bool.not_eq_false, ← point_mem_characters, h]
    decide
  have hwhole : d.whole = ['0'] := by
    simpa [characters, hnegative, hempty] using h
  exact d.ne_zero hnegative hwhole (List.isEmpty_iff.mp hempty)

end Decimal

/-! ## Digits -/

theorem digits_ne_nil (n : Nat) : Text.digits n ≠ [] := Nat.toDigits_ne_nil

theorem isDigit_of_mem_digits {n : Nat} {c : Char} (hc : c ∈ Text.digits n) : c.isDigit :=
  Nat.isDigit_of_mem_toDigits (by decide) (by decide) hc

theorem isDigit_getLast_digits (l : List Char) (n : Nat) (h : l ++ Text.digits n ≠ []) :
    ((l ++ Text.digits n).getLast h).isDigit := by
  rw [List.getLast_append_of_ne_nil _ (digits_ne_nil n)]
  exact isDigit_of_mem_digits (List.getLast_mem _)

/-- Only zero is written with a zero in front. -/
theorem eq_zero_of_head_digits {n : Nat} (h : (Text.digits n).head? = some '0') : n = 0 := by
  induction n using Nat.strong_induction_on with
  | h n ih =>
    rw [Text.digits, Nat.toDigits_eq_if (by decide)] at h
    split at h
    · next hlt =>
      have hall : ∀ d < 10, [Nat.digitChar d].head? = some '0' → d = 0 := by decide
      exact hall n hlt h
    · next hge =>
      rw [List.head?_append_of_ne_nil _ Nat.toDigits_ne_nil] at h
      have hzero := ih (n / 10) (by omega) h
      omega

theorem digits_eq_zero_iff {n : Nat} : Text.digits n = ['0'] ↔ n = 0 :=
  ⟨fun h => eq_zero_of_head_digits (by rw [h]; rfl), fun h => by rw [h]; rfl⟩

theorem ofDigitChars_digits (n : Nat) : Nat.ofDigitChars 10 (Text.digits n) 0 = n :=
  Nat.ofDigitChars_ten_toDigits

section Padded

variable (width n : Nat)

theorem isDigit_of_mem_paddedDigits {c : Char} (hc : c ∈ paddedDigits width n) : c.isDigit := by
  rcases List.mem_append.mp hc with hc | hc
  · rw [List.eq_of_mem_replicate hc]
    decide
  · exact isDigit_of_mem_digits hc

/-- Digits that are padded have the width asked for, unless the number is too long for it. -/
theorem length_paddedDigits (hwidth : 0 < width) (hn : n < 10 ^ width) :
    (paddedDigits width n).length = width := by
  have hle : (Text.digits n).length ≤ width :=
    (Nat.length_toDigits_le_iff (by decide) hwidth).mpr hn
  rw [paddedDigits, List.length_append, List.length_replicate]
  omega

/-- Zeros in front do not change what digits stand for. -/
theorem ofDigitChars_paddedDigits : Nat.ofDigitChars 10 (paddedDigits width n) 0 = n := by
  rw [paddedDigits, Nat.ofDigitChars_append, Nat.ofDigitChars_replicate_zero, Nat.mul_zero,
    ofDigitChars_digits]

end Padded

section Trimmed

variable (ds : List Char)

theorem dropZeros_eq : dropZeros ds = ds.rdropWhile (· == '0') := rfl

theorem dropZeros_sublist : (dropZeros ds).Sublist ds :=
  List.rdropWhile_prefix _ ds |>.sublist

/-- What is dropped are zeros. -/
theorem exists_dropZeros : ∃ k, ds = dropZeros ds ++ List.replicate k '0' := by
  have hzeros : ds.rtakeWhile (· == '0') = List.replicate (ds.rtakeWhile (· == '0')).length '0' :=
    List.eq_replicate_of_mem fun c hc => by simpa using List.mem_rtakeWhile_imp hc
  refine ⟨(ds.rtakeWhile (· == '0')).length, ?_⟩
  rw [← hzeros, dropZeros_eq, List.rdropWhile_append_rtakeWhile]

/-- No zero is left at the end. -/
theorem getLast_dropZeros : (dropZeros ds).getLast? ≠ some '0' := by
  intro h
  obtain ⟨hne, hlast⟩ := List.mem_getLast?_eq_getLast h
  exact List.rdropWhile_last_not _ _ hne (beq_iff_eq.mpr hlast.symm)

/-- As decimal places, digits denote the same with and without zeros at their end. -/
theorem ofDigitChars_dropZeros :
    (Nat.ofDigitChars 10 (dropZeros ds) 0 : ℚ) / 10 ^ (dropZeros ds).length
      = Nat.ofDigitChars 10 ds 0 / 10 ^ ds.length := by
  obtain ⟨k, hk⟩ := exists_dropZeros ds
  rw [congrArg List.length hk, congrArg (Nat.ofDigitChars 10 · 0) hk, Nat.ofDigitChars_append,
    Nat.ofDigitChars_replicate_zero, List.length_append, List.length_replicate]
  push_cast
  rw [pow_add]
  field_simp

end Trimmed

/-! ## Units of the fourth place -/

/-- The decimal places of `n / 10^places`. -/
def decimalsOf (n : Nat) : List Char := dropZeros (paddedDigits places (n % Nat.pow 10 places))

theorem length_paddedDigits_mod (n : Nat) :
    (paddedDigits places (n % Nat.pow 10 places)).length = 4 :=
  length_paddedDigits _ _ (by decide) (Nat.mod_lt _ (by decide))

theorem isDigit_of_mem_decimalsOf {n : Nat} {c : Char} (hc : c ∈ decimalsOf n) : c.isDigit :=
  isDigit_of_mem_paddedDigits _ _ ((dropZeros_sublist _).subset hc)

/-- There are no decimal places just for whole numbers. -/
theorem decimalsOf_eq_nil_iff {n : Nat} : decimalsOf n = [] ↔ n % 10 ^ 4 = 0 := by
  constructor
  · intro h
    obtain ⟨k, hk⟩ := exists_dropZeros (paddedDigits places (n % Nat.pow 10 places))
    have hvalue := ofDigitChars_paddedDigits places (n % Nat.pow 10 places)
    rw [hk, ← decimalsOf, h, List.nil_append, Nat.ofDigitChars_replicate_zero] at hvalue
    exact hvalue.symm
  · intro h
    have hmod : n % Nat.pow 10 places = 0 := h
    rw [decimalsOf, hmod]
    decide

namespace Decimal

/-- The decimal `± n / 10^places`. -/
def ofUnits (negative : Bool) (n : Nat) : Decimal where
  negative := negative && n != 0
  whole := Text.digits (n / Nat.pow 10 places)
  decimals := decimalsOf n
  digits c hc := (List.mem_append.mp hc).elim isDigit_of_mem_digits isDigit_of_mem_decimalsOf
  whole_ne_nil := digits_ne_nil _
  head_ne_zero hne hhead := hne (digits_eq_zero_iff.mpr (eq_zero_of_head_digits hhead))
  decimals_length := length_paddedDigits_mod n ▸ (dropZeros_sublist _).length_le
  last_ne_zero := getLast_dropZeros _
  ne_zero hnegative hwhole hdecimals := by
    rw [digits_eq_zero_iff, Nat.div_eq_zero_iff] at hwhole
    rw [decimalsOf_eq_nil_iff] at hdecimals
    have hn : n ≠ 0 := bne_iff_ne.mp (Bool.and_eq_true_iff.mp hnegative).2
    have hlt : n < 10 ^ 4 := hwhole.resolve_left (by decide)
    omega

variable (negative : Bool) (n : Nat)

/-- The shortened text of a number of units is the text of its decimal. -/
theorem characters_ofUnits : (ofUnits negative n).characters = fixedText negative n := rfl

/-- A decimal of units of the fourth place stands for that many of them. -/
theorem value_ofUnits : (ofUnits negative n).value = signed negative (n / 10 ^ 4) := by
  have hsign : ∀ x : ℚ, (n = 0 → x = 0) → signed (negative && n != 0) x = signed negative x := by
    intro x hx
    by_cases hn : n = 0
    · simp [signed, hx hn]
    · rw [bne_iff_ne.mpr hn, Bool.and_true]
  have hwhole : Nat.ofDigitChars 10 (ofUnits negative n).whole 0 = n / 10 ^ 4 :=
    ofDigitChars_digits _
  have hdecimals : (Nat.ofDigitChars 10 (ofUnits negative n).decimals 0 : ℚ)
      / 10 ^ (ofUnits negative n).decimals.length = (n % 10 ^ 4 : Nat) / 10 ^ 4 := by
    refine (ofDigitChars_dropZeros _).trans ?_
    rw [ofDigitChars_paddedDigits, length_paddedDigits_mod]
    rfl
  have hsum : (n : ℚ) / 10 ^ 4 = (n / 10 ^ 4 : Nat) + (n % 10 ^ 4 : Nat) / 10 ^ 4 := by
    have hn : 10 ^ 4 * (n / 10 ^ 4) + n % 10 ^ 4 = n := Nat.div_add_mod _ _
    field_simp
    exact_mod_cast hn.symm
  rw [value, hwhole, hdecimals, ← hsum]
  exact hsign _ fun hn => by simp [hn]

end Decimal

end Stencil.Number
