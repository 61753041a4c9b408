/-!
# Names and whole numbers in text

Names of elements, classes and ids are made of ASCII letters, digits, `-` and `_`; tags compare
without regard to ASCII case. An index is written in decimal and is below 2^64.
-/

namespace Stencil.Text

/-! ## Names -/

/-- Whether a character may stand in a name. -/
def isNameChar (c : Char) : Bool := c.isAlphanum || c == '-' || c == '_'

/-- Lower-cases the ASCII letters and keeps every other character. -/
def lower (s : String) : String := String.ofList (s.toList.map Char.toLower)

/-- Equality up to ASCII case. -/
def sameLetters (a b : String) : Bool := lower a == lower b

theorem lower_toList (s : String) : (lower s).toList = s.toList.map Char.toLower := by
  simp [lower]

/-! ## Runs and marks -/

/-- A run ends where a character is not of its class. -/
theorem takeWhile_append_of_head {p : Char → Bool} {cs rest : List Char}
    (hcs : ∀ c ∈ cs, p c = true) (hrest : ∀ c ∈ rest.head?, p c = false) :
    (cs ++ rest).takeWhile p = cs := by
  rw [List.takeWhile_append_of_pos hcs]
  cases rest with
  | nil => simp
  | cons c rest => simp [hrest c rfl]

/-- What follows a run is left behind it. -/
theorem dropWhile_append_of_head {p : Char → Bool} {cs rest : List Char}
    (hcs : ∀ c ∈ cs, p c = true) (hrest : ∀ c ∈ rest.head?, p c = false) :
    (cs ++ rest).dropWhile p = rest := by
  rw [List.dropWhile_append_of_pos hcs]
  cases rest with
  | nil => simp
  | cons c rest => simp [hrest c rfl]

/-- A text is parted at its first mark in one way only. -/
theorem append_mark_inj {mark : Char} {before before' after after' : List Char}
    (hbefore : mark ∉ before) (hbefore' : mark ∉ before')
    (h : before ++ mark :: after = before' ++ mark :: after') :
    before = before' ∧ after = after' := by
  induction before generalizing before' with
  | nil =>
    cases before' with
    | nil => simpa using h
    | cons c rest =>
      cases h
      exact absurd List.mem_cons_self hbefore'
  | cons c rest ih =>
    cases before' with
    | nil =>
      cases h
      exact absurd List.mem_cons_self hbefore
    | cons c' rest' =>
      rw [List.mem_cons, not_or] at hbefore hbefore'
      simp only [List.cons_append, List.cons.injEq] at h ⊢
      obtain ⟨hrest, hafter⟩ := ih hbefore.2 hbefore'.2 h.2
      exact ⟨⟨h.1, hrest⟩, hafter⟩

/-! ## Whole numbers -/

/-- Reads a non-empty run of decimal digits. Leading zeros are allowed. -/
def readDigits (cs : List Char) : Option Nat :=
  if cs ≠ [] ∧ cs.all Char.isDigit then some (Nat.ofDigitChars 10 cs 0) else none

/-- Reads an index: an optional `+`, then decimal digits, the number being below 2^64. -/
def readIndex (cs : List Char) : Option UInt64 := do
  let n ← readDigits (if cs.head? = some '+' then cs.tail else cs)
  if n < Nat.pow 2 64 then some (UInt64.ofNat n) else none

/-- Decimal digits, and the index that they denote. -/
def Denotes (ds : List Char) (i : UInt64) : Prop :=
  ds ≠ [] ∧ (∀ c ∈ ds, c.isDigit) ∧ Nat.ofDigitChars 10 ds 0 = i.toNat

theorem readDigits_eq_some_iff {cs : List Char} {n : Nat} :
    readDigits cs = some n ↔
      cs ≠ [] ∧ (∀ c ∈ cs, c.isDigit) ∧ Nat.ofDigitChars 10 cs 0 = n := by
  simp [readDigits, and_assoc]

/-- An index is read from the digits that denote it, with or without a `+`. -/
theorem readIndex_eq_some_iff {cs : List Char} {i : UInt64} :
    readIndex cs = some i ↔
      ∃ sign ds, cs = sign ++ ds ∧ (sign = [] ∨ sign = ['+']) ∧ Denotes ds i := by
  have hvalue (ds : List Char) : (readDigits ds).bind
      (fun n => if n < Nat.pow 2 64 then some (UInt64.ofNat n) else none) = some i ↔
        Denotes ds i := by
    simp only [Option.bind_eq_some_iff, readDigits_eq_some_iff, Denotes,
      Option.ite_none_right_eq_some, Option.some.injEq]
    constructor
    · rintro ⟨n, ⟨hne, hdigits, hn⟩, hlt, rfl⟩
      exact ⟨hne, hdigits, by rw [hn, UInt64.toNat_ofNat_of_lt' hlt]⟩
    · rintro ⟨hne, hdigits, hn⟩
      exact ⟨i.toNat, ⟨hne, hdigits, hn⟩, i.toNat_lt, UInt64.ofNat_toNat⟩
  show (readDigits (if cs.head? = some '+' then cs.tail else cs)).bind _ = some i ↔ _
  rw [hvalue]
  constructor
  · intro h
    split at h
    · rename_i hplus
      obtain ⟨rest, rfl⟩ := List.head?_eq_some_iff.mp hplus
      exact ⟨['+'], rest, rfl, Or.inr rfl, h⟩
    · exact ⟨[], cs, rfl, Or.inl rfl, h⟩
  · rintro ⟨sign, ds, rfl, rfl | rfl, h⟩
    · have hhead : ds.head? ≠ some '+' := by
        intro hplus
        exact absurd (h.2.1 '+' (List.mem_of_head? hplus)) (by decide)
      rwa [List.nil_append, if_neg hhead]
    · exact h

/-- The decimal digits of a number, without leading zeros. -/
def digits (n : Nat) : List Char := Nat.toDigits 10 n

theorem readDigits_digits (n : Nat) : readDigits (digits n) = some n := by
  have hne : digits n ≠ [] := Nat.toDigits_ne_nil
  have hall : (digits n).all Char.isDigit := by
    rw [List.all_eq_true]
    intro c hc
    exact Nat.isDigit_of_mem_toDigits (by decide) (by decide) hc
  rw [readDigits, if_pos ⟨hne, hall⟩, digits, Nat.ofDigitChars_toDigits (by decide) (by decide)]

theorem digits_inj {m n : Nat} (h : digits m = digits n) : m = n := by
  have hread := readDigits_digits n
  rw [← h, readDigits_digits] at hread
  exact Option.some.inj hread

theorem denotes_digits (i : UInt64) : Denotes (digits i.toNat) i :=
  readDigits_eq_some_iff.mp (readDigits_digits i.toNat)

end Stencil.Text
