import Mathlib
import Stencil.Text.Blank
import Stencil.Text.Name

/-!
# Names, and blanks around them

What becomes of a name in lower case, what trimming takes away and what it leaves, and which words a
text has that is blank but for a single one.

* `lower_lower`, `IsName.lower` — letters of either case stay letters, and a name stays a name
* `exists_trim` and `trim_append` — a text is its trimmed text between blanks, and nothing else is
* `words_append_name` — a name behind blanks is the only word
-/

namespace Stencil.Text

variable {before after core cs name : List Char} {c : Char}

/-! ## Letters and names -/

theorem lower_lower (s : String) : lower (lower s) = lower s := by
  simp [lower, Function.comp_def]

/-- A character is a letter in both cases, or has one case only. -/
theorem toLower_eq_or_isAlpha (c : Char) :
    c.toLower = c ∨ c.isAlpha = true ∧ c.toLower.isAlpha = true := by
  by_cases hupper : c.isUpper = true
  · have halpha : c.isAlpha = true := by
      rw [Char.isAlpha, hupper, Bool.true_or]
    exact .inr ⟨halpha, by rw [Char.isAlpha_toLower_eq_isAlpha, halpha]⟩
  · exact .inl (Char.toLower_eq_of_not_isUpper hupper)

theorem isNameChar_toLower (h : isNameChar c) : isNameChar c.toLower := by
  rcases toLower_eq_or_isAlpha c with hsame | ⟨-, halpha⟩
  · rw [hsame]
    exact h
  · rw [isNameChar, Char.isAlphanum, halpha, Bool.true_or, Bool.true_or, Bool.true_or]

/-- A name: letters, digits, `-` and `_`, at least one of them. -/
def IsName (cs : List Char) : Prop := cs ≠ [] ∧ ∀ c ∈ cs, isNameChar c

/-- A name in lower case is a name. -/
theorem IsName.lower (h : IsName name) : IsName (Text.lower (String.ofList name)).toList := by
  rw [lower_toList, String.toList_ofList]
  refine ⟨by simpa using h.1, ?_⟩
  rw [List.forall_mem_map]
  exact fun c hc => isNameChar_toLower (h.2 c hc)

/-- A character that is no part of a name is not in one. -/
theorem IsName.not_mem (h : IsName name) (hc : isNameChar c = false) : c ∉ name :=
  fun hmem => by simp [h.2 c hmem] at hc

/-- No character of a name is a blank. -/
theorem isBlank_eq_false_of_isNameChar (h : isNameChar c) : isBlank c = false := by
  have hrange : 45 ≤ c.toNat ∧ c.toNat ≤ 122 := by
    revert h
    delta isNameChar Char.isAlphanum Char.isAlpha Char.isUpper Char.isLower Char.isDigit
    simp only [Bool.or_eq_true, Bool.and_eq_true, decide_eq_true_eq, beq_iff_eq,
      UInt32.le_iff_toNat_le]
    rintro ((((⟨h1, h2⟩ | ⟨h1, h2⟩) | ⟨h1, h2⟩) | rfl) | rfl)
    all_goals simp at *
    all_goals omega
  simp only [isBlank, blankRanges, List.any_cons, List.any_nil]
  simp
  omega

/-! ## Trimming -/

/-- Trimming takes away blanks only. -/
theorem exists_trim (cs : List Char) :
    ∃ before after, cs = before ++ trim cs ++ after ∧ before.all isBlank ∧ after.all isBlank := by
  have hstart : cs = cs.takeWhile isBlank ++ trimStart cs := List.takeWhile_append_dropWhile.symm
  have hend : trimStart cs = trim cs ++ ((trimStart cs).reverse.takeWhile isBlank).reverse := by
    rw [trim, trimEnd, ← List.reverse_append, List.takeWhile_append_dropWhile, List.reverse_reverse]
  refine ⟨cs.takeWhile isBlank, ((trimStart cs).reverse.takeWhile isBlank).reverse, ?_,
    List.all_takeWhile, ?_⟩
  · rw [List.append_assoc, ← hend]
    exact hstart
  · rw [List.all_reverse]
    exact List.all_takeWhile

theorem trimStart_append (hbefore : before.all isBlank) (cs : List Char) :
    trimStart (before ++ cs) = trimStart cs :=
  List.dropWhile_append_of_pos (List.all_eq_true.mp hbefore)

theorem trimStart_of_head (h : ∀ c ∈ cs.head?, isBlank c = false) : trimStart cs = cs := by
  cases cs with
  | nil => rfl
  | cons c rest => exact List.dropWhile_cons_of_neg (by simp [h c rfl])

theorem trimEnd_append (hafter : after.all isBlank) (cs : List Char) :
    trimEnd (cs ++ after) = trimEnd cs := by
  have hreverse : after.reverse.all isBlank := by rwa [List.all_reverse]
  unfold trimEnd
  rw [List.reverse_append, List.dropWhile_append_of_pos (List.all_eq_true.mp hreverse)]

theorem trimEnd_of_getLast (h : ∀ c ∈ cs.getLast?, isBlank c = false) : trimEnd cs = cs := by
  rw [List.getLast?_eq_head?_reverse] at h
  have hstart := trimStart_of_head h
  unfold trimStart at hstart
  rw [trimEnd, hstart, List.reverse_reverse]

/-- Trimming takes away all blanks at the two ends. -/
theorem trim_append (hbefore : before.all isBlank) (hafter : after.all isBlank)
    (hhead : ∀ c ∈ core.head?, isBlank c = false)
    (hlast : ∀ c ∈ core.getLast?, isBlank c = false) : trim (before ++ core ++ after) = core := by
  rw [trim, List.append_assoc, trimStart_append hbefore]
  cases core with
  | nil =>
    have hnil := trimStart_append hafter []
    rw [List.append_nil] at hnil
    rw [List.nil_append, hnil]
    rfl
  | cons c rest =>
    rw [trimStart_of_head (by simpa using hhead), trimEnd_append hafter, trimEnd_of_getLast hlast]

/-- A text without blanks is trimmed. -/
theorem trim_of_forall (h : ∀ c ∈ cs, isBlank c = false) : trim cs = cs := by
  have hhead : ∀ c ∈ cs.head?, isBlank c = false := fun c hc => h c (List.mem_of_head? hc)
  have hlast : ∀ c ∈ cs.getLast?, isBlank c = false := fun c hc => h c (List.mem_of_getLast? hc)
  rw [trim, trimStart_of_head hhead, trimEnd_of_getLast hlast]

theorem trim_eq_nil (h : cs.all isBlank) : trim cs = [] := by
  have hnil : trim (cs ++ [] ++ []) = [] := trim_append h rfl (by simp) (by simp)
  rwa [List.append_nil, List.append_nil] at hnil

/-! ## Words -/

theorem words_cons_blank (h : isBlank c) (cs : List Char) : words (c :: cs) = words cs := by
  unfold words
  rw [pieces, if_pos h]
  rfl

theorem words_append (hbefore : before.all isBlank) (cs : List Char) :
    words (before ++ cs) = words cs := by
  induction before with
  | nil => rfl
  | cons c rest ih =>
    rw [List.all_cons, Bool.and_eq_true] at hbefore
    rw [List.cons_append, words_cons_blank hbefore.1, ih hbefore.2]

theorem pieces_of_forall (h : ∀ c ∈ cs, isBlank c = false) : pieces cs = [cs] := by
  induction cs with
  | nil => rfl
  | cons c rest ih =>
    rw [List.forall_mem_cons] at h
    rw [pieces, if_neg (by simp [h.1]), ih h.2]

/-- A name behind blanks is the only word. -/
theorem words_append_name (hbefore : before.all isBlank) (hname : IsName name) :
    words (before ++ name) = [name] := by
  rw [words_append hbefore, words,
    pieces_of_forall fun c hc => isBlank_eq_false_of_isNameChar (hname.2 c hc)]
  simp [hname.1]

theorem pieces_ne_nil (cs : List Char) : pieces cs ≠ [] := by
  induction cs with
  | nil => simp [pieces]
  | cons c rest ih =>
    unfold pieces
    split
    · simp
    · split <;> simp

/-- A text without words is blank. -/
theorem all_isBlank_of_words (h : words cs = []) : cs.all isBlank := by
  induction cs with
  | nil => rfl
  | cons c rest ih =>
    by_cases hc : isBlank c
    · rw [words_cons_blank hc] at h
      simp [hc, ih h]
    · obtain ⟨p, ps, hpieces⟩ := List.exists_cons_of_ne_nil (pieces_ne_nil rest)
      rw [words, pieces, if_neg hc, hpieces] at h
      simp at h

end Stencil.Text
