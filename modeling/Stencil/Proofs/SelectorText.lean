import Stencil.Proofs.Names
import Stencil.Selector

/-!
# How selectors are written

Which texts are selectors, said by rules and not by a way of reading: `#`, `.` or nothing, a name, and
perhaps an index in brackets. Blanks may stand around the selector and around the number in the
brackets, nowhere else.

* `Target.Written`, `Selector.Written` — the rules
* `Selector.splitIndex_brackets`, `Selector.splitIndex_cases` — where the brackets of an index are
  found
* `Selector.written_of_readTrimmed`, `Selector.Written.readTrimmed` — reading follows the rules
* `Selector.read_eq_ok_iff_written` — what is read, what is refused, and that the text of a selector is
  read back
-/

namespace Stencil

/-! ## The rules -/

/-- How a target is written. The name of a tag is taken in lower case. -/
inductive Target.Written : List Char → Target → Prop
  | id {name : List Char} : Text.IsName name → Written ('#' :: name) (.id (String.ofList name))
  | className {name : List Char} :
      Text.IsName name → Written ('.' :: name) (.className (String.ofList name))
  | tag {name : List Char} :
      Text.IsName name → Written name (.tag (Text.lower (String.ofList name)))

/-- How a selector is written, without blanks around it. -/
inductive Selector.Written : List Char → Selector → Prop
  | plain {cs : List Char} {target : Target} : target.Written cs → Written cs ⟨target, none⟩
  | indexed {cs before sign ds after : List Char} {target : Target} {i : UInt64} :
      target.Written cs → before.all Text.isBlank → sign = [] ∨ sign = ['+'] → Text.Denotes ds i →
      after.all Text.isBlank →
      Written (cs ++ '[' :: (before ++ (sign ++ ds) ++ after ++ [']'])) ⟨target, some i⟩

/-- Targets that are written as they are: names, that of a tag in lower case. -/
def Target.Named : Target → Prop
  | .id name | .className name => Text.IsName name.toList
  | .tag name => Text.IsName name.toList ∧ Text.lower name = name

/-! ## Names and numbers -/

namespace Text

/-- A signed or unsigned numeral has no bracket in it, and no blank. -/
theorem Denotes.of_mem {sign ds : List Char} {i : UInt64} (h : Denotes ds i)
    (hsign : sign = [] ∨ sign = ['+']) {c : Char} (hc : c ∈ sign ++ ds) :
    c ≠ '[' ∧ isBlank c = false := by
  rcases List.mem_append.mp hc with hc | hc
  · rcases hsign with rfl | rfl
    · simp at hc
    · rw [List.mem_singleton] at hc
      subst hc
      decide
  · have hdigit := h.2.1 c hc
    refine ⟨?_, isBlank_eq_false_of_isNameChar ?_⟩
    · rintro rfl
      exact absurd hdigit (by decide)
    · rw [isNameChar, Char.isAlphanum, hdigit, Bool.or_true, Bool.true_or, Bool.true_or]

end Text

namespace Selector

variable {cs body number : List Char} {inside : Option (List Char)} {target : Target} {sel : Selector}

/-! ## Targets -/

theorem readTarget_eq_some_iff : readTarget cs = some target ↔ target.Written cs := by
  have hname (cs : List Char) (name : String) :
      (if cs ≠ [] ∧ cs.all Text.isNameChar then some (String.ofList cs) else none) = some name ↔
        Text.IsName cs ∧ String.ofList cs = name := by
    simp [Text.IsName]
  unfold readTarget
  split
  · simp only [Option.map_eq_some_iff, hname]
    constructor
    · rintro ⟨_, ⟨h, rfl⟩, rfl⟩
      exact .id h
    · intro h
      cases h with
      | id h => exact ⟨_, ⟨h, rfl⟩, rfl⟩
      | tag h => exact absurd List.mem_cons_self (h.not_mem (by decide))
  · simp only [Option.map_eq_some_iff, hname]
    constructor
    · rintro ⟨_, ⟨h, rfl⟩, rfl⟩
      exact .className h
    · intro h
      cases h with
      | className h => exact ⟨_, ⟨h, rfl⟩, rfl⟩
      | tag h => exact absurd List.mem_cons_self (h.not_mem (by decide))
  · rename_i hhash hdot
    simp only [Option.map_eq_some_iff, hname]
    constructor
    · rintro ⟨_, ⟨h, rfl⟩, rfl⟩
      exact .tag h
    · intro h
      cases h with
      | id h => exact absurd rfl (hhash _)
      | className h => exact absurd rfl (hdot _)
      | tag h => exact ⟨_, ⟨h, rfl⟩, rfl⟩

/-- A target ends with its name. -/
theorem getLast_of_written (h : target.Written cs) : ∃ c ∈ cs.getLast?, Text.isNameChar c := by
  have hname {name : List Char} (h : Text.IsName name) : ∃ c ∈ name.getLast?, Text.isNameChar c :=
    ⟨name.getLast h.1, List.getLast?_eq_some_getLast h.1, h.2 _ (List.getLast_mem h.1)⟩
  cases h with
  | id h | className h =>
    obtain ⟨c, hc, hchar⟩ := hname h
    exact ⟨c, by rw [List.getLast?_cons_of_ne_nil h.1]; exact hc, hchar⟩
  | tag h => exact hname h

/-- A target starts with its mark or with its name. -/
theorem head_of_written (h : target.Written cs) : ∃ c ∈ cs.head?, Text.isBlank c = false := by
  cases h with
  | id h | className h => exact ⟨_, rfl, by decide⟩
  | tag h =>
    refine ⟨cs.head h.1, List.head?_eq_some_head h.1, ?_⟩
    exact Text.isBlank_eq_false_of_isNameChar (h.2 _ (List.head_mem h.1))

/-! ## Brackets -/

theorem splitIndex_brackets (h : '[' ∉ number) :
    splitIndex (body ++ '[' :: (number ++ [']'])) = some (body, some number) := by
  have hreverse : (body ++ '[' :: (number ++ [']'])).reverse
      = ']' :: (number.reverse ++ '[' :: body.reverse) := by simp
  have hnumber : ∀ c ∈ number.reverse, (c != '[') = true := by
    intro c hc
    rw [bne_iff_ne]
    rintro rfl
    exact h (List.mem_reverse.mp hc)
  simp only [splitIndex, hreverse, List.dropWhile_append_of_pos hnumber,
    List.takeWhile_append_of_pos hnumber]
  simp

theorem splitIndex_plain (h : cs.getLast? ≠ some ']') : splitIndex cs = some (cs, none) := by
  unfold splitIndex
  split
  · rename_i before hcs
    exact absurd (by rw [List.getLast?_eq_head?_reverse, hcs]; rfl) h
  · rfl

theorem splitIndex_cases (h : splitIndex cs = some (body, inside)) :
    (inside = none ∧ body = cs) ∨
      ∃ number, inside = some number ∧ cs = body ++ '[' :: (number ++ [']']) := by
  unfold splitIndex at h
  split at h
  · rename_i before hcs
    split at h
    · rename_i rest hrest
      simp only [Option.some.injEq, Prod.mk.injEq] at h
      refine Or.inr ⟨_, h.2.symm, ?_⟩
      have hbefore : before = before.takeWhile (· != '[') ++ '[' :: rest := by
        rw [← hrest, List.takeWhile_append_dropWhile]
      calc cs = (']' :: before).reverse := by rw [← hcs, List.reverse_reverse]
        _ = (']' :: (before.takeWhile (· != '[') ++ '[' :: rest)).reverse := by rw [← hbefore]
        _ = _ := by simp [← h.1]
    · cases h
  · simp only [Option.some.injEq, Prod.mk.injEq] at h
    exact Or.inl ⟨h.2.symm, h.1.symm⟩

/-! ## Reading follows the rules -/

theorem readTrimmed_of_plain (h : splitIndex cs = some (body, none)) :
    readTrimmed cs = (readTarget body).map fun target => ⟨target, none⟩ := by
  unfold readTrimmed
  rw [h]
  cases htarget : readTarget body <;> simp [htarget]

theorem readTrimmed_of_brackets (h : splitIndex cs = some (body, some number)) :
    readTrimmed cs = (Text.readIndex (Text.trim number)).bind fun i =>
      (readTarget body).map fun target => ⟨target, some i⟩ := by
  unfold readTrimmed
  rw [h]
  cases hindex : Text.readIndex (Text.trim number) with
  | none => simp [hindex]
  | some i => cases htarget : readTarget body <;> simp [hindex, htarget]

/-- What is read is written by the rules. -/
theorem written_of_readTrimmed (h : readTrimmed cs = some sel) : Written cs sel := by
  cases hsplit : splitIndex cs with
  | none => simp [readTrimmed, hsplit] at h
  | some split =>
    obtain ⟨body, inside⟩ := split
    rcases splitIndex_cases hsplit with ⟨rfl, rfl⟩ | ⟨number, rfl, rfl⟩
    · rw [readTrimmed_of_plain hsplit] at h
      obtain ⟨target, htarget, rfl⟩ := Option.map_eq_some_iff.mp h
      exact .plain (readTarget_eq_some_iff.mp htarget)
    · rw [readTrimmed_of_brackets hsplit] at h
      obtain ⟨i, hi, h⟩ := Option.bind_eq_some_iff.mp h
      obtain ⟨target, htarget, rfl⟩ := Option.map_eq_some_iff.mp h
      obtain ⟨sign, ds, htrim, hsign, hds⟩ := Text.readIndex_eq_some_iff.mp hi
      obtain ⟨before, after, hnumber, hbefore, hafter⟩ := Text.exists_trim number
      rw [hnumber, htrim]
      exact .indexed (readTarget_eq_some_iff.mp htarget) hbefore hsign hds hafter

/-- What is written by the rules is read. -/
theorem Written.readTrimmed (h : Written cs sel) : readTrimmed cs = some sel := by
  cases h with
  | plain h =>
    have hlast : cs.getLast? ≠ some ']' := by
      intro hlast
      obtain ⟨c, hc, hchar⟩ := getLast_of_written h
      rw [hlast, Option.mem_some_iff] at hc
      subst hc
      exact absurd hchar (by decide)
    rw [readTrimmed_of_plain (splitIndex_plain hlast), readTarget_eq_some_iff.mpr h]
    rfl
  | @indexed cs before sign ds after target i h hbefore hsign hds hafter =>
    have hblank {cs : List Char} (h : cs.all Text.isBlank) : '[' ∉ cs := fun hmem =>
      absurd (List.all_eq_true.mp h _ hmem) (by decide)
    have hbracket : '[' ∉ before ++ (sign ++ ds) ++ after := by
      intro hmem
      rw [List.mem_append, List.mem_append] at hmem
      rcases hmem with (hmem | hmem) | hmem
      · exact hblank hbefore hmem
      · exact (hds.of_mem hsign hmem).1 rfl
      · exact hblank hafter hmem
    have htrim : Text.trim (before ++ (sign ++ ds) ++ after) = sign ++ ds :=
      Text.trim_append hbefore hafter
        (fun c hc => (hds.of_mem hsign (List.mem_of_head? hc)).2)
        (fun c hc => (hds.of_mem hsign (List.mem_of_getLast? hc)).2)
    have hindex : Text.readIndex (sign ++ ds) = some i :=
      Text.readIndex_eq_some_iff.mpr ⟨sign, ds, rfl, hsign, hds⟩
    rw [readTrimmed_of_brackets (splitIndex_brackets hbracket), htrim, hindex,
      readTarget_eq_some_iff.mpr h]
    rfl

/-! ## Texts -/

/-- A selector neither starts nor ends with a blank. -/
theorem Written.trim_eq (h : Written cs sel) : Text.trim cs = cs := by
  have hends {cs : List Char} (hhead : ∃ c ∈ cs.head?, Text.isBlank c = false)
      (hlast : ∃ c ∈ cs.getLast?, Text.isBlank c = false) : Text.trim cs = cs := by
    obtain ⟨c, hc, hcblank⟩ := hhead
    obtain ⟨d, hd, hdblank⟩ := hlast
    rw [Text.trim, Text.trimStart_of_head, Text.trimEnd_of_getLast]
    · rintro _ hd'
      rwa [Option.mem_unique hd' hd]
    · rintro _ hc'
      rwa [Option.mem_unique hc' hc]
  cases h with
  | plain h =>
    obtain ⟨c, hc, hchar⟩ := getLast_of_written h
    exact hends (head_of_written h) ⟨c, hc, Text.isBlank_eq_false_of_isNameChar hchar⟩
  | indexed h =>
    obtain ⟨c, hc, hblank⟩ := head_of_written h
    refine hends ⟨c, ?_, hblank⟩ ⟨']', ?_, by decide⟩
    · rw [List.head?_append, Option.mem_def.mp hc]
      rfl
    · rw [← List.cons_append, ← List.append_assoc, List.getLast?_append]
      rfl

/-- The text of a selector follows the rules, if its name does. -/
theorem written_text (h : sel.target.Named) : Written sel.text.toList sel := by
  obtain ⟨target, index⟩ := sel
  have htarget : target.Written target.text.toList := by
    cases target with
    | id name => simpa [Target.text] using Target.Written.id h
    | className name => simpa [Target.text] using Target.Written.className h
    | tag name => simpa [Target.text, h.2] using Target.Written.tag h.1
  cases index with
  | none => simpa [Selector.text] using Written.plain htarget
  | some i =>
    have hindexed := @Written.indexed _ [] _ _ [] _ _ htarget rfl (Or.inl rfl)
      (Text.denotes_digits i) rfl
    simpa [Selector.text, Selector.indexText] using hindexed

/-- What is written by the rules has a name that does not change when it is written again. -/
theorem Written.named (h : Written cs sel) : sel.target.Named := by
  have htarget {cs : List Char} {target : Target} (h : target.Written cs) : target.Named := by
    cases h with
    | id h | className h => simpa [Target.Named] using h
    | tag h => exact ⟨h.lower, Text.lower_lower _⟩
  cases h with
  | plain h => exact htarget h
  | indexed h => exact htarget h

theorem read_of_written {s : String} (h : Written (Text.trim s.toList) sel) : read s = .ok sel := by
  have hne : Text.trim s.toList ≠ [] := by
    intro hnil
    rw [hnil] at h
    cases h.readTrimmed
  unfold read
  simp [hne, h.readTrimmed]

theorem read_of_not_written {s : String} (hne : Text.trim s.toList ≠ [])
    (h : ∀ sel, ¬ Written (Text.trim s.toList) sel) :
    read s = .error (.invalid (Text.trimmed s)) := by
  have hnone : readTrimmed (Text.trim s.toList) = none := by
    rw [Option.eq_none_iff_forall_ne_some]
    exact fun sel hsel => h sel (written_of_readTrimmed hsel)
  unfold read
  simp [hne, hnone, Text.trimmed]

theorem read_of_blank {s : String} (h : Text.trim s.toList = []) : read s = .error .empty :=
  if_pos h

/-- A text is blank, or a selector, or neither. -/
theorem read_cases (s : String) :
    (Text.trim s.toList = [] ∧ read s = .error .empty) ∨
      (∃ sel, Written (Text.trim s.toList) sel ∧ read s = .ok sel) ∨
      (Text.trim s.toList ≠ [] ∧ (∀ sel, ¬ Written (Text.trim s.toList) sel) ∧
        read s = .error (.invalid (Text.trimmed s))) := by
  by_cases hblank : Text.trim s.toList = []
  · exact Or.inl ⟨hblank, read_of_blank hblank⟩
  · by_cases hwritten : ∃ sel, Written (Text.trim s.toList) sel
    · obtain ⟨sel, h⟩ := hwritten
      exact Or.inr (Or.inl ⟨sel, h, read_of_written h⟩)
    · rw [not_exists] at hwritten
      exact Or.inr (Or.inr ⟨hblank, hwritten, read_of_not_written hblank hwritten⟩)

/-- A selector is read back from its text, if its name follows the rules. -/
theorem read_text_of_named (h : sel.target.Named) : read sel.text = .ok sel := by
  have hwritten := written_text h
  exact read_of_written (hwritten.trim_eq.symm ▸ hwritten)

/-- **Selectors are read by the rules.** A text is a selector exactly if it is written as one between
blanks; a blank text is refused as empty, and any other as invalid, with its trimmed text. The text of
a selector that was read, or that has a name, is read as the same selector. -/
theorem read_eq_ok_iff_written (s : String) (sel : Selector) :
    (read s = .ok sel ↔ Written (Text.trim s.toList) sel) ∧
      (read s = .error .empty ↔ Text.trim s.toList = []) ∧
      (∀ t, read s = .error (.invalid t) ↔ t = Text.trimmed s ∧ Text.trim s.toList ≠ [] ∧
        ∀ sel, ¬ Written (Text.trim s.toList) sel) ∧
      (read s = .ok sel → read sel.text = .ok sel) ∧
      (sel.target.Named → read sel.text = .ok sel) := by
  have hread : read s = .ok sel → Written (Text.trim s.toList) sel := by
    intro h
    rcases read_cases s with ⟨-, hread⟩ | ⟨sel', hwritten, hread⟩ | ⟨-, -, hread⟩
    all_goals cases h.symm.trans hread
    exact hwritten
  have hempty : read s = .error .empty → Text.trim s.toList = [] := by
    intro h
    rcases read_cases s with ⟨hblank, -⟩ | ⟨sel', -, hread⟩ | ⟨-, -, hread⟩
    · exact hblank
    all_goals cases h.symm.trans hread
  have hinvalid (t : String) (h : read s = .error (.invalid t)) : t = Text.trimmed s ∧
      Text.trim s.toList ≠ [] ∧ ∀ sel, ¬ Written (Text.trim s.toList) sel := by
    rcases read_cases s with ⟨-, hread⟩ | ⟨sel', -, hread⟩ | ⟨hne, hnot, hread⟩
    all_goals cases h.symm.trans hread
    exact ⟨rfl, hne, hnot⟩
  refine ⟨⟨hread, read_of_written⟩, ⟨hempty, read_of_blank⟩, fun t => ⟨hinvalid t, ?_⟩,
    fun h => read_text_of_named (hread h).named, read_text_of_named⟩
  rintro ⟨rfl, hne, hnot⟩
  exact read_of_not_written hne hnot

/-- Blanks, a sign, leading zeros and capital letters are not written again. -/
theorem read_eq_ok_iff_written_item :
    read " LI[ +007 ]\n" = .ok ⟨.tag "li", some 7⟩ ∧
      Written "LI[ +007 ]".toList ⟨.tag "li", some 7⟩ ∧ read "li[7]" = .ok ⟨.tag "li", some 7⟩ ∧
      (Target.tag "li").Named ∧ read "li[7]" = .ok ⟨.tag "li", some 7⟩ := by
  have hread : read " LI[ +007 ]\n" = .ok ⟨.tag "li", some 7⟩ := by decide +kernel
  have hnamed : (Target.tag "li").Named := ⟨⟨by decide, by simp [Text.isNameChar]⟩, by decide +kernel⟩
  obtain ⟨hwritten, -, -, hagain, htext⟩ :=
    read_eq_ok_iff_written " LI[ +007 ]\n" ⟨.tag "li", some 7⟩
  exact ⟨hread, hwritten.mp hread, hagain hread, hnamed, htext hnamed⟩

example : read "li[18446744073709551616]" = .error (.invalid "li[18446744073709551616]") := by
  decide +kernel

end Selector

end Stencil
