import Stencil.Proofs.TokenPatterns

/-!
# Texts side by side

Two texts in a row are read as the tokens of the one and then those of the other only if no token goes
on across the border. That is a condition on the first character behind the border: a blank and a
closing parenthesis never go on a token, strings apart, and a string ends at its own quote.

* `Scan` — reading up to a place in a text
* `Scan.token`, `Scan.ident`, `Scan.mark` — reading one token
* `Scan.of_tokenizeFrom` — a text that is read on its own is read the same way in front of a border
-/

namespace Stencil

variable {cs rest : List Char} {n m : Nat} {ls : List Lexeme} {t : Token}

/-- Reading `cs` from byte `n` on gives the tokens `ls`, and goes on with `rest` at byte `m`. -/
def Scan (n : Nat) (cs : List Char) (ls : List Lexeme) (m : Nat) (rest : List Char) : Prop :=
  tokenizeFrom n cs = (tokenizeFrom m rest).map (ls ++ ·)

/-! ## One token -/

namespace Token

open Pattern

/-- A name ends where no character of a name follows. -/
theorem next?_ident (hcs : cs ∈ pattern .ident) (hrest : ∀ c ∈ rest.head?, isIdentRest c = false) :
    next? (cs ++ rest) = some (.ident, cs, rest) := by
  obtain ⟨c, more, rfl, hc, hmore⟩ := mem_ident.mp hcs
  apply next?_of_match?
  simp [match?, isDigit_eq_false_of_isIdentStart hc, hc, Text.takeWhile_append_of_head hmore hrest,
    Nat.add_comm]

/-- Digits in brackets are a number. -/
theorem next?_digits (hcs : cs ∈ run Char.isDigit) (rest : List Char) :
    next? (cs ++ ']' :: rest) = some (.number, cs, ']' :: rest) := by
  obtain ⟨hne, hdigits⟩ := mem_run.mp hcs
  have hlength : numberLength (cs ++ ']' :: rest) = cs.length :=
    numberLength_append hdigits (by rintro _ ⟨⟩; decide)
  obtain ⟨c, more, rfl⟩ := List.exists_cons_of_ne_nil hne
  apply next?_of_match?
  rw [← hlength]
  exact if_pos (hdigits c List.mem_cons_self)

/-- No token starts with a blank. -/
theorem next?_of_isSkipped {c : Char} (hc : isSkipped c = true) : next? (c :: rest) = none := by
  simp only [isSkipped, Bool.or_eq_true, beq_iff_eq] at hc
  rcases hc with (((rfl | rfl) | rfl) | rfl) | rfl
  all_goals rfl

end Token

namespace Scan

theorem refl (n : Nat) (cs : List Char) : Scan n cs [] n cs := by
  unfold Scan
  cases tokenizeFrom n cs <;> rfl

/-- What is left by one scan can be scanned on. -/
theorem trans {k : Nat} {cs' rest : List Char} {ls' : List Lexeme} (h : Scan n cs ls m cs')
    (h' : Scan m cs' ls' k rest) : Scan n cs (ls ++ ls') k rest := by
  unfold Scan at h h' ⊢
  rw [h, h']
  cases tokenizeFrom k rest with
  | error stop => rfl
  | ok more => simp [Except.map]

theorem skip {c : Char} (hc : Token.isSkipped c = true) (n : Nat) (cs : List Char) :
    Scan n (c :: cs) [] (n + c.utf8Size) cs := by
  have hstep : tokenizeFrom n (c :: cs) = tokenizeFrom (n + c.utf8Size) cs := by
    rw [tokenizeFrom, if_pos hc]
  unfold Scan
  rw [hstep]
  exact refl _ _

theorem token {covered : List Char} (h : Token.next? cs = some (t, covered, rest)) (n : Nat) :
    Scan n cs [⟨t, String.ofList covered, n⟩] (n + (String.ofList covered).utf8ByteSize) rest := by
  cases cs with
  | nil => cases h
  | cons c cs =>
    have hc : ¬ Token.isSkipped c = true := by
      intro hskip
      rw [Token.next?_of_isSkipped hskip] at h
      cases h
    unfold Scan
    rw [tokenizeFrom, if_neg hc]
    split
    · rename_i hnone
      rw [h] at hnone
      cases hnone
    · rename_i hsome
      rw [h] at hsome
      cases hsome
      dsimp only
      cases tokenizeFrom (n + (String.ofList covered).utf8ByteSize) rest <;> rfl

theorem ident {name : String} (hname : name.toList ∈ Token.pattern .ident)
    (hrest : ∀ c ∈ rest.head?, Token.isIdentRest c = false) (n : Nat) :
    Scan n (name.toList ++ rest) [⟨.ident, name, n⟩] (n + name.utf8ByteSize) rest := by
  simpa using token (Token.next?_ident hname hrest) n

theorem ident_before {name : String} {c : Char} (hname : name.toList ∈ Token.pattern .ident)
    (hc : Token.isIdentRest c = false) (n : Nat) (rest : List Char) :
    Scan n (name.toList ++ c :: rest) [⟨.ident, name, n⟩] (n + name.utf8ByteSize) (c :: rest) := by
  refine ident hname ?_ n
  rintro _ ⟨⟩
  exact hc

/-- A mark of one character that starts no longer one. -/
theorem mark {c : Char} (h : ∀ rest, Token.next? (c :: rest) = some (t, [c], rest)) (n : Nat)
    (rest : List Char) :
    Scan n (c :: rest) [⟨t, String.ofList [c], n⟩] (n + (String.ofList [c]).utf8ByteSize) rest :=
  token (h rest) n

/-- A text between two blanks. -/
theorem spaced (cs : List Char) (h : Scan (n + ' '.utf8Size) (cs ++ ' ' :: rest) ls m (' ' :: rest)) :
    Scan n (' ' :: (cs ++ ' ' :: rest)) ls (m + ' '.utf8Size) rest := by
  have hscan := ((skip rfl n _).trans h).trans (skip rfl m rest)
  simpa using hscan

/-- A scan to the end is all that a text is read as. -/
theorem tokenizeFrom_eq_ok (h : Scan n cs ls m []) : tokenizeFrom n cs = .ok ls := by
  rw [h, tokenizeFrom]
  simp [Except.map]

end Scan

/-! ## Borders -/

/-- Nothing, or a character that goes on no token but a string. -/
def Border (rest : List Char) : Prop := ∀ c ∈ rest.head?, c = ' ' ∨ c = ')'

theorem border_nil : Border [] := by simp [Border]

theorem border_blank (rest : List Char) : Border (' ' :: rest) := by simp [Border]

theorem border_paren (rest : List Char) : Border (')' :: rest) := by simp [Border]

theorem Border.not_isIdentRest (h : Border rest) :
    ∀ c ∈ rest.head?, Token.isIdentRest c = false := by
  intro c hc
  rcases h c hc with rfl | rfl
  all_goals decide

namespace Token

open Pattern

variable {c : Char}

/-- No number goes across a border. -/
theorem not_mem_number_of_border (hc : c = ' ' ∨ c = ')') (h : cs ∈ pattern .number) : c ∉ cs := by
  have hclass : c.isDigit = false ∧ c ≠ '.' ∧ c ≠ '%' ∧ c.isAlpha = false := by
    rcases hc with rfl | rfl
    all_goals decide
  obtain ⟨hdigit, hpoint, hpercent, halpha⟩ := hclass
  have hrun {p : Char → Bool} {cs : List Char} (hp : p c = false) (h : cs ∈ run p) : c ∉ cs := by
    intro hmem
    have hpos := (mem_run.mp h).2 c hmem
    rw [hp] at hpos
    cases hpos
  obtain ⟨whole, ds, u, hwhole, hds, hu, rfl⟩ := mem_number.mp h
  simp only [List.mem_append, not_or]
  refine ⟨hrun hdigit hwhole, ?_, ?_⟩
  · rcases mem_optional.mp hds with rfl | hds
    · exact List.not_mem_nil
    · obtain ⟨places, hplaces, rfl⟩ := mem_decimals.mp hds
      simp [hpoint, hrun hdigit hplaces]
  · rcases mem_optional.mp hu with rfl | hu
    · exact List.not_mem_nil
    · rcases mem_unit.mp hu with rfl | hu
      · simp [hpercent]
      · exact hrun halpha hu

/-- Only strings go on across a border. -/
theorem quoted_of_border (hc : c = ' ' ∨ c = ')') (hcs : cs ≠ []) (h : cs ++ c :: rest ∈ t.pattern) :
    ∃ quote, t.pattern = quoted quote ∧
      ∀ rest, match? (quote :: rest) = (quotedLength? quote rest).map (t, ·) := by
  obtain ⟨first, more, rfl⟩ := List.exists_cons_of_ne_nil hcs
  rcases t.kinds with rfl | rfl | rfl | rfl | ⟨s, hs, rfl⟩
  · exact absurd (by simp) (not_mem_number_of_border hc h)
  · obtain ⟨_, _, ⟨⟩, -, hmore⟩ := mem_ident.mp h
    have hident := hmore c (by simp)
    rcases hc with rfl | rfl
    all_goals exact absurd hident (by decide)
  · exact ⟨doubleQuote, rfl, fun _ => rfl⟩
  · exact ⟨singleQuote, rfl, fun _ => rfl⟩
  · have hsymbols : ∀ s ∈ symbols, ' ' ∉ s.1.tail ∧ ')' ∉ s.1.tail := by decide
    rw [pattern_of_mem_symbols s hs] at h
    have heq : first :: more ++ c :: rest = s.1 := h
    have htail : c ∈ s.1.tail := by simp [← heq]
    rcases hc with rfl | rfl
    · exact absurd htail (hsymbols s hs).1
    · exact absurd htail (hsymbols s hs).2

variable {text : List Char}

/-- The longest token at a quote is a string. -/
theorem Longest.eq_of_quote {quote : Char} {t' : Token}
    (hkind : ∀ rest, match? (quote :: rest) = (quotedLength? quote rest).map (t', ·))
    (h : Longest t text (quote :: cs)) : t = t' := by
  obtain ⟨after, hafter⟩ := h.starts
  obtain ⟨found, hfound, hcovers⟩ :=
    Option.map_eq_some_iff.mp (next?_eq_some_iff.mpr ⟨hafter.symm, h⟩)
  rw [hkind] at hfound
  obtain ⟨k, -, rfl⟩ := Option.map_eq_some_iff.mp hfound
  exact (congrArg Prod.fst hcovers).symm

/-- The longest token of a text is the longest one in front of a border. -/
theorem Longest.append (h : Longest t text cs) (hrest : Border rest) :
    Longest t text (cs ++ rest) where
  mem := h.mem
  starts := h.starts.trans (List.prefix_append cs rest)
  longest := by
    rintro t' text' hmem ⟨after', hafter'⟩
    rcases List.append_eq_append_iff.mp hafter' with ⟨mid, hcs, -⟩ | ⟨beyond, rfl, rfl⟩
    · exact h.longest t' text' hmem ⟨mid, hcs.symm⟩
    cases beyond with
    | nil => exact h.longest t' _ hmem (by simp)
    | cons c beyond =>
      -- A string across the border starts where `text` does, which is a string then, too, and two
      -- strings that start at the same place end at the same place.
      obtain ⟨after, rfl⟩ := h.starts
      have hne : text ++ after ≠ [] := by simp [ne_nil_of_mem_pattern h.mem]
      obtain ⟨quote, hpattern, hkind⟩ := quoted_of_border (hrest c rfl) hne hmem
      have hsame : t = t' := by
        obtain ⟨body, hbody, -⟩ := mem_quoted.mp (hpattern ▸ hmem)
        obtain ⟨first, more, hfirst⟩ := List.exists_cons_of_ne_nil hne
        rw [hfirst] at hbody h
        rw [(List.cons.inj hbody).1] at h
        exact h.eq_of_quote hkind
      have hmatch := match?_quoted hkind (hpattern ▸ hsame ▸ h.mem)
        (after ++ c :: (beyond ++ after'))
      have hmatch' := match?_quoted hkind (hpattern ▸ hmem) after'
      simp only [List.append_assoc, List.cons_append] at hmatch hmatch'
      simp only [hmatch, Option.some.injEq, Prod.mk.injEq] at hmatch'
      simp only [List.append_assoc]
      omega

end Token

/-! ## Texts in front of a border -/

/-- A token that stands `n` bytes further on. -/
def Lexeme.shift (n : Nat) (l : Lexeme) : Lexeme := { l with offset := n + l.offset }

/-- A text that is read on its own is read the same way in front of a border. -/
theorem Scan.of_tokenizeFrom {k : Nat} (h : tokenizeFrom k cs = .ok ls) (hrest : Border rest)
    (n : Nat) : ∃ m, Scan (n + k) (cs ++ rest) (ls.map (Lexeme.shift n)) m rest := by
  fun_induction tokenizeFrom k cs generalizing ls with
  | case1 k =>
    cases h
    exact ⟨n + k, .refl _ _⟩
  | case2 k c cs hskip ih =>
    obtain ⟨m, hscan⟩ := ih h
    exact ⟨m, (Scan.skip hskip _ _).trans (by rwa [Nat.add_assoc])⟩
  | case3 k c cs hskip hnone => cases h
  | case4 k c cs hskip token covered after hnext text =>
    rename_i ih
    cases hmore : tokenizeFrom (k + text.utf8ByteSize) after with
    | error stop =>
      rw [hmore] at h
      cases h
    | ok more =>
      rw [hmore] at h
      cases h
      obtain ⟨m, hscan⟩ := ih hmore
      obtain ⟨hcs, hlongest⟩ := Token.next?_eq_some_iff.mp hnext
      have hnext' : Token.next? (c :: cs ++ rest) = some (token, covered, after ++ rest) :=
        Token.next?_eq_some_iff.mpr ⟨by rw [hcs, List.append_assoc], hlongest.append hrest⟩
      exact ⟨m, (Scan.token hnext' _).trans (by rwa [Nat.add_assoc])⟩

end Stencil
