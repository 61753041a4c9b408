import Stencil.Proofs.TokenPatterns

/-!
# Reading by longest match

A text is read as tokens with blanks between them, and each token is the longest one at its place. Both
are said about the bytes of the text alone: which of them a token covers, what stands there, and what
stands where no token does. Where the tokens come from is not mentioned, so that the same words describe
a text that was read to its end and the part of a text in front of a character that starts no token.

* `Splits` — the tokens of a part of a text
* `Splits.skip`, `Splits.token` — one step of reading
* `tokenizeFrom_splits` — what all steps together amount to
-/

namespace Stencil

/-- The byte behind the text of a token. -/
def Lexeme.stop (l : Lexeme) : Nat := l.offset + l.text.utf8ByteSize

/-- The text of a token stands at its place in `s`, and no longer token does. -/
def Lexeme.LongestIn (l : Lexeme) (s : String) : Prop :=
  ∃ before after, s = before ++ l.text ++ after ∧ before.utf8ByteSize = l.offset ∧
    l.token.Longest l.text.toList (l.text ++ after).toList

/-- The bytes of `s` from `start` up to `stop` are the tokens `ls` and blanks. -/
structure Splits (s : String) (start stop : Nat) (ls : List Lexeme) : Prop where
  le : start ≤ stop
  nonempty : ∀ l ∈ ls, l.offset < l.stop
  ordered : ls.Pairwise fun l l' => l.stop ≤ l'.offset
  inside : ∀ l ∈ ls, start ≤ l.offset ∧ l.stop ≤ stop
  longest : ∀ l ∈ ls, l.LongestIn s
  /-- A character that starts outside of all tokens is a blank. -/
  blank : ∀ before c after, s = before ++ String.singleton c ++ after →
    start ≤ before.utf8ByteSize → before.utf8ByteSize < stop →
    (∀ l ∈ ls, ¬ (l.offset ≤ before.utf8ByteSize ∧ before.utf8ByteSize < l.stop)) →
    Token.isSkipped c = true

/-- The character at byte `n` of `s` is no blank, and no token starts there. -/
def Stuck (s : String) (n : Nat) : Prop :=
  ∃ before c after, s = before ++ String.singleton c ++ after ∧ before.utf8ByteSize = n ∧
    Token.isSkipped c = false ∧
    ∀ t text, text ∈ Token.pattern t → ¬ text <+: (String.singleton c ++ after).toList

/-! ## Places in a text -/

theorem utf8ByteSize_of_toList_eq {s t : String} {c : Char} {cs : List Char}
    (h : s.toList = t.toList ++ c :: cs) :
    s.utf8ByteSize = t.utf8ByteSize + c.utf8Size + (String.ofList cs).utf8ByteSize := by
  have hs : s = t ++ String.singleton c ++ String.ofList cs := by
    rw [← String.toList_inj]
    simp [h]
  rw [hs, String.utf8ByteSize_append, String.utf8ByteSize_append, String.utf8ByteSize_singleton]

/-- Two characters of a text that start less than a character apart are the same one. -/
theorem char_eq_of_append_eq {before before' after after' : String} {c c' : Char}
    (h : before ++ String.singleton c ++ after = before' ++ String.singleton c' ++ after')
    (hle : before.utf8ByteSize ≤ before'.utf8ByteSize)
    (hlt : before'.utf8ByteSize < before.utf8ByteSize + c.utf8Size) : c = c' := by
  have hlists := congrArg String.toList h
  simp only [String.toList_append, String.toList_singleton, List.append_assoc,
    List.singleton_append] at hlists
  rcases List.append_eq_append_iff.mp hlists with ⟨mid, hbefore', hmid⟩ | ⟨mid, hbefore, hmid⟩
  · cases mid with
    | nil => exact (List.cons.inj hmid).1
    | cons d mid =>
      have hbytes := utf8ByteSize_of_toList_eq hbefore'
      rw [← (List.cons.inj hmid).1] at hbytes
      omega
  · cases mid with
    | nil => exact (List.cons.inj hmid).1.symm
    | cons d mid =>
      have hbytes := utf8ByteSize_of_toList_eq hbefore
      have hpos := d.utf8Size_pos
      omega

theorem Lexeme.LongestIn.offset_lt_stop {l : Lexeme} {s : String} (h : l.LongestIn s) :
    l.offset < l.stop := by
  obtain ⟨before, after, -, -, hlongest⟩ := h
  refine Nat.lt_add_of_pos_right (Nat.pos_of_ne_zero fun hzero => ?_)
  have hempty := String.utf8ByteSize_eq_zero_iff.mp hzero
  exact Token.ne_nil_of_mem_pattern hlongest.mem (by rw [hempty]; rfl)

/-! ## Steps -/

namespace Splits

variable {s before after : String} {stop : Nat} {ls : List Lexeme}

theorem nil (s : String) (n : Nat) : Splits s n n [] where
  le := Nat.le_refl n
  nonempty := by simp
  ordered := .nil
  inside := by simp
  longest := by simp
  blank := by
    intro before c after hs hstart hstop
    omega

/-- A blank in front belongs to no token. -/
theorem skip {c : Char} (hs : s = before ++ String.singleton c ++ after)
    (hc : Token.isSkipped c = true)
    (h : Splits s (before.utf8ByteSize + c.utf8Size) stop ls) :
    Splits s before.utf8ByteSize stop ls where
  le := by
    have hle := h.le
    omega
  nonempty := h.nonempty
  ordered := h.ordered
  inside := by
    intro l hl
    have hinside := h.inside l hl
    omega
  longest := h.longest
  blank := by
    intro before' c' after' hs' hstart hstop hout
    by_cases hlt : before'.utf8ByteSize < before.utf8ByteSize + c.utf8Size
    · rw [← char_eq_of_append_eq (hs.symm.trans hs') hstart hlt]
      exact hc
    · exact h.blank before' c' after' hs' (Nat.le_of_not_lt hlt) hstop hout

/-- A longest token in front is the first one. -/
theorem token {l : Lexeme} (hlongest : l.LongestIn s) (h : Splits s l.stop stop ls) :
    Splits s l.offset stop (l :: ls) where
  le := Nat.le_trans (Nat.le_of_lt hlongest.offset_lt_stop) h.le
  nonempty := List.forall_mem_cons.mpr ⟨hlongest.offset_lt_stop, h.nonempty⟩
  ordered := List.pairwise_cons.mpr ⟨fun l' hl' => (h.inside l' hl').1, h.ordered⟩
  inside := by
    refine List.forall_mem_cons.mpr ⟨⟨Nat.le_refl _, h.le⟩, ?_⟩
    intro l' hl'
    have hinside := h.inside l' hl'
    have hlt := hlongest.offset_lt_stop
    omega
  longest := List.forall_mem_cons.mpr ⟨hlongest, h.longest⟩
  blank := by
    intro before c after hs hstart hstop hout
    obtain ⟨hhead, hrest⟩ := List.forall_mem_cons.mp hout
    exact h.blank before c after hs (by omega) hstop hrest

end Splits

/-! ## Whole texts -/

/-- Reading the rest of a text gives the tokens of that rest, or the place where it stops. -/
theorem tokenizeFrom_splits {s before : String} {n : Nat} {cs : List Char}
    (hs : s = before ++ String.ofList cs) (hn : before.utf8ByteSize = n) :
    (∃ ls, tokenizeFrom n cs = .ok ls ∧ Splits s n s.utf8ByteSize ls) ∨
      ∃ stop ls, tokenizeFrom n cs = .error stop ∧ Splits s n stop ls ∧ Stuck s stop := by
  fun_induction tokenizeFrom n cs generalizing before with
  | case1 n =>
    have hend : s.utf8ByteSize = n := by rw [hs, ← hn]; simp
    exact .inl ⟨[], rfl, hend ▸ Splits.nil s n⟩
  | case2 n c rest hskip ih =>
    have hs' : s = before ++ String.singleton c ++ String.ofList rest := by
      rw [hs, String.ofList_cons, String.append_assoc]
    have hn' : (before ++ String.singleton c).utf8ByteSize = n + c.utf8Size := by
      rw [String.utf8ByteSize_append, String.utf8ByteSize_singleton, hn]
    subst hn
    rcases ih hs' hn' with ⟨ls, hok, hsplits⟩ | ⟨stop, ls, herror, hsplits, hstuck⟩
    · exact .inl ⟨ls, hok, hsplits.skip hs' hskip⟩
    · exact .inr ⟨stop, ls, herror, hsplits.skip hs' hskip, hstuck⟩
  | case3 n c rest hskip hnone =>
    refine .inr ⟨n, [], rfl, Splits.nil s n, before, c, String.ofList rest, ?_, hn, ?_, ?_⟩
    · rw [hs, String.ofList_cons, String.append_assoc]
    · simpa using hskip
    · simpa using Token.next?_eq_none_iff.mp hnone
  | case4 n c rest hskip token covered after hnext text =>
    rename_i ih
    obtain ⟨hcs, hlongest⟩ := Token.next?_eq_some_iff.mp hnext
    have hs' : s = before ++ text ++ String.ofList after := by
      rw [hs, hcs, String.ofList_append, String.append_assoc]
    have hn' : (before ++ text).utf8ByteSize = n + text.utf8ByteSize := by
      rw [String.utf8ByteSize_append, hn]
    have hin : Lexeme.LongestIn ⟨token, text, n⟩ s := by
      refine ⟨before, String.ofList after, hs', hn, ?_⟩
      simpa [text, ← hcs] using hlongest
    rcases ih hs' hn' with ⟨ls, hok, hsplits⟩ | ⟨stop, ls, herror, hsplits, hstuck⟩
    · refine .inl ⟨⟨token, text, n⟩ :: ls, by rw [hok]; rfl, ?_⟩
      exact Splits.token hin hsplits
    · refine .inr ⟨stop, ⟨token, text, n⟩ :: ls, by rw [herror]; rfl, ?_, hstuck⟩
      exact Splits.token hin hsplits

/-- **Tokens are as long as they can be.** A text is read as its longest tokens, up to its end or to a
character that starts none. -/
theorem tokenize_longest (s : String) :
    (∃ ls, tokenize s = .ok ls ∧ Splits s 0 s.utf8ByteSize ls) ∨
      ∃ stop ls, tokenize s = .error stop ∧ Splits s 0 stop ls ∧ Stuck s stop := by
  have hs : s = "" ++ String.ofList s.toList := by rw [String.ofList_toList, String.empty_append]
  exact tokenizeFrom_splits hs rfl

end Stencil
