import Stencil.Proofs.Grammar

/-!
# What each step of the parser reads

`Reads x e rest` says that a parser succeeds with the result `e` and leaves the tokens `rest`. For
each parser an equivalence says when it does, in terms of the parsers it calls and of the next
token. The proofs that relate the parser to the grammar use these and do not unfold a parser again.

`Reads.primary_cases`, `reads_primary_group` and `reads_primary_atom` take the place of an
equivalence for the parser of single values: a bare name is read as such only if it does not go on
(`Extends`).
-/

namespace Stencil.Parser

/-! ## Results of the parser -/

section Reads

variable {α β : Type} {p q : List Lexeme → Prop}

/-- A parser succeeds with a result and the tokens that are left over. -/
def Reads (x : Except Failure (α × { rest : List Lexeme // p rest })) (a : α) (rest : List Lexeme) :
    Prop := ∃ h : p rest, x = .ok (a, ⟨rest, h⟩)

theorem not_reads_error {f : Failure} {a : α} {rest : List Lexeme} :
    ¬ Reads (.error f : Except Failure (α × { rest : List Lexeme // p rest })) a rest :=
  fun ⟨_, h⟩ => nomatch h

theorem reads_ok {a b : α} {r : { rest : List Lexeme // p rest }} {rest : List Lexeme} :
    Reads (.ok (a, r) : Except Failure (α × { rest : List Lexeme // p rest })) b rest
      ↔ b = a ∧ rest = r.1 := by
  constructor
  · rintro ⟨_, h⟩
    cases h
    exact ⟨rfl, rfl⟩
  · rintro ⟨rfl, rfl⟩
    exact ⟨r.2, rfl⟩

/-- One parser after another. -/
theorem reads_bind {x : Except Failure (α × { rest : List Lexeme // p rest })}
    {f : α × { rest : List Lexeme // p rest } →
      Except Failure (β × { rest : List Lexeme // q rest })}
    {b : β} {rest : List Lexeme} :
    Reads (x >>= f) b rest ↔
      ∃ a mid, ∃ h : p mid, x = .ok (a, ⟨mid, h⟩) ∧ Reads (f (a, ⟨mid, h⟩)) b rest := by
  cases x with
  | error e =>
    refine ⟨fun h => absurd h not_reads_error, ?_⟩
    rintro ⟨_, _, _, h, _⟩
    cases h
  | ok r =>
    constructor
    · exact fun h => ⟨r.1, r.2.1, r.2.2, rfl, h⟩
    · rintro ⟨a, mid, h, hx, hf⟩
      cases hx
      exact hf

end Reads

variable {ts rest : List Lexeme} {e : Expr}

theorem reads_expect {token : Token} {t : Lexeme} :
    Reads (expect token ts) t rest ↔ ts = t :: rest ∧ t.token = token := by
  cases ts with
  | nil => exact ⟨fun h => absurd h not_reads_error, fun h => nomatch h.1⟩
  | cons t' rest' =>
    rw [expect]
    split
    · rw [reads_ok]
      constructor
      · rintro ⟨rfl, rfl⟩
        exact ⟨rfl, by assumption⟩
      · rintro ⟨h, -⟩
        cases h
        exact ⟨rfl, rfl⟩
    · rename_i hne
      refine ⟨fun h => absurd h not_reads_error, ?_⟩
      rintro ⟨h, ht⟩
      cases h
      exact absurd ht hne

/-- A token of a given kind, and then another parser. -/
theorem reads_expect_bind {β : Type} {q : List Lexeme → Prop} {token : Token}
    {f : Lexeme × Rest ts.length → Except Failure (β × { rest : List Lexeme // q rest })} {b : β} :
    Reads (expect token ts >>= f) b rest ↔ ∃ t mid, ∃ h : mid.length < ts.length,
      ts = t :: mid ∧ t.token = token ∧ Reads (f (t, ⟨mid, h⟩)) b rest := by
  rw [reads_bind]
  constructor
  · rintro ⟨t, mid, h, ht, hf⟩
    obtain ⟨hts, htoken⟩ := reads_expect.mp ⟨h, ht⟩
    exact ⟨t, mid, h, hts, htoken, hf⟩
  · rintro ⟨t, mid, h, hts, htoken, hf⟩
    obtain ⟨_, ht⟩ := reads_expect.mpr ⟨hts, htoken⟩
    exact ⟨t, mid, h, ht, hf⟩

/-! ## Operators and conditionals -/

/-- A conditional is a condition and two branches, or a condition alone. -/
theorem reads_conditional :
    Reads (conditional ts) e rest ↔ ∃ cond mid, Reads (binary 6 ts) cond mid ∧
      ((mid.head?.map Lexeme.token ≠ some .question ∧ e = cond ∧ rest = mid) ∨
        ∃ q after yes c rest₂ no, mid = q :: after ∧ q.token = .question ∧
          Reads (conditional after) yes (c :: rest₂) ∧ c.token = .colon ∧
          Reads (conditional rest₂) no rest ∧ e = .conditional cond yes no) := by
  rw [conditional, reads_bind]
  constructor
  · rintro ⟨cond, mid, h, hb, hr⟩
    refine ⟨cond, mid, ⟨h, hb⟩, ?_⟩
    cases mid with
    | nil => exact Or.inl ⟨nofun, reads_ok.mp hr⟩
    | cons q after =>
      dsimp only at hr
      split at hr
      · rename_i hq
        obtain ⟨yes, rest₁, h₁, hy, hr⟩ := reads_bind.mp hr
        obtain ⟨c, rest₂, h₂, rfl, hc, hr⟩ := reads_expect_bind.mp hr
        obtain ⟨no, rest₃, h₃, hn, hr⟩ := reads_bind.mp hr
        obtain ⟨rfl, rfl⟩ := reads_ok.mp hr
        exact Or.inr ⟨q, after, yes, c, rest₂, no, rfl, hq, ⟨h₁, hy⟩, hc, ⟨h₃, hn⟩, rfl⟩
      · rename_i hq
        exact Or.inl ⟨by simpa using hq, reads_ok.mp hr⟩
  · rintro ⟨cond, mid, ⟨h, hb⟩, hr⟩
    refine ⟨cond, mid, h, hb, ?_⟩
    rcases hr with ⟨hq, rfl, rfl⟩ |
      ⟨q, after, yes, c, rest₂, no, rfl, hq, ⟨h₁, hy⟩, hc, ⟨h₃, hn⟩, rfl⟩
    · cases rest with
      | nil => exact reads_ok.mpr ⟨rfl, rfl⟩
      | cons q after =>
        dsimp only
        rw [if_neg (by simpa using hq)]
        exact reads_ok.mpr ⟨rfl, rfl⟩
    · dsimp only
      rw [if_pos hq]
      refine reads_bind.mpr ⟨yes, _, h₁, hy, ?_⟩
      refine reads_expect_bind.mpr ⟨c, rest₂, Nat.lt_succ_self _, rfl, hc, ?_⟩
      exact reads_bind.mpr ⟨no, rest, h₃, hn, reads_ok.mpr ⟨rfl, rfl⟩⟩

theorem reads_binary_zero : Reads (binary 0 ts) e rest ↔ Reads (power ts) e rest := by
  rw [binary]

theorem reads_binary_succ {k : Nat} :
    Reads (binary (k + 1) ts) e rest ↔
      ∃ left mid, Reads (binary k ts) left mid ∧ Reads (operators (k + 1) left mid) e rest := by
  rw [binary, reads_bind]
  constructor
  · rintro ⟨left, mid, h, hl, hr⟩
    obtain ⟨e', rest', h', ho, hr⟩ := reads_bind.mp hr
    obtain ⟨rfl, rfl⟩ := reads_ok.mp hr
    exact ⟨left, mid, ⟨h, hl⟩, ⟨h', ho⟩⟩
  · rintro ⟨left, mid, ⟨h, hl⟩, ⟨h', ho⟩⟩
    refine ⟨left, mid, h, hl, reads_bind.mpr ⟨e, rest, h', ho, ?_⟩⟩
    exact reads_ok.mpr ⟨rfl, rfl⟩

/-- Operators of one level are taken from the left, until there is none. -/
theorem reads_operators {k : Nat} {left : Expr} :
    Reads (operators k left ts) e rest ↔
      (operatorAt? k ts = none ∧ e = left ∧ rest = ts) ∨
      ∃ op after right mid, operatorAt? k ts = some (op, after) ∧
        Reads (binary (k - 1) after) right mid ∧
        Reads (operators k (.binary op left right) mid) e rest := by
  rw [operators]
  split
  · rename_i hop
    rw [reads_ok]
    refine ⟨fun h => Or.inl ⟨hop, h⟩, ?_⟩
    rintro (⟨-, h⟩ | ⟨op, after, right, mid, hop', -⟩)
    · exact h
    · cases hop.symm.trans hop'
  · rename_i op after hop
    rw [reads_bind]
    constructor
    · rintro ⟨right, mid, h, hr, hrest⟩
      obtain ⟨e', rest', h', ho, hrest⟩ := reads_bind.mp hrest
      obtain ⟨rfl, rfl⟩ := reads_ok.mp hrest
      exact Or.inr ⟨op, after, right, mid, hop, ⟨h, hr⟩, ⟨h', ho⟩⟩
    · rintro (⟨hop', -⟩ | ⟨op', after', right, mid, hop', ⟨h, hr⟩, ⟨h', ho⟩⟩)
      · cases hop.symm.trans hop'
      · cases hop.symm.trans hop'
        refine ⟨right, mid, h, hr, reads_bind.mpr ⟨e, rest, h', ho, ?_⟩⟩
        exact reads_ok.mpr ⟨rfl, rfl⟩

/-- A power has another power as its exponent. -/
theorem reads_power :
    Reads (power ts) e rest ↔ ∃ base mid, Reads (unary ts) base mid ∧
      ((mid.head?.map Lexeme.token ≠ some .starStar ∧ e = base ∧ rest = mid) ∨
        ∃ t after exponent, mid = t :: after ∧ t.token = .starStar ∧
          Reads (power after) exponent rest ∧ e = .binary .pow base exponent) := by
  rw [power, reads_bind]
  constructor
  · rintro ⟨base, mid, h, hb, hr⟩
    refine ⟨base, mid, ⟨h, hb⟩, ?_⟩
    cases mid with
    | nil => exact Or.inl ⟨nofun, reads_ok.mp hr⟩
    | cons t after =>
      dsimp only at hr
      split at hr
      · rename_i ht
        obtain ⟨exponent, rest', h', hp, hr⟩ := reads_bind.mp hr
        obtain ⟨rfl, rfl⟩ := reads_ok.mp hr
        exact Or.inr ⟨t, after, exponent, rfl, ht, ⟨h', hp⟩, rfl⟩
      · rename_i ht
        exact Or.inl ⟨by simpa using ht, reads_ok.mp hr⟩
  · rintro ⟨base, mid, ⟨h, hb⟩, hr⟩
    refine ⟨base, mid, h, hb, ?_⟩
    rcases hr with ⟨ht, rfl, rfl⟩ | ⟨t, after, exponent, rfl, ht, ⟨h', hp⟩, rfl⟩
    · cases rest with
      | nil => exact reads_ok.mpr ⟨rfl, rfl⟩
      | cons t after =>
        dsimp only
        rw [if_neg (by simpa using ht)]
        exact reads_ok.mpr ⟨rfl, rfl⟩
    · dsimp only
      rw [if_pos ht]
      exact reads_bind.mpr ⟨exponent, rest, h', hp, reads_ok.mpr ⟨rfl, rfl⟩⟩

theorem reads_unary :
    Reads (unary ts) e rest ↔
      (∃ t after operand, ts = t :: after ∧ t.token = .minus ∧ Reads (unary after) operand rest ∧
        e = negate operand) ∨
      Reads (primary ts) e rest := by
  cases ts with
  | nil =>
    rw [unary]
    refine ⟨Or.inr, ?_⟩
    rintro (⟨_, _, _, ⟨⟩, _⟩ | h)
    exact h
  | cons t after =>
    rw [unary]
    split
    · rename_i ht
      rw [reads_bind]
      constructor
      · rintro ⟨operand, mid, h, ho, hr⟩
        obtain ⟨rfl, rfl⟩ := reads_ok.mp hr
        exact Or.inl ⟨t, after, operand, rfl, ht, ⟨h, ho⟩, rfl⟩
      · rintro (⟨t, after, operand, ⟨⟩, -, ⟨h, ho⟩, rfl⟩ | hp)
        · exact ⟨operand, rest, h, ho, reads_ok.mpr ⟨rfl, rfl⟩⟩
        · simp only [primary, ht] at hp
          exact absurd hp not_reads_error
    · rename_i ht
      refine ⟨Or.inr, ?_⟩
      rintro (⟨t, after, operand, ⟨⟩, ht', -⟩ | hp)
      · exact absurd ht' ht
      · exact hp

/-! ## Atoms -/

/-- An index is a number in brackets, and may be left out. -/
theorem reads_index {index : Option UInt64} :
    Reads (index? ts) index rest ↔
      (ts.head?.map Lexeme.token ≠ some .bracketOpen ∧ index = none ∧ rest = ts) ∨
      ∃ o n c i, ts = o :: n :: c :: rest ∧ o.token = .bracketOpen ∧ n.token = .number ∧
        Index n.text.toList i ∧ c.token = .bracketClose ∧ index = some i := by
  cases ts with
  | nil =>
    rw [index?, reads_ok]
    refine ⟨fun h => Or.inl ⟨nofun, h⟩, ?_⟩
    exact fun h => h.elim And.right fun ⟨_, _, _, _, h, _⟩ => nomatch h
  | cons o after =>
    rw [index?]
    split
    · rename_i ho
      rw [reads_expect_bind]
      constructor
      · rintro ⟨n, mid, h, rfl, hn, hr⟩
        dsimp only at hr
        cases hi : Text.readIndex n.text.toList with
        | none => rw [hi] at hr; exact absurd hr not_reads_error
        | some i =>
          rw [hi] at hr
          obtain ⟨c, mid', h', rfl, hc, hr⟩ := reads_expect_bind.mp hr
          obtain ⟨rfl, rfl⟩ := reads_ok.mp hr
          exact Or.inr ⟨o, n, c, i, rfl, ho, hn, Text.readIndex_eq_some_iff.mp hi, hc, rfl⟩
      · rintro (⟨hne, -⟩ | ⟨o, n, c, i, ⟨⟩, -, hn, hi, hc, rfl⟩)
        · exact absurd (congrArg some ho) hne
        · refine ⟨n, c :: rest, Nat.lt_succ_self _, rfl, hn, ?_⟩
          dsimp only
          rw [Text.readIndex_eq_some_iff.mpr hi]
          refine reads_expect_bind.mpr ⟨c, rest, Nat.lt_succ_self _, rfl, hc, ?_⟩
          exact reads_ok.mpr ⟨rfl, rfl⟩
    · rename_i ho
      rw [reads_ok]
      refine ⟨fun h => Or.inl ⟨by simpa using ho, h⟩, ?_⟩
      rintro (h | ⟨o, n, c, i, ⟨⟩, ho', -⟩)
      · exact h.2
      · exact absurd ho' ho

/-- A selected property is a target with a suffix. -/
theorem reads_selected {target : Target} :
    Reads (selected target ts) e rest ↔ ∃ used index name, ts = used ++ rest ∧
      Suffix used index name ∧ e = .property (some ⟨target, index⟩) name := by
  rw [selected, reads_bind]
  constructor
  · rintro ⟨index, mid, h, hi, hr⟩
    obtain ⟨d, mid', h', rfl, hd, hr⟩ := reads_expect_bind.mp hr
    obtain ⟨p, mid'', h'', rfl, hp, hr⟩ := reads_expect_bind.mp hr
    obtain ⟨rfl, rfl⟩ := reads_ok.mp hr
    rcases reads_index.mp ⟨h, hi⟩ with ⟨-, rfl, rfl⟩ | ⟨o, n, c, i, rfl, ho, hn, hread, hc, rfl⟩
    · exact ⟨[d, p], none, p.text, rfl, .plain hd hp, rfl⟩
    · exact ⟨[o, n, c, d, p], some i, p.text, rfl, .indexed ho hn hread hc hd hp, rfl⟩
  · rintro ⟨used, index, name, rfl, hs, rfl⟩
    cases hs with
    | @plain d p hd hp =>
      have hi : Reads (index? (d :: p :: rest)) none (d :: p :: rest) :=
        reads_index.mpr (Or.inl ⟨by simp [hd], rfl, rfl⟩)
      obtain ⟨h, hi⟩ := hi
      refine ⟨none, _, h, hi, ?_⟩
      refine reads_expect_bind.mpr ⟨d, p :: rest, Nat.lt_succ_self _, rfl, hd, ?_⟩
      refine reads_expect_bind.mpr ⟨p, rest, Nat.lt_succ_self _, rfl, hp, ?_⟩
      exact reads_ok.mpr ⟨rfl, rfl⟩
    | @indexed o n c d p i ho hn hread hc hd hp =>
      have hi : Reads (index? (o :: n :: c :: d :: p :: rest)) (some i) (d :: p :: rest) :=
        reads_index.mpr (Or.inr ⟨o, n, c, i, rfl, ho, hn, hread, hc, rfl⟩)
      obtain ⟨h, hi⟩ := hi
      refine ⟨some i, _, h, hi, ?_⟩
      refine reads_expect_bind.mpr ⟨d, p :: rest, Nat.lt_succ_self _, rfl, hd, ?_⟩
      refine reads_expect_bind.mpr ⟨p, rest, Nat.lt_succ_self _, rfl, hp, ?_⟩
      exact reads_ok.mpr ⟨rfl, rfl⟩

/-- A name behind a sigil, and what follows it. The sigil says how the name addresses an element. -/
theorem reads_sigil {target : String → Target} {n : Nat}
    {widen : ∀ after : Rest ts.length, after.1.length ≤ n} :
    Reads (p := fun rest => rest.length < n) (do
      let (name, after) ← expect .ident ts
      let (e, after') ← selected (target name.text) after.1
      .ok (e, after'.widen (widen after))) e rest ↔
    ∃ t used index name, ts = t :: (used ++ rest) ∧ t.token = .ident ∧ Suffix used index name ∧
      e = .property (some ⟨target t.text, index⟩) name := by
  rw [reads_expect_bind]
  constructor
  · rintro ⟨t, mid, h, rfl, ht, hr⟩
    obtain ⟨e', mid', h', hsel, hr⟩ := reads_bind.mp hr
    obtain ⟨rfl, rfl⟩ := reads_ok.mp hr
    obtain ⟨used, index, name, rfl, hs, rfl⟩ := reads_selected.mp ⟨h', hsel⟩
    exact ⟨t, used, index, name, rfl, ht, hs, rfl⟩
  · rintro ⟨t, used, index, name, rfl, ht, hs, rfl⟩
    have hsel : Reads (selected (target t.text) (used ++ rest)) _ rest :=
      reads_selected.mpr ⟨used, index, name, rfl, hs, rfl⟩
    obtain ⟨h, hsel⟩ := hsel
    refine ⟨t, used ++ rest, Nat.lt_succ_self _, rfl, ht, ?_⟩
    exact reads_bind.mpr ⟨_, rest, h, hsel, reads_ok.mpr ⟨rfl, rfl⟩⟩

/-- Whether tokens go on behind a name: as a call, an index or a member. -/
def Extends (ts : List Lexeme) : Prop :=
  ∃ t rest, ts = t :: rest ∧ (t.token = .parenOpen ∨ t.token = .bracketOpen ∨
    t.token = .dot ∧ rest.head?.map Lexeme.token = some .ident)

theorem not_extends_nil : ¬ Extends [] := by
  rintro ⟨_, _, h, _⟩
  cases h

theorem Suffix.append_eq_cons {used : List Lexeme} {index : Option UInt64} {name : String}
    (h : Suffix used index name) (rest : List Lexeme) :
    ∃ t after, used ++ rest = t :: after ∧ t.token ≠ .parenOpen ∧ (t.token = .bracketOpen ∨
      t.token = .dot ∧ after.head?.map Lexeme.token = some .ident) := by
  cases h with
  | plain hd hp => exact ⟨_, _, rfl, by simp [hd], Or.inr ⟨hd, by simp [hp]⟩⟩
  | indexed ho hn hread hc hd hp => exact ⟨_, _, rfl, by simp [ho], Or.inl ho⟩

/-- What may follow a name. -/
theorem reads_named {name : String} :
    Reads (named name ts) e rest ↔
      (∃ o v c, ts = o :: v :: c :: rest ∧ o.token = .parenOpen ∧ v.token = .ident ∧
        c.token = .parenClose ∧ e = .var name v.text) ∨
      (∃ used index property, ts = used ++ rest ∧ Suffix used index property ∧
        e = .property (some ⟨.tag (Text.lower name), index⟩) property) ∨
      (¬ Extends ts ∧ e = .property none name ∧ rest = ts) := by
  constructor
  · intro h
    cases ts with
    | nil => exact Or.inr (Or.inr ⟨not_extends_nil, reads_ok.mp h⟩)
    | cons t after =>
      rw [named] at h
      split at h
      · rename_i ht
        obtain ⟨v, mid, h₁, rfl, hv, h⟩ := reads_expect_bind.mp h
        obtain ⟨c, mid', h₂, rfl, hc, h⟩ := reads_expect_bind.mp h
        obtain ⟨rfl, rfl⟩ := reads_ok.mp h
        exact Or.inl ⟨t, v, c, rfl, ht, hv, hc, rfl⟩
      · split at h
        · obtain ⟨e', mid, h₁, hs, h⟩ := reads_bind.mp h
          obtain ⟨rfl, rfl⟩ := reads_ok.mp h
          exact Or.inr (Or.inl (reads_selected.mp ⟨h₁, hs⟩))
        · rename_i hparen hother
          refine Or.inr (Or.inr ⟨?_, reads_ok.mp h⟩)
          rintro ⟨t, rest, ⟨⟩, ht⟩
          exact ht.elim hparen hother
  · rintro (⟨o, v, c, rfl, ho, hv, hc, rfl⟩ | ⟨used, index, property, rfl, hs, rfl⟩ |
      ⟨hne, rfl, rfl⟩)
    · rw [named, if_pos ho]
      refine reads_expect_bind.mpr ⟨v, c :: rest, Nat.lt_succ_self _, rfl, hv, ?_⟩
      refine reads_expect_bind.mpr ⟨c, rest, Nat.lt_succ_self _, rfl, hc, ?_⟩
      exact reads_ok.mpr ⟨rfl, rfl⟩
    · have hsel : Reads (selected (.tag (Text.lower name)) (used ++ rest)) _ rest :=
        reads_selected.mpr ⟨used, index, property, rfl, hs, rfl⟩
      obtain ⟨t, after, heq, hparen, hother⟩ := hs.append_eq_cons rest
      rw [heq] at hsel ⊢
      obtain ⟨h, hsel⟩ := hsel
      rw [named, if_neg hparen, if_pos hother]
      exact reads_bind.mpr ⟨_, rest, h, hsel, reads_ok.mpr ⟨rfl, rfl⟩⟩
    · cases rest with
      | nil => exact reads_ok.mpr ⟨rfl, rfl⟩
      | cons t after =>
        rw [named, if_neg fun ht => hne ⟨t, after, rfl, Or.inl ht⟩,
          if_neg fun ht => hne ⟨t, after, rfl, Or.inr ht⟩]
        exact reads_ok.mpr ⟨rfl, rfl⟩

/-- A single value is an atom, or a value in parentheses. -/
theorem Reads.primary_cases (h : Reads (primary ts) e rest) :
    (∃ used, ts = used ++ rest ∧ Atom used e) ∨
      ∃ o after c, ts = o :: after ∧ o.token = .parenOpen ∧
        Reads (conditional after) e (c :: rest) ∧ c.token = .parenClose := by
  cases ts with
  | nil => rw [primary] at h; exact absurd h not_reads_error
  | cons t after =>
    rw [primary] at h
    split at h
    · rename_i ht
      obtain ⟨rfl, rfl⟩ := reads_ok.mp h
      exact Or.inl ⟨[t], rfl, atom_dimension ht⟩
    · rename_i ht
      obtain ⟨rfl, rfl⟩ := reads_ok.mp h
      exact Or.inl ⟨[t], rfl, atom_unquoted (Or.inl ht)⟩
    · rename_i ht
      obtain ⟨rfl, rfl⟩ := reads_ok.mp h
      exact Or.inl ⟨[t], rfl, atom_unquoted (Or.inr ht)⟩
    · rename_i ht
      obtain ⟨e', mid, h₁, he, h⟩ := reads_bind.mp h
      obtain ⟨c, mid', h₂, rfl, hc, h⟩ := reads_expect_bind.mp h
      obtain ⟨rfl, rfl⟩ := reads_ok.mp h
      exact Or.inr ⟨t, after, c, rfl, ht, ⟨h₁, he⟩, hc⟩
    · rename_i ht
      obtain ⟨n, used, index, name, rfl, hn, hs, rfl⟩ := reads_sigil.mp h
      exact Or.inl ⟨t :: n :: used, rfl, .byId ht hn hs⟩
    · rename_i ht
      obtain ⟨n, used, index, name, rfl, hn, hs, rfl⟩ := reads_sigil.mp h
      exact Or.inl ⟨t :: n :: used, rfl, .byClass ht hn hs⟩
    · rename_i ht
      obtain ⟨e', mid, h₁, hn, h⟩ := reads_bind.mp h
      obtain ⟨rfl, rfl⟩ := reads_ok.mp h
      rcases reads_named.mp ⟨h₁, hn⟩ with ⟨o, v, c, rfl, ho, hv, hc, rfl⟩ |
        ⟨used, index, property, rfl, hs, rfl⟩ | ⟨-, rfl, rfl⟩
      · exact Or.inl ⟨[t, o, v, c], rfl, .ofGroup ht ho hv hc⟩
      · exact Or.inl ⟨t :: used, rfl, .byTag ht hs⟩
      · exact Or.inl ⟨[t], rfl, .bare ht⟩
    · exact absurd h not_reads_error

theorem reads_primary_group {o c : Lexeme} {after : List Lexeme} (ho : o.token = .parenOpen)
    (h : Reads (conditional after) e (c :: rest)) (hc : c.token = .parenClose) :
    Reads (primary (o :: after)) e rest := by
  obtain ⟨h, he⟩ := h
  simp only [primary, ho]
  refine reads_bind.mpr ⟨e, _, h, he, ?_⟩
  refine reads_expect_bind.mpr ⟨c, rest, Nat.lt_succ_self _, rfl, hc, ?_⟩
  exact reads_ok.mpr ⟨rfl, rfl⟩

/-- An atom is read as such, unless it is a name that goes on. -/
theorem reads_primary_atom {used : List Lexeme} (h : Atom used e) (hrest : ¬ Extends rest) :
    Reads (primary (used ++ rest)) e rest := by
  have named : ∀ {n : Lexeme} {ts : List Lexeme} {e : Expr}, n.token = .ident →
      Reads (named n.text ts) e rest → Reads (primary (n :: ts)) e rest := by
    rintro n ts e hn ⟨h, he⟩
    simp only [primary, hn]
    exact reads_bind.mpr ⟨e, rest, h, he, reads_ok.mpr ⟨rfl, rfl⟩⟩
  cases h with
  | @number t value unit ht hnumeral =>
    rw [← hnumeral.dimension_eq]
    show Reads (primary (t :: rest)) _ rest
    simp only [primary, ht]
    exact reads_ok.mpr ⟨rfl, rfl⟩
  | @string t inner ht hquoted =>
    rw [← hquoted.unquoted_eq]
    show Reads (primary (t :: rest)) _ rest
    rcases ht with ht | ht
    · simp only [primary, ht]
      exact reads_ok.mpr ⟨rfl, rfl⟩
    · simp only [primary, ht]
      exact reads_ok.mpr ⟨rfl, rfl⟩
  | ofGroup hg ho hv hc =>
    exact named hg (reads_named.mpr (Or.inl ⟨_, _, _, rfl, ho, hv, hc, rfl⟩))
  | @byId t n ts index name ht hn hs =>
    show Reads (primary (t :: n :: (ts ++ rest))) _ rest
    simp only [primary, ht]
    exact reads_sigil.mpr ⟨n, ts, index, name, rfl, hn, hs, rfl⟩
  | @byClass t n ts index name ht hn hs =>
    show Reads (primary (t :: n :: (ts ++ rest))) _ rest
    simp only [primary, ht]
    exact reads_sigil.mpr ⟨n, ts, index, name, rfl, hn, hs, rfl⟩
  | byTag hn hs => exact named hn (reads_named.mpr (Or.inr (Or.inl ⟨_, _, _, rfl, hs, rfl⟩)))
  | bare hn => exact named hn (reads_named.mpr (Or.inr (Or.inr ⟨hrest, rfl, rfl⟩)))

end Stencil.Parser
