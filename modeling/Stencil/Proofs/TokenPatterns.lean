import Mathlib.Computability.Language
import Mathlib.Data.List.TakeWhile
import Stencil.Expr.Token
import Stencil.Text.Name

/-!
# The patterns of tokens

What each kind of token looks like, said as a language and not as a way of finding one. The scanner
decides by the first character which kind to look for, and reads on as far as it can; a number is read
in up to three pieces, the last two of which may be missing.

* `Token.pattern` — the language of a kind of token
* `Token.match?_mem` — what the scanner finds matches the pattern of its kind
* `Token.exists_match?` — if a text starts with a token, the scanner finds that one or a longer one
* `Token.next?_eq_some_iff` — the scanner finds the longest match, and there is only one
-/

namespace Stencil

open Computability

/-! ## Languages -/

namespace Pattern

/-- One character of a class. -/
def one (p : Char → Bool) : Language Char := {cs | ∃ c, p c = true ∧ cs = [c]}

/-- At least one character, all of a class. -/
def run (p : Char → Bool) : Language Char := one p * (one p)∗

/-- A text of a language, or nothing. -/
def optional (l : Language Char) : Language Char := 1 + l

/-- Two quotes with none of their kind between them. -/
def quoted (quote : Char) : Language Char := {[quote]} * (one (· != quote))∗ * {[quote]}

/-- The decimal places of a number, with the point in front of them. -/
def decimals : Language Char := {['.']} * run Char.isDigit

/-- The unit of a number. -/
def unit : Language Char := {['%']} + run Char.isAlpha

variable {p : Char → Bool} {cs : List Char}

theorem mem_kstar_one : cs ∈ (one p)∗ ↔ ∀ c ∈ cs, p c = true := by
  constructor
  · intro h
    obtain ⟨parts, rfl, hparts⟩ := Language.mem_kstar.mp h
    intro c hc
    obtain ⟨part, hpart, hc⟩ := List.mem_flatten.mp hc
    obtain ⟨c', hp, rfl⟩ := hparts part hpart
    rw [List.mem_singleton.mp hc]
    exact hp
  · intro h
    refine Language.mem_kstar.mpr ⟨cs.map fun c => [c], by simp [← List.flatMap_def], ?_⟩
    intro part hpart
    obtain ⟨c, hc, rfl⟩ := List.mem_map.mp hpart
    exact ⟨c, h c hc, rfl⟩

theorem mem_run : cs ∈ run p ↔ cs ≠ [] ∧ ∀ c ∈ cs, p c = true := by
  constructor
  · intro h
    obtain ⟨_, ⟨c, hc, rfl⟩, rest, hrest, rfl⟩ := Language.mem_mul.mp h
    exact ⟨by simp, List.forall_mem_cons.mpr ⟨hc, mem_kstar_one.mp hrest⟩⟩
  · rintro ⟨hne, hall⟩
    cases cs with
    | nil => exact absurd rfl hne
    | cons c rest =>
      rw [List.forall_mem_cons] at hall
      exact Language.mem_mul.mpr ⟨[c], ⟨c, hall.1, rfl⟩, rest, mem_kstar_one.mpr hall.2, rfl⟩

theorem mem_optional {l : Language Char} : cs ∈ optional l ↔ cs = [] ∨ cs ∈ l := Iff.rfl

theorem mem_singleton_mul {c : Char} {l : Language Char} :
    cs ∈ {[c]} * l ↔ ∃ rest ∈ l, cs = c :: rest := by
  constructor
  · intro h
    obtain ⟨_, rfl, rest, hrest, rfl⟩ := Language.mem_mul.mp h
    exact ⟨rest, hrest, rfl⟩
  · rintro ⟨rest, hrest, rfl⟩
    exact Language.mem_mul.mpr ⟨[c], rfl, rest, hrest, rfl⟩

/-- Between two quotes stands anything but a quote. -/
theorem mem_quoted {quote : Char} :
    cs ∈ quoted quote ↔ ∃ body, cs = quote :: (body ++ [quote]) ∧ ∀ c ∈ body, c ≠ quote := by
  rw [quoted, mul_assoc, mem_singleton_mul]
  constructor
  · rintro ⟨_, h, rfl⟩
    obtain ⟨body, hbody, _, rfl, rfl⟩ := Language.mem_mul.mp h
    exact ⟨body, rfl, by simpa using mem_kstar_one.mp hbody⟩
  · rintro ⟨body, rfl, hbody⟩
    refine ⟨_, Language.mem_mul.mpr ⟨body, mem_kstar_one.mpr (by simpa using hbody), _, rfl, rfl⟩, rfl⟩

theorem mem_decimals : cs ∈ decimals ↔ ∃ ds ∈ run Char.isDigit, cs = '.' :: ds := mem_singleton_mul

theorem mem_unit : cs ∈ unit ↔ cs = ['%'] ∨ cs ∈ run Char.isAlpha := Iff.rfl

end Pattern

namespace Token

open Pattern

/-- What a token looks like. -/
def pattern : Token → Language Char
  | .starStar => {['*', '*']}
  | .greaterEq => {['>', '=']}
  | .lessEq => {['<', '=']}
  | .eqEq => {['=', '=']}
  | .notEq => {['!', '=']}
  | .andAnd => {['&', '&']}
  | .orOr => {['|', '|']}
  | .number => run Char.isDigit * optional decimals * optional unit
  | .doubleQuoted => quoted doubleQuote
  | .singleQuoted => quoted singleQuote
  | .ident => one isIdentStart * (one isIdentRest)∗
  | .plus => {['+']}
  | .minus => {['-']}
  | .star => {['*']}
  | .slash => {['/']}
  | .percent => {['%']}
  | .greater => {['>']}
  | .less => {['<']}
  | .question => {['?']}
  | .colon => {[':']}
  | .parenOpen => {['(']}
  | .parenClose => {[')']}
  | .bracketOpen => {['[']}
  | .bracketClose => {[']']}
  | .dot => {['.']}
  | .hash => {['#']}

variable {cs rest : List Char} {t : Token} {n : Nat}

/-- A number is a run of digits, decimals if there are any, and a unit if there is one. -/
theorem mem_number : cs ∈ pattern .number ↔ ∃ whole decimals unit,
    whole ∈ run Char.isDigit ∧ decimals ∈ optional Pattern.decimals ∧
      unit ∈ optional Pattern.unit ∧ cs = whole ++ (decimals ++ unit) := by
  constructor
  · intro h
    obtain ⟨_, hnumber, unit, hunit, rfl⟩ := Language.mem_mul.mp h
    obtain ⟨whole, hwhole, decimals, hdecimals, rfl⟩ := Language.mem_mul.mp hnumber
    exact ⟨whole, decimals, unit, hwhole, hdecimals, hunit, List.append_assoc ..⟩
  · rintro ⟨whole, decimals, unit, hwhole, hdecimals, hunit, rfl⟩
    refine Language.mem_mul.mpr ⟨whole ++ decimals, ?_, unit, hunit, List.append_assoc ..⟩
    exact Language.mem_mul.mpr ⟨whole, hwhole, decimals, hdecimals, rfl⟩

/-- Fewer characters start a name than go on with it. -/
theorem mem_ident : cs ∈ pattern .ident ↔
    ∃ c rest, cs = c :: rest ∧ isIdentStart c = true ∧ ∀ c ∈ rest, isIdentRest c = true := by
  constructor
  · intro h
    obtain ⟨_, ⟨c, hc, rfl⟩, rest, hrest, rfl⟩ := Language.mem_mul.mp h
    exact ⟨c, rest, rfl, hc, mem_kstar_one.mp hrest⟩
  · rintro ⟨c, rest, rfl, hc, hrest⟩
    exact Language.mem_mul.mpr ⟨[c], ⟨c, hc, rfl⟩, rest, mem_kstar_one.mpr hrest, rfl⟩

/-- The patterns of operators and punctuation marks are those of the table. -/
theorem pattern_of_mem_symbols : ∀ s ∈ symbols, s.2.pattern = {s.1} := by
  simp [symbols, pattern]

/-! ## Characters -/

theorem isDigit_eq_false_of_isAlpha {c : Char} (h : c.isAlpha = true) : c.isDigit = false := by
  delta Char.isAlpha Char.isUpper Char.isLower at h
  delta Char.isDigit
  grind

theorem isDigit_eq_false_of_isIdentStart {c : Char} (h : isIdentStart c = true) :
    c.isDigit = false := by
  rcases Bool.or_eq_true_iff.mp h with h | h
  · exact isDigit_eq_false_of_isAlpha h
  · rw [eq_of_beq h]
    decide

/-- The first characters of operators and punctuation marks start nothing else. -/
theorem head_of_mem_symbols : ∀ s ∈ symbols, ∃ c rest, s.1 = c :: rest ∧ c.isDigit = false ∧
    isIdentStart c = false ∧ (c == doubleQuote) = false ∧ (c == singleQuote) = false := by
  have heads : ∀ s ∈ symbols, s.1.head?.any (fun c => !c.isDigit && !isIdentStart c &&
      !(c == doubleQuote) && !(c == singleQuote)) = true := by
    decide
  rintro ⟨_ | ⟨c, rest⟩, t⟩ hs
  · exact absurd (heads _ hs) Bool.false_ne_true
  · have hc := heads _ hs
    simp only [List.head?_cons, Option.any_some, Bool.and_eq_true, Bool.not_eq_true', and_assoc] at hc
    exact ⟨c, rest, rfl, hc⟩

/-! ## Runs of characters -/

theorem take_length_takeWhile (p : Char → Bool) (cs : List Char) :
    cs.take (cs.takeWhile p).length = cs.takeWhile p :=
  (List.prefix_iff_eq_take.mp (List.takeWhile_prefix p)).symm

theorem length_takeWhile_le (p : Char → Bool) (cs : List Char) :
    (cs.takeWhile p).length ≤ cs.length := (List.takeWhile_prefix p).length_le

theorem takeWhile_mem_run {p : Char → Bool} (h : cs.takeWhile p ≠ []) : cs.takeWhile p ∈ run p :=
  mem_run.mpr ⟨h, fun _ => List.mem_takeWhile_imp⟩

theorem length_le_takeWhile_append {p : Char → Bool} (hcs : ∀ c ∈ cs, p c = true)
    (rest : List Char) : cs.length ≤ ((cs ++ rest).takeWhile p).length := by
  rw [List.takeWhile_append_of_pos hcs, List.length_append]
  omega

/-! ## Numbers -/

/-- How many characters the decimal places at the start of a text take, the point included. -/
def decimalsLength : List Char → Nat
  | '.' :: rest =>
    let n := (rest.takeWhile Char.isDigit).length
    if n = 0 then 0 else n + 1
  | _ => 0

/-- How many characters the unit at the start of a text takes. -/
def unitLength : List Char → Nat
  | '%' :: _ => 1
  | rest => (rest.takeWhile Char.isAlpha).length

/-- The length of a number, part by part. -/
theorem numberLength_eq (cs : List Char) :
    numberLength cs =
      let whole := (cs.takeWhile Char.isDigit).length
      let decimals := decimalsLength (cs.drop whole)
      whole + decimals + unitLength (cs.drop (whole + decimals)) := rfl

theorem decimalsLength_le (cs : List Char) : decimalsLength cs ≤ cs.length := by
  unfold decimalsLength
  split
  · rename_i rest
    have hle := length_takeWhile_le Char.isDigit rest
    dsimp only
    split
    · omega
    · simp only [List.length_cons]
      omega
  · omega

/-- What counts as decimals are decimals, or nothing. -/
theorem take_decimalsLength_mem (cs : List Char) :
    cs.take (decimalsLength cs) ∈ optional decimals := by
  unfold decimalsLength
  split
  · rename_i rest
    dsimp only
    split
    · exact mem_optional.mpr (.inl List.take_zero)
    · rename_i hne
      have hdigits : rest.takeWhile Char.isDigit ≠ [] := fun hnil => hne (by simp [hnil])
      refine mem_optional.mpr (.inr (mem_decimals.mpr ⟨_, takeWhile_mem_run hdigits, ?_⟩))
      rw [List.take_succ_cons, take_length_takeWhile]
  · exact mem_optional.mpr (.inl List.take_zero)

theorem unitLength_le (cs : List Char) : unitLength cs ≤ cs.length := by
  unfold unitLength
  split
  · simp
  · exact length_takeWhile_le Char.isAlpha _

/-- What counts as a unit is a unit, or nothing. -/
theorem take_unitLength_mem (cs : List Char) : cs.take (unitLength cs) ∈ optional unit := by
  unfold unitLength
  split
  · exact mem_optional.mpr (.inr (mem_unit.mpr (.inl rfl)))
  · rw [take_length_takeWhile]
    by_cases hnil : cs.takeWhile Char.isAlpha = []
    · exact mem_optional.mpr (.inl hnil)
    · exact mem_optional.mpr (.inr (mem_unit.mpr (.inr (takeWhile_mem_run hnil))))

theorem numberLength_le (cs : List Char) : numberLength cs ≤ cs.length := by
  have hwhole := length_takeWhile_le Char.isDigit cs
  have hdecimals := decimalsLength_le (cs.drop (cs.takeWhile Char.isDigit).length)
  have hunit := unitLength_le (cs.drop ((cs.takeWhile Char.isDigit).length
    + decimalsLength (cs.drop (cs.takeWhile Char.isDigit).length)))
  rw [List.length_drop] at hdecimals hunit
  rw [numberLength_eq]
  dsimp only
  omega

/-- What is taken as a number is one. -/
theorem take_numberLength_mem (h : cs.takeWhile Char.isDigit ≠ []) :
    cs.take (numberLength cs) ∈ pattern .number := by
  rw [numberLength_eq, List.take_add, List.take_add, take_length_takeWhile, List.append_assoc]
  exact mem_number.mpr ⟨_, _, _, takeWhile_mem_run h, take_decimalsLength_mem _,
    take_unitLength_mem _, rfl⟩

/-- Digits in front of something else are read in full. -/
theorem numberLength_append {whole : List Char} (hwhole : ∀ c ∈ whole, c.isDigit = true)
    (hrest : ∀ c ∈ rest.head?, c.isDigit = false) :
    numberLength (whole ++ rest)
      = whole.length + decimalsLength rest + unitLength (rest.drop (decimalsLength rest)) := by
  rw [numberLength_eq, Text.takeWhile_append_of_head hwhole hrest]
  simp

theorem decimalsLength_append {ds : List Char} (hds : ds ∈ run Char.isDigit)
    (hrest : ∀ c ∈ rest.head?, c.isDigit = false) :
    decimalsLength ('.' :: (ds ++ rest)) = ds.length + 1 := by
  obtain ⟨hne, hall⟩ := mem_run.mp hds
  simp [decimalsLength, Text.takeWhile_append_of_head hall hrest, hne]

theorem length_le_decimalsLength {ds : List Char} (hds : ds ∈ run Char.isDigit) (rest : List Char) :
    ds.length + 1 ≤ decimalsLength ('.' :: (ds ++ rest)) := by
  obtain ⟨hne, hall⟩ := mem_run.mp hds
  have hpos := List.length_pos_iff.mpr hne
  have hle := length_le_takeWhile_append hall rest
  simp only [decimalsLength]
  split <;> omega

/-- No unit at the front is longer than the one that counts. -/
theorem length_le_unitLength (hcs : cs ∈ unit) (rest : List Char) :
    cs.length ≤ unitLength (cs ++ rest) := by
  rcases mem_unit.mp hcs with rfl | hcs
  · exact Nat.le_refl 1
  · obtain ⟨hne, hall⟩ := mem_run.mp hcs
    cases cs with
    | nil => exact absurd rfl hne
    | cons c cs =>
      have hc : c ≠ '%' := by
        rintro rfl
        exact absurd (hall '%' List.mem_cons_self) (by decide)
      have hle := length_le_takeWhile_append hall rest
      simpa [unitLength, hc] using hle

/-- Neither a digit nor a point starts a unit. -/
theorem head_of_mem_unit (hcs : cs ∈ unit) (rest : List Char) :
    ∀ c ∈ (cs ++ rest).head?, c.isDigit = false ∧ c ≠ '.' := by
  rcases mem_unit.mp hcs with rfl | hcs
  · rintro c ⟨⟩
    decide
  · obtain ⟨hne, hall⟩ := mem_run.mp hcs
    cases cs with
    | nil => exact absurd rfl hne
    | cons c cs =>
      rintro _ ⟨⟩
      have hc := hall c List.mem_cons_self
      refine ⟨isDigit_eq_false_of_isAlpha hc, ?_⟩
      rintro rfl
      exact absurd hc (by decide)

theorem decimalsLength_eq_zero (h : ∀ c ∈ cs.head?, c ≠ '.') : decimalsLength cs = 0 := by
  unfold decimalsLength
  split
  · exact absurd rfl (h '.' rfl)
  · rfl

/-- A number at the start of a text is read in full, and perhaps what comes behind it. -/
theorem length_le_numberLength (hcs : cs ∈ pattern .number) (rest : List Char) :
    cs.length ≤ numberLength (cs ++ rest) := by
  obtain ⟨whole, ds, u, hwhole, hds, hu, rfl⟩ := mem_number.mp hcs
  obtain ⟨-, hdigits⟩ := mem_run.mp hwhole
  rw [List.append_assoc, List.append_assoc]
  rcases mem_optional.mp hds with rfl | hdecimals
  · rcases mem_optional.mp hu with rfl | hu
    · have hle := length_le_takeWhile_append hdigits rest
      rw [numberLength_eq]
      simp only [List.nil_append, List.append_nil]
      omega
    · have hhead := head_of_mem_unit hu rest
      rw [List.nil_append, List.nil_append, numberLength_append hdigits fun c hc => (hhead c hc).1,
        decimalsLength_eq_zero fun c hc => (hhead c hc).2, List.drop_zero]
      have hle := length_le_unitLength hu rest
      simp only [List.length_append]
      omega
  · obtain ⟨places, hplaces, rfl⟩ := mem_decimals.mp hdecimals
    rw [List.cons_append, List.cons_append, numberLength_append hdigits (by rintro _ ⟨⟩; decide)]
    rcases mem_optional.mp hu with rfl | hu
    · have hle := length_le_decimalsLength hplaces rest
      simp only [List.length_append, List.length_cons, List.append_nil, List.nil_append]
      omega
    · have hhead := head_of_mem_unit hu rest
      rw [decimalsLength_append hplaces fun c hc => (hhead c hc).1, List.drop_succ_cons,
        List.drop_left]
      have hle := length_le_unitLength hu rest
      simp only [List.length_append, List.length_cons]
      omega

/-! ## Strings, names and symbols -/

/-- What is found as a quoted text is one. -/
theorem quotedLength?_mem {quote : Char} (h : quotedLength? quote rest = some n) :
    n ≤ (quote :: rest).length ∧ (quote :: rest).take n ∈ quoted quote := by
  simp only [quotedLength?, Option.ite_none_right_eq_some, Option.some.injEq] at h
  obtain ⟨hlt, rfl⟩ := h
  have hsplit := List.takeWhile_append_dropWhile (p := (· != quote)) (l := rest)
  have hbody : ∀ c ∈ rest.takeWhile (· != quote), c ≠ quote := by
    intro c hc
    simpa using List.mem_takeWhile_imp hc
  refine ⟨by simp only [List.length_cons]; omega, mem_quoted.mpr ⟨_, ?_, hbody⟩⟩
  cases hdrop : rest.dropWhile (· != quote) with
  | nil =>
    rw [hdrop, List.append_nil] at hsplit
    rw [hsplit] at hlt
    exact absurd hlt (Nat.lt_irrefl _)
  | cons c after =>
    have hc : c = quote := by
      have hstop := List.head_dropWhile_not (l := rest) (· != quote) (by simp [hdrop])
      simpa [hdrop] using hstop
    rw [hdrop, hc] at hsplit
    rw [List.take_succ_cons]
    nth_rewrite 2 [← hsplit]
    rw [List.take_length_add_append]
    rfl

/-- The first quote ends a quoted text. -/
theorem quotedLength?_append {quote : Char} {body : List Char} (hbody : ∀ c ∈ body, c ≠ quote)
    (rest : List Char) : quotedLength? quote (body ++ quote :: rest) = some (body.length + 2) := by
  have hwhile : (body ++ quote :: rest).takeWhile (· != quote) = body :=
    Text.takeWhile_append_of_head (by simpa using hbody) (by simp)
  simp [quotedLength?, hwhile]

/-- What is found as a symbol is one. -/
theorem symbol?_mem (h : symbol? cs = some (t, n)) : n ≤ cs.length ∧ cs.take n ∈ t.pattern := by
  obtain ⟨s, hs, he⟩ := Option.map_eq_some_iff.mp h
  cases he
  have hstart : s.1 <+: cs := by simpa using List.find?_some hs
  refine ⟨hstart.length_le, ?_⟩
  rw [pattern_of_mem_symbols s (List.mem_of_find?_eq_some hs), ← List.prefix_iff_eq_take.mp hstart]
  rfl

/-- Longer symbols come first in the table. -/
theorem symbols_sorted : symbols.Pairwise fun s s' => s'.1.length ≤ s.1.length := by decide

/-- Of the symbols at the start of a text the longest one is found. -/
theorem exists_symbol? {s : List Char × Token} (hs : s ∈ symbols) (hstart : s.1 <+: cs) :
    ∃ s' ∈ symbols, symbol? cs = some (s'.2, s'.1.length) ∧ s'.1 <+: cs ∧
      s.1.length ≤ s'.1.length := by
  cases hfind : symbols.find? fun s => s.1.isPrefixOf cs with
  | none =>
    have hno := List.find?_eq_none.mp hfind s hs
    exact absurd (List.isPrefixOf_iff_prefix.mpr hstart) hno
  | some s' =>
    refine ⟨s', List.mem_of_find?_eq_some hfind, by rw [symbol?, hfind]; rfl,
      by simpa using List.find?_some hfind, ?_⟩
    obtain ⟨-, before, after, hsplit, hbefore⟩ := List.find?_eq_some_iff_append.mp hfind
    have hsorted := symbols_sorted
    rw [hsplit] at hs hsorted
    rcases List.mem_append.mp hs with hs | hs
    · have hno := hbefore s hs
      simp [List.isPrefixOf_iff_prefix.mpr hstart] at hno
    · rcases List.mem_cons.mp hs with rfl | hs
      · exact Nat.le_refl _
      · exact (List.pairwise_cons.mp (List.pairwise_append.mp hsorted).2.1).1 s hs

/-- There are four kinds of tokens with many texts; every other kind is a symbol. -/
theorem kinds (t : Token) : t = .number ∨ t = .ident ∨ t = .doubleQuoted ∨ t = .singleQuoted ∨
    ∃ s ∈ symbols, s.2 = t := by
  cases t <;> decide

/-- A symbol stands in the table once. -/
theorem symbols_functional : ∀ s ∈ symbols, ∀ s' ∈ symbols, s.1 = s'.1 → s.2 = s'.2 := by decide

theorem match?_of_mem_symbols {s : List Char × Token} (hs : s ∈ symbols) (rest : List Char) :
    match? (s.1 ++ rest) = symbol? (s.1 ++ rest) := by
  obtain ⟨c, after, hcons, hdigit, hident, hdouble, hsingle⟩ := head_of_mem_symbols s hs
  simp [hcons, match?, hdigit, hident, hdouble, hsingle]

/-! ## The longest match -/

/-- What the scanner finds matches the pattern of its kind. -/
theorem match?_mem (h : match? cs = some (t, n)) : n ≤ cs.length ∧ cs.take n ∈ t.pattern := by
  unfold match? at h
  split at h
  · cases h
  rename_i c rest
  split at h
  · rename_i hdigit
    cases h
    exact ⟨numberLength_le _, take_numberLength_mem (by simp [hdigit])⟩
  split at h
  · rename_i hident
    cases h
    have hle := length_takeWhile_le isIdentRest rest
    refine ⟨by simp only [List.length_cons]; omega,
      mem_ident.mpr ⟨c, rest.takeWhile isIdentRest, ?_, hident,
        fun _ => List.mem_takeWhile_imp⟩⟩
    rw [Nat.add_comm, List.take_succ_cons, take_length_takeWhile]
  split at h
  · rename_i hquote
    obtain ⟨k, hk, he⟩ := Option.map_eq_some_iff.mp h
    cases he
    rw [eq_of_beq hquote] at hk ⊢
    exact quotedLength?_mem hk
  split at h
  · rename_i hquote
    obtain ⟨k, hk, he⟩ := Option.map_eq_some_iff.mp h
    cases he
    rw [eq_of_beq hquote] at hk ⊢
    exact quotedLength?_mem hk
  exact symbol?_mem h

/-- A string is read up to its closing quote, whatever follows. -/
theorem match?_quoted {quote : Char}
    (hkind : ∀ rest, match? (quote :: rest) = (quotedLength? quote rest).map (t, ·))
    (h : cs ∈ quoted quote) (rest : List Char) : match? (cs ++ rest) = some (t, cs.length) := by
  obtain ⟨body, rfl, hbody⟩ := mem_quoted.mp h
  rw [List.cons_append, hkind, List.append_assoc, List.singleton_append,
    quotedLength?_append hbody rest]
  simp

/-- If a text starts with a token, the scanner finds that one or a longer one. -/
theorem exists_match? (h : cs ∈ t.pattern) (rest : List Char) :
    ∃ t' n, match? (cs ++ rest) = some (t', n) ∧ (cs.length < n ∨ cs.length = n ∧ t = t') := by
  rcases t.kinds with rfl | rfl | rfl | rfl | ⟨s, hs, rfl⟩
  · have hle := length_le_numberLength h rest
    obtain ⟨whole, ds, u, hwhole, -, -, rfl⟩ := mem_number.mp h
    obtain ⟨hne, hdigits⟩ := mem_run.mp hwhole
    obtain ⟨c, more, rfl⟩ := List.exists_cons_of_ne_nil hne
    exact ⟨.number, _, if_pos (hdigits c List.mem_cons_self),
      (Nat.lt_or_eq_of_le hle).imp_right fun heq => ⟨heq, rfl⟩⟩
  · obtain ⟨c, more, rfl, hc, hmore⟩ := mem_ident.mp h
    have hle := length_le_takeWhile_append hmore rest
    refine ⟨.ident, 1 + ((more ++ rest).takeWhile isIdentRest).length,
      by simp [match?, hc, isDigit_eq_false_of_isIdentStart hc], ?_⟩
    have hlength : (c :: more).length ≤ 1 + ((more ++ rest).takeWhile isIdentRest).length := by
      simp only [List.length_cons]
      omega
    exact (Nat.lt_or_eq_of_le hlength).imp_right fun heq => ⟨heq, rfl⟩
  · exact ⟨_, _, match?_quoted (fun _ => rfl) h rest, .inr ⟨rfl, rfl⟩⟩
  · exact ⟨_, _, match?_quoted (fun _ => rfl) h rest, .inr ⟨rfl, rfl⟩⟩
  · rw [pattern_of_mem_symbols s hs] at h
    cases h
    obtain ⟨s', hs', hfound, hstart, hle⟩ := exists_symbol? hs (List.prefix_append s.1 rest)
    refine ⟨s'.2, s'.1.length, by rw [match?_of_mem_symbols hs, hfound], ?_⟩
    rcases Nat.lt_or_eq_of_le hle with hlt | heq
    · exact .inl hlt
    · refine .inr ⟨heq, symbols_functional s hs s' hs' ?_⟩
      exact (List.prefix_of_prefix_length_le (List.prefix_append s.1 rest) hstart hle).eq_of_length
        heq

/-- `text` is a token of kind `t` at the start of `cs`, and no token there is longer. -/
structure Longest (t : Token) (text cs : List Char) : Prop where
  mem : text ∈ t.pattern
  starts : text <+: cs
  longest : ∀ t' text', text' ∈ pattern t' → text' <+: cs → text'.length ≤ text.length

/-- No token is empty. -/
theorem ne_nil_of_mem_pattern (h : cs ∈ t.pattern) : cs ≠ [] := by
  rintro rfl
  obtain ⟨t', n, hmatch, -⟩ := exists_match? h []
  cases hmatch

theorem next?_of_match? (h : match? (cs ++ rest) = some (t, cs.length)) :
    next? (cs ++ rest) = some (t, cs, rest) := by
  simp [next?, h]

/-- The next token is the longest one at the front. -/
theorem next?_eq_some_iff {text : List Char} :
    next? cs = some (t, text, rest) ↔ cs = text ++ rest ∧ Longest t text cs := by
  constructor
  · intro h
    obtain ⟨⟨t', n⟩, hmatch, he⟩ := Option.map_eq_some_iff.mp h
    cases he
    obtain ⟨hle, hmem⟩ := match?_mem hmatch
    refine ⟨(List.take_append_drop n cs).symm, hmem, List.take_prefix n cs, ?_⟩
    rintro t' text' hmem' ⟨rest', rfl⟩
    obtain ⟨t'', n', hmatch', hlength⟩ := exists_match? hmem' rest'
    rw [hmatch] at hmatch'
    cases hmatch'
    rw [List.length_take]
    omega
  · rintro ⟨rfl, hlongest⟩
    obtain ⟨t', n, hmatch, hlength⟩ := exists_match? hlongest.mem rest
    obtain ⟨hle, hmem⟩ := match?_mem hmatch
    have hmax := hlongest.longest t' _ hmem (List.take_prefix n _)
    rw [List.length_take] at hmax
    rcases hlength with hlt | ⟨rfl, rfl⟩
    · omega
    · exact next?_of_match? hmatch

/-- There is no next token if no token is at the front. -/
theorem next?_eq_none_iff :
    next? cs = none ↔ ∀ t text, text ∈ pattern t → ¬ text <+: cs := by
  rw [next?, Option.map_eq_none_iff]
  constructor
  · rintro hnone t text hmem ⟨rest, rfl⟩
    obtain ⟨t', n, hmatch, -⟩ := exists_match? hmem rest
    rw [hnone] at hmatch
    cases hmatch
  · intro hno
    cases hmatch : match? cs with
    | none => rfl
    | some found =>
      obtain ⟨hle, hmem⟩ := match?_mem hmatch
      exact absurd (List.take_prefix found.2 cs) (hno found.1 _ hmem)

end Token

end Stencil
