import Stencil.Expr.Parser

/-!
# The grammar of property values

Which tokens are a property value, and which value, said by rules and not by a way of reading. A
kind of phrase (`Phrase`) stands for each row of the table of precedence, and a rule (`Derives`) for
each form in the row:

* `cond ? yes : no` has a conditional on the right, so it associates to the right;
* a row of binary operators (`infixes`) has a phrase of the same row on the left, so it associates
  to the left;
* `**` has a power on the right;
* unary minus changes the sign of an operand that is a dimension, and subtracts any other from zero;
* an `Atom` is a number, a string, `Group(var)`, or a property with or without a selector.

The value of a number (`Numeral`), of a string (`Quoted`) and of an index (`Index`) is read off the
characters of its token. The rules have no lookahead. That they leave no choice is a theorem about the
parser.
-/

namespace Stencil.Parser

/-- The operators of each level, the loosest last. -/
def infixes : Nat → List (Token × BinaryOp)
  | 1 => [(.star, .mul), (.slash, .div), (.percent, .rem)]
  | 2 => [(.plus, .add), (.minus, .sub)]
  | 3 => [(.greaterEq, .ge), (.greater, .gt), (.lessEq, .le), (.less, .lt)]
  | 4 => [(.eqEq, .eq), (.notEq, .ne)]
  | 5 => [(.andAnd, .and)]
  | 6 => [(.orOr, .or)]
  | _ => []

/-- Digits with at most one point among them: the digits before the point and the places behind it.
One of the two may be missing. -/
structure IsDecimal (cs whole places : List Char) : Prop where
  text : cs = whole ∧ places = [] ∨ cs = whole ++ '.' :: places
  digits : ∀ c ∈ whole ++ places, c.isDigit
  nonempty : whole ++ places ≠ []

/-- The number that digits and points denote: the decimal that they are, or else zero. -/
inductive Decimal : List Char → Float → Prop
  | read {cs whole places : List Char} : IsDecimal cs whole places →
      Decimal cs (Float.ofScientific (Nat.ofDigitChars 10 (whole ++ places) 0) true places.length)
  | malformed {cs : List Char} : (∀ whole places, ¬ IsDecimal cs whole places) → Decimal cs 0

/-- A number as it is written: digits and points, and what follows them as the unit. -/
inductive Numeral : List Char → Float → Option String → Prop
  | plain {number : List Char} {value : Float} : (∀ c ∈ number, c.isDigit ∨ c = '.') →
      Decimal number value → Numeral number value none
  | withUnit {number rest : List Char} {c : Char} {value : Float} :
      (∀ c ∈ number, c.isDigit ∨ c = '.') → Decimal number value → ¬ (c.isDigit ∨ c = '.') →
      Numeral (number ++ c :: rest) value (some (String.ofList (c :: rest)))

/-- What stands between two quotes. In a text too short for both there is nothing. -/
inductive Quoted : List Char → List Char → Prop
  | between {first last : Char} {inner : List Char} : Quoted (first :: (inner ++ [last])) inner
  | short {cs : List Char} : cs.length < 2 → Quoted cs []

/-- An index as it is written: digits below 2^64, perhaps with a `+` before them. -/
def Index (cs : List Char) (i : UInt64) : Prop :=
  ∃ sign ds, cs = sign ++ ds ∧ (sign = [] ∨ sign = ['+']) ∧ Text.Denotes ds i

/-- What follows a selector: `.name`, or `[n].name` where `n` is an index. -/
inductive Suffix : List Lexeme → Option UInt64 → String → Prop
  | plain {d p : Lexeme} : d.token = .dot → p.token = .ident → Suffix [d, p] none p.text
  | indexed {o n c d p : Lexeme} {i : UInt64} : o.token = .bracketOpen → n.token = .number →
      Index n.text.toList i → c.token = .bracketClose → d.token = .dot →
      p.token = .ident → Suffix [o, n, c, d, p] (some i) p.text

/-- Values without parentheses around them. -/
inductive Atom : List Lexeme → Expr → Prop
  | number {t : Lexeme} {value : Float} {unit : Option String} : t.token = .number →
      Numeral t.text.toList value unit → Atom [t] (.dimension value unit)
  | string {t : Lexeme} {inner : List Char} : t.token = .doubleQuoted ∨ t.token = .singleQuoted →
      Quoted t.text.toList inner → Atom [t] (.literal (String.ofList inner))
  | ofGroup {g o v c : Lexeme} : g.token = .ident → o.token = .parenOpen → v.token = .ident →
      c.token = .parenClose → Atom [g, o, v, c] (.var g.text v.text)
  | byId {h n : Lexeme} {ts : List Lexeme} {index : Option UInt64} {name : String} :
      h.token = .hash → n.token = .ident → Suffix ts index name →
      Atom (h :: n :: ts) (.property (some ⟨.id n.text, index⟩) name)
  | byClass {d n : Lexeme} {ts : List Lexeme} {index : Option UInt64} {name : String} :
      d.token = .dot → n.token = .ident → Suffix ts index name →
      Atom (d :: n :: ts) (.property (some ⟨.className n.text, index⟩) name)
  | byTag {n : Lexeme} {ts : List Lexeme} {index : Option UInt64} {name : String} :
      n.token = .ident → Suffix ts index name →
      Atom (n :: ts)
        (.property (some ⟨.tag (String.ofList (n.text.toList.map Char.toLower)), index⟩) name)
  | bare {n : Lexeme} : n.token = .ident → Atom [n] (.property none n.text)

/-- The kinds of phrase. -/
inductive Phrase where
  | conditional
  /-- Operands joined by operators of a level or tighter. -/
  | binary (level : Nat)
  | power | unary | primary

/-- The tokens are a phrase of a kind, with a value. -/
inductive Derives : Phrase → List Lexeme → Expr → Prop
  | loosest {ts : List Lexeme} {e : Expr} : Derives (.binary 6) ts e → Derives .conditional ts e
  | choice {cs ys ns : List Lexeme} {q c : Lexeme} {cond yes no : Expr} :
      Derives (.binary 6) cs cond → q.token = .question → Derives .conditional ys yes →
      c.token = .colon → Derives .conditional ns no →
      Derives .conditional (cs ++ q :: (ys ++ c :: ns)) (.conditional cond yes no)
  | tighter {k : Nat} {ts : List Lexeme} {e : Expr} :
      Derives (.binary k) ts e → Derives (.binary (k + 1)) ts e
  | infixed {k : Nat} {ls rs : List Lexeme} {t : Lexeme} {op : BinaryOp} {left right : Expr} :
      Derives (.binary (k + 1)) ls left → (t.token, op) ∈ infixes (k + 1) →
      Derives (.binary k) rs right →
      Derives (.binary (k + 1)) (ls ++ t :: rs) (.binary op left right)
  | tightest {ts : List Lexeme} {e : Expr} : Derives .power ts e → Derives (.binary 0) ts e
  | base {ts : List Lexeme} {e : Expr} : Derives .unary ts e → Derives .power ts e
  | raised {bs es : List Lexeme} {t : Lexeme} {base exponent : Expr} :
      Derives .unary bs base → t.token = .starStar → Derives .power es exponent →
      Derives .power (bs ++ t :: es) (.binary .pow base exponent)
  | operand {ts : List Lexeme} {e : Expr} : Derives .primary ts e → Derives .unary ts e
  | negative {ts : List Lexeme} {t : Lexeme} {value : Float} {unit : Option String} :
      t.token = .minus → Derives .unary ts (.dimension value unit) →
      Derives .unary (t :: ts) (.dimension (-value) unit)
  | subtracted {ts : List Lexeme} {t : Lexeme} {e : Expr} : t.token = .minus →
      Derives .unary ts e → (∀ value unit, e ≠ .dimension value unit) →
      Derives .unary (t :: ts) (.binary .sub (.dimension 0 none) e)
  | atom {ts : List Lexeme} {e : Expr} : Atom ts e → Derives .primary ts e
  | parenthesised {ts : List Lexeme} {o c : Lexeme} {e : Expr} : o.token = .parenOpen →
      Derives .conditional ts e → c.token = .parenClose → Derives .primary (o :: (ts ++ [c])) e

/-! ## Levels -/

/-- What binds tighter is a phrase of every looser level. -/
theorem Derives.binary_mono {ts : List Lexeme} {e : Expr} {j k : Nat}
    (h : Derives (.binary j) ts e) (hjk : j ≤ k) : Derives (.binary k) ts e := by
  induction hjk with
  | refl => exact h
  | step _ ih => exact .tighter ih

theorem Derives.binary {ts : List Lexeme} {e : Expr} (h : Derives .unary ts e) (k : Nat) :
    Derives (.binary k) ts e :=
  (Derives.tightest (.base h)).binary_mono (Nat.zero_le k)

/-! ## Numbers and strings -/

/-- Reading a decimal gives the value of its digits, with the point where it stands. -/
theorem IsDecimal.readDecimal_eq {cs whole places : List Char} (h : IsDecimal cs whole places) :
    readDecimal cs =
      some (Float.ofScientific (Nat.ofDigitChars 10 (whole ++ places) 0) true places.length) := by
  obtain ⟨htext, hdigits, hne⟩ := h
  rw [List.forall_mem_append] at hdigits
  have hparts : ¬ (whole = [] ∧ places = []) := by simpa using hne
  rcases htext with ⟨rfl, rfl⟩ | rfl
  · have htake : (cs ++ []).takeWhile Char.isDigit = cs :=
      Text.takeWhile_append_of_head hdigits.1 (by simp)
    have hdrop : (cs ++ []).dropWhile Char.isDigit = [] :=
      Text.dropWhile_append_of_head hdigits.1 (by simp)
    rw [List.append_nil] at htake hdrop
    unfold readDecimal
    rw [htake, hdrop]
    exact if_neg hparts
  · have hpoint : ∀ c ∈ ('.' :: places).head?, c.isDigit = false := by
      rintro _ ⟨⟩
      decide
    have htake := Text.takeWhile_append_of_head hdigits.1 hpoint
    have hdrop := Text.dropWhile_append_of_head hdigits.1 hpoint
    have hall : places.all Char.isDigit := List.all_eq_true.mpr hdigits.2
    simp only [readDecimal, htake, hdrop, hall, if_true, Option.bind_some, if_neg hparts]

theorem exists_isDecimal {cs : List Char} {value : Float} (h : readDecimal cs = some value) :
    ∃ whole places, IsDecimal cs whole places := by
  have hdigits : ∀ c ∈ cs.takeWhile Char.isDigit, c.isDigit :=
    List.all_eq_true.mp List.all_takeWhile
  have hsplit := (List.takeWhile_append_dropWhile (p := Char.isDigit) (l := cs)).symm
  obtain ⟨places, hplaces, h⟩ := Option.bind_eq_some_iff.mp h
  refine ⟨cs.takeWhile Char.isDigit, places, ?_⟩
  have hne : cs.takeWhile Char.isDigit ++ places ≠ [] := by
    split at h
    · cases h
    · rename_i hparts
      simpa using hparts
  split at hplaces
  · rename_i hrest
    cases hplaces
    rw [hrest, List.append_nil] at hsplit
    exact ⟨Or.inl ⟨hsplit, rfl⟩, by simpa using hdigits, hne⟩
  · rename_i rest hrest
    split at hplaces
    · rename_i hall
      cases hplaces
      refine ⟨Or.inr (hrest ▸ hsplit), ?_, hne⟩
      exact List.forall_mem_append.mpr ⟨hdigits, List.all_eq_true.mp hall⟩
    · cases hplaces
  · cases hplaces

theorem decimal_iff {cs : List Char} {value : Float} :
    Decimal cs value ↔ (readDecimal cs).getD 0 = value := by
  constructor
  · intro h
    cases h with
    | read h => rw [h.readDecimal_eq, Option.getD_some]
    | malformed h =>
      cases hread : readDecimal cs with
      | none => rfl
      | some value =>
        obtain ⟨whole, places, hcs⟩ := exists_isDecimal hread
        exact absurd hcs (h whole places)
  · rintro rfl
    cases hread : readDecimal cs with
    | none =>
      refine .malformed fun whole places hcs => ?_
      rw [hcs.readDecimal_eq] at hread
      cases hread
    | some value =>
      obtain ⟨whole, places, hcs⟩ := exists_isDecimal hread
      have heq := hcs.readDecimal_eq.symm.trans hread
      exact Option.some.inj heq ▸ .read hcs

/-- A number token is parted where its digits and points end. -/
theorem dimension_of_append {text : String} {number rest : List Char}
    (htext : text.toList = number ++ rest) (hnumber : ∀ c ∈ number, c.isDigit ∨ c = '.')
    (hrest : ∀ c ∈ rest.head?, ¬ (c.isDigit ∨ c = '.')) :
    dimension text = .withUnit ((readDecimal number).getD 0) (String.ofList rest) := by
  have hnumber' : ∀ c ∈ number, (c.isDigit || c == '.') = true := by simpa using hnumber
  have hrest' : ∀ c ∈ rest.head?, (c.isDigit || c == '.') = false := by
    intro c hc
    simpa using hrest c hc
  unfold dimension
  dsimp only
  rw [htext, Text.takeWhile_append_of_head hnumber' hrest',
    Text.dropWhile_append_of_head hnumber' hrest']

/-- A numeral stands for one value and one unit. -/
theorem Numeral.dimension_eq {text : String} {value : Float} {unit : Option String}
    (h : Numeral text.toList value unit) : dimension text = .dimension value unit := by
  generalize hcs : text.toList = cs at h
  cases h with
  | plain hnumber hvalue =>
    rw [← List.append_nil cs] at hcs
    rw [dimension_of_append hcs hnumber (by simp), decimal_iff.mp hvalue]
    rfl
  | @withUnit number rest c _ hnumber hvalue hc =>
    have hrest : ∀ d ∈ (c :: rest).head?, ¬ (d.isDigit ∨ d = '.') := by
      rintro _ ⟨⟩
      exact hc
    have hunit : String.ofList (c :: rest) ≠ "" := by simp
    rw [dimension_of_append hcs hnumber hrest, decimal_iff.mp hvalue, Expr.withUnit, if_neg hunit]

/-- Every text is a numeral: where the digits and points in front are no decimal, it is of zero. -/
theorem exists_numeral (cs : List Char) : ∃ value unit, Numeral cs value unit := by
  have hnumber : ∀ c ∈ cs.takeWhile (fun c => c.isDigit || c == '.'), c.isDigit ∨ c = '.' := by
    intro c hc
    simpa using List.all_eq_true.mp List.all_takeWhile c hc
  have hsplit := List.takeWhile_append_dropWhile (p := fun c => c.isDigit || c == '.') (l := cs)
  cases hrest : cs.dropWhile (fun c => c.isDigit || c == '.') with
  | nil =>
    rw [hrest, List.append_nil] at hsplit
    rw [← hsplit]
    exact ⟨_, _, .plain hnumber (decimal_iff.mpr rfl)⟩
  | cons c rest =>
    have hc : ¬ (c.isDigit ∨ c = '.') := by
      have hhead := List.head_dropWhile_not (l := cs) (fun c => c.isDigit || c == '.')
        (by simp [hrest])
      simpa [hrest] using hhead
    rw [← hsplit, hrest]
    exact ⟨_, _, .withUnit hnumber (decimal_iff.mpr rfl) hc⟩

/-- A number token has the value and the unit that its characters say. -/
theorem atom_dimension {t : Lexeme} (ht : t.token = .number) : Atom [t] (dimension t.text) := by
  obtain ⟨value, unit, h⟩ := exists_numeral t.text.toList
  rw [h.dimension_eq]
  exact .number ht h

/-- A quoted text stands for what is between the quotes. -/
theorem Quoted.unquoted_eq {text : String} {inner : List Char} (h : Quoted text.toList inner) :
    unquoted text = String.ofList inner := by
  generalize hcs : text.toList = cs at h
  rw [unquoted, hcs]
  cases h with
  | between => rw [List.tail_cons, List.dropLast_concat]
  | short hlength =>
    have hnil : cs.tail.dropLast = [] := by
      rw [← List.length_eq_zero_iff, List.length_dropLast, List.length_tail]
      omega
    rw [hnil]

theorem exists_quoted (cs : List Char) : ∃ inner, Quoted cs inner := by
  cases cs with
  | nil => exact ⟨[], .short Nat.two_pos⟩
  | cons first rest =>
    rcases List.eq_nil_or_concat rest with rfl | ⟨inner, last, rfl⟩
    · exact ⟨[], .short Nat.one_lt_two⟩
    · rw [List.concat_eq_append]
      exact ⟨inner, .between⟩

/-- A string token stands for what is between its quotes. -/
theorem atom_unquoted {t : Lexeme} (ht : t.token = .doubleQuoted ∨ t.token = .singleQuoted) :
    Atom [t] (.literal (unquoted t.text)) := by
  obtain ⟨inner, h⟩ := exists_quoted t.text.toList
  rw [h.unquoted_eq]
  exact .string ht h

/-! ## The table of operators -/

theorem mem_infixes_iff {k : Nat} {t : Token} {op : BinaryOp} :
    (t, op) ∈ infixes k ↔ operator? t = some op ∧ level op = k ∧ k ≠ 0 := by
  constructor
  · have table : ∀ p ∈ infixes k, operator? p.1 = some p.2 ∧ level p.2 = k ∧ k ≠ 0 := by
      unfold infixes
      split
      case h_7 => exact fun _ h => nomatch h
      all_goals decide
    exact table (t, op)
  · rintro ⟨h, rfl, hk⟩
    cases t <;> cases h
    case mpr.starStar.refl => exact absurd rfl hk
    all_goals decide

/-- An operator of a level is at the front if the table of the level has its token. -/
theorem operatorAt?_eq_some_iff {k : Nat} {ts : List Lexeme} {op : BinaryOp} {after : List Lexeme} :
    operatorAt? (k + 1) ts = some (op, after) ↔
      ∃ t, ts = t :: after ∧ (t.token, op) ∈ infixes (k + 1) := by
  cases ts with
  | nil => exact ⟨nofun, fun ⟨_, h, _⟩ => nomatch h⟩
  | cons t rest =>
    simp only [mem_infixes_iff, operatorAt?]
    constructor
    · intro h
      split at h
      · rename_i op' hop
        split at h
        · rename_i hlevel
          cases h
          exact ⟨t, rfl, hop, hlevel, Nat.succ_ne_zero k⟩
        · cases h
      · cases h
    · rintro ⟨_, ⟨⟩, hop, hlevel, -⟩
      rw [hop]
      exact if_pos hlevel

end Stencil.Parser
