import Stencil.Node.Agreement
import Stencil.Proofs.ParserGrammar
import Stencil.Proofs.TokenBoundaries

/-!
# Expressions are read back from their text

An expression is written with parentheses around every operand that has operators itself, and with
blanks around every operator. The blanks keep the tokens of the operands apart, and the parentheses
make each operand a phrase of the tightest kind, whatever the operator. The parts of a conditional have
none, so that a conditional in the place of a condition is read another way.

* `Spells` — in front of a border, a text is read as a phrase with a value
* `Spells.infixed`, `Spells.choice`, … — one lemma for each form of an expression
* `Expr.Printable.spells` — what all forms together amount to
-/

namespace Stencil

/-! ## What can be read back -/

/-- Whether a text is a single name. -/
def IsIdent (name : String) : Prop := name.toList ∈ Token.pattern .ident

instance (name : String) : Decidable (IsIdent name) :=
  decidable_of_iff ((name.toList.head?.any Token.isIdentStart &&
    name.toList.tail.all Token.isIdentRest) = true) (by
      rw [IsIdent, Token.mem_ident]
      cases name.toList <;> simp)

/-- Targets with names. The text of a tag is read in lower case. -/
def Target.Printable : Target → Prop
  | .id name | .className name => IsIdent name
  | .tag name => IsIdent name ∧ Text.lower name = name

instance (target : Target) : Decidable target.Printable :=
  match target with
  | .id name | .className name => inferInstanceAs (Decidable (IsIdent name))
  | .tag name => inferInstanceAs (Decidable (IsIdent name ∧ Text.lower name = name))

/-- Expressions of names and of numbers that are read back as the same, each on its own. Literals are
left out: their text need not be a value. -/
def Expr.Printable (same : Expr → Expr → Prop) : Expr → Prop
  | .literal _ => False
  | .dimension value unit =>
    ∃ e, Expr.parse (Expr.dimension value unit).text = .ok e ∧ same e (.dimension value unit)
  | .property selector name => IsIdent name ∧ ∀ s ∈ selector, s.target.Printable
  | .var group name => IsIdent group ∧ IsIdent name
  | .binary _ left right => left.Printable same ∧ right.Printable same
  | .conditional cond yes no => (∀ c y n, cond ≠ .conditional c y n) ∧
    cond.Printable same ∧ yes.Printable same ∧ no.Printable same

theorem Expr.printable_property {same : Expr → Expr → Prop} {selector : Option Selector}
    {name : String} : (Expr.property selector name).Printable same ↔
      IsIdent name ∧ ∀ s ∈ selector, s.target.Printable := Iff.rfl

namespace Parser

/-! ## Phrases -/

section Phrases

variable {p : Phrase} {ts ls rs : List Lexeme} {t : Lexeme} {e left right : Expr}
  {index : Option UInt64} {name : String}

theorem Suffix.shift (h : Suffix ts index name) (n : Nat) :
    Suffix (ts.map (Lexeme.shift n)) index name := by
  cases h with
  | plain hd hp => exact .plain hd hp
  | indexed ho hn hi hc hd hp => exact .indexed ho hn hi hc hd hp

/-- Where tokens stand does not matter to what they say. -/
theorem Atom.shift (h : Atom ts e) (n : Nat) : Atom (ts.map (Lexeme.shift n)) e := by
  cases h with
  | number ht hnumeral => exact .number ht hnumeral
  | string ht hquoted => exact .string ht hquoted
  | ofGroup hg ho hv hc => exact .ofGroup hg ho hv hc
  | byId hh hn hs => exact .byId hh hn (hs.shift n)
  | byClass hd hn hs => exact .byClass hd hn (hs.shift n)
  | byTag hn hs => exact .byTag hn (hs.shift n)
  | bare hn => exact .bare hn

/-- Where its tokens stand makes no difference to a phrase. -/
theorem Derives.shift (h : Derives p ts e) (n : Nat) : Derives p (ts.map (Lexeme.shift n)) e := by
  induction h with
  | loosest _ ih => exact .loosest ih
  | choice _ hq _ hc _ ihc ihy ihn =>
    simp only [List.map_append, List.map_cons]
    exact .choice ihc hq ihy hc ihn
  | tighter _ ih => exact .tighter ih
  | infixed _ ht _ ihl ihr =>
    rw [List.map_append, List.map_cons]
    exact .infixed ihl ht ihr
  | tightest _ ih => exact .tightest ih
  | base _ ih => exact .base ih
  | raised _ ht _ ihb ihe =>
    rw [List.map_append, List.map_cons]
    exact .raised ihb ht ihe
  | operand _ ih => exact .operand ih
  | negative ht _ ih => exact .negative ht ih
  | subtracted ht _ hne ih => exact .subtracted ht ih hne
  | atom ha => exact .atom (ha.shift n)
  | parenthesised ho _ hc ih =>
    rw [List.map_cons, List.map_append]
    exact .parenthesised ho ih hc

/-- A phrase whose value is a number has no operators but minus signs. -/
theorem Derives.unary_of_dimension {value : Float} {unit : Option String}
    (h : Derives p ts (.dimension value unit)) : Derives .unary ts (.dimension value unit) := by
  generalize he : Expr.dimension value unit = e at h
  induction h with
  | loosest _ ih => exact ih he
  | tighter _ ih => exact ih he
  | tightest _ ih => exact ih he
  | base h => exact h
  | operand h => exact .operand h
  | negative ht h => exact .negative ht h
  | atom ha => exact .operand (.atom ha)
  | parenthesised ho h hc => exact .operand (.parenthesised ho h hc)
  | choice => cases he
  | infixed => cases he
  | raised => cases he
  | subtracted => cases he

theorem level_le (op : BinaryOp) : level op ≤ 6 := by cases op <;> decide

/-- There is one operator on the tightest level. -/
theorem operator_of_level_eq_zero {t : Token} {op : BinaryOp} (ht : operator? t = some op)
    (hlevel : level op = 0) : t = .starStar ∧ op = .pow := by
  cases t <;> cases ht
  case starStar.refl => exact ⟨rfl, rfl⟩
  all_goals cases hlevel

/-- Two operands of the tightest kind make a phrase with any operator between them. -/
theorem derives_infixed {op : BinaryOp} (ht : operator? t.token = some op)
    (hleft : Derives .unary ls left) (hright : Derives .unary rs right) :
    Derives (.binary 6) (ls ++ t :: rs) (.binary op left right) := by
  refine Derives.binary_mono ?_ (level_le op)
  cases hlevel : level op with
  | zero =>
    obtain ⟨hstar, rfl⟩ := operator_of_level_eq_zero ht hlevel
    exact .tightest (.raised hleft hstar (.base hright))
  | succ k =>
    have hmem := mem_infixes_iff.mpr ⟨ht, hlevel, Nat.succ_ne_zero k⟩
    exact .infixed (hleft.binary (k + 1)) hmem (hright.binary k)

end Phrases

/-! ## Texts -/

/-- In front of a border, the text is read as a phrase of a kind, with a value. -/
def Spells (text : String) (p : Phrase) (e : Expr) : Prop :=
  ∀ n rest, Border rest →
    ∃ ls m, Scan n (text.toList ++ rest) ls m rest ∧ Derives p ls e

section Spells

variable {a b c name group : String} {e left right cond yes no : Expr}

/-- An operator between blanks is read as one token. -/
theorem scan_operator (op : BinaryOp) (n : Nat) (rest : List Char) :
    ∃ l m, Scan n (' ' :: (op.symbol.toList ++ ' ' :: rest)) [l] m rest ∧
      operator? l.token = some op := by
  cases op
  all_goals exact ⟨_, _, Scan.spaced _ (Scan.token rfl _), rfl⟩

/-- A mark of one character between two blanks. -/
theorem scan_spaced_mark {c : Char} {t : Token}
    (h : ∀ rest, Token.next? (c :: rest) = some (t, [c], rest)) (n : Nat) (rest : List Char) :
    ∃ l m, Scan n (' ' :: c :: ' ' :: rest) [l] m rest ∧ l.token = t :=
  ⟨_, _, Scan.spaced [c] (Scan.mark h _ _), rfl⟩

theorem Spells.binary (h : Spells a .unary e) : Spells a (.binary 6) e := by
  intro n rest hrest
  obtain ⟨ls, m, hscan, hderives⟩ := h n rest hrest
  exact ⟨ls, m, hscan, hderives.binary 6⟩

theorem Spells.conditional (h : Spells a (.binary 6) e) : Spells a .conditional e := by
  intro n rest hrest
  obtain ⟨ls, m, hscan, hderives⟩ := h n rest hrest
  exact ⟨ls, m, hscan, .loosest hderives⟩

/-- In parentheses, a conditional is as tight as a single operand. -/
theorem Spells.parenthesised (h : Spells a .conditional e) : Spells ("(" ++ a ++ ")") .unary e := by
  intro n rest hrest
  have htext : ("(" ++ a ++ ")").toList ++ rest = '(' :: (a.toList ++ ')' :: rest) := by simp
  have hopen := Scan.mark (c := '(') (fun _ => rfl) n (a.toList ++ ')' :: rest)
  obtain ⟨ls, m, hscan, hderives⟩ := h _ _ (border_paren rest)
  have hclose := Scan.mark (c := ')') (fun _ => rfl) m rest
  rw [htext]
  exact ⟨_, _, hopen.trans (hscan.trans hclose), .operand (.parenthesised rfl hderives rfl)⟩

/-- Operands that are tight need no parentheses, whatever the operator. -/
theorem Spells.infixed {op : BinaryOp} (hleft : Spells a .unary left)
    (hright : Spells b .unary right) :
    Spells (a ++ " " ++ op.symbol ++ " " ++ b) (.binary 6) (.binary op left right) := by
  intro n rest hrest
  have htext : (a ++ " " ++ op.symbol ++ " " ++ b).toList ++ rest
      = a.toList ++ ' ' :: (op.symbol.toList ++ ' ' :: (b.toList ++ rest)) := by simp
  obtain ⟨ls, m₁, hls, hleft⟩ := hleft n _ (border_blank _)
  obtain ⟨l, m₂, hop, htoken⟩ := scan_operator op m₁ (b.toList ++ rest)
  obtain ⟨rs, m₃, hrs, hright⟩ := hright m₂ rest hrest
  rw [htext]
  exact ⟨ls ++ l :: rs, m₃, hls.trans (hop.trans hrs), derives_infixed htoken hleft hright⟩

/-- The branches may be conditionals, and the condition may not. -/
theorem Spells.choice (hcond : Spells a (.binary 6) cond) (hyes : Spells b .conditional yes)
    (hno : Spells c .conditional no) :
    Spells (a ++ " ? " ++ b ++ " : " ++ c) .conditional (.conditional cond yes no) := by
  intro n rest hrest
  have htext : (a ++ " ? " ++ b ++ " : " ++ c).toList ++ rest
      = a.toList ++ ' ' :: '?' :: ' ' :: (b.toList ++ ' ' :: ':' :: ' ' :: (c.toList ++ rest)) := by
    simp
  obtain ⟨cs, m₁, hcs, hcond⟩ := hcond n _ (border_blank _)
  obtain ⟨q, m₂, hq, hquestion⟩ := scan_spaced_mark (c := '?') (fun _ => rfl) m₁
    (b.toList ++ ' ' :: ':' :: ' ' :: (c.toList ++ rest))
  obtain ⟨ys, m₃, hys, hyes⟩ := hyes m₂ _ (border_blank _)
  obtain ⟨d, m₄, hd, hcolon⟩ := scan_spaced_mark (c := ':') (fun _ => rfl) m₃ (c.toList ++ rest)
  obtain ⟨ns, m₅, hns, hno⟩ := hno m₄ rest hrest
  rw [htext]
  refine ⟨cs ++ q :: (ys ++ d :: ns), m₅, ?_, .choice hcond hquestion hyes hcolon hno⟩
  exact hcs.trans (hq.trans (hys.trans (hd.trans hns)))

theorem spells_bare (h : IsIdent name) : Spells name .unary (.property none name) := by
  intro n rest hrest
  exact ⟨_, _, Scan.ident h hrest.not_isIdentRest n, .operand (.atom (.bare rfl))⟩

theorem spells_var (hgroup : IsIdent group) (hname : IsIdent name) :
    Spells (group ++ "(" ++ name ++ ")") .unary (.var group name) := by
  intro n rest hrest
  have htext : (group ++ "(" ++ name ++ ")").toList ++ rest
      = group.toList ++ '(' :: (name.toList ++ ')' :: rest) := by simp
  rw [htext]
  refine ⟨_, _, (Scan.ident_before hgroup rfl _ _).trans ((Scan.mark (fun _ => rfl) _ _).trans
    ((Scan.ident_before hname rfl _ _).trans (Scan.mark (fun _ => rfl) _ _))), ?_⟩
  exact .operand (.atom (.ofGroup rfl rfl rfl rfl))

end Spells

/-! ## Selectors -/

theorem digits_mem_run (n : Nat) : Text.digits n ∈ Pattern.run Char.isDigit :=
  Pattern.mem_run.mpr ⟨Nat.toDigits_ne_nil,
    fun _ hc => Nat.isDigit_of_mem_toDigits (by decide) (by decide) hc⟩

/-- The text of an index. -/
def indexChars : Option UInt64 → List Char
  | none => []
  | some i => '[' :: (Text.digits i.toNat ++ [']'])

theorem selector_text_toList (s : Selector) :
    s.text.toList = s.target.text.toList ++ indexChars s.index := by
  cases s with
  | mk target index => cases index <;> simp [Selector.text, Selector.indexText, indexChars]

section Selectors

variable {name property : String} {rest : List Char}

/-- An index and a property behind a target, up to a border. -/
theorem scan_suffix (index : Option UInt64) (hproperty : IsIdent property) (hrest : Border rest)
    (n : Nat) : ∃ ls m, Scan n (indexChars index ++ '.' :: (property.toList ++ rest)) ls m rest ∧
      Suffix ls index property := by
  have hdot (m : Nat) := (Scan.mark (c := '.') (fun _ => rfl) m _).trans
    (Scan.ident hproperty hrest.not_isIdentRest _)
  cases index with
  | none => exact ⟨_, _, hdot n, .plain rfl rfl⟩
  | some i =>
    have htext : indexChars (some i) ++ '.' :: (property.toList ++ rest)
        = '[' :: (Text.digits i.toNat ++ ']' :: '.' :: (property.toList ++ rest)) := by
      simp [indexChars]
    have hnumber := Token.next?_digits (digits_mem_run i.toNat) ('.' :: (property.toList ++ rest))
    rw [htext]
    refine ⟨_, _, (Scan.mark (fun _ => rfl) n _).trans ((Scan.token hnumber _).trans
      ((Scan.mark (fun _ => rfl) _ _).trans (hdot _))), .indexed rfl rfl ?_ rfl rfl rfl⟩
    rw [String.toList_ofList]
    exact ⟨[], _, rfl, Or.inl rfl, Text.denotes_digits i⟩

/-- A name in front of an index or a property. -/
theorem scan_selected (hname : IsIdent name) (hproperty : IsIdent property) (hrest : Border rest)
    (index : Option UInt64) (n : Nat) :
    ∃ l ls m, Scan n (name.toList ++ (indexChars index ++ '.' :: (property.toList ++ rest)))
      (l :: ls) m rest ∧ l.token = .ident ∧ l.text = name ∧ Suffix ls index property := by
  have hend : ∀ c ∈ (indexChars index ++ '.' :: (property.toList ++ rest)).head?,
      Token.isIdentRest c = false := by
    cases index with
    | none => rintro _ ⟨⟩; decide
    | some i => rintro _ ⟨⟩; decide
  obtain ⟨ls, m, hscan, hsuffix⟩ := scan_suffix index hproperty hrest (n + name.utf8ByteSize)
  exact ⟨_, ls, m, (Scan.ident hname hend n).trans hscan, rfl, rfl, hsuffix⟩

/-- A name with a mark in front of it. -/
theorem scan_marked {c : Char} {t : Token}
    (hmark : ∀ rest, Token.next? (c :: rest) = some (t, [c], rest)) (hname : IsIdent name)
    (hproperty : IsIdent property) (hrest : Border rest) (index : Option UInt64) (n : Nat) :
    ∃ q l ls m, Scan n (c :: (name.toList ++ (indexChars index ++ '.' :: (property.toList ++ rest))))
      (q :: l :: ls) m rest ∧ q.token = t ∧ l.token = .ident ∧ l.text = name ∧
        Suffix ls index property := by
  obtain ⟨l, ls, m, hscan, hl⟩ := scan_selected hname hproperty hrest index _
  exact ⟨_, l, ls, m, (Scan.mark hmark n _).trans hscan, rfl, hl⟩

/-- The text of a selected property is read back as it. -/
theorem spells_selected {s : Selector} (htarget : s.target.Printable) (hproperty : IsIdent property) :
    Spells (s.text ++ "." ++ property) .unary (.property (some s) property) := by
  intro n rest hrest
  have htext : (s.text ++ "." ++ property).toList ++ rest
      = s.target.text.toList ++ (indexChars s.index ++ '.' :: (property.toList ++ rest)) := by
    simp [selector_text_toList]
  rw [htext]
  obtain ⟨target, index⟩ := s
  cases target with
  | id name =>
    obtain ⟨q, l, ls, m, hscan, hhash, htoken, rfl, hsuffix⟩ :=
      scan_marked (c := '#') (fun _ => rfl) htarget hproperty hrest index n
    refine ⟨q :: l :: ls, m, ?_, .operand (.atom (.byId hhash htoken hsuffix))⟩
    simpa [Target.text] using hscan
  | className name =>
    obtain ⟨q, l, ls, m, hscan, hdot, htoken, rfl, hsuffix⟩ :=
      scan_marked (c := '.') (fun _ => rfl) htarget hproperty hrest index n
    refine ⟨q :: l :: ls, m, ?_, .operand (.atom (.byClass hdot htoken hsuffix))⟩
    simpa [Target.text] using hscan
  | tag name =>
    obtain ⟨hname, hlower⟩ := htarget
    obtain ⟨l, ls, m, hscan, htoken, rfl, hsuffix⟩ := scan_selected hname hproperty hrest index n
    have htag := Atom.byTag htoken hsuffix
    rw [← Text.lower, hlower] at htag
    exact ⟨l :: ls, m, hscan, .operand (.atom htag)⟩

end Selectors

/-! ## Whole texts -/

theorem Derives.ne_nil {ts : List Lexeme} {e : Expr} (h : Derives .conditional ts e) : ts ≠ [] := by
  rintro rfl
  have hread := complete_eq_ok_iff.mp (complete_eq_ok_iff_derives.mpr h)
  exact absurd hread.length_lt (Nat.lt_irrefl 0)

/-- A text is read if its tokens are, and if the grammar derives them. -/
theorem parse_eq_ok_iff {s : String} {e : Expr} :
    Expr.parse s = .ok e ↔ ∃ ts, tokenize s = .ok ts ∧ Derives .conditional ts e := by
  unfold Expr.parse
  constructor
  · intro h
    split at h
    · cases h
    · cases h
    · rename_i ts _ hts
      exact ⟨ts, hts, complete_eq_ok_iff_derives.mp h⟩
  · rintro ⟨ts, hts, h⟩
    rw [hts]
    obtain ⟨t, ts, rfl⟩ := List.exists_cons_of_ne_nil h.ne_nil
    exact complete_eq_ok_iff_derives.mpr h

theorem Spells.parse {text : String} {e : Expr} (h : Spells text .conditional e) :
    Expr.parse text = .ok e := by
  obtain ⟨ls, m, hscan, hderives⟩ := h 0 [] border_nil
  rw [List.append_nil] at hscan
  exact parse_eq_ok_iff.mpr ⟨ls, hscan.tokenizeFrom_eq_ok, hderives⟩

theorem spells_dimension {text : String} {value : Float} {unit : Option String}
    (h : Expr.parse text = .ok (.dimension value unit)) :
    Spells text .unary (.dimension value unit) := by
  intro n rest hrest
  obtain ⟨ts, hts, hderives⟩ := parse_eq_ok_iff.mp h
  obtain ⟨m, hscan⟩ := Scan.of_tokenizeFrom hts hrest n
  exact ⟨ts.map (Lexeme.shift n), m, hscan, (hderives.shift n).unary_of_dimension⟩

end Parser

namespace Expr

open Stencil.Parser (Phrase Spells)

variable {same : Expr → Expr → Prop} {e : Expr}

/-- What it takes of a sameness of numbers to be one of expressions: it goes by their parts. -/
structure ByParts (same : Expr → Expr → Prop) : Prop where
  dimension : ∀ {e value unit}, same e (.dimension value unit) →
    ∃ value' unit', e = .dimension value' unit'
  property : ∀ selector name, same (.property selector name) (.property selector name)
  var : ∀ group name, same (.var group name) (.var group name)
  binary : ∀ op {left left' right right'}, same left left' → same right right' →
    same (.binary op left right) (.binary op left' right')
  conditional : ∀ {cond cond' yes yes' no no'}, same cond cond' → same yes yes' → same no no' →
    same (.conditional cond yes no) (.conditional cond' yes' no')

theorem byParts_eq : ByParts (· = ·) where
  dimension := by
    rintro _ value unit rfl
    exact ⟨value, unit, rfl⟩
  property _ _ := rfl
  var _ _ := rfl
  binary := by
    rintro op _ _ _ _ rfl rfl
    rfl
  conditional := by
    rintro _ _ _ _ _ _ rfl rfl rfl
    rfl

theorem byParts_agrees : ByParts (fun e e' => e.agrees e' = true) where
  dimension := by
    intro e value unit h
    cases e with
    | dimension value' unit' => exact ⟨value', unit', rfl⟩
    | _ => cases h
  property _ _ := by simp [agrees]
  var _ _ := by simp [agrees]
  binary := by
    intro op left left' right right' hleft hright
    simp [agrees, hleft, hright]
  conditional := by
    intro cond cond' yes yes' no no' hcond hyes hno
    simp [agrees, hcond, hyes, hno]

/-- The kind of phrase that the text of an expression is. -/
def phrase : Expr → Phrase
  | .conditional .. => .conditional
  | .binary .. => .binary 6
  | _ => .unary

theorem spells_conditional {text : String} {e' : Expr} (h : Spells text e.phrase e') :
    Spells text .conditional e' := by
  cases e with
  | conditional cond yes no => exact h
  | binary op left right => exact h.conditional
  | _ => exact h.binary.conditional

/-- An operand is a phrase of the tightest kind, in parentheses if it would not be one without. -/
theorem spells_operand {e' : Expr} (h : Spells e.text e.phrase e') :
    Spells (if e.isCompound then "(" ++ e.text ++ ")" else e.text) .unary e' := by
  cases e with
  | binary op left right => exact h.conditional.parenthesised
  | conditional cond yes no => exact h.parenthesised
  | _ => exact h

/-- Each printable expression spells one that is the same, part by part. The induction is on the
expression. -/
theorem Printable.spells (hsame : ByParts same) (h : e.Printable same) :
    ∃ e', Spells e.text e.phrase e' ∧ same e' e := by
  induction e with
  | literal text => exact h.elim
  | dimension value unit =>
    obtain ⟨e, hparse, he⟩ := h
    obtain ⟨value', unit', rfl⟩ := hsame.dimension he
    exact ⟨_, Parser.spells_dimension hparse, he⟩
  | property selector name =>
    refine ⟨_, ?_, hsame.property selector name⟩
    obtain ⟨hname, hselector⟩ := h
    cases selector with
    | none => exact Parser.spells_bare hname
    | some s => exact Parser.spells_selected (hselector s rfl) hname
  | var group name => exact ⟨_, Parser.spells_var h.1 h.2, hsame.var group name⟩
  | binary op left right ihl ihr =>
    obtain ⟨left', hleft, hsl⟩ := ihl h.1
    obtain ⟨right', hright, hsr⟩ := ihr h.2
    exact ⟨_, (spells_operand hleft).infixed (spells_operand hright), hsame.binary op hsl hsr⟩
  | conditional cond yes no ihc ihy ihn =>
    obtain ⟨hne, hcond, hyes, hno⟩ := h
    obtain ⟨cond', hcond, hsc⟩ := ihc hcond
    obtain ⟨yes', hyes, hsy⟩ := ihy hyes
    obtain ⟨no', hno, hsn⟩ := ihn hno
    have hloose : Spells cond.text (.binary 6) cond' := by
      cases cond with
      | conditional c y n => exact absurd rfl (hne c y n)
      | binary op left right => exact hcond
      | _ => exact hcond.binary
    exact ⟨_, hloose.choice (spells_conditional hyes) (spells_conditional hno),
      hsame.conditional hsc hsy hsn⟩

/-- **Expressions are read back from their text**: as they are if their numbers are, and otherwise up
to the sign of a zero. -/
theorem parse_text (e : Expr) :
    (e.Printable (· = ·) → Expr.parse e.text = .ok e) ∧
      (e.Printable (fun d d' => d.agrees d' = true) →
        ∃ e', Expr.parse e.text = .ok e' ∧ e'.agrees e = true) := by
  constructor
  · intro h
    obtain ⟨e', hspells, rfl⟩ := h.spells byParts_eq
    exact (spells_conditional hspells).parse
  · intro h
    obtain ⟨e', hspells, hagrees⟩ := h.spells byParts_agrees
    exact ⟨e', (spells_conditional hspells).parse, hagrees⟩

/-- The value `(max-width - -1.5px) > .side-bar[3].width ? wide ? Theme(gap) : 50% : li.height ** 2`. -/
def fallback : Expr :=
  .conditional
    (.binary .gt (.binary .sub (.property none "max-width") (.dimension (-1.5) (some "px")))
      (.property (some ⟨.className "side-bar", some 3⟩) "width"))
    (.conditional (.property none "wide") (.var "Theme" "gap") (.dimension 50 (some "%")))
    (.binary .pow (.property (some ⟨.tag "li", none⟩) "height") (.dimension 2 none))

/-- The value `#box.top * 0`, with a negative zero. -/
def vanishing : Expr :=
  .binary .mul (.property (some ⟨.id "box", none⟩) "top") (.dimension (-0.0) none)

theorem parse_text_fallback_vanishing :
    (fallback.Printable (· = ·) ∧ parse fallback.text = .ok fallback) ∧
      (vanishing.Printable (fun d d' => d.agrees d' = true) ∧
        ∃ e', parse vanishing.text = .ok e' ∧ e'.agrees vanishing = true) := by
  have hpixels : parse (dimension (-1.5) (some "px")).text = .ok (.dimension (-1.5) (some "px")) := by
    decide +kernel
  have hpercent : parse (dimension 50 (some "%")).text = .ok (.dimension 50 (some "%")) := by
    decide +kernel
  have htwo : parse (dimension 2 none).text = .ok (.dimension 2 none) := by decide +kernel
  have hzero : parse (dimension (-0.0) none).text = .ok (.dimension 0 none) := by decide +kernel
  have hagrees : (dimension 0 none).agrees (.dimension (-0.0) none) = true := by decide +kernel
  have hfallback : fallback.Printable (· = ·) := by
    refine ⟨by simp, ⟨⟨?_, _, hpixels, rfl⟩, ?_⟩, ⟨by simp, ?_, ⟨by decide +kernel, by decide +kernel⟩,
      _, hpercent, rfl⟩, ?_, _, htwo, rfl⟩
    all_goals exact printable_property.mpr (by decide +kernel)
  have hvanishing : vanishing.Printable (fun d d' => d.agrees d' = true) :=
    ⟨printable_property.mpr (by decide +kernel), _, hzero, hagrees⟩
  exact ⟨⟨hfallback, (parse_text fallback).1 hfallback⟩,
    hvanishing, (parse_text vanishing).2 hvanishing⟩

end Expr

end Stencil
