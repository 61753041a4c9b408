import Mathlib
import Stencil.Proofs.Names
import Stencil.Proofs.PrintedExpressions
import Stencil.Proofs.Requests
import Stencil.Proofs.Tokenization

/-!
# What the text of an expression stands for

Operands with operators of their own are written in parentheses, the parts of a choice are not. So
`(a ? b : c) ? d : e` is written in the same way as `a ? b : c ? d : e`, and is read back as the latter.
This is the only thing that is lost: of expressions that consist of names, two have the same text
exactly if they are the same once every choice in the place of a condition is moved out of it.

* `Expr.regroup` — an expression as its text is read back
* `Expr.Grouped` — no condition is a choice itself, so that nothing is moved
* `Expr.Named` — expressions of names, which is what reading gives if there are no literals and numbers
* `Expr.Named.text_eq_iff` — when two expressions have the same text
-/

namespace Stencil

/-! ## Names in lower case -/

theorem isIdentStart_toLower {c : Char} (h : Token.isIdentStart c = true) :
    Token.isIdentStart c.toLower = true := by
  rcases Text.toLower_eq_or_isAlpha c with hsame | ⟨-, halpha⟩
  · rw [hsame]
    exact h
  · rw [Token.isIdentStart, halpha, Bool.true_or]

theorem isIdentRest_toLower {c : Char} (h : Token.isIdentRest c = true) :
    Token.isIdentRest c.toLower = true := by
  rcases Text.toLower_eq_or_isAlpha c with hsame | ⟨-, halpha⟩
  · rw [hsame]
    exact h
  · rw [Token.isIdentRest, Char.isAlphanum, halpha, Bool.true_or, Bool.true_or, Bool.true_or]

/-- A tag is looked up in small letters, and these are a name as well. -/
theorem IsIdent.lower {name : String} (h : IsIdent name) : IsIdent (Text.lower name) := by
  obtain ⟨c, rest, hname, hc, hrest⟩ := Token.mem_ident.mp h
  refine Token.mem_ident.mpr ⟨c.toLower, rest.map Char.toLower, ?_, isIdentStart_toLower hc, ?_⟩
  · rw [Text.lower_toList, hname, List.map_cons]
  · simp only [List.forall_mem_map]
    exact fun d hd => isIdentRest_toLower (hrest d hd)

namespace Expr

variable {e e' cond yes no left right : Expr} {op : BinaryOp}

/-! ## All parts of an expression -/

theorem forall_mem_walk_binary {P : Expr → Prop} :
    (∀ part ∈ (binary op left right).walk, P part) ↔
      P (binary op left right) ∧ (∀ part ∈ left.walk, P part) ∧ ∀ part ∈ right.walk, P part := by
  simp only [walk, List.forall_mem_cons, List.forall_mem_append]

theorem forall_mem_walk_conditional {P : Expr → Prop} :
    (∀ part ∈ (conditional cond yes no).walk, P part) ↔
      P (conditional cond yes no) ∧ (∀ part ∈ cond.walk, P part) ∧ (∀ part ∈ yes.walk, P part) ∧
        ∀ part ∈ no.walk, P part := by
  simp only [walk, List.forall_mem_cons, List.forall_mem_append, and_assoc]

/-! ## Expressions of names -/

/-- Whether an expression is a literal or a number. -/
def isConstant : Expr → Bool
  | .literal _ | .dimension .. => true
  | _ => false

/-- No literal and no number occurs in the expression. -/
def NamesOnly (e : Expr) : Prop := ∀ part ∈ e.walk, part.isConstant = false

instance : Decidable e.NamesOnly := inferInstanceAs (Decidable (∀ part ∈ e.walk, _))

theorem namesOnly_binary :
    (binary op left right).NamesOnly ↔ left.NamesOnly ∧ right.NamesOnly :=
  forall_mem_walk_binary.trans (and_iff_right rfl)

theorem namesOnly_conditional :
    (conditional cond yes no).NamesOnly ↔ cond.NamesOnly ∧ yes.NamesOnly ∧ no.NamesOnly :=
  forall_mem_walk_conditional.trans (and_iff_right rfl)

/-- An expression is a part of itself. -/
theorem NamesOnly.isConstant_eq_false (h : e.NamesOnly) : e.isConstant = false :=
  h e (self_mem_walk e)

/-- Expressions of names that are read back as they are. -/
def Named : Expr → Prop
  | .literal _ | .dimension .. => False
  | .property selector name => IsIdent name ∧ ∀ s ∈ selector, s.target.Printable
  | .var group name => IsIdent group ∧ IsIdent name
  | .binary _ left right => left.Named ∧ right.Named
  | .conditional cond yes no => cond.Named ∧ yes.Named ∧ no.Named

/-! ## Choices in the place of a condition -/

/-- Whether an expression is a choice whose condition is a choice. -/
def choosesByChoice : Expr → Bool
  | .conditional (.conditional ..) _ _ => true
  | _ => false

/-- No condition in the expression is a choice itself. -/
def Grouped (e : Expr) : Prop := ∀ part ∈ e.walk, part.choosesByChoice = false

instance : Decidable e.Grouped := inferInstanceAs (Decidable (∀ part ∈ e.walk, _))

theorem grouped_binary : (binary op left right).Grouped ↔ left.Grouped ∧ right.Grouped :=
  forall_mem_walk_binary.trans (and_iff_right rfl)

theorem grouped_conditional : (conditional cond yes no).Grouped ↔
    (∀ c y n, cond ≠ conditional c y n) ∧ cond.Grouped ∧ yes.Grouped ∧ no.Grouped := by
  have hcond : (conditional cond yes no).choosesByChoice = false ↔
      ∀ c y n, cond ≠ conditional c y n := by
    cases cond <;> simp [choosesByChoice]
  rw [Grouped, forall_mem_walk_conditional, hcond]
  rfl

/-- The choice with a condition, as it is read back: of a condition that is a choice itself, the last
part becomes the condition. -/
def choose : Expr → Expr → Expr → Expr
  | .conditional cond yes' no', yes, no => .conditional cond yes' (choose no' yes no)
  | cond, yes, no => .conditional cond yes no

/-- An expression as its text is read back. -/
def regroup : Expr → Expr
  | .binary op left right => .binary op left.regroup right.regroup
  | .conditional cond yes no => choose cond.regroup yes.regroup no.regroup
  | e => e

theorem choose_of_ne (h : ∀ c y n, cond ≠ conditional c y n) (yes no : Expr) :
    choose cond yes no = conditional cond yes no := by
  cases cond with
  | conditional c y n => exact absurd rfl (h c y n)
  | _ => rfl

/-- The text of a choice does not show where the condition ends. -/
theorem text_choose (cond yes no : Expr) :
    (choose cond yes no).text = cond.text ++ " ? " ++ yes.text ++ " : " ++ no.text := by
  induction cond with
  | conditional c y n _ _ ih =>
    rw [choose, text, ih, text]
    simp only [String.append_assoc]
  | _ => rfl

theorem isCompound_choose (cond yes no : Expr) : (choose cond yes no).isCompound = true := by
  cases cond <;> rfl

/-- Regrouping does not change where parentheses are put. -/
theorem isCompound_regroup (e : Expr) : e.regroup.isCompound = e.isCompound := by
  cases e with
  | conditional cond yes no => exact isCompound_choose _ _ _
  | _ => rfl

/-- Regrouping leaves the text as it is. -/
theorem text_regroup (e : Expr) : e.regroup.text = e.text := by
  induction e with
  | binary op left right ihl ihr =>
    simp only [regroup, text, isCompound_regroup, ihl, ihr]
  | conditional cond yes no ihc ihy ihn => rw [regroup, text_choose, ihc, ihy, ihn, text]
  | _ => rfl

theorem Grouped.choose (hcond : cond.Grouped) (hyes : yes.Grouped) (hno : no.Grouped) :
    (choose cond yes no).Grouped := by
  induction cond with
  | conditional c y n _ _ ih =>
    obtain ⟨hne, hc, hy, hn⟩ := grouped_conditional.mp hcond
    exact grouped_conditional.mpr ⟨hne, hc, hy, ih hn⟩
  | _ => exact grouped_conditional.mpr ⟨by simp, hcond, hyes, hno⟩

/-- After regrouping, no condition is a conditional. -/
theorem grouped_regroup (e : Expr) : e.regroup.Grouped := by
  induction e with
  | binary op left right ihl ihr => exact grouped_binary.mpr ⟨ihl, ihr⟩
  | conditional cond yes no ihc ihy ihn => exact ihc.choose ihy ihn
  | _ => simp [Grouped, regroup, walk, choosesByChoice]

/-- Where no condition is a choice, nothing is moved. -/
theorem Grouped.regroup_eq (h : e.Grouped) : e.regroup = e := by
  induction e with
  | binary op left right ihl ihr =>
    obtain ⟨hl, hr⟩ := grouped_binary.mp h
    rw [regroup, ihl hl, ihr hr]
  | conditional cond yes no ihc ihy ihn =>
    obtain ⟨hne, hc, hy, hn⟩ := grouped_conditional.mp h
    rw [regroup, ihc hc, ihy hy, ihn hn, choose_of_ne hne]
  | _ => rfl

theorem Named.choose (hcond : cond.Named) (hyes : yes.Named) (hno : no.Named) :
    (choose cond yes no).Named := by
  induction cond with
  | conditional c y n _ _ ih => exact ⟨hcond.1, hcond.2.1, ih hcond.2.2⟩
  | _ => exact ⟨hcond, hyes, hno⟩

/-- Regrouping uses the names that are there. -/
theorem Named.regroup (h : e.Named) : e.regroup.Named := by
  induction e with
  | binary op left right ihl ihr => exact ⟨ihl h.1, ihr h.2⟩
  | conditional cond yes no ihc ihy ihn => exact (ihc h.1).choose (ihy h.2.1) (ihn h.2.2)
  | _ => exact h

/-! ## Reading the text -/

/-- What is named and grouped can be printed and read back. -/
theorem Named.printable (h : e.Named) (hgrouped : e.Grouped) : e.Printable (· = ·) := by
  induction e with
  | literal text => exact h.elim
  | dimension value unit => exact h.elim
  | property selector name => exact h
  | var group name => exact h
  | binary op left right ihl ihr =>
    obtain ⟨hl, hr⟩ := grouped_binary.mp hgrouped
    exact ⟨ihl h.1 hl, ihr h.2 hr⟩
  | conditional cond yes no ihc ihy ihn =>
    obtain ⟨hne, hc, hy, hn⟩ := grouped_conditional.mp hgrouped
    exact ⟨hne, ihc h.1 hc, ihy h.2.1 hy, ihn h.2.2 hn⟩

/-- The text of an expression of names is read back as the expression with its choices moved. -/
theorem Named.parse_text_eq_regroup (h : e.Named) : parse e.text = .ok e.regroup := by
  obtain ⟨e', hspells, rfl⟩ := (h.regroup.printable (grouped_regroup e)).spells byParts_eq
  rw [← text_regroup]
  exact (spells_conditional hspells).parse

/-- Two expressions of names have the same text exactly if they are read back as the same. -/
theorem Named.text_eq_iff (h : e.Named) (h' : e'.Named) :
    e.text = e'.text ↔ e.regroup = e'.regroup := by
  constructor
  · intro htext
    have hparse := h.parse_text_eq_regroup
    rw [htext, h'.parse_text_eq_regroup] at hparse
    exact (Except.ok.inj hparse).symm
  · intro hregroup
    rw [← text_regroup e, hregroup, text_regroup]

/-- Grouped expressions have texts of their own. -/
theorem Named.eq_of_text_eq (h : e.Named) (h' : e'.Named) (hgrouped : e.Grouped)
    (hgrouped' : e'.Grouped) (htext : e.text = e'.text) : e = e' := by
  have hregroup := (h.text_eq_iff h').mp htext
  rw [hgrouped.regroup_eq, hgrouped'.regroup_eq] at hregroup
  exact hregroup

end Expr

/-! ## What reading gives -/

namespace Parser

variable {p : Phrase} {ts : List Lexeme} {e : Expr}

/-- The names among the tokens of a text are names. -/
theorem isIdent_of_tokenize {s : String} (h : tokenize s = .ok ts) :
    ∀ l ∈ ts, l.token = .ident → IsIdent l.text := by
  have hs : s = "" ++ String.ofList s.toList := by rw [String.ofList_toList, String.empty_append]
  rcases tokenizeFrom_splits hs rfl with ⟨ls, hok, hsplits⟩ | ⟨stop, ls, herror, -⟩
  · obtain rfl : ls = ts := Except.ok.inj (hok.symm.trans h)
    intro l hl htoken
    obtain ⟨before, after, -, -, hlongest⟩ := hsplits.longest l hl
    have hmem := hlongest.mem
    rw [htoken] at hmem
    exact hmem
  · exact absurd (herror.symm.trans h) (by simp)

theorem Suffix.isIdent {index : Option UInt64} {name : String} (h : Suffix ts index name)
    (hts : ∀ l ∈ ts, l.token = .ident → IsIdent l.text) : IsIdent name := by
  cases h with
  | plain _ hp => exact hts _ (by simp) hp
  | indexed _ _ _ _ _ hp => exact hts _ (by simp) hp

theorem Atom.named (h : Atom ts e) (hts : ∀ l ∈ ts, l.token = .ident → IsIdent l.text)
    (he : e.NamesOnly) : e.Named := by
  cases h with
  | number => exact absurd he.isConstant_eq_false (by simp [Expr.isConstant])
  | string => exact absurd he.isConstant_eq_false (by simp [Expr.isConstant])
  | ofGroup hg _ hv _ => exact ⟨hts _ (by simp) hg, hts _ (by simp) hv⟩
  | byId _ hn hs =>
    simp only [List.forall_mem_cons] at hts
    refine ⟨hs.isIdent hts.2.2, ?_⟩
    rintro _ ⟨⟩
    exact hts.2.1 hn
  | byClass _ hn hs =>
    simp only [List.forall_mem_cons] at hts
    refine ⟨hs.isIdent hts.2.2, ?_⟩
    rintro _ ⟨⟩
    exact hts.2.1 hn
  | byTag hn hs =>
    rw [List.forall_mem_cons] at hts
    refine ⟨hs.isIdent hts.2, ?_⟩
    rintro _ ⟨⟩
    exact ⟨(hts.1 hn).lower, Text.lower_lower _⟩
  | bare hn => exact ⟨hts _ (by simp) hn, by simp⟩

/-- Without literals and numbers, a phrase stands for an expression of names. -/
theorem Derives.named (h : Derives p ts e) (hts : ∀ l ∈ ts, l.token = .ident → IsIdent l.text)
    (he : e.NamesOnly) : e.Named := by
  induction h with
  | loosest _ ih => exact ih hts he
  | choice _ _ _ _ _ ihc ihy ihn =>
    simp only [List.forall_mem_append, List.forall_mem_cons] at hts
    obtain ⟨hc, hy, hn⟩ := Expr.namesOnly_conditional.mp he
    exact ⟨ihc hts.1 hc, ihy hts.2.2.1 hy, ihn hts.2.2.2.2 hn⟩
  | tighter _ ih => exact ih hts he
  | infixed _ _ _ ihl ihr =>
    simp only [List.forall_mem_append, List.forall_mem_cons] at hts
    obtain ⟨hl, hr⟩ := Expr.namesOnly_binary.mp he
    exact ⟨ihl hts.1 hl, ihr hts.2.2 hr⟩
  | tightest _ ih => exact ih hts he
  | base _ ih => exact ih hts he
  | raised _ _ _ ihb ihe =>
    simp only [List.forall_mem_append, List.forall_mem_cons] at hts
    obtain ⟨hl, hr⟩ := Expr.namesOnly_binary.mp he
    exact ⟨ihb hts.1 hl, ihe hts.2.2 hr⟩
  | operand _ ih => exact ih hts he
  | negative _ _ _ => exact absurd he.isConstant_eq_false (by simp [Expr.isConstant])
  | subtracted _ _ _ _ =>
    -- A minus sign in front of something else is a difference from the number zero.
    have hzero := (Expr.namesOnly_binary.mp he).1.isConstant_eq_false
    exact absurd hzero (by simp [Expr.isConstant])
  | atom ha => exact ha.named hts he
  | parenthesised _ _ _ ih =>
    simp only [List.forall_mem_cons, List.forall_mem_append] at hts
    exact ih hts.2.1 he

/-- What was read from a text is named, if it has nothing but names. -/
theorem named_of_parse {s : String} (h : Expr.parse s = .ok e) (he : e.NamesOnly) : e.Named := by
  obtain ⟨ts, htokens, hderives⟩ := parse_eq_ok_iff.mp h
  exact hderives.named (isIdent_of_tokenize htokens) he

end Parser

/-! ## Values of variables -/

/-- Every variable is bound to a value that was read from a text, without literals and numbers. -/
def Namespace.ReadValues (ns : Namespace) : Prop :=
  ∀ ⦃path name kind d bindings⦄, ns.getAt? path name kind = some d → d.body = .vars bindings →
    bindings.All fun e => (∃ s, Expr.parse s = .ok e) ∧ e.NamesOnly

theorem readValues_ofDocument {nodes : List Node}
    (h : ∀ d ∈ definitions nodes, ∀ bindings, d.body = .vars bindings →
      bindings.All fun e => (∃ s, Expr.parse s = .ok e) ∧ e.NamesOnly) :
    (Namespace.ofDocument nodes).value.ReadValues :=
  fun _ _ _ d bindings hd => h d (Namespace.mem_definitions_of_getAt? hd) bindings

namespace Expansion

open Checked

variable {site : Site} {table : Namespace} {e : Expr}

theorem variableValue_yields_named (htable : site.table.ReadValues)
    (henter : ∀ frame e, frame ∉ site.stack → e.Named →
      (site.enterWith frame (.value e)).Yields Expr.Named)
    (group name : String) : (site.variableValue group name).Yields Expr.Named := by
  refine Yields.bind (resolve_yields site .var group []) fun found hfound => ?_
  dsimp only
  cases hbody : found.definition.body with
  | vars bindings =>
    dsimp only
    cases hname : bindings.get? name with
    | none => exact Yields.throw _
    | some e =>
      have hentry := OrderedMap.get?_eq_some_iff.mp hname
      obtain ⟨⟨s, hparse⟩, hnames⟩ :=
        htable (Namespace.getAt?_of_lookup hfound) hbody _ hentry
      by_cases hcycle : Frame.ofVariable group name found.path ∈ site.stack
      · show (site.enterWith _ (.value e)).Yields Expr.Named
        rw [enterWith_of_mem hcycle]
        exact Yields.throw _
      · exact henter _ e hcycle (Parser.named_of_parse hparse hnames)
  | _ => exact Yields.throw _

/-- The values that replace variables are named, too, so that the result is. -/
theorem substitute_yields_named
    (hvalue : ∀ group name, (site.variableValue group name).Yields Expr.Named) (h : e.Named) :
    (site.substitute e).Yields Expr.Named := by
  induction e with
  | literal text => exact h.elim
  | dimension value unit => exact h.elim
  | property selector name => exact Yields.pure h
  | var group name => exact hvalue group name
  | binary op left right ihl ihr =>
    exact Yields.bind (ihl h.1) fun _ hl => Yields.bind (ihr h.2) fun _ hr => Yields.pure ⟨hl, hr⟩
  | conditional cond yes no ihc ihy ihn =>
    exact Yields.bind (ihc h.1) fun _ hc => Yields.bind (ihy h.2.1) fun _ hy =>
      Yields.bind (ihn h.2.2) fun _ hn => Yields.pure ⟨hc, hy, hn⟩

/-- Where variables are bound to expressions of names, their values are such expressions, however deep
the variables are nested. -/
theorem atLevel_yields_named (htable : table.ReadValues) (maxDepth n : Nat) (stack : List Frame)
    (group name : String) :
    ((Site.atLevel table maxDepth n stack).variableValue group name).Yields Expr.Named := by
  induction n generalizing stack group name with
  | zero =>
    refine variableValue_yields_named htable (fun frame e (hfresh : frame ∉ stack) _ => ?_)
      group name
    rw [enterWith_atLevel_zero hfresh]
    exact Yields.throw _
  | succ n ih =>
    refine variableValue_yields_named htable (fun frame e (hfresh : frame ∉ stack) he => ?_)
      group name
    rw [enterWith_atLevel_succ hfresh]
    exact substitute_yields_named (ih (frame :: stack)) he

end Expansion

/-- The text of a variable is the text of its value. -/
theorem outcome_variableText {table : Namespace} {group name : String} {value : Expr}
    (h : ((Expansion.Site.start table Expansion.defaultDepth).variableValue group name).outcome
      = .ok value) : (variableText table group name).outcome = .ok value.text := by
  rw [variableText, Checked.outcome_bind, h]
  rfl

/-- **The text of an expression tells everything but which choices stand in the place of a
condition.** Two expressions that were read, without literals and numbers in them, have the same text
exactly if they are the same after regrouping. If no condition in them is a choice, then expressions
with the same text are the same. So it is with the values of variables that are bound to such
expressions. -/
theorem text_unambiguous (e e' : Expr) :
    (∀ s s' : String, Expr.parse s = .ok e → Expr.parse s' = .ok e' → e.NamesOnly → e'.NamesOnly →
      (e.text = e'.text ↔ e.regroup = e'.regroup) ∧
        (e.Grouped → e'.Grouped → e.text = e'.text → e = e')) ∧
    ∀ (table table' : Namespace) (group group' name name' : String),
      table.ReadValues → table'.ReadValues →
      ((Expansion.Site.start table Expansion.defaultDepth).variableValue group name).outcome
        = .ok e →
      ((Expansion.Site.start table' Expansion.defaultDepth).variableValue group' name').outcome
        = .ok e' →
      ((variableText table group name).outcome = (variableText table' group' name').outcome ↔
        e.regroup = e'.regroup) ∧
        (e.Grouped → e'.Grouped →
          (variableText table group name).outcome = (variableText table' group' name').outcome →
          e = e') := by
  constructor
  · intro s s' hparse hparse' hnames hnames'
    have hnamed := Parser.named_of_parse hparse hnames
    have hnamed' := Parser.named_of_parse hparse' hnames'
    exact ⟨hnamed.text_eq_iff hnamed', hnamed.eq_of_text_eq hnamed'⟩
  · intro table table' group group' name name' htable htable' hvalue hvalue'
    have hnamed : e.Named := Expansion.atLevel_yields_named htable _ _ [] group name hvalue
    have hnamed' : e'.Named := Expansion.atLevel_yields_named htable' _ _ [] group' name' hvalue'
    rw [outcome_variableText hvalue, outcome_variableText hvalue', Except.ok.injEq]
    exact ⟨hnamed.text_eq_iff hnamed', hnamed.eq_of_text_eq hnamed'⟩

/-- The value `a ? b : (c ? d : e)`. -/
def inLastPart : Expr :=
  .conditional (.property none "a") (.property none "b")
    (.conditional (.property none "c") (.property none "d") (.property none "e"))

/-- The value `(a ? b : c) ? d : e`. -/
def inCondition : Expr :=
  .conditional (.conditional (.property none "a") (.property none "b") (.property none "c"))
    (.property none "d") (.property none "e")

/-- Variables for the two values, and one that comes to the first value by way of another variable. -/
def choiceValues : OrderedMap String Expr := .ofList
  [("last", inLastPart), ("condition", inCondition),
   ("rest", .conditional (.property none "c") (.property none "d") (.property none "e")),
   ("split", .conditional (.property none "a") (.property none "b") (.var "Choice" "rest"))]

def choices : List Node := [.definition ⟨.template, "Choice", [], .vars choiceValues⟩]

theorem text_unambiguous_choices :
    let table := (Namespace.ofDocument choices).value
    let site := Expansion.Site.start table Expansion.defaultDepth
    (Expr.parse "a ? b : c ? d : e" = .ok inLastPart ∧
      Expr.parse "(a ? b : c) ? d : e" = .ok inCondition ∧ inLastPart.NamesOnly ∧
      inCondition.NamesOnly ∧ inLastPart.regroup = inCondition.regroup ∧
      inLastPart.text = inCondition.text) ∧
    ∃ value value', table.ReadValues ∧
      (site.variableValue "Choice" "last").outcome = .ok value ∧
      (site.variableValue "Choice" "split").outcome = .ok value' ∧ value.Grouped ∧ value'.Grouped ∧
      (variableText table "Choice" "last").outcome = (variableText table "Choice" "split").outcome ∧
      value = value' := by
  intro table site
  have hsources : ∀ e ∈ choiceValues.entries,
      (∃ s ∈ ["a ? b : c ? d : e", "(a ? b : c) ? d : e", "c ? d : e", "a ? b : Choice(rest)"],
        Expr.parse s = .ok e.2) ∧ e.2.NamesOnly := by decide +kernel
  have htable : table.ReadValues := by
    refine readValues_ofDocument fun d hd bindings hbody e he => ?_
    obtain rfl := List.mem_singleton.mp hd
    cases hbody
    obtain ⟨⟨s, -, hparse⟩, hnames⟩ := hsources e he
    exact ⟨⟨s, hparse⟩, hnames⟩
  have hparse : Expr.parse "a ? b : c ? d : e" = .ok inLastPart := by decide +kernel
  have hparse' : Expr.parse "(a ? b : c) ? d : e" = .ok inCondition := by decide +kernel
  have hnames : inLastPart.NamesOnly := by decide +kernel
  have hnames' : inCondition.NamesOnly := by decide +kernel
  have hregroup : inLastPart.regroup = inCondition.regroup := rfl
  have hread := (text_unambiguous inLastPart inCondition).1 _ _ hparse hparse' hnames hnames'
  have hgrouped : inLastPart.Grouped := by decide +kernel
  have hvalue : (site.variableValue "Choice" "last").outcome = .ok inLastPart := by decide +kernel
  have hvalue' : (site.variableValue "Choice" "split").outcome = .ok inLastPart := by
    decide +kernel
  have htext : (variableText table "Choice" "last").outcome
      = (variableText table "Choice" "split").outcome := by decide +kernel
  have hresolved :=
    (text_unambiguous inLastPart inLastPart).2 _ _ _ _ _ _ htable htable hvalue hvalue'
  exact ⟨⟨hparse, hparse', hnames, hnames', hregroup, hread.1.mpr hregroup⟩, inLastPart, inLastPart,
    htable, hvalue, hvalue', hgrouped, hgrouped, htext, hresolved.2 hgrouped hgrouped htext⟩

/-- The two values are written in the same way. -/
theorem text_ambiguous_choices :
    let table := (Namespace.ofDocument choices).value
    (Expr.parse "a ? b : c ? d : e" = .ok inLastPart ∧
      Expr.parse "(a ? b : c) ? d : e" = .ok inCondition) ∧
    inLastPart.NamesOnly ∧ inCondition.NamesOnly ∧ inLastPart ≠ inCondition ∧
    inLastPart.text = inCondition.text ∧
    (variableText table "Choice" "last").outcome = .ok "a ? b : c ? d : e" ∧
    (variableText table "Choice" "condition").outcome = .ok "a ? b : c ? d : e" := by
  refine ⟨⟨?_, ?_⟩, ?_, ?_, ?_, ?_, ?_, ?_⟩
  all_goals decide +kernel

end Stencil
