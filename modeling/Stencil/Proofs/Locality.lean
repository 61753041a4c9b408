import Stencil.Proofs.Edits
import Stencil.Proofs.EvaluationDepth

/-!
# Edits stay local

A change of one expression is seen by the properties that read the changed one, be it through others.
All other properties of elements and of rules keep their texts, whatever becomes of the changed one, and
in whatever order the elements are evaluated.

* `Plain.Agree.reaches_iff` — a change does not alter which properties lead to the changed one
* `Plain.Agree.eval_eq` — an expression that does not lead to it keeps its value
* `Resolution.resolve_edit_local` — the texts that an edit leaves as they are
-/

namespace Stencil

open Relation

/-! ## Values -/

namespace Plain

/-- Following what properties read, one comes from `a` to `b`. -/
def Reaches (r : Registry) (a b : Slot) : Prop := ReflTransGen (Reads r) a b

/-- Computations that have the same result. -/
def sameResult : Simulation Option Option where
  rel x y := x = y
  rel_pure _ := rfl
  rel_bind hx hf := by
    rw [hx]
    exact Option.bind_congr fun a _ => hf a

namespace Agree

variable {slot : Slot} {r r' : Registry}

theorem symm (ha : Agree slot r r') : Agree slot r' r where
  first s := (ha.first s).symm
  bound? a hne := (ha.bound? a hne).symm

theorem target? (ha : Agree slot r r') (here : Option Handle) (selector : Option Selector) :
    target? r' here selector = target? r here selector := by
  cases selector with
  | none => rfl
  | some s => exact ha.first s

/-! ### What leads to the changed property -/

theorem reads (ha : Agree slot r r') {a b : Slot} (hne : a ≠ slot) (hab : Reads r a b) :
    Reads r' a b := by
  obtain ⟨e, hbound, selector, hmem, htarget⟩ := hab
  exact ⟨e, (ha.bound? a hne).trans hbound, selector, hmem, (ha.target? _ _).trans htarget⟩

theorem reaches (ha : Agree slot r r') {a : Slot} (hreach : Reaches r a slot) : Reaches r' a slot := by
  induction hreach using ReflTransGen.head_induction_on with
  | refl => exact ReflTransGen.refl
  | @head a b hab _ ih =>
    -- What the changed property itself reads is not needed: there the way is at its end.
    by_cases hslot : a = slot
    · rw [hslot]
      exact ReflTransGen.refl
    · exact ReflTransGen.head (ha.reads hslot hab) ih

theorem reaches_iff (ha : Agree slot r r') (a : Slot) : Reaches r' a slot ↔ Reaches r a slot :=
  ⟨ha.symm.reaches, ha.reaches⟩

/-! ### What does not lead to it -/

/-- An expression has the same value if the properties that it mentions have. -/
theorem eval_scopeOf_eq (ha : Agree slot r r') {here : Option Handle} {e : Expr}
    {look look' : Handle → String → Option (Option (Except EvalError Value))}
    (hlook : ∀ b, Refers r here e b → look' b.1 b.2 = look b.1 b.2) :
    (e.eval (scopeOf look' r' here)).run = (e.eval (scopeOf look r here)).run := by
  show sameResult.rel _ _
  refine sameResult.rel_eval (fun _ => sameResult.rel_pure _) e fun selector name hmem => ?_
  show (scopeOf look' r' here).read selector name = (scopeOf look r here).read selector name
  dsimp only [scopeOf]
  rw [ha.target?]
  cases htarget : Plain.target? r here selector with
  | none => rfl
  | some h =>
    have hread : look' h name = look h name := hlook (h, name) ⟨selector, hmem, htarget⟩
    simp only [hread]

theorem within_eq (ha : Agree slot r r') (n : Nat) {a : Slot} (hapart : ¬ Reaches r a slot) :
    within r' n a.1 a.2 = within r n a.1 a.2 := by
  induction n generalizing a with
  | zero => rfl
  | succ n ih =>
    have hne : a ≠ slot := fun heq => hapart (heq ▸ ReflTransGen.refl)
    cases hbound : Plain.bound? r a.1 a.2 with
    | none => rw [within_undeclared hbound, within_undeclared ((ha.bound? a hne).trans hbound)]
    | some e =>
      rw [within_declared hbound, within_declared ((ha.bound? a hne).trans hbound)]
      refine congrArg _ (ha.eval_scopeOf_eq fun b hb => ih fun hreach => ?_)
      exact hapart (ReflTransGen.head ⟨e, hbound, hb⟩ hreach)

theorem lookup_eq (ha : Agree slot r r') {a : Slot} (hapart : ¬ Reaches r a slot) :
    lookup r' a.1 a.2 = lookup r a.1 a.2 := by
  refine Option.ext fun value => ?_
  rw [lookup_eq_some_iff_within, lookup_eq_some_iff_within]
  exact exists_congr fun n => by rw [ha.within_eq n hapart]

/-- An expression that mentions nothing that leads to the changed property keeps its value. -/
theorem eval_eq (ha : Agree slot r r') {here : Option Handle} {e : Expr}
    (hapart : ∀ b, Refers r here e b → ¬ Reaches r b slot) : eval r' here e = eval r here e := by
  rw [eval_eq_run, eval_eq_run]
  exact ha.eval_scopeOf_eq fun b hb => ha.lookup_eq (hapart b hb)

end Agree

end Plain

/-! ## Texts -/

namespace Resolution

open Plain

variable {p : String} {h : Handle} {tree tree' : List Node} {wantLocal : Bool} {res res' : Resolved}

/-- Every declared property of an element has its plain text. -/
theorem property?_of_resolve (hd : (Registry.build tree).value.Distinct)
    (hres : (resolve wantLocal tree).outcome = .ok res) {i : Handle} {entry : Entry} {name : String}
    {e : Expr} (he : (Registry.build tree).value.entry? i = some entry)
    (hp : entry.element.inlineProperty? name = some e) :
    ∃ value, Plain.eval (Registry.build tree).value (some i) e = some value ∧
      res.styles.property? entry.primary name = some (Plain.text value) := by
  have hr := Registry.indexed_build tree
  have hstyle := Element.hasInlineStyle_of_inlineProperty? hp
  obtain ⟨order, s, hsort, hrun⟩ := resolve_ok hres
  obtain ⟨hnodup, -⟩ := Dependencies.sort_ok (Dependencies.built_build _) hsort
  have hin := Dependencies.primary_mem_order hsort he hp
  obtain ⟨-, inline, rules, hinline, -, rfl⟩ :=
    ensures_resolveIn hd hr order wantLocal tree ⟨Session.Sound.init, rfl⟩ hrun
  exact property?_styleMap hd hr hnodup hinline he hstyle hin hp

/-- Every property of a rule has its plain text. -/
theorem rules_of_resolve (hd : (Registry.build tree).value.Distinct)
    (hres : (resolve wantLocal tree).outcome = .ok res) :
    List.Forall₂ (fun owned sheet => sheet.selector = owned.2.selector ∧
        ∀ name e, owned.2.properties.get? name = some e →
          ∃ value, Plain.eval (Registry.build tree).value owned.1 e = some value ∧
            sheet.properties.get? name = some (Plain.text value))
      (ownedRules (Registry.build tree).value wantLocal tree) res.rules := by
  obtain ⟨order, s, -, hrun⟩ := resolve_ok hres
  obtain ⟨-, inline, rules, -, hrules, rfl⟩ :=
    ensures_resolveIn hd (Registry.indexed_build tree) order wantLocal tree
      ⟨Session.Sound.init, rfl⟩ hrun
  rw [List.forall₂_map_right_iff]
  exact hrules.imp fun owned out hout => ⟨hout.1, fun name e he => hout.2.get?_texts he⟩

theorem forall₂_zip_right {α β γ : Type} {R : α → β → Prop} {S : α → γ → Prop} {l : List α}
    {bs : List β} {cs : List γ} (hb : List.Forall₂ R l bs) (hc : List.Forall₂ S l cs) :
    List.Forall₂ (fun a bc => R a bc.1 ∧ S a bc.2) l (bs.zip cs) := by
  induction hb generalizing cs with
  | nil =>
    cases hc
    exact List.Forall₂.nil
  | cons hab _ ih =>
    cases hc with
    | cons hac hrest => exact List.Forall₂.cons ⟨hab, hac⟩ (ih hrest)

/-- **Edits stay local.** Let two trees differ in the expression of the property `p` of the element with
the number `h`, let all primary names differ, and let both trees be resolved. Then the elements have the
same names, the same properties lead to the changed one in both trees, and

* a property of an element that does not lead to it has the same text in both results;
* the rules are the same, in the same order, and a property of a rule that mentions nothing that leads
  to it has the same text in both results.

Nothing is asked of the values of the changed property, nor of the orders of evaluation. -/
theorem resolve_edit_local (hedit : Edited p h tree tree')
    (hd : (Registry.build tree).value.Distinct)
    (hres : (resolve wantLocal tree).outcome = .ok res)
    (hres' : (resolve wantLocal tree').outcome = .ok res') :
    let r := (Registry.build tree).value
    let r' := (Registry.build tree').value
    (∀ i, r'.primary? i = r.primary? i) ∧
    (∀ a, Reaches r' a (h, p) ↔ Reaches r a (h, p)) ∧
    (∀ i entry name e, r.entry? i = some entry → entry.element.inlineProperty? name = some e →
      ¬ Reaches r (i, name) (h, p) →
      ∃ text, res.styles.property? entry.primary name = some text ∧
        res'.styles.property? entry.primary name = some text) ∧
    res.rules.length = res'.rules.length ∧
    List.Forall₂ (fun owned sheets =>
        sheets.1.selector = owned.2.selector ∧ sheets.2.selector = owned.2.selector ∧
        ∀ name e, owned.2.properties.get? name = some e →
          (∀ b, Refers r owned.1 e b → ¬ Reaches r b (h, p)) →
          ∃ text, sheets.1.properties.get? name = some text ∧
            sheets.2.properties.get? name = some text)
      (ownedRules r wantLocal tree) (res.rules.zip res'.rules) := by
  intro r r'
  have hagree : Agree (h, p) r r' := hedit.agree
  have hd' : r'.Distinct := hedit.alike.distinct hd
  have hrules := rules_of_resolve hd hres
  have hrules' := rules_of_resolve hd' hres'
  rw [hedit.ownedRules_eq] at hrules'
  refine ⟨hedit.alike.primary?, hagree.reaches_iff, ?_, ?_, ?_⟩
  · intro i entry name e he hp hapart
    have hne : (i, name) ≠ (h, p) := fun heq => hapart (heq ▸ ReflTransGen.refl)
    have hbound : bound? r i name = some e := bound?_eq_some_iff.mpr ⟨entry, he, hp⟩
    -- The element of the edited tree has the same name, and declares the property as before.
    obtain ⟨entry', he', hp'⟩ :=
      bound?_eq_some_iff.mp ((hagree.bound? (i, name) hne).trans hbound)
    have hprimary : entry'.primary = entry.primary := by
      have hsame := hedit.alike.primary? i
      rw [Registry.primary?, Registry.primary?, he, he'] at hsame
      exact Option.some.inj hsame
    obtain ⟨value, heval, htext⟩ := property?_of_resolve hd hres he hp
    obtain ⟨value', heval', htext'⟩ := property?_of_resolve hd' hres' he' hp'
    rw [hagree.eval_eq fun b hb hreach => hapart (ReflTransGen.head ⟨e, hbound, hb⟩ hreach),
      heval] at heval'
    cases heval'
    exact ⟨_, htext, hprimary ▸ htext'⟩
  · exact hrules.length_eq.symm.trans hrules'.length_eq
  · refine (forall₂_zip_right hrules hrules').imp ?_
    rintro owned sheets ⟨⟨hselector, htexts⟩, hselector', htexts'⟩
    refine ⟨hselector, hselector', fun name e he hapart => ?_⟩
    obtain ⟨value, heval, htext⟩ := htexts name e he
    obtain ⟨value', heval', htext'⟩ := htexts' name e he
    rw [hagree.eval_eq hapart, heval] at heval'
    cases heval'
    exact ⟨_, htext, htext'⟩

/-- An element with a size, and with a border that reads its color; and an element next to it. -/
def toolbar (size : Expr) : List Node :=
  [.element ⟨"div", .ofList [("id", "bar")], [.style
    { inline := .ofList [("size", size), ("border", .property none "color"), ("color", .literal "red")]
      rules := [⟨"&:hover", .ofList [("outline", .property none "color")]⟩] }]⟩,
   .element ⟨"p", .ofList [("id", "label")],
    [.style { inline := .ofList [("color", .literal "blue")] }]⟩]

/-- The size becomes a reference that fails, and makes its element come second. -/
theorem resolve_edit_local_toolbar :
    let size := Expr.literal "small"
    let size' := Expr.property (some ⟨.id "label", none⟩) "height"
    Edited "size" 0 (toolbar size) (toolbar size') ∧
    (Registry.build (toolbar size)).value.Distinct ∧
    ¬ Reaches (Registry.build (toolbar size)).value (0, "border") (0, "size") ∧
    ∃ res res', (resolve true (toolbar size)).outcome = .ok res ∧
      (resolve true (toolbar size')).outcome = .ok res' ∧
      res.order = ["#bar", "#label"] ∧ res'.order = ["#label", "#bar"] ∧
      res.diagnostics.length = 0 ∧ res'.diagnostics.length = 1 ∧
      ∃ text, res.styles.property? "#bar" "border" = some text ∧
        res'.styles.property? "#bar" "border" = some text := by
  intro size size'
  have hedit : Edited "size" 0 (toolbar size) (toolbar size') :=
    @Edited.here "size" [] _ [] [] _ _ _ _ ⟨by decide, size', rfl⟩
  have hd : (Registry.build (toolbar size)).value.Distinct := by
    rw [Registry.build_eq_foldlM]
    decide
  have hfacts : (resolve true (toolbar size)).outcome.toOption.map
      (fun res => (res.order, res.diagnostics.length)) = some (["#bar", "#label"], 0) := by
    decide +kernel
  have hfacts' : (resolve true (toolbar size')).outcome.toOption.map
      (fun res => (res.order, res.diagnostics.length)) = some (["#label", "#bar"], 1) := by
    decide +kernel
  have hborder : ¬ Reaches (Registry.build (toolbar size)).value (0, "border") (0, "size") := by
    rw [Registry.build_eq_foldlM]
    intro hreach
    rcases ReflTransGen.cases_head hreach with heq | ⟨b, ⟨e, hbound, selector, hmem, htarget⟩, hreach⟩
    · exact absurd heq (by decide)
    obtain rfl : Expr.property none "color" = e := Option.some.inj hbound
    obtain ⟨rfl, hname⟩ := Expr.property.inj (List.mem_singleton.mp hmem)
    obtain rfl : (0, "color") = b := Prod.ext (Option.some.inj htarget) hname.symm
    rcases ReflTransGen.cases_head hreach with heq | ⟨c, ⟨e, hbound, selector, hmem, -⟩, -⟩
    · exact absurd heq (by decide)
    obtain rfl : Expr.literal "red" = e := Option.some.inj hbound
    cases List.mem_singleton.mp hmem
  cases hres : (resolve true (toolbar size)).outcome with
  | error e => rw [hres] at hfacts; cases hfacts
  | ok res =>
    cases hres' : (resolve true (toolbar size')).outcome with
    | error e => rw [hres'] at hfacts'; cases hfacts'
    | ok res' =>
      rw [hres] at hfacts
      rw [hres'] at hfacts'
      obtain ⟨horder, hcount⟩ := Prod.mk.inj (Option.some.inj hfacts)
      obtain ⟨horder', hcount'⟩ := Prod.mk.inj (Option.some.inj hfacts')
      obtain ⟨-, -, htexts, -⟩ := resolve_edit_local hedit hd hres hres'
      refine ⟨hedit, hd, hborder, res, res', rfl, rfl, horder, horder', hcount, hcount', ?_⟩
      rw [Registry.build_eq_foldlM] at htexts hborder
      exact htexts 0 _ "border" _ rfl rfl hborder

end Resolution

end Stencil
