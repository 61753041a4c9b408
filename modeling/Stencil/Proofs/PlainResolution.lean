import Stencil.Proofs.EvaluationOrder
import Stencil.Proofs.Memo
import Stencil.Proofs.OrderedMap
import Stencil.Proofs.Resolving

/-!
# Resolution and plain evaluation

The styles of a tree are evaluated on demand, in one session, with a memo that all elements share.
If all primary names differ, the texts and the diagnostics are nevertheless those of plain
evaluation.

* `Plain.Item` — a property that is to be written, with the scope of its expression
* `Resolution.resolve_eq_plain` — what `resolve` returns, item by item
-/

namespace Stencil

/-! ## What is to be written -/

namespace Plain

/-- The text of a property, or why it has none: its evaluation failed, or it is a truth value. -/
def result : Except EvalError Value → Except EvalError String
  | .ok (.boolean _) => .error (.operandType .propertyValue .renderable .boolean)
  | .ok value => .ok value.text
  | .error e => .error e

/-- What stands in the style for a property. -/
def text (value : Except EvalError Value) : String :=
  match result value with
  | .ok text => text
  | .error e => e.marker

/-- A property that is to be written: where it is declared, and the scope of its expression. -/
structure Item where
  selector : String
  property : String
  here : Option Handle
  expr : Expr

/-- The diagnostic of a property, if it has no text. -/
def Item.diagnostic? (r : Registry) (i : Item) : Option Diagnostic :=
  match (eval r i.here i.expr).map result with
  | some (.error error) => some { selector := i.selector, property := i.property, error }
  | _ => none

/-- The properties of an element or of a rule, in order. -/
def items (selector : String) (here : Option Handle) (properties : Properties) : List Item :=
  properties.entries.map fun (property, expr) => { selector, property, here, expr }

/-- The properties of the styled element with a primary name. -/
def styledItems (r : Registry) (primary : String) : List Item :=
  match r.entries.toList.zipIdx.find? fun (entry, _) =>
      entry.primary = primary && entry.element.hasInlineStyle with
  | some (entry, h) => items primary (some h) entry.element.inlineProperties
  | none => []

/-- The rules with the elements that hold them: those inside of elements, if they are wanted, and
then those outside, which no element holds. -/
def ownedRules (r : Registry) (wantLocal : Bool) (tree : List Node) : List (Option Handle × Rule) :=
  (if wantLocal then
    r.entries.toList.zipIdx.flatMap fun (entry, h) => entry.element.rules.map (some h, ·)
  else [])
    ++ (tree.filterMap Node.style?).flatMap fun block => block.rules.map (none, ·)

theorem result_eq (value : Except EvalError Value) : result value = value.bind Value.render := by
  rcases value with _ | _ | _ | _ <;> rfl

end Plain

/-- The merged properties of an element bind what the last style block says. -/
theorem Element.get?_inlineProperties (e : Element) (name : String) :
    e.inlineProperties.get? name = e.inlineProperty? name := by
  have hfold : e.inlineProperties
      = (e.styleBlocks.map StyleBlock.inline).foldl OrderedMap.extend .empty := by
    rw [List.foldl_map]
    rfl
  rw [hfold, OrderedMap.get?_foldl_extend, OrderedMap.get?_empty, Option.or_none,
    OrderedMap.lastBound, List.filterMap_map]
  rfl

namespace Resolution

open Session

/-! ## Lists side by side -/

theorem exists_right_of_forall₂ {α β : Type} {R : α → β → Prop} {l : List α} {l' : List β}
    (h : List.Forall₂ R l l') {a : α} (ha : a ∈ l) : ∃ b ∈ l', R a b := by
  induction h with
  | nil => cases ha
  | cons hab _ ih =>
    rcases List.mem_cons.mp ha with rfl | ha
    · exact ⟨_, List.mem_cons_self, hab⟩
    · obtain ⟨b, hb, hR⟩ := ih ha
      exact ⟨b, List.mem_cons_of_mem _ hb, hR⟩

theorem map_eq_of_forall₂ {α β γ : Type} {R : α → β → Prop} {f : α → γ} {g : β → γ} {l : List α}
    {l' : List β} (h : List.Forall₂ R l l') (hfg : ∀ a b, R a b → g b = f a) :
    l'.map g = l.map f := by
  induction h with
  | nil => rfl
  | cons hab _ ih => rw [List.map_cons, List.map_cons, ih, hfg _ _ hab]

theorem flatMap_eq_of_forall₂ {α β γ : Type} {R : α → β → Prop} {f : α → List γ} {g : β → List γ}
    {l : List α} {l' : List β} (h : List.Forall₂ R l l') (hfg : ∀ a b, R a b → g b = f a) :
    l'.flatMap g = l.flatMap f := by
  induction h with
  | nil => rfl
  | cons hab _ ih => rw [List.flatMap_cons, List.flatMap_cons, ih, hfg _ _ hab]

theorem forall₂_flatten {α β γ : Type} {R : β → γ → Prop} {f : α → List β} {l : List α}
    {l' : List (List γ)} (h : List.Forall₂ (fun a cs => List.Forall₂ R (f a) cs) l l') :
    List.Forall₂ R (l.flatMap f) l'.flatten :=
  List.rel_flatten (List.forall₂_map_left_iff.mpr h)

variable {r : Registry} {here : Option Handle}

/-! ## Outcomes -/

/-- The outcomes of properties are the plain ones. -/
def PlainOutcomes (r : Registry) (here : Option Handle) (properties : Properties)
    (outcomes : Outcomes) : Prop :=
  List.Forall₂ (fun e e' => e'.1 = e.1 ∧ (Plain.eval r here e.2).map Plain.result = some e'.2)
    properties.entries outcomes.entries

variable {properties : Properties} {outcomes : Outcomes}

/-- Each property that fails has one diagnostic, in the order of the properties. -/
theorem PlainOutcomes.diagnostics_eq (h : PlainOutcomes r here properties outcomes)
    (selector : String) : outcomes.diagnostics selector
      = (Plain.items selector here properties).filterMap (Plain.Item.diagnostic? r) := by
  unfold PlainOutcomes at h
  unfold Outcomes.diagnostics Plain.items
  generalize properties.entries = declared, outcomes.entries = found at h ⊢
  induction h with
  | nil => rfl
  | @cons e e' _ _ he _ ih =>
    obtain ⟨name, expr⟩ := e
    obtain ⟨name', outcome⟩ := e'
    obtain ⟨rfl, he⟩ := he
    rw [List.map_cons, List.filterMap_cons, List.filterMap_cons, ih, Plain.Item.diagnostic?, he]
    cases outcome <;> rfl

/-- The texts of properties are the plain ones. -/
theorem PlainOutcomes.texts (h : PlainOutcomes r here properties outcomes) :
    List.Forall₂ (fun e e' => e'.1 = e.1 ∧
        ∃ value, Plain.eval r here e.2 = some value ∧ e'.2 = Plain.text value)
      properties.entries outcomes.texts.entries := by
  rw [Outcomes.texts, OrderedMap.entries_mapValues, List.forall₂_map_right_iff]
  refine h.imp fun e e' he => ⟨he.1, ?_⟩
  obtain ⟨value, hv, hr⟩ := Option.map_eq_some_iff.mp he.2
  refine ⟨value, hv, ?_⟩
  rw [← hr]
  show _ = match Plain.result value with
    | .ok text => text
    | .error e => e.marker
  cases Plain.result value <;> rfl

/-- A property that is declared has its plain text. -/
theorem PlainOutcomes.get?_texts (h : PlainOutcomes r here properties outcomes) {name : String}
    {e : Expr} (he : properties.get? name = some e) :
    ∃ value, Plain.eval r here e = some value ∧
      outcomes.texts.get? name = some (Plain.text value) := by
  obtain ⟨⟨name', text⟩, hmem, rfl, value, hv, rfl⟩ :=
    exists_right_of_forall₂ h.texts (OrderedMap.get?_eq_some_iff.mp he)
  exact ⟨value, hv, OrderedMap.get?_eq_some_iff.mpr hmem⟩

/-! ## Steps -/

/-- What holds between the steps of a resolution: the memo is sound, and no property was found to
read itself. -/
def Settled (r : Registry) (s : Session) : Prop := Sound r s ∧ s.circular = none

/-- What agrees with a plain result is settled as that result. -/
theorem ensures_settle {α : Type} {x : Evaluating α} {y : Option α} (h : (agreement r).rel x y) :
    Ensures (Settled r) (settle x) fun a => y = some a := by
  refine Ensures.settle fun s a s' hs hx hc => ?_
  obtain ⟨hsound, hy⟩ := (h hx hc).2 hs.1
  exact ⟨⟨hsound, hc⟩, hy⟩

theorem ensures_conclude (selector property : String) (value : Except EvalError Value) :
    Ensures (Settled r) (conclude selector property value) fun o => o = Plain.result value := by
  rw [Plain.result_eq, conclude]
  cases value.bind Value.render with
  | ok text => exact Ensures.pure rfl
  | error e =>
    exact Ensures.bind (Ensures.modify fun s hs => hs) fun _ _ => Ensures.pure rfl

/-- Properties are evaluated one after the other, and each has its plain result. -/
theorem ensures_outcomes {f : String → Expr → Resolving (Except EvalError String)}
    (h : ∀ e ∈ properties.entries, Ensures (Settled r) (f e.1 e.2)
      fun o => (Plain.eval r here e.2).map Plain.result = some o) :
    Ensures (Settled r) (properties.mapM f) (PlainOutcomes r here properties) :=
  Ensures.mapM_entries h

/-! ## Elements -/

/-- The styled elements of an order. -/
def styledIn (r : Registry) (order : List String) : List (String × Handle × Element) :=
  order.filterMap fun primary => (styled? r primary).map fun found => (primary, found)

/-- What a name leads to is a styled element of that name. -/
theorem entry?_of_styled? (hr : r.Indexed) {primary : String} {h : Handle} {e : Element}
    (hs : styled? r primary = some (h, e)) :
    r.entry? h = some ⟨e, primary⟩ ∧ e.hasInlineStyle = true := by
  have hdef : styled? r primary = (r.byPrimary.get? primary).bind fun h =>
    (r.element? h).bind fun e => if e.hasInlineStyle then some (h, e) else none := rfl
  rw [hdef] at hs
  obtain ⟨h', hget, hs⟩ := Option.bind_eq_some_iff.mp hs
  obtain ⟨e', hel, hs⟩ := Option.bind_eq_some_iff.mp hs
  obtain ⟨entry, he, rfl⟩ := hr.sound hget
  rw [Registry.element?, he] at hel
  cases hel
  split at hs
  · cases hs
    exact ⟨he, by assumption⟩
  · cases hs

/-- A primary name leads to one element, and this element has it. -/
theorem styled?_eq_some_iff (hd : r.Distinct) (hr : r.Indexed) {primary : String} {h : Handle}
    {e : Element} : styled? r primary = some (h, e) ↔
      r.entry? h = some ⟨e, primary⟩ ∧ e.hasInlineStyle = true := by
  refine ⟨entry?_of_styled? hr, ?_⟩
  rintro ⟨he, hstyle⟩
  simp [styled?, hd.get?_primary hr he, Registry.element?, he, hstyle]

/-- The items of an element are those of the element that its name leads to. -/
theorem styledItems_eq (hd : r.Distinct) (hr : r.Indexed) (primary : String) :
    Plain.styledItems r primary = match styled? r primary with
      | some (h, e) => Plain.items primary (some h) e.inlineProperties
      | none => [] := by
  unfold Plain.styledItems
  split
  · rename_i entry h hfind
    have he : r.entry? h = some entry := by
      rw [Registry.entry?, ← Array.getElem?_toList]
      exact List.mem_zipIdx_iff_getElem?.mp (List.mem_of_find?_eq_some hfind)
    have hp := List.find?_some hfind
    obtain ⟨hname, hstyle⟩ := Bool.and_eq_true_iff.mp hp
    obtain rfl : entry.primary = primary := of_decide_eq_true hname
    rw [(styled?_eq_some_iff hd hr).mpr ⟨he, hstyle⟩]
  · rename_i hfind
    cases hs : styled? r primary with
    | none => rfl
    | some found =>
      obtain ⟨he, hstyle⟩ := (styled?_eq_some_iff hd hr).mp hs
      rw [Registry.entry?, ← Array.getElem?_toList] at he
      have hno := List.find?_eq_none.mp hfind (⟨found.2, primary⟩, found.1)
        (List.mem_zipIdx_iff_getElem?.mpr he)
      simp [hstyle] at hno

/-- The outcomes of an element are the plain ones in its own scope. -/
def PlainElement (r : Registry) (found : String × Handle × Element) (out : String × Outcomes) :
    Prop :=
  out.1 = found.1 ∧ PlainOutcomes r (some found.2.1) found.2.2.inlineProperties out.2

theorem ensures_elementOutcomes (hd : r.Distinct) {h : Handle} {entry : Entry}
    (he : r.entry? h = some entry) (primary : String) :
    Ensures (Settled r) (elementOutcomes r primary h entry.element)
      (PlainOutcomes r (some h) entry.element.inlineProperties) := by
  refine ensures_outcomes fun p hp => ?_
  obtain ⟨name, e⟩ := p
  have hdecl : entry.element.inlineProperty? name = some e := by
    rw [← Element.get?_inlineProperties]
    exact OrderedMap.get?_eq_some_iff.mpr hp
  -- The property is looked up, not evaluated: an element that came earlier may have read it.
  refine Ensures.bind (ensures_settle (rel_lookup hd _ h name)) fun value hv => ?_
  rw [Plain.lookup_declared he hdecl] at hv
  obtain ⟨v, heval, rfl⟩ := Option.map_eq_some_iff.mp hv
  refine (ensures_conclude primary name v).mono fun o ho => ?_
  rw [heval, ho]
  rfl

/-- All styled elements in the order of evaluation. -/
theorem ensures_inlineOutcomes (hd : r.Distinct) (hr : r.Indexed) (order : List String) :
    Ensures (Settled r) (inlineOutcomes r order)
      (List.Forall₂ (PlainElement r) (styledIn r order)) := by
  refine Ensures.mapM fun found hmem => ?_
  obtain ⟨primary, h, e⟩ := found
  obtain ⟨primary', -, hs⟩ := List.mem_filterMap.mp hmem
  obtain ⟨found, hs, heq⟩ := Option.map_eq_some_iff.mp hs
  cases heq
  have he := ((styled?_eq_some_iff hd hr).mp hs).1
  exact Ensures.bind (ensures_elementOutcomes hd he primary) fun o ho => Ensures.pure ⟨rfl, ho⟩

/-! ## Rules -/

/-- The outcomes of a rule are the plain ones in the scope of its owner. -/
def PlainRule (r : Registry) (owned : Option Handle × Rule) (out : String × Outcomes) : Prop :=
  out.1 = owned.2.selector ∧ PlainOutcomes r owned.1 owned.2.properties out.2

theorem ensures_ruleOutcomes {scope : Scope Evaluating}
    (hscope : ∀ e : Expr, (agreement r).rel (e.eval scope).run (Plain.eval r here e))
    (rule : Rule) :
    Ensures (Settled r) (ruleOutcomes scope rule) (PlainRule r (here, rule)) := by
  refine Ensures.bind (ensures_outcomes fun p _ => ?_) fun o ho => Ensures.pure ⟨rfl, ho⟩
  refine Ensures.bind (ensures_settle (hscope p.2)) fun value hv => ?_
  refine (ensures_conclude rule.selector p.1 value).mono fun o ho => ?_
  rw [hv, ho]
  rfl

theorem ensures_rules {scope : Scope Evaluating}
    (hscope : ∀ e : Expr, (agreement r).rel (e.eval scope).run (Plain.eval r here e))
    (rules : List Rule) :
    Ensures (Settled r) (rules.mapM (ruleOutcomes scope))
      (List.Forall₂ (PlainRule r) (rules.map (here, ·))) :=
  (Ensures.mapM fun rule _ => ensures_ruleOutcomes hscope rule).mono fun _ ho =>
    List.forall₂_map_left_iff.mpr ho

theorem ensures_globalRules (hd : r.Distinct) (block : StyleBlock) :
    Ensures (Settled r) (globalRules r block)
      (List.Forall₂ (PlainRule r) (block.rules.map (none, ·))) := by
  have hrules := ensures_rules (rel_documentScope (rel_lookup hd (budget r))) block.rules
  unfold globalRules
  cases block.inline.isEmpty with
  | true => exact hrules
  | false => exact Ensures.bind (Ensures.modify fun s hs => hs) fun _ _ => hrules

/-- Rules come in the order of the document, those inside of elements first. -/
theorem ensures_allRules (hd : r.Distinct) (wantLocal : Bool) (tree : List Node) :
    Ensures (Settled r) (allRules r wantLocal tree)
      (List.Forall₂ (PlainRule r) (Plain.ownedRules r wantLocal tree)) := by
  have houtside : Ensures (Settled r) ((tree.filterMap Node.style?).mapM (globalRules r))
      fun outside => List.Forall₂ (PlainRule r) ((tree.filterMap Node.style?).flatMap
        fun block => block.rules.map (none, ·)) outside.flatten :=
    (Ensures.mapM fun block _ => ensures_globalRules hd block).mono fun _ ho => forall₂_flatten ho
  unfold allRules Plain.ownedRules
  cases wantLocal with
  | false =>
    refine Ensures.bind (P := (· = [])) (Ensures.pure rfl) fun inside hi => ?_
    subst hi
    exact Ensures.bind houtside fun outside ho => Ensures.pure ho
  | true =>
    refine Ensures.bind (Ensures.mapM fun p _ => ?_) fun inside hi =>
      Ensures.bind houtside fun outside ho =>
        Ensures.pure (List.rel_append (forall₂_flatten hi) ho)
    exact ensures_rules (rel_elementScope (rel_lookup hd _) p.2) p.1.element.rules

/-! ## The whole tree -/

/-- A resolution that succeeds has the outcomes of plain evaluation. -/
theorem ensures_resolveIn (hd : r.Distinct) (hr : r.Indexed) (order : List String)
    (wantLocal : Bool) (tree : List Node) :
    Ensures (Settled r) (resolveIn r order wantLocal tree) fun res =>
      ∃ inline rules,
        List.Forall₂ (PlainElement r) (styledIn r order) inline ∧
        List.Forall₂ (PlainRule r) (Plain.ownedRules r wantLocal tree) rules ∧
        res = {
          styles := styleMap r inline
          rules := rules.map fun (selector, outcomes) => ⟨selector, outcomes.texts⟩
          diagnostics := (inline ++ rules).flatMap fun (selector, o) => o.diagnostics selector
          order } := by
  refine Ensures.bind (ensures_inlineOutcomes hd hr order) fun inline hi => ?_
  refine Ensures.bind (ensures_allRules hd wantLocal tree) fun rules hrules => ?_
  exact Ensures.pure ⟨inline, rules, hi, hrules, rfl⟩

/-! ## Styles -/

/-- Entries found under names that all differ have keys that all differ. -/
theorem nodup_map_filterMap {α β : Type} {k : α → String} {f : α → Option (String × β)}
    (hf : ∀ a e, f a = some e → e.1 = k a) {l : List α} (h : (l.map k).Nodup) :
    ((l.filterMap f).map Prod.fst).Nodup := by
  refine h.sublist ?_
  clear h
  induction l with
  | nil => exact List.Sublist.slnil
  | cons a rest ih =>
    rw [List.filterMap_cons, List.map_cons]
    cases hfa : f a with
    | none => exact ih.cons _
    | some e =>
      rw [← hf a e hfa]
      exact ih.cons_cons _

/-- The style of an element is found under its primary name. -/
theorem get?_styleMap (hd : r.Distinct) {inline : List (String × Outcomes)}
    (hn : (inline.map Prod.fst).Nodup) {h : Handle} {entry : Entry} (he : r.entry? h = some entry)
    {o : Outcomes} (ho : (entry.primary, o) ∈ inline) :
    (styleMap r inline).get? entry.primary = some o.texts := by
  have hkeys := nodup_map_filterMap
    (f := fun entry : Entry =>
      (inline.lookup entry.primary).map fun o => (entry.primary, o.texts))
    (fun _ _ hf => by obtain ⟨_, -, rfl⟩ := Option.map_eq_some_iff.mp hf; rfl) hd
  rw [styleMap, OrderedMap.get?_ofList hkeys]
  refine OrderedMap.lookup_of_mem hkeys (List.mem_filterMap.mpr ⟨entry, ?_, ?_⟩)
  · exact Array.mem_toList_iff.mpr (Array.mem_of_getElem? he)
  · rw [OrderedMap.lookup_of_mem hn ho]
    rfl

theorem nodup_styledIn {order : List String} (h : order.Nodup) :
    ((styledIn r order).map Prod.fst).Nodup :=
  nodup_map_filterMap (k := id)
    (fun _ _ hf => by obtain ⟨_, -, rfl⟩ := Option.map_eq_some_iff.mp hf; rfl)
    (by rwa [List.map_id])

theorem mem_styledIn (hd : r.Distinct) (hr : r.Indexed) {order : List String} {h : Handle}
    {entry : Entry} (he : r.entry? h = some entry) (hstyle : entry.element.hasInlineStyle = true)
    (hmem : entry.primary ∈ order) : (entry.primary, h, entry.element) ∈ styledIn r order := by
  refine List.mem_filterMap.mpr ⟨entry.primary, hmem, ?_⟩
  rw [(styled?_eq_some_iff hd hr).mpr ⟨he, hstyle⟩]
  rfl

/-- The style of an element has the plain text of every property that the element declares. -/
theorem property?_styleMap (hd : r.Distinct) (hr : r.Indexed) {order : List String}
    (hnodup : order.Nodup) {inline : List (String × Outcomes)}
    (hinline : List.Forall₂ (PlainElement r) (styledIn r order) inline) {h : Handle} {entry : Entry}
    (he : r.entry? h = some entry) (hstyle : entry.element.hasInlineStyle = true)
    (hmem : entry.primary ∈ order) {name : String} {e : Expr}
    (hp : entry.element.inlineProperty? name = some e) :
    ∃ value, Plain.eval r (some h) e = some value ∧
      (styleMap r inline).property? entry.primary name = some (Plain.text value) := by
  obtain ⟨⟨name', o⟩, ho, rfl, hplain⟩ :=
    exists_right_of_forall₂ hinline (mem_styledIn hd hr he hstyle hmem)
  have hkeys : inline.map Prod.fst = (styledIn r order).map Prod.fst :=
    map_eq_of_forall₂ hinline fun _ _ h => h.1
  rw [← Element.get?_inlineProperties] at hp
  obtain ⟨value, hv, ht⟩ := hplain.get?_texts hp
  refine ⟨value, hv, ?_⟩
  rw [StyleMap.property?, get?_styleMap hd (hkeys ▸ nodup_styledIn hnodup) he ho]
  exact ht

theorem flatMap_styledItems (hd : r.Distinct) (hr : r.Indexed) (order : List String) :
    order.flatMap (Plain.styledItems r)
      = (styledIn r order).flatMap fun found =>
          Plain.items found.1 (some found.2.1) found.2.2.inlineProperties := by
  induction order with
  | nil => rfl
  | cons primary rest ih =>
    rw [List.flatMap_cons, ih, styledItems_eq hd hr]
    simp only [styledIn, List.filterMap_cons]
    cases styled? r primary <;> rfl

/-! ## Resolution -/

/-- A resolution that succeeds has an order of evaluation and a run in that order. -/
theorem resolve_ok {wantLocal : Bool} {tree : List Node} {res : Resolved}
    (h : (resolve wantLocal tree).outcome = .ok res) :
    ∃ order s, (Dependencies.build (Registry.build tree).value).sort = .ok order ∧
      (resolveIn (Registry.build tree).value order wantLocal tree).run.run {} = (.ok res, s) := by
  rw [resolve, Checked.outcome_bind] at h
  have h : (((Dependencies.build (Registry.build tree).value).order >>= fun order =>
    fresh (resolveIn (Registry.build tree).value order wantLocal tree)).outcome) = .ok res := h
  rw [Checked.outcome_bind, Dependencies.outcome_order] at h
  cases hsort : (Dependencies.build (Registry.build tree).value).sort with
  | error cycle => rw [hsort] at h; cases h
  | ok order =>
    rw [hsort] at h
    exact ⟨order, _, rfl, Prod.ext h rfl⟩

/-- **Resolution agrees with plain evaluation.** If the primary names of a tree all differ and its
styles are resolved, then every property of every styled element has the text of its plain value,
and so has every property of a rule, in the scope of the element that holds the rule. The
diagnostics are those of the properties without a text, elements in the order of evaluation and then
rules. -/
theorem resolve_eq_plain {wantLocal : Bool} {tree : List Node} {res : Resolved}
    (hd : (Registry.build tree).value.Distinct)
    (hres : (resolve wantLocal tree).outcome = .ok res) :
    let r := (Registry.build tree).value
    (∀ h entry, r.entry? h = some entry → entry.element.hasInlineStyle = true →
      entry.primary ∈ res.order ∧
      ∀ name e, entry.element.inlineProperty? name = some e →
        ∃ value, Plain.eval r (some h) e = some value ∧
          res.styles.property? entry.primary name = some (Plain.text value)) ∧
    List.Forall₂ (fun owned sheet => sheet.selector = owned.2.selector ∧
        List.Forall₂ (fun e e' => e'.1 = e.1 ∧
            ∃ value, Plain.eval r owned.1 e.2 = some value ∧ e'.2 = Plain.text value)
          owned.2.properties.entries sheet.properties.entries)
      (Plain.ownedRules r wantLocal tree) res.rules ∧
    res.order.Nodup ∧
    res.diagnostics = (res.order.flatMap (Plain.styledItems r) ++
      (Plain.ownedRules r wantLocal tree).flatMap fun owned =>
        Plain.items owned.2.selector owned.1 owned.2.properties).filterMap
      (Plain.Item.diagnostic? r) := by
  intro r
  have hr := Registry.indexed_build tree
  obtain ⟨order, s, hsort, hrun⟩ := resolve_ok hres
  obtain ⟨hnodup, hmem, -⟩ := Dependencies.sort_ok (Dependencies.built_build r) hsort
  obtain ⟨-, inline, rules, hinline, hrules, rfl⟩ :=
    ensures_resolveIn hd hr order wantLocal tree ⟨Sound.init, rfl⟩ hrun
  refine ⟨fun h entry he hstyle => ?_, ?_, hnodup, ?_⟩
  · have hin : entry.primary ∈ order := (hmem _).mpr (Dependencies.primary_mem_nodes_build
      (Array.mem_toList_iff.mpr (Array.mem_of_getElem? he)) hstyle)
    exact ⟨hin, fun name e hp => property?_styleMap hd hr hnodup hinline he hstyle hin hp⟩
  · rw [List.forall₂_map_right_iff]
    exact hrules.imp fun owned out h => ⟨h.1, h.2.texts⟩
  · show (inline ++ rules).flatMap _ = _
    rw [List.flatMap_append, List.filterMap_append, flatMap_styledItems hd hr,
      List.filterMap_flatMap, List.filterMap_flatMap]
    refine congrArg₂ _ (flatMap_eq_of_forall₂ hinline ?_) (flatMap_eq_of_forall₂ hrules ?_)
    · rintro ⟨primary, h, e⟩ ⟨selector, o⟩ ⟨rfl, ho⟩
      exact ho.diagnostics_eq selector
    · rintro ⟨owner, rule⟩ ⟨selector, o⟩ ⟨rfl, ho⟩
      exact ho.diagnostics_eq rule.selector

/-- An element that reads a property of another, holds a truth value and has a rule. -/
def panel : List Node :=
  [.element ⟨"div", .ofList [("id", "box")], [.style
    { inline := .ofList [("color", .property (some ⟨.id "text", none⟩) "color"),
        ("shown", .binary .eq (.literal "on") (.literal "on"))]
      rules := [⟨"&:hover", .ofList [("border", .property none "color")]⟩] }]⟩,
   .element ⟨"p", .ofList [("id", "text")],
    [.style { inline := .ofList [("color", .literal "red")] }]⟩]

theorem resolve_eq_plain_panel :
    (Registry.build panel).value.Distinct ∧ ∃ res, (resolve true panel).outcome = .ok res ∧
      res.styles.property? "#box" "color" = some "red" ∧
      ∃ value, Plain.eval (Registry.build panel).value (some 0)
          (.property (some ⟨.id "text", none⟩) "color") = some value ∧
        res.styles.property? "#box" "color" = some (Plain.text value) := by
  have hd : (Registry.build panel).value.Distinct := by
    rw [Registry.build_eq_foldlM]
    decide
  have hcolor : (resolve true panel).outcome.toOption.bind (·.styles.property? "#box" "color")
      = some "red" := by decide +kernel
  cases h : (resolve true panel).outcome with
  | error e => rw [h] at hcolor; cases hcolor
  | ok res =>
    rw [h] at hcolor
    obtain ⟨hstyle, -⟩ := resolve_eq_plain hd h
    refine ⟨hd, res, rfl, hcolor, ?_⟩
    rw [Registry.build_eq_foldlM] at hstyle ⊢
    exact (hstyle 0 _ rfl rfl).2 "color" _ rfl

end Resolution

end Stencil
