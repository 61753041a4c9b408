import Stencil.Document
import Stencil.Proofs.NormalForm
import Stencil.Proofs.PropertyCycles

/-!
# What diagnostics are about

A property that fails is marked, and a diagnostic says why. Two of the reasons that evaluation knows
are never among those: an expanded document has no variables left, and a property that reads itself is
the end of the resolution. The failure of such a property is kept in the memo like any other; but the
cycle is on record then, and the step that asked does not succeed.

* `Delivers` — what a step of evaluation does unless a cycle is on record
* `delivers_lookup` — lookups fail for local reasons only
* `ensures_resolveIn_local` — so do the properties of a tree without variables
-/

namespace Stencil

/-! ## Trees without variables -/

theorem AllNormal.varFree_of_inlineProperty? {e : Element} (h : AllNormal e.children) {name : String}
    {value : Expr} (hp : e.inlineProperty? name = some value) : value.VarFree := by
  obtain ⟨b, hb, hget⟩ := List.mem_filterMap.mp (List.mem_of_getLast? hp)
  exact (Specialization.style?_normal h b hb).inline _ (OrderedMap.get?_eq_some_iff.mp hget)

/-- After expansion, no rule inside of an element has a variable. -/
theorem AllNormal.varFree_of_mem_rules {e : Element} (h : AllNormal e.children) :
    ∀ rule ∈ e.rules, Properties.VarFree rule.properties := by
  intro rule hrule
  obtain ⟨b, hb, hrule⟩ := List.mem_flatMap.mp hrule
  exact (Specialization.style?_normal h b hb).rules rule hrule

mutual

/-- The elements of a normal tree have normal children. -/
theorem AllNormal.of_mem_preorder : ∀ {nodes : List Node}, AllNormal nodes →
    ∀ e ∈ preorder nodes, AllNormal e.children
  | [], _, _, he => by simp [preorder] at he
  | node :: rest, h, e, he => by
    rw [preorder, List.mem_append] at he
    rcases he with he | he
    · exact Node.Normal.of_mem_preorder h.1 e he
    · exact AllNormal.of_mem_preorder h.2 e he

theorem Node.Normal.of_mem_preorder : ∀ {node : Node}, node.Normal →
    ∀ e ∈ node.preorder, AllNormal e.children
  | .element ⟨tag, attributes, children⟩, h, e, he => by
    rw [Node.preorder, List.mem_cons] at he
    rcases he with rfl | he
    · exact h
    · exact AllNormal.of_mem_preorder h e he
  | .text _, _, _, he => by simp [Node.preorder] at he
  | .style _, _, _, he => by simp [Node.preorder] at he
  | .usage _, h, _, _ => h.elim
  | .definition _, h, _, _ => h.elim

end

namespace LocalRules

/-- The selector of a rule is not an expression, so that replacing in it adds no variables. -/
theorem replaceInBlock_normal {b : StyleBlock} (hb : b.Normal) (owner : String) :
    (replaceInBlock owner b).Normal where
  usages := hb.usages
  deletions := hb.deletions
  inline := hb.inline
  rules := by
    intro rule hrule
    obtain ⟨rule', hrule', rfl⟩ := List.mem_map.mp hrule
    exact hb.rules rule' hrule'

mutual

/-- Preparing the rules of a normal tree leaves it normal. -/
theorem prepareIn_normal (options : Options) (around : Option String) :
    ∀ {nodes : List Node}, AllNormal nodes → AllNormal (prepareIn options around nodes).value
  | [], _ => trivial
  | _ :: _, h => ⟨prepareNode_normal options around h.1, prepareIn_normal options around h.2⟩

theorem prepareNode_normal (options : Options) (around : Option String) :
    ∀ {node : Node}, node.Normal → (prepareNode options around node).value.Normal
  | .element ⟨tag, attributes, children⟩, h =>
    element_normal_iff.mpr (prepareIn_normal options _ h)
  | .text _, h => h
  | .style b, h => by
    cases around with
    | none => exact h
    | some owner => exact replaceInBlock_normal h owner
  | .usage _, h => h.elim
  | .definition _, h => h.elim

end

end LocalRules

namespace Session

variable {r : Registry} {look : Lookup} {α β : Type}

/-! ## Steps that leave no cycle -/

/-- If there is a failure, its reason lies in the expression itself. -/
def FailsLocally (result : Except EvalError α) : Prop := ∀ e, result = .error e → e.Local

theorem failsLocally_ok (a : α) : FailsLocally (.ok a) := by
  intro e h
  cases h

theorem failsLocally_error {e : EvalError} (he : e.Local) : FailsLocally (.error e : Except _ α) := by
  intro e' h
  cases h
  exact he

/-- What is made of a value does not matter. -/
theorem FailsLocally.map {f : α → β} {result : Except EvalError α} (h : FailsLocally result) :
    FailsLocally (result.map f) := by
  cases result with
  | ok a => exact failsLocally_ok (f a)
  | error e => exact failsLocally_error (h e rfl)

/-- All failures in the memo are local. -/
def LocalMemo (s : Session) : Prop := ∀ key value, s.memo.lookup key = some value → FailsLocally value

/-- If the step leaves no cycle on record, there was none before, and a memo with local failures only
stays so and leads to a result with `P`. -/
def Delivers (P : α → Prop) (x : Evaluating α) : Prop :=
  ∀ ⦃s : Session⦄ ⦃a : α⦄ ⦃s' : Session⦄, x.run s = some (a, s') → s'.circular = none →
    s.circular = none ∧ (LocalMemo s → LocalMemo s' ∧ P a)

namespace Delivers

theorem pure {P : α → Prop} {a : α} (h : P a) : Delivers P (pure a) := by
  intro s b s' hrun hcalm
  cases hrun
  exact ⟨hcalm, fun hs => ⟨hs, h⟩⟩

/-- A weaker fact is delivered too. -/
theorem mono {P Q : α → Prop} {x : Evaluating α} (hx : Delivers P x) (h : ∀ a, P a → Q a) :
    Delivers Q x :=
  fun _ _ _ hrun hcalm => (hx hrun hcalm).imp_right fun hstep hs => (hstep hs).imp_right (h _)

/-- What is known of the first result comes as a hypothesis in the second, since the absence of a cycle
is known at the end only. -/
theorem bind {P : α → Prop} {Q : β → Prop} {x : Evaluating α} {f : α → Evaluating β}
    (hx : Delivers P x) (hf : ∀ a, Delivers (fun b => P a → Q b) (f a)) : Delivers Q (x >>= f) := by
  intro s b s' hrun hcalm
  obtain ⟨⟨a, s₁⟩, hx', hf'⟩ := Option.bind_eq_some_iff.mp hrun
  obtain ⟨hcalm₁, hstep₁⟩ := hf a hf' hcalm
  obtain ⟨hcalm₀, hstep₀⟩ := hx hx' hcalm₁
  refine ⟨hcalm₀, fun hs => ?_⟩
  obtain ⟨hs₁, ha⟩ := hstep₀ hs
  obtain ⟨hs', hb⟩ := hstep₁ hs₁
  exact ⟨hs', hb ha⟩

theorem note (n : Note) : Delivers (fun _ => True) (note n) := by
  intro s a s' hrun hcalm
  cases hrun
  exact ⟨hcalm, fun hs => ⟨hs, trivial⟩⟩

end Delivers

/-- Failing for local reasons only, as a relation to anything else. -/
def failingLocally : Simulation (ExceptT EvalError Evaluating) (ExceptT EvalError Option) where
  rel x _ := Delivers FailsLocally x.run
  rel_pure a := Delivers.pure (failsLocally_ok a)
  rel_bind {α β x y f g} hx hf := by
    rw [ExceptT.run_bind]
    refine Delivers.bind hx fun a => ?_
    cases a with
    | ok a => exact (hf a).mono fun b hb _ => hb
    | error e => exact Delivers.pure fun he => failsLocally_error (he e rfl)

/-! ## Expressions -/

/-- An expression without variables fails locally, if the properties that it reads do. -/
theorem delivers_eval {scope : Scope Evaluating} (hnote : ∀ k, scope.note k = note k)
    (hread : ∀ selector name, Delivers FailsLocally (scope.read selector name)) {e : Expr}
    (he : e.VarFree) : Delivers FailsLocally (e.eval scope).run := by
  refine failingLocally.rel_eval_throwing (t := ⟨fun _ _ => none, fun _ => none⟩)
    (fun e he => Delivers.pure (failsLocally_error he)) (fun e he => he) (fun k => ?_) e
    (fun group name hmem => absurd hmem (he group name)) fun selector name _ => hread selector name
  show Delivers FailsLocally (ExceptT.lift (scope.note k)).run
  rw [ExceptT.run_lift, map_eq_pure_bind, hnote]
  exact Delivers.bind (Delivers.note k) fun _ => Delivers.pure fun _ => failsLocally_ok _

section Reads

/-- The answer to a lookup, if there is one, fails locally. -/
def AnswersLocally (answer : Option (Except EvalError Value)) : Prop :=
  ∀ value ∈ answer, FailsLocally value

variable (hlook : ∀ h property, Delivers AnswersLocally (look h property))
include hlook

/-- A selector that finds no element is no failure here: the property has no value. -/
theorem delivers_readFrom (h : Handle) (selector : Option Selector) (property : String) :
    Delivers FailsLocally (readFrom r look h selector property) := by
  cases selector with
  | none =>
    refine Delivers.bind (hlook h property) fun answer => ?_
    cases answer with
    | some value => exact Delivers.pure fun hvalue => (hvalue value rfl).map
    | none => exact Delivers.pure fun _ => failsLocally_ok _
  | some selector =>
    unfold readFrom
    dsimp only
    cases r.first selector with
    | none => exact Delivers.bind (Delivers.note _) fun _ => Delivers.pure fun _ => failsLocally_ok _
    | some target =>
      refine Delivers.bind (hlook target property) fun answer => ?_
      cases answer with
      | some value => exact Delivers.pure fun hvalue => (hvalue value rfl).map
      | none =>
        exact Delivers.bind (Delivers.note _) fun _ => Delivers.pure fun _ _ => failsLocally_ok _

theorem delivers_elementScope (h : Handle) {e : Expr} (he : e.VarFree) :
    Delivers FailsLocally (e.eval (elementScope r look h)).run :=
  delivers_eval (fun _ => rfl) (delivers_readFrom hlook h) he

theorem delivers_documentScope {e : Expr} (he : e.VarFree) :
    Delivers FailsLocally (e.eval (documentScope r look)).run := by
  refine delivers_eval (fun _ => rfl) (fun selector name => ?_) he
  unfold documentScope
  dsimp only
  cases selector.bind r.first with
  | none => exact Delivers.pure (failsLocally_ok _)
  | some target => exact delivers_readFrom hlook target none name

end Reads

/-! ## Lookups -/

/-- A failure is kept as it came up. -/
theorem LocalMemo.leave {s : Session} (hs : LocalMemo s) (key : PropertyKey)
    {value : Except EvalError Value} (hvalue : FailsLocally value) :
    LocalMemo (leave key value s) := by
  intro key' value' hm
  by_cases hkey : key' = key
  · rw [hkey, Session.leave, List.lookup_cons_self] at hm
    cases hm
    exact hvalue
  · rw [Session.leave, List.lookup_cons, beq_false_of_ne hkey] at hm
    exact hs key' value' hm

/-- The elements of a registry have normal children. -/
def NormalElements (r : Registry) : Prop :=
  ∀ h entry, r.entry? h = some entry → AllNormal entry.element.children

/-- One step of a lookup: if all properties that an expression reads answer so, it does. -/
theorem delivers_lookupStep (hr : NormalElements r)
    (hlook : ∀ h property, Delivers AnswersLocally (look h property)) (h : Handle)
    (property : String) : Delivers AnswersLocally (lookupStep r look h property) := by
  intro s answer s' hrun hcalm
  cases lookupStep_cases hrun with
  | absent | undeclared => exact ⟨hcalm, fun hs => ⟨hs, by simp [AnswersLocally]⟩⟩
  | known he hm =>
    refine ⟨hcalm, fun hs => ⟨hs, ?_⟩⟩
    rintro _ ⟨⟩
    exact hs _ _ hm
  -- The failure is not local; but the cycle is on record.
  | circular => exact absurd hcalm (circular_recordCycle _ s)
  | evaluated he hm hp hin hv =>
    have hvarFree := (hr h _ he).varFree_of_inlineProperty? hp
    obtain ⟨hcalm, hstep⟩ := delivers_elementScope hlook h hvarFree hv hcalm
    refine ⟨hcalm, fun hs => ?_⟩
    obtain ⟨hs', hvalue⟩ := hstep hs
    refine ⟨hs'.leave _ hvalue, ?_⟩
    rintro _ ⟨⟩
    exact hvalue

/-- Properties answer with failures that are about expressions, however deep they read. The
induction is on the fuel. -/
theorem delivers_lookup (hr : NormalElements r) (fuel : Nat) (h : Handle) (property : String) :
    Delivers AnswersLocally (lookup r fuel h property) := by
  induction fuel generalizing h property with
  | zero =>
    intro s answer s' hrun
    cases hrun
  | succ fuel ih => exact delivers_lookupStep hr ih h property

end Session

namespace Resolution

open Session

variable {r : Registry} {α β : Type}

/-! ## Steps of a resolution -/

/-- What holds between steps: the memo has local failures only, and no cycle is on record. -/
def Clear (s : Session) : Prop := LocalMemo s ∧ s.circular = none

/-- Settling fails if a cycle is on record, so that a success has a session that is clear again. -/
theorem ensures_delivered {x : Evaluating α} {P : α → Prop} (h : Delivers P x) :
    Ensures Clear (settle x) P := by
  refine Ensures.settle fun s a s' hs hrun hcalm => ?_
  obtain ⟨hs', ha⟩ := (h hrun hcalm).2 hs.1
  exact ⟨⟨hs', hcalm⟩, ha⟩

theorem forall_mem_of_forall₂ {R : α → β → Prop} {P : β → Prop} {l : List α} {l' : List β}
    (h : List.Forall₂ R l l') (hP : ∀ a b, R a b → P b) : ∀ b ∈ l', P b := by
  induction h with
  | nil => simp
  | cons hab _ ih => exact List.forall_mem_cons.mpr ⟨hP _ _ hab, ih⟩

theorem ensures_each {I : Session → Prop} {f : α → Resolving β} {P : β → Prop} {l : List α}
    (h : ∀ a ∈ l, Ensures I (f a) P) : Ensures I (l.mapM f) fun bs => ∀ b ∈ bs, P b :=
  (Ensures.mapM h).mono fun _ hbs => forall_mem_of_forall₂ hbs fun _ _ hb => hb

/-- A truth value that cannot be written is a local failure. -/
theorem failsLocally_render (v : Value) : FailsLocally v.render := by
  unfold Value.render
  split
  · exact failsLocally_ok _
  · exact failsLocally_error trivial

/-- Rendering adds failures of its own, which are about the value. -/
theorem ensures_conclude_local (selector property : String) {value : Except EvalError Value}
    (hvalue : FailsLocally value) : Ensures Clear (conclude selector property value) FailsLocally := by
  have hresult : FailsLocally (value.bind Value.render) := by
    cases value with
    | ok v => exact failsLocally_render v
    | error e => exact failsLocally_error (hvalue e rfl)
  unfold conclude
  cases hbind : value.bind Value.render with
  | ok text => exact Ensures.pure (failsLocally_ok text)
  | error e =>
    rw [hbind] at hresult
    exact Ensures.bind (Ensures.modify fun s hs => hs) fun _ _ => Ensures.pure hresult

/-- All properties of an element or a rule that fail do so locally. -/
def LocalOutcomes (outcomes : Outcomes) : Prop := outcomes.All FailsLocally

/-- Properties are gone through one by one. -/
theorem ensures_localOutcomes {f : String → Expr → Resolving (Except EvalError String)}
    {properties : Properties} (h : ∀ p ∈ properties.entries, Ensures Clear (f p.1 p.2) FailsLocally) :
    Ensures Clear (properties.mapM f) LocalOutcomes :=
  (Ensures.mapM_entries h).mono fun _ ho => forall_mem_of_forall₂ ho fun _ _ hp => hp.2

theorem ensures_elementOutcomes_local (hr : NormalElements r) (primary : String) (h : Handle)
    (e : Element) : Ensures Clear (elementOutcomes r primary h e) LocalOutcomes := by
  refine ensures_localOutcomes fun p _ => ?_
  refine Ensures.bind (ensures_delivered (delivers_lookup hr _ h p.1)) fun answer hanswer => ?_
  refine ensures_conclude_local primary p.1 ?_
  cases answer with
  | some value => exact hanswer value rfl
  | none => exact failsLocally_ok _

theorem ensures_inlineOutcomes_local (hr : NormalElements r) (order : List String) :
    Ensures Clear (inlineOutcomes r order) fun inline => ∀ out ∈ inline, LocalOutcomes out.2 :=
  ensures_each fun found _ => Ensures.bind
    (ensures_elementOutcomes_local hr found.1 found.2.1 found.2.2) fun _ ho => Ensures.pure ho

/-- The values of a rule are evaluated where the rule stands: in an element or in the document. -/
theorem ensures_ruleOutcomes_local {scope : Scope Evaluating}
    (hscope : ∀ e : Expr, e.VarFree → Delivers FailsLocally (e.eval scope).run) {rule : Rule}
    (hrule : Properties.VarFree rule.properties) :
    Ensures Clear (ruleOutcomes scope rule) fun out => LocalOutcomes out.2 := by
  refine Ensures.bind (ensures_localOutcomes fun p hp => ?_) fun o ho => Ensures.pure ho
  refine Ensures.bind (ensures_delivered (hscope p.2 (hrule p hp))) fun value hvalue => ?_
  exact ensures_conclude_local rule.selector p.1 hvalue

theorem ensures_localRules_local (hr : NormalElements r) (h : Handle) {e : Element}
    (he : AllNormal e.children) :
    Ensures Clear (localRules r h e) fun outs => ∀ out ∈ outs, LocalOutcomes out.2 :=
  ensures_each fun rule hrule => ensures_ruleOutcomes_local
    (fun _ => delivers_elementScope (delivers_lookup hr _) h) (he.varFree_of_mem_rules rule hrule)

theorem ensures_globalRules_local (hr : NormalElements r) {block : StyleBlock} (hb : block.Normal) :
    Ensures Clear (globalRules r block) fun outs => ∀ out ∈ outs, LocalOutcomes out.2 := by
  have hrules : Ensures Clear (block.rules.mapM (ruleOutcomes (documentScope r (lookup r (budget r)))))
      fun outs => ∀ out ∈ outs, LocalOutcomes out.2 :=
    ensures_each fun rule hrule => ensures_ruleOutcomes_local
      (fun _ => delivers_documentScope (delivers_lookup hr _)) (hb.rules rule hrule)
  unfold globalRules
  cases block.inline.isEmpty with
  | true => exact hrules
  | false => exact Ensures.bind (Ensures.modify fun s hs => hs) fun _ _ => hrules

/-- Rules in elements and rules of the document. -/
theorem ensures_allRules_local (hr : NormalElements r) (wantLocal : Bool) {tree : List Node}
    (htree : AllNormal tree) :
    Ensures Clear (allRules r wantLocal tree) fun outs => ∀ out ∈ outs, LocalOutcomes out.2 := by
  have hflatten (outs : List (List (String × Outcomes)))
      (houts : ∀ rules ∈ outs, ∀ out ∈ rules, LocalOutcomes out.2) :
      ∀ out ∈ outs.flatten, LocalOutcomes out.2 := by
    intro out hout
    obtain ⟨rules, hrules, hout⟩ := List.mem_flatten.mp hout
    exact houts rules hrules out hout
  have houtside : Ensures Clear ((tree.filterMap Node.style?).mapM (globalRules r))
      fun outs => ∀ rules ∈ outs, ∀ out ∈ rules, LocalOutcomes out.2 :=
    ensures_each fun block hb =>
      ensures_globalRules_local hr (Specialization.style?_normal htree block hb)
  unfold allRules
  cases wantLocal with
  | false =>
    refine Ensures.bind (P := (· = [])) (Ensures.pure rfl) fun inside hi => ?_
    subst hi
    exact Ensures.bind houtside fun outside ho => Ensures.pure (hflatten outside ho)
  | true =>
    refine Ensures.bind (ensures_each fun p hp => ensures_localRules_local hr p.2 (hr p.2 p.1 ?_))
      fun inside hi => Ensures.bind houtside fun outside ho => Ensures.pure ?_
    · rw [Registry.entry?, ← Array.getElem?_toList]
      exact List.mem_zipIdx_iff_getElem?.mp hp
    · exact List.forall_mem_append.mpr ⟨hflatten inside hi, hflatten outside ho⟩

/-! ## Diagnostics -/

/-- Each failure of a property becomes one diagnostic, and nothing else does. -/
theorem LocalOutcomes.diagnostics {outcomes : Outcomes} (h : LocalOutcomes outcomes)
    (selector : String) : ∀ d ∈ outcomes.diagnostics selector, d.error.Local := by
  intro d hd
  obtain ⟨⟨property, result⟩, hmem, hd⟩ := List.mem_filterMap.mp hd
  cases result with
  | ok text => cases hd
  | error e =>
    cases hd
    exact h _ hmem e rfl

/-- All diagnostics of a resolution come from properties of elements and of rules. -/
theorem ensures_resolveIn_local (hr : NormalElements r) (order : List String) (wantLocal : Bool)
    {tree : List Node} (htree : AllNormal tree) :
    Ensures Clear (resolveIn r order wantLocal tree)
      fun res => ∀ d ∈ res.diagnostics, d.error.Local := by
  refine Ensures.bind (ensures_inlineOutcomes_local hr order) fun inline hi => ?_
  refine Ensures.bind (ensures_allRules_local hr wantLocal htree) fun rules hrules => ?_
  refine Ensures.pure fun d hd => ?_
  obtain ⟨out, hout, hd⟩ := List.mem_flatMap.mp hd
  exact LocalOutcomes.diagnostics (List.forall_mem_append.mpr ⟨hi, hrules⟩ out hout) out.1 d hd

/-- The registry holds the elements of the tree, and adds no expressions. -/
theorem normalElements_build {tree : List Node} (htree : AllNormal tree) :
    NormalElements (Registry.build tree).value := by
  intro h entry he
  refine htree.of_mem_preorder entry.element ?_
  rw [← Registry.map_element_build]
  refine List.mem_map_of_mem ?_
  rw [Registry.entry?, ← Array.getElem?_toList] at he
  exact List.mem_of_getElem? he

theorem resolve_yields_local {tree : List Node} (htree : AllNormal tree) (wantLocal : Bool) :
    Checked.Yields (resolve wantLocal tree) fun res => ∀ d ∈ res.diagnostics, d.error.Local := by
  intro res h
  obtain ⟨order, s, -, hrun⟩ := resolve_ok h
  have hclear : Clear {} := ⟨fun key value hm => (by cases hm), rfl⟩
  exact (ensures_resolveIn_local (normalElements_build htree) order wantLocal htree hclear hrun).2

end Resolution

namespace Document

/-- A tree that was expanded is without variables, and stays so when rules are prepared. -/
theorem expandAndPrepare_yields (options : Options) (imports : List Import) (document : List Node) :
    Checked.Yields (expandAndPrepare options imports document) AllNormal := by
  refine Checked.Yields.bind_any fun ns => ?_
  have hexpand : Checked.Yields (expandDocument ns options.maxDepth document) AllNormal :=
    Expansion.expandNodes_yields (Expansion.start_normal ns options.maxDepth) document
  exact hexpand.bind fun tree htree =>
    Checked.Yields.lift (LocalRules.prepareIn_normal options.attributes none htree)

/-- **Diagnostics are about expressions**: about units, about operands, and about references that lead
nowhere. A variable that cannot be replaced and a property that reads itself are no diagnostics; with
them a document does not compile. -/
theorem diagnostics_local {options : Options} {imports : List Import} {document : List Node}
    {output : Output} (h : (compile options imports document).outcome = .ok output) :
    ∀ d ∈ output.resolved.diagnostics, d.error.Local := by
  have hcompile : Checked.Yields (compile options imports document) fun output =>
      ∀ d ∈ output.resolved.diagnostics, d.error.Local := by
    have hexpand := (expandAndPrepare_yields options imports document).adapt CompileError.expand
    refine hexpand.bind fun tree htree => ?_
    have hresolve := Resolution.resolve_yields_local htree options.collectRules
    exact (hresolve.adapt CompileError.resolve).bind fun _ h => Checked.Yields.pure h
  exact hcompile h

/-- A document with a variable that stands for a reference to no element, a sum of two units, and a
condition that is no truth value. -/
def notice : List Node :=
  [.definition ⟨.template, "Theme", [],
    .vars (.ofList [("gap", .property (some ⟨.id "aside", none⟩) "width")])⟩,
   .element ⟨"div", .empty, [.style { inline := .ofList [
      ("margin", .var "Theme" "gap"),
      ("width", .binary .add (.dimension 1 (some "px")) (.dimension 2 (some "em"))),
      ("color", .conditional (.literal "dark") (.literal "white") (.literal "black"))] }]⟩]

theorem diagnostics_local_notice :
    ∃ output, (compile {} [] notice).outcome = .ok output ∧
      output.resolved.diagnostics.map Diagnostic.error =
        [.unresolvedReference "#aside" "width", .unitMismatch "px" "em",
          .operandType .condition .boolean .string] ∧
      ∀ d ∈ output.resolved.diagnostics, d.error.Local := by
  have hrun : (compile {} [] notice).outcome.toOption.map
      (fun output => output.resolved.diagnostics.map Diagnostic.error) =
        some [.unresolvedReference "#aside" "width", .unitMismatch "px" "em",
          .operandType .condition .boolean .string] := by decide +kernel
  obtain ⟨output, houtput, herrors⟩ := Option.map_eq_some_iff.mp hrun
  have h : (compile {} [] notice).outcome = .ok output := by
    cases hcompile : (compile {} [] notice).outcome with
    | error e =>
      rw [hcompile] at houtput
      cases houtput
    | ok output' =>
      rw [hcompile] at houtput
      cases houtput
      rfl
  exact ⟨output, h, herrors, diagnostics_local h⟩

end Document

end Stencil
