import Stencil.Expansion
import Stencil.Proofs.Checked
import Stencil.Proofs.OrderedMap

/-!
# The normal form of a document

An expanded document has no definitions, no usages and no variables, at no depth. Content gets into
it in many ways: from bodies of definitions, from insertions, overrides and property values of
usages, and from variables. Each of them is expanded on its way in, and what usages do to expanded
content keeps it expanded.

* `AllNormal` — the normal form
* `Specialization.applyToNodes_normal`, `Specialization.applyToProperties_varFree` —
  specializations keep it
* `expandDocument_normal` — expansion leads to it
-/

namespace Stencil

/-! ## Definitions -/

/-- No variable occurs in the expression. -/
def Expr.VarFree (e : Expr) : Prop := ∀ group name, Expr.var group name ∉ e.walk

/-- No variable occurs in the values of the properties. -/
def Properties.VarFree (properties : Properties) : Prop := properties.All Expr.VarFree

/-- A style block without usages, deletions and variables. -/
structure StyleBlock.Normal (b : StyleBlock) : Prop where
  usages : b.usages = []
  deletions : b.deletions = []
  inline : Properties.VarFree b.inline
  rules : ∀ rule ∈ b.rules, Properties.VarFree rule.properties

mutual

/-- A node is an element with normal children, a text, or a normal style block. -/
def Node.Normal : Node → Prop
  | .element ⟨_, _, children⟩ => AllNormal children
  | .text _ => True
  | .style b => b.Normal
  | .usage _ => False
  | .definition _ => False

/-- Every node of a list is normal. -/
def AllNormal : List Node → Prop
  | [] => True
  | node :: rest => node.Normal ∧ AllNormal rest

end

/-- What a specialization holds is normal. -/
def Specialization.Normal : Specialization → Prop
  | .delete _ => True
  | .insert _ _ content => AllNormal content
  | .override tree => AllNormal tree
  | .set properties => Properties.VarFree properties

/-! ## Expressions -/

namespace Expr

theorem VarFree.binary {left right : Expr} (hl : left.VarFree) (hr : right.VarFree)
    (op : BinaryOp) : (binary op left right).VarFree := by
  intro group name h
  rw [walk, List.mem_cons, List.mem_append] at h
  rcases h with h | h | h
  · cases h
  · exact hl group name h
  · exact hr group name h

theorem VarFree.conditional {cond yes no : Expr} (hc : cond.VarFree) (hy : yes.VarFree)
    (hn : no.VarFree) : (conditional cond yes no).VarFree := by
  intro group name h
  rw [walk, List.mem_cons, List.mem_append, List.mem_append] at h
  rcases h with h | (h | h) | h
  · cases h
  · exact hc group name h
  · exact hy group name h
  · exact hn group name h

end Expr

/-! ## Node lists -/

theorem allNormal_iff {nodes : List Node} : AllNormal nodes ↔ ∀ node ∈ nodes, node.Normal := by
  induction nodes with
  | nil => simp [AllNormal]
  | cons node rest ih => simp [AllNormal, ih]

theorem allNormal_append {nodes others : List Node} :
    AllNormal (nodes ++ others) ↔ AllNormal nodes ∧ AllNormal others := by
  simp only [allNormal_iff, List.forall_mem_append]

theorem allNormal_cons {node : Node} {rest : List Node} :
    AllNormal (node :: rest) ↔ node.Normal ∧ AllNormal rest := Iff.rfl

/-- An element is normal if its children are. -/
theorem element_normal_iff {e : Element} : (Node.element e).Normal ↔ AllNormal e.children := by
  cases e
  rfl

/-! ## Taking lists apart -/

/-- A split takes the nodes apart and loses none of them. -/
theorem eq_of_split? {p : Element → Bool} {n : Nat} {nodes : List Node} {s : Split}
    (h : split? p n nodes = some s) : nodes = s.before ++ .element s.element :: s.after := by
  induction nodes generalizing n s with
  | nil => cases h
  | cons node rest ih =>
    have later : ∀ {m},
        ((split? p m rest).map fun s => { s with before := node :: s.before }) = some s →
        node :: rest = s.before ++ .element s.element :: s.after := by
      intro m hm
      obtain ⟨s', hs', rfl⟩ := Option.map_eq_some_iff.mp hm
      exact congrArg (node :: ·) (ih hs')
    cases node with
    | element e =>
      simp only [split?] at h
      split at h
      · cases n with
        | zero => cases h; rfl
        | succ n => exact later h
      · exact later h
    | _ => exact later h

/-- The parts of a list of normal nodes are normal. -/
theorem split?_normal {p : Element → Bool} {n : Nat} {nodes : List Node} {s : Split}
    (h : split? p n nodes = some s) (hn : AllNormal nodes) :
    AllNormal s.before ∧ AllNormal s.element.children ∧ AllNormal s.after := by
  rw [eq_of_split? h, allNormal_append, allNormal_cons, element_normal_iff] at hn
  exact hn

/-! ## Styles of an element -/

theorem updateLastStyle_normal {f : StyleBlock → StyleBlock} (hf : ∀ b, b.Normal → (f b).Normal)
    {nodes nodes' : List Node} (h : Element.updateLastStyle f nodes = some nodes')
    (hn : AllNormal nodes) : AllNormal nodes' := by
  induction nodes generalizing nodes' with
  | nil => cases h
  | cons node rest ih =>
    unfold Element.updateLastStyle at h
    cases hrest : Element.updateLastStyle f rest with
    | some rest' =>
      rw [hrest] at h
      cases h
      exact ⟨hn.1, ih hrest hn.2⟩
    | none =>
      rw [hrest] at h
      cases node with
      | style b => cases h; exact ⟨hf b hn.1, hn.2⟩
      | _ => cases h

/-- The style block of an element is changed in place, or added if there is none. -/
theorem updateStyle_normal {f : StyleBlock → StyleBlock} (hf : ∀ b, b.Normal → (f b).Normal)
    {e : Element} (he : AllNormal e.children) : AllNormal (e.updateStyle f).children := by
  show AllNormal ((Element.updateLastStyle f e.children).getD (.style (f .empty) :: e.children))
  cases h : Element.updateLastStyle f e.children with
  | none =>
    have hempty : StyleBlock.Normal .empty := ⟨rfl, rfl, .empty, fun _ h => nomatch h⟩
    exact ⟨hf _ hempty, he⟩
  | some nodes => exact updateLastStyle_normal hf h he

theorem addStyle_normal {e : Element} {block : StyleBlock} (he : AllNormal e.children)
    (hb : block.Normal) : AllNormal (e.addStyle block).children := by
  unfold Element.addStyle
  split
  · exact he
  · refine updateStyle_normal (fun b h => ?_) he
    exact ⟨h.usages, h.deletions, OrderedMap.All.extend h.inline hb.inline,
      List.forall_mem_append.mpr ⟨h.rules, hb.rules⟩⟩

namespace Specialization

variable {specs : List Specialization} {nodes : List Node}

/-! ## Deletions and insertions -/

theorem deleteNode_normal (hn : AllNormal nodes) (d : Deletion) :
    AllNormal (deleteNode nodes d).value := by
  cases d with
  | property name =>
    refine allNormal_iff.mpr fun node' h => ?_
    obtain ⟨node, hnode, rfl⟩ := List.mem_map.mp h
    have hnode := allNormal_iff.mp hn node hnode
    cases node with
    | element e =>
      have he := element_normal_iff.mp hnode
      exact element_normal_iff.mpr he
    | _ => exact hnode
  | element selector =>
    rw [deleteNode]
    cases h : selector.split? nodes with
    | none => exact hn
    | some s =>
      obtain ⟨hb, -, ha⟩ := split?_normal h hn
      exact allNormal_append.mpr ⟨hb, ha⟩
  | inherited kind name => exact hn

/-- Nodes stay, or give way to what is inserted. -/
theorem insertNodes_normal (position : Position) (target : Option Selector) {content : List Node}
    (hc : AllNormal content) (hn : AllNormal nodes) :
    AllNormal (insertNodes position target content nodes).value := by
  have beside : ∀ {place : Split → List Node},
      (∀ s : Split, AllNormal s.before → AllNormal s.element.children → AllNormal s.after →
        AllNormal (place s)) →
      AllNormal (insertNodes.beside position target nodes place).value := by
    intro place hplace
    unfold insertNodes.beside
    cases target with
    | none => exact hn
    | some selector =>
      dsimp only
      cases h : selector.split? nodes with
      | none => exact hn
      | some s =>
        obtain ⟨hb, he, ha⟩ := split?_normal h hn
        exact hplace s hb he ha
  cases position with
  | atTop => exact allNormal_append.mpr ⟨hc, hn⟩
  | atBottom => exact allNormal_append.mpr ⟨hn, hc⟩
  | before =>
    refine beside fun s hb he ha => ?_
    exact allNormal_append.mpr ⟨allNormal_append.mpr ⟨hb, hc⟩, element_normal_iff.mpr he, ha⟩
  | after =>
    refine beside fun s hb he ha => ?_
    exact allNormal_append.mpr ⟨hb, element_normal_iff.mpr he, allNormal_append.mpr ⟨hc, ha⟩⟩
  | replace =>
    refine beside fun s hb he ha => ?_
    exact allNormal_append.mpr ⟨allNormal_append.mpr ⟨hb, hc⟩, ha⟩

/-! ## Overrides -/

theorem foldl_addStyle_normal {blocks : List StyleBlock} (hb : ∀ b ∈ blocks, b.Normal) {e : Element}
    (he : AllNormal e.children) : AllNormal (blocks.foldl Element.addStyle e).children := by
  induction blocks generalizing e with
  | nil => exact he
  | cons b rest ih =>
    have hadded := addStyle_normal he (hb b List.mem_cons_self)
    exact ih (fun b h => hb b (List.mem_cons_of_mem _ h)) hadded

theorem style?_normal (hn : AllNormal nodes) : ∀ b ∈ nodes.filterMap Node.style?, b.Normal := by
  intro b hb
  obtain ⟨node, hnode, h⟩ := List.mem_filterMap.mp hb
  have hnode := allNormal_iff.mp hn node hnode
  cases node with
  | style block => cases h; exact hnode
  | _ => cases h

mutual

/-- The styles of a normal tree leave normal nodes normal. -/
theorem overrideNodes_normal (seen : List String) {nodes : List Node} (hn : AllNormal nodes) :
    ∀ {tree : List Node}, AllNormal tree → AllNormal (overrideNodes seen nodes tree).value
  | [], _ => hn
  | .element overriding :: rest, ht => by
    rw [overrideNodes]
    cases h : split? (fun e => Text.sameLetters e.tag (Text.lower overriding.tag))
        (seen.count (Text.lower overriding.tag)) nodes with
    | none => exact overrideNodes_normal _ hn ht.2
    | some s =>
      obtain ⟨hb, he, ha⟩ := split?_normal h hn
      have hmerged :=
        element_normal_iff.mpr (overrideElement_normal he (element_normal_iff.mp ht.1))
      have hnodes := allNormal_append.mpr ⟨hb, allNormal_cons.mpr ⟨hmerged, ha⟩⟩
      exact overrideNodes_normal _ hnodes ht.2
  | .text _ :: rest, ht => by
    rw [overrideNodes]
    · exact overrideNodes_normal seen hn ht.2
    · nofun
  | .style _ :: rest, ht => by
    rw [overrideNodes]
    · exact overrideNodes_normal seen hn ht.2
    · nofun
  -- A normal tree has neither of these.
  | .usage _ :: _, ht => nomatch ht.1
  | .definition _ :: _, ht => nomatch ht.1

/-- What overrides an element adds its style blocks, and goes on with the children. -/
theorem overrideElement_normal {target : Element} (hn : AllNormal target.children) :
    ∀ {overriding : Element}, AllNormal overriding.children →
      AllNormal (overrideElement target overriding).value.children
  | ⟨_, _, children⟩, ht => by
    rw [overrideElement]
    exact overrideNodes_normal [] (foldl_addStyle_normal (style?_normal ht) hn) ht

end

/-! ## All at once -/

/-- Specializations that hold normal content keep a node list normal. -/
theorem applyToNodes_normal (kind : Kind) (name : String) (hs : ∀ spec ∈ specs, spec.Normal)
    (hn : AllNormal nodes) : AllNormal (applyToNodes kind name specs nodes).value := by
  have hkept : AllNormal ((deletions specs).foldlM deleteNode nodes).value :=
    Logged.foldlM_induction hn fun _ h d _ => deleteNode_normal h d
  refine Logged.foldlM_induction (Logged.foldlM_induction hkept ?_) ?_
  · intro nodes h spec hmem
    have hspec := hs spec hmem
    cases spec with
    | insert position target content => exact insertNodes_normal position target hspec h
    | _ => exact h
  · intro nodes h spec hmem
    have hspec := hs spec hmem
    cases spec with
    | override tree => exact overrideNodes_normal [] h hspec
    | _ => exact h

/-- A deletion of properties leaves some of them out. -/
theorem deleteProperty_varFree (kind : Kind) (name : String) {properties : Properties}
    (hp : Properties.VarFree properties) (d : Deletion) :
    Properties.VarFree (deleteProperty kind name properties d).value := by
  cases d with
  | property property => exact OrderedMap.All.erase hp property
  | _ => exact hp

/-- Specializations that hold normal content keep properties free of variables. -/
theorem applyToProperties_varFree (kind : Kind) (name : String) (hs : ∀ spec ∈ specs, spec.Normal)
    {properties : Properties} (hp : Properties.VarFree properties) :
    Properties.VarFree (applyToProperties kind name specs properties).value := by
  have hkept : Properties.VarFree
      ((deletions specs).foldlM (deleteProperty kind name) properties).value :=
    Logged.foldlM_induction hp fun _ h d _ => deleteProperty_varFree kind name h d
  refine Logged.foldlM_induction hkept ?_
  intro properties h spec hmem
  have hspec := hs spec hmem
  cases spec with
  | set values => exact OrderedMap.All.extend h hspec
  | _ => exact h

end Specialization

namespace Expansion

open Checked

/-! ## Variables -/

/-- What can be done inside a definition leads to normal results. -/
structure Inside.Normal (inside : Inside) : Prop where
  nodes : ∀ stack nodes, (inside.nodes stack nodes).Yields AllNormal
  style : ∀ stack block, (inside.style stack block).Yields Properties.VarFree
  value : ∀ stack e, (inside.value stack e).Yields Expr.VarFree

/-- So does what can be done one level further in. -/
def Site.Normal (site : Site) : Prop := ∀ inside, site.inside = some inside → inside.Normal

variable {site : Site}

/-- Inside of a definition the site is a normal one again. -/
theorem enter_yields (hsite : site.Normal) {α : Type} {P : α → Prop} (frame : Frame)
    {act : Inside → List Frame → Expanding α}
    (h : ∀ inside : Inside, inside.Normal → ∀ stack, (act inside stack).Yields P) :
    (site.enter frame act).Yields P := by
  unfold Site.enter
  split
  · exact Yields.throw _
  · cases hin : site.inside with
    | none => exact Yields.throw _
    | some inside => exact h inside (hsite inside hin) _

theorem variableValue_yields (hsite : site.Normal) (group name : String) :
    (site.variableValue group name).Yields Expr.VarFree := by
  refine Yields.bind_any fun found => ?_
  dsimp only
  split
  · exact Yields.throw _
  · exact enter_yields hsite _ fun inside hin stack => hin.value stack _

/-- All variables of an expression are replaced, and what replaces them has none. -/
theorem substitute_yields (hsite : site.Normal) (e : Expr) :
    (site.substitute e).Yields Expr.VarFree := by
  induction e with
  | var group name => exact variableValue_yields hsite group name
  | binary op left right ihl ihr =>
    exact Yields.bind ihl fun _ hl => Yields.bind ihr fun _ hr => Yields.pure (hl.binary hr op)
  | conditional cond yes no ihc ihy ihn =>
    exact Yields.bind ihc fun _ hc => Yields.bind ihy fun _ hy => Yields.bind ihn fun _ hn =>
      Yields.pure (hc.conditional hy hn)
  | _ => exact Yields.pure fun group name h => nomatch List.mem_singleton.mp h

theorem substituteAll_yields (hsite : site.Normal) (properties : Properties) :
    (site.substituteAll properties).Yields Properties.VarFree :=
  Yields.mapM_entries (fun _ e => substitute_yields hsite e) properties

theorem substituteRule_yields (hsite : site.Normal) (rule : Rule) :
    (site.substituteRule rule).Yields fun rule => Properties.VarFree rule.properties :=
  Yields.bind (substituteAll_yields hsite rule.properties) fun _ hp => Yields.pure hp

/-! ## Nodes -/

mutual

/-- At a normal site, every expansion that succeeds is normal. -/
theorem expandNodes_yields (hsite : site.Normal) :
    ∀ nodes : List Node, (site.expandNodes nodes).Yields AllNormal
  | [] => Yields.pure trivial
  | node :: rest => by
    rw [Site.expandNodes]
    exact Yields.bind (expandNode_yields hsite node) fun _ hf =>
      Yields.bind (expandNodes_yields hsite rest) fun _ ho =>
        Yields.pure (allNormal_append.mpr ⟨hf, ho⟩)

theorem expandNode_yields (hsite : site.Normal) :
    ∀ node : Node, (site.expandNode node).Yields AllNormal
  | .element ⟨tag, attributes, children⟩ => by
    rw [Site.expandNode]
    exact Yields.bind (expandNodes_yields hsite children) fun _ hc => Yields.pure ⟨hc, trivial⟩
  | .text text => by
    rw [Site.expandNode]
    exact Yields.pure ⟨trivial, trivial⟩
  | .style ⟨inline, rules, usages, deletions⟩ => by
    rw [Site.expandNode]
    -- What the block inherits need not be normal: it is substituted in together with the rest.
    refine Yields.bind_any fun inherited => ?_
    refine Yields.bind (substituteAll_yields hsite _) fun inline hi => ?_
    refine Yields.bind (Yields.mapM (substituteRule_yields hsite) rules) fun rules hr => ?_
    exact Yields.pure ⟨⟨rfl, rfl, hi, hr⟩, trivial⟩
  | .usage usage => by
    rw [Site.expandNode]
    cases usage.kind with
    | element => exact elementUsage_yields hsite usage
    | style =>
      refine Yields.bind (styleUsage_yields hsite usage) fun properties hp => ?_
      exact Yields.pure ⟨⟨rfl, rfl, hp, fun _ h => nomatch h⟩, trivial⟩
    | var => exact Yields.throw _
  | .definition _ => by
    rw [Site.expandNode]
    exact Yields.pure trivial

theorem elementUsage_yields (hsite : site.Normal) :
    ∀ usage : Usage, (site.elementUsage usage).Yields AllNormal
  | ⟨kind, name, path, specs⟩ => by
    rw [Site.elementUsage]
    refine Yields.bind_any fun found => Yields.bind_any fun body => ?_
    refine Yields.bind (enter_yields hsite _ fun inside hin stack => hin.nodes stack _)
      fun nodes hn => ?_
    refine Yields.bind (expandSpecializations_yields hsite specs) fun specs hs => ?_
    exact Yields.lift (Specialization.applyToNodes_normal kind name hs hn)

theorem styleUsage_yields (hsite : site.Normal) :
    ∀ usage : Usage, (site.styleUsage usage).Yields Properties.VarFree
  | ⟨kind, name, path, specs⟩ => by
    rw [Site.styleUsage]
    refine Yields.bind_any fun found => Yields.bind_any fun body => ?_
    refine Yields.bind (enter_yields hsite _ fun inside hin stack => hin.style stack _)
      fun inherited hi => ?_
    refine Yields.bind (expandSpecializations_yields hsite specs) fun specs hs => ?_
    refine Yields.bind (Yields.lift (Specialization.applyToProperties_varFree kind name hs hi))
      fun properties hp => ?_
    exact Yields.bind_any fun _ => Yields.pure hp

/-- Specializations are expanded before they are applied, so that they add nothing that is not
normal. -/
theorem expandSpecializations_yields (hsite : site.Normal) : ∀ specs : List Specialization,
    (site.expandSpecializations specs).Yields fun specs => ∀ spec ∈ specs, spec.Normal
  | [] => by
    rw [Site.expandSpecializations]
    exact Yields.pure fun _ h => nomatch h
  | .delete targets :: rest => by
    rw [Site.expandSpecializations]
    exact Yields.bind (expandSpecializations_yields hsite rest) fun _ hr =>
      Yields.pure (List.forall_mem_cons.mpr ⟨trivial, hr⟩)
  | .insert position target content :: rest => by
    rw [Site.expandSpecializations]
    exact Yields.bind (expandNodes_yields hsite content) fun _ hc =>
      Yields.bind (expandSpecializations_yields hsite rest) fun _ hr =>
        Yields.pure (List.forall_mem_cons.mpr ⟨hc, hr⟩)
  | .override tree :: rest => by
    rw [Site.expandSpecializations]
    exact Yields.bind (expandNodes_yields hsite tree) fun _ ht =>
      Yields.bind (expandSpecializations_yields hsite rest) fun _ hr =>
        Yields.pure (List.forall_mem_cons.mpr ⟨ht, hr⟩)
  | .set properties :: rest => by
    rw [Site.expandSpecializations]
    exact Yields.bind (substituteAll_yields hsite properties) fun _ hp =>
      Yields.bind (expandSpecializations_yields hsite rest) fun _ hr =>
        Yields.pure (List.forall_mem_cons.mpr ⟨hp, hr⟩)

end

/-! ## Documents -/

/-- What can be done inside a definition leads to normal results, however deep it is. -/
theorem level_normal (table : Namespace) (maxDepth n : Nat) :
    ∀ inside, level table maxDepth n = some inside → inside.Normal := by
  induction n with
  | zero => exact fun _ h => nomatch h
  | succ n ih =>
    rintro inside ⟨⟩
    -- Whatever the stack, what is one level further in is normal by induction.
    have hsite (stack : List Frame) :
        Site.Normal { table, maxDepth, stack, inside := level table maxDepth n } := ih
    exact {
      nodes := fun stack nodes => expandNodes_yields (hsite stack) nodes
      style := fun stack block => Yields.bind_any fun _ => substituteAll_yields (hsite stack) _
      value := fun stack e => substitute_yields (hsite stack) e }

theorem start_normal (table : Namespace) (maxDepth : Nat) : (Site.start table maxDepth).Normal :=
  level_normal table maxDepth _

end Expansion

/-- **Expansion leads to the normal form.** Whatever the definitions and the depth, an expanded
document has no definition and no usage at any depth, and its style blocks have no usages, no
deletions and no variables. -/
theorem expandDocument_normal {table : Namespace} {maxDepth : Nat} {document tree : List Node}
    (h : (expandDocument table maxDepth document).outcome = .ok tree) : AllNormal tree :=
  Expansion.expandNodes_yields (Expansion.start_normal table maxDepth) document h

/-- A usage with an insertion, of a definition that reads a variable. -/
def greeting : List Node :=
  [.definition ⟨.template, "Theme", [], .vars (.ofList [("main", .literal "red")])⟩,
   .definition ⟨.template, "Card", [], .element
    [.element ⟨"div", .empty, [.style { inline := .ofList [("color", .var "Theme" "main")] }]⟩]⟩,
   .usage ⟨.element, "Card", [], [.insert .atBottom none [.text "hello"]]⟩]

theorem expandDocument_normal_greeting :
    ∃ tree, (expandDocument (Namespace.ofDocument greeting).value 2 greeting).outcome = .ok tree ∧
      tree = [.element ⟨"div", .empty, [.style { inline := .ofList [("color", .literal "red")] }]⟩,
        .text "hello"] ∧ AllNormal tree := by
  have h : (expandDocument (Namespace.ofDocument greeting).value 2 greeting).outcome
      = .ok [.element ⟨"div", .empty, [.style { inline := .ofList [("color", .literal "red")] }]⟩,
        .text "hello"] := by rfl
  exact ⟨_, h, rfl, expandDocument_normal h⟩

end Stencil
