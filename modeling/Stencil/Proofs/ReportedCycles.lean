import Stencil.Proofs.FlatNamespace
import Stencil.Proofs.Links
import Stencil.Proofs.Requests

/-!
# Cycles that are reported

Expansion reports a cycle when it is about to enter a definition whose frame is on its stack. The
stack is a trail of links: each of them was entered because of something that is written in the one
before, be it in a body, in a value or in a specialization. So the report is about definitions that
use each other, and about one that comes back to itself.

* `Site.Raising` — what goes wrong at a site when mentions are followed
* `raises_expandNodes`, `raises_run` — then nothing else goes wrong with what is asked for
* `raising_of_enter` — what else goes wrong is met on entering links
* `raising_atLevel` — on a trail, only cycles of links are met
* `reported_cycle_real` — a reported cycle is a cycle of links
-/

namespace Stencil

open Relation (TransGen)

namespace Expansion

open Checked

variable {site : Site} {allowed : Mention → Prop} {P : ExpandError → Prop} {α : Type}

/-! ## What goes wrong at a site -/

/-- What goes wrong at a site when a mention is followed has the property `P`, for all mentions that
are allowed. -/
structure Site.Raising (site : Site) (allowed : Mention → Prop) (P : ExpandError → Prop) :
    Prop where
  normal : site.Normal
  misplaced : ∀ kind name place, P (.misplaced kind name place)
  value : ∀ group name, allowed (.var group name) → (site.variableValue group name).Raises P
  nodes : ∀ name path specs, allowed (.usage .element name path) →
    (site.elementContent .element name path specs).Raises P
  style : ∀ name path specs, allowed (.usage .style name path) →
    (site.styleContent .style name path specs).Raises P

/-- A failure in an expression comes from one of its variables. -/
theorem raises_substitute (hsite : site.Raising allowed P) {e : Expr}
    (h : ∀ m ∈ e.mentions, allowed m) : (site.substitute e).Raises P := by
  replace h (group name : String) (hv : .var group name ∈ e.walk) : allowed (.var group name) :=
    h _ (Expr.mem_mentions_of_mem_walk hv)
  induction e with
  | var group name => exact hsite.value group name (h group name (Expr.self_mem_walk _))
  | binary op left right ihl ihr =>
    have hl := ihl fun group name hv => h group name (Expr.mem_walk_left hv)
    have hr := ihr fun group name hv => h group name (Expr.mem_walk_right hv)
    exact Raises.bind hl fun _ _ => Raises.bind hr fun _ _ => Raises.pure _
  | conditional cond yes no ihc ihy ihn =>
    have hc := ihc fun group name hv => h group name (Expr.mem_walk_cond hv)
    have hy := ihy fun group name hv => h group name (Expr.mem_walk_yes hv)
    have hn := ihn fun group name hv => h group name (Expr.mem_walk_no hv)
    exact Raises.bind hc fun _ _ => Raises.bind hy fun _ _ => Raises.bind hn fun _ _ =>
      Raises.pure _
  | _ => exact Raises.pure _

theorem raises_substituteAll (hsite : site.Raising allowed P) {properties : Properties}
    (h : properties.All fun e => ∀ m ∈ e.mentions, allowed m) :
    (site.substituteAll properties).Raises P :=
  Raises.mapM_entries fun e he => raises_substitute hsite (h e he)

theorem raises_substituteRules (hsite : site.Raising allowed P) {rules : List Rule}
    (h : ∀ m ∈ rules.flatMap fun rule => Properties.mentions rule.properties, allowed m) :
    (rules.mapM site.substituteRule).Raises P := by
  rw [List.forall_mem_flatMap] at h
  refine Raises.mapM fun rule hrule => ?_
  refine Raises.bind (raises_substituteAll hsite ?_) fun _ _ => Raises.pure _
  exact List.forall_mem_flatMap.mp (h rule hrule)

/-- Only the own properties of a style block have variables that are left to replace. -/
theorem raises_ownStyle (hsite : site.Raising allowed P) {inherited inline : Properties}
    (hinherited : Properties.VarFree inherited)
    (h : ∀ m ∈ Properties.mentions inline, allowed m) (deletions : List String) :
    (site.ownStyle inherited inline deletions).Raises P := by
  have hall : inherited.All fun e => ∀ m ∈ e.mentions, allowed m := by
    intro e he
    rw [(hinherited e he).mentions_eq_nil]
    exact fun _ hm => nomatch hm
  refine raises_substituteAll hsite (OrderedMap.All.eraseAll (hall.extend ?_) deletions)
  exact List.forall_mem_flatMap.mp h

theorem mergeUsages_yields (hsite : site.Normal) {merged : Properties}
    (hmerged : Properties.VarFree merged) (used : List Usage) :
    (site.mergeUsages merged used).Yields Properties.VarFree := by
  induction used generalizing merged with
  | nil =>
    rw [Site.mergeUsages]
    exact Yields.pure hmerged
  | cons usage rest ih =>
    rw [Site.mergeUsages]
    cases usage.kind with
    | style =>
      exact Yields.bind (styleUsage_yields hsite usage) fun _ hp =>
        ih (OrderedMap.All.extend hmerged hp)
    | _ => exact Yields.throw _

mutual

/-- A failure in nodes comes from something that they mention. -/
theorem raises_expandNodes (hsite : site.Raising allowed P) : ∀ nodes : List Node,
    (∀ m ∈ mentions nodes, allowed m) → (site.expandNodes nodes).Raises P
  | [], _ => Raises.pure _
  | node :: rest, h => by
    rw [mentions, List.forall_mem_append] at h
    rw [Site.expandNodes]
    exact Raises.bind (raises_expandNode hsite node h.1) fun _ _ =>
      Raises.bind (raises_expandNodes hsite rest h.2) fun _ _ => Raises.pure _

theorem raises_expandNode (hsite : site.Raising allowed P) : ∀ node : Node,
    (∀ m ∈ node.mentions, allowed m) → (site.expandNode node).Raises P
  | .element ⟨tag, attributes, children⟩, h => by
    rw [Node.mentions] at h
    rw [Site.expandNode]
    exact Raises.bind (raises_expandNodes hsite children h) fun _ _ => Raises.pure _
  | .text text, _ => by
    rw [Site.expandNode]
    exact Raises.pure _
  | .style ⟨inline, rules, used, deletions⟩, h => by
    rw [Node.mentions, StyleBlock.mentions, List.forall_mem_append, List.forall_mem_append] at h
    rw [Site.expandNode]
    -- What is inherited is gone through once more, and no variable is met in it.
    refine Raises.bind (raises_mergeUsages hsite .empty used h.2) fun inherited hi => ?_
    have hinherited := mergeUsages_yields hsite.normal .empty used hi
    refine Raises.bind (raises_ownStyle hsite hinherited h.1.1 deletions) fun _ _ => ?_
    exact Raises.bind (raises_substituteRules hsite h.1.2) fun _ _ => Raises.pure _
  | .usage usage, h => by
    rw [Node.mentions] at h
    rw [Site.expandNode]
    cases hkind : usage.kind with
    | element => exact raises_elementUsage hsite usage hkind h
    | style => exact Raises.bind (raises_styleUsage hsite usage hkind h) fun _ _ => Raises.pure _
    | var => exact Raises.throw (hsite.misplaced _ _ _)
  | .definition _, _ => by
    rw [Site.expandNode]
    exact Raises.pure _

theorem raises_elementUsage (hsite : site.Raising allowed P) : ∀ usage : Usage,
    usage.kind = .element → (∀ m ∈ usage.mentions, allowed m) → (site.elementUsage usage).Raises P
  | ⟨kind, name, path, specs⟩, hkind, h => by
    obtain rfl : kind = .element := hkind
    rw [Usage.mentions, List.forall_mem_cons] at h
    rw [elementUsage_eq]
    refine Raises.bind (hsite.nodes name path specs h.1) fun _ _ => ?_
    exact Raises.bind (raises_expandSpecializations hsite specs h.2) fun _ _ =>
      Raises.of_ok (outcome_lift _)

theorem raises_styleUsage (hsite : site.Raising allowed P) : ∀ usage : Usage,
    usage.kind = .style → (∀ m ∈ usage.mentions, allowed m) → (site.styleUsage usage).Raises P
  | ⟨kind, name, path, specs⟩, hkind, h => by
    obtain rfl : kind = .style := hkind
    rw [Usage.mentions, List.forall_mem_cons] at h
    rw [styleUsage_eq]
    refine Raises.bind (hsite.style name path specs h.1) fun _ _ => ?_
    refine Raises.bind (raises_expandSpecializations hsite specs h.2) fun _ _ => ?_
    refine Raises.bind (Raises.of_ok (outcome_lift _)) fun _ _ => ?_
    exact Raises.bind (Raises.of_ok (outcome_noteValueless _ _)) fun _ _ => Raises.pure _

theorem raises_mergeUsages (hsite : site.Raising allowed P) (merged : Properties) :
    ∀ used : List Usage, (∀ m ∈ mentionsOfAll used, allowed m) →
    (site.mergeUsages merged used).Raises P
  | [], _ => by
    rw [Site.mergeUsages]
    exact Raises.pure _
  | usage :: rest, h => by
    rw [mentionsOfAll, List.forall_mem_append] at h
    rw [Site.mergeUsages]
    cases hkind : usage.kind with
    | style =>
      exact Raises.bind (raises_styleUsage hsite usage hkind h.1) fun properties _ =>
        raises_mergeUsages hsite (merged.extend properties) rest h.2
    | _ => exact Raises.throw (hsite.misplaced _ _ _)

/-- What specializations hold is mentioned where the usage stands. -/
theorem raises_expandSpecializations (hsite : site.Raising allowed P) :
    ∀ specs : List Specialization, (∀ m ∈ mentionsOfSpecializations specs, allowed m) →
    (site.expandSpecializations specs).Raises P
  | [], _ => by
    rw [Site.expandSpecializations]
    exact Raises.pure _
  | .delete targets :: rest, h => by
    rw [mentionsOfSpecializations] at h
    rw [Site.expandSpecializations]
    exact Raises.bind (raises_expandSpecializations hsite rest h) fun _ _ => Raises.pure _
  | .insert position target content :: rest, h => by
    rw [mentionsOfSpecializations, List.forall_mem_append] at h
    rw [Site.expandSpecializations]
    exact Raises.bind (raises_expandNodes hsite content h.1) fun _ _ =>
      Raises.bind (raises_expandSpecializations hsite rest h.2) fun _ _ => Raises.pure _
  | .override tree :: rest, h => by
    rw [mentionsOfSpecializations, List.forall_mem_append] at h
    rw [Site.expandSpecializations]
    exact Raises.bind (raises_expandNodes hsite tree h.1) fun _ _ =>
      Raises.bind (raises_expandSpecializations hsite rest h.2) fun _ _ => Raises.pure _
  | .set properties :: rest, h => by
    rw [mentionsOfSpecializations, List.forall_mem_append] at h
    rw [Site.expandSpecializations]
    refine Raises.bind (raises_substituteAll hsite (List.forall_mem_flatMap.mp h.1)) fun _ _ => ?_
    exact Raises.bind (raises_expandSpecializations hsite rest h.2) fun _ _ => Raises.pure _

end

theorem raises_mergeStyle (hsite : site.Raising allowed P) (block : StyleBlock)
    (h : ∀ m ∈ block.mentions, allowed m) : (site.mergeStyle block).Raises P := by
  obtain ⟨inline, rules, used, deletions⟩ := block
  rw [StyleBlock.mentions, List.forall_mem_append, List.forall_mem_append] at h
  refine Raises.bind (raises_mergeUsages hsite .empty used h.2) fun inherited hi => ?_
  exact raises_ownStyle hsite (mergeUsages_yields hsite.normal .empty used hi) h.1.1 deletions

/-! ## What goes wrong with what is asked for -/

def Content.mentions : Content α → List Mention
  | .nodes body => Stencil.mentions body
  | .style block => block.mentions
  | .value e => e.mentions

theorem raises_expandContent (hsite : site.Raising allowed P) (content : Content α)
    (h : ∀ m ∈ content.mentions, allowed m) : (site.expandContent content).Raises P := by
  cases content with
  | nodes nodes => exact raises_expandNodes hsite nodes h
  | style block => exact raises_mergeStyle hsite block h
  | value e => exact raises_substitute hsite h

/-- The usages and variables in what is asked for. -/
def Request.mentions : Request α → List Mention
  | .document nodes => Stencil.mentions nodes
  | .element e => Stencil.mentions e.children
  | .style block => block.mentions
  | .usage u => u.mentions
  | .var group name => [.var group name]

/-- A failure of a request comes from something that it mentions. -/
theorem raises_run (hsite : site.Raising allowed P) (request : Request α)
    (h : ∀ m ∈ request.mentions, allowed m) : (site.run request).Raises P := by
  cases request with
  | document nodes => exact raises_expandNodes hsite nodes h
  | element e => exact Raises.bind (raises_expandNodes hsite e.children h) fun _ _ => Raises.pure _
  | style block =>
    refine Raises.bind (raises_mergeStyle hsite block h) fun _ _ => ?_
    obtain ⟨inline, rules, used, deletions⟩ := block
    rw [Request.mentions, StyleBlock.mentions, List.forall_mem_append, List.forall_mem_append] at h
    exact Raises.bind (raises_substituteRules hsite h.1.2) fun _ _ => Raises.pure _
  | usage usage => exact raises_expandNode hsite (.usage usage) h
  | var group name => exact hsite.value group name (h _ (List.mem_singleton_self _))

/-! ## Links that are entered -/

section Entering

variable {table : Namespace} {kind : Kind} {name : String} {path scope : Path} {found : Found}

/-- An element or a style that a usage leads to is a link of the table, and is entered as one. -/
theorem link_of_lookup (hkeyed : table.Keyed)
    (h : table.lookup name kind (if path = [] then scope else path) = some found)
    (hbody : found.definition.kind ≠ .var) :
    let link := Link.definition kind name found.path
    (Mention.usage kind name path).target? table scope = some link ∧ link.Defined table ∧
      link.mentions table = found.definition.body.mentions ∧ link.frame = Frame.ofFound found := by
  have hget := Namespace.getAt?_of_lookup h
  obtain ⟨hname, hkind⟩ := hkeyed hget
  refine ⟨?_, ⟨hkind ▸ hbody, ?_⟩, ?_, ?_⟩
  · rw [Mention.target?, h]
    rfl
  · rw [hget]
    rfl
  · rw [Link.mentions, hget]
    rfl
  · rw [Link.frame, Frame.ofFound, hname, hkind]

/-- A definition that is looked up as an element has nodes for a body. -/
theorem exists_nodes_of_lookup (hkeyed : table.Keyed)
    (h : table.lookup name .element path = some found) :
    ∃ nodes, found.definition.body = .element nodes := by
  have hkind : found.definition.body.kind = .element := (hkeyed (Namespace.getAt?_of_lookup h)).2
  cases hbody : found.definition.body with
  | element nodes => exact ⟨nodes, rfl⟩
  | _ =>
    rw [hbody] at hkind
    cases hkind

/-- One that is looked up as a style has a style block. -/
theorem exists_block_of_lookup (hkeyed : table.Keyed)
    (h : table.lookup name .style path = some found) :
    ∃ block, found.definition.body = .style block := by
  have hkind : found.definition.body.kind = .style := (hkeyed (Namespace.getAt?_of_lookup h)).2
  cases hbody : found.definition.body with
  | style block => exact ⟨block, rfl⟩
  | _ =>
    rw [hbody] at hkind
    cases hkind

/-- So is a variable of a group. -/
theorem link_of_bound {group : String} {e : Expr} (h : table.lookup group .var scope = some found)
    (hbound : found.definition.bound? name = some e) :
    let link := Link.var group name found.path
    (Mention.var group name).target? table scope = some link ∧ link.Defined table ∧
      link.mentions table = e.mentions := by
  have hget : (table.getAt? found.path group .var).bind (·.bound? name) = some e := by
    rw [Namespace.getAt?_of_lookup h]
    exact hbound
  refine ⟨?_, ?_, ?_⟩
  · rw [Mention.target?, h]
    rfl
  · rw [Link.Defined, hget]
    rfl
  · rw [Link.mentions, hget]
    rfl

end Entering

/-- A lookup fails for one reason only. -/
theorem raises_resolve (site : Site) (hundefined : ∀ kind name path, P (.undefined kind name path))
    (kind : Kind) (name : String) (path : Path) : (site.resolve kind name path).Raises P := by
  unfold Site.resolve
  dsimp only
  split
  · exact Raises.pure _
  · exact Raises.throw (hundefined _ _ _)

/-- **What else goes wrong is met on entering links.** A property of failures that holds of usages out
of place and of names that are not defined holds at a site, if it holds whenever a link is entered that
an allowed mention leads to, with something that the link holds. A definition of the wrong kind is
never met. -/
theorem raising_of_enter (hkeyed : site.table.Keyed) (hnormal : site.Normal)
    (hmisplaced : ∀ kind name place, P (.misplaced kind name place))
    (hundefined : ∀ kind name path, P (.undefined kind name path))
    (hvariable : ∀ group name, P (.undefinedVariable group name))
    (henter : ∀ {β : Type} (content : Content β) (m : Mention) (link : Link), allowed m →
      m.target? site.table site.scope = some link → link.Defined site.table →
      content.mentions ⊆ link.mentions site.table →
      (site.enterWith link.frame content).Raises P) : site.Raising allowed P where
  normal := hnormal
  misplaced := hmisplaced
  value group name h := by
    refine Raises.bind (raises_resolve site hundefined _ _ _) fun found hfound => ?_
    replace hfound := resolve_yields site _ _ _ hfound
    rw [Site.origin_nil] at hfound
    dsimp only
    split
    · exact Raises.throw (hvariable _ _)
    · rename_i e hbound
      obtain ⟨htarget, hdefined, hmentions⟩ := link_of_bound hfound hbound
      refine henter (.value e) _ _ h htarget hdefined ?_
      rw [hmentions]
      exact List.Subset.refl _
  nodes name path specs h := by
    refine Raises.bind (raises_resolve site hundefined _ _ _) fun found hfound => ?_
    replace hfound := resolve_yields site _ _ _ hfound
    obtain ⟨nodes, hbody⟩ := exists_nodes_of_lookup hkeyed hfound
    obtain ⟨htarget, hdefined, hmentions, hframe⟩ :=
      link_of_lookup hkeyed hfound (by simp [Definition.kind, Body.kind, hbody])
    rw [Site.elementBody, hbody]
    dsimp only
    rw [pure_bind, ← hframe]
    refine henter (.nodes (Specialization.keptNodes specs nodes)) _ _ h htarget hdefined ?_
    rw [hmentions, hbody]
    exact mentions_keptNodes_subset specs nodes
  style name path specs h := by
    refine Raises.bind (raises_resolve site hundefined _ _ _) fun found hfound => ?_
    replace hfound := resolve_yields site _ _ _ hfound
    obtain ⟨block, hbody⟩ := exists_block_of_lookup hkeyed hfound
    obtain ⟨htarget, hdefined, hmentions, hframe⟩ :=
      link_of_lookup hkeyed hfound (by simp [Definition.kind, Body.kind, hbody])
    rw [Site.styleBody, hbody]
    dsimp only
    rw [pure_bind, ← hframe]
    refine Raises.bind ?_ fun _ _ => Raises.pure _
    refine henter (.style (Specialization.keptStyle specs block)) _ _ h htarget hdefined ?_
    rw [hmentions, hbody]
    exact mentions_keptStyle_subset specs block

/-! ## Levels -/

variable {table : Namespace} {maxDepth n : Nat} {start : List Mention} {links : List Link}

theorem scope_atLevel (table : Namespace) (maxDepth n : Nat) (links : List Link) :
    (Site.atLevel table maxDepth n (links.map Link.frame)).scope = scopeAt links := by
  cases links with
  | nil => rfl
  | cons link _ => exact link.path_frame

/-- Where the stack is a trail, only links that are not on it remain to be looked at. -/
theorem raising_of_enter_fresh (hkeyed : table.Keyed) (hgroups : table.PlainGroups)
    (htrail : Trail table start links)
    (henter : ∀ {β : Type} (content : Content β) (link : Link), Trail table start (link :: links) →
      content.mentions ⊆ link.mentions table → link.frame ∉ links.map Link.frame →
      ((Site.atLevel table maxDepth n (links.map Link.frame)).enterWith link.frame content).Raises
        (Genuine table start)) :
    Site.Raising (Site.atLevel table maxDepth n (links.map Link.frame))
      (· ∈ mentionsAt table start links) (Genuine table start) := by
  refine raising_of_enter hkeyed (level_normal table maxDepth n) (fun _ _ _ => trivial)
    (fun _ _ _ => trivial) (fun _ _ => trivial) fun content m link hm htarget hlink hcontent => ?_
  rw [scope_atLevel] at htarget
  by_cases hcycle : link.frame ∈ links.map Link.frame
  · rw [enterWith_of_mem hcycle]
    exact Raises.throw (htrail.genuine hgroups hlink hcycle hm htarget)
  · exact henter content link (htrail.cons hm htarget hlink) hcontent hcycle

/-- **The stack is a trail.** Inside of the links of a trail, with any number of levels left, no
cycle is reported but those that there are. -/
theorem raising_atLevel (hkeyed : table.Keyed) (hgroups : table.PlainGroups) (n : Nat)
    (htrail : Trail table start links) :
    Site.Raising (Site.atLevel table maxDepth n (links.map Link.frame))
      (· ∈ mentionsAt table start links) (Genuine table start) := by
  induction n generalizing links with
  | zero =>
    refine raising_of_enter_fresh hkeyed hgroups htrail fun content link _ _ hfresh => ?_
    rw [enterWith_atLevel_zero hfresh]
    exact Raises.throw trivial
  | succ n ih =>
    refine raising_of_enter_fresh hkeyed hgroups htrail fun content link hlink hcontent hfresh => ?_
    rw [enterWith_atLevel_succ hfresh]
    exact raises_expandContent (ih hlink) content hcontent

/-- **A reported cycle is real.** Whatever is asked for, of whatever definitions: if a cycle is
reported, then the reported name is that of a style, an element or a variable in some namespace,
which what was asked for leads to, and which leads back to itself by one or more steps. Each step is
a usage or a variable that is written in the body or the value of a link, or in the specializations
there. It is looked up from where it says, or else from the namespace of the link. The names of
groups need to be free of parentheses, as they are in every value that can be read. -/
theorem reported_cycle_real (htable : Namespace.Grows .empty table) (hgroups : table.PlainGroups)
    (request : Request α) {name : String}
    (h : ((Site.start table maxDepth).run request).outcome = .error (.cyclic name)) :
    ∃ link : Link, link.name = name ∧ link.Defined table ∧ link.ReachedFrom table request.mentions ∧
      TransGen (Link.Uses table) link link := by
  have hsite : (Site.start table maxDepth).Raising (· ∈ request.mentions)
      (Genuine table request.mentions) :=
    raising_atLevel (htable.keyed Namespace.keyed_empty) hgroups maxDepth Trail.nil
  exact raises_run hsite request (fun _ hm => hm) h

/-- Two panels in two namespaces, one of which comes back to itself through a row, in what the row
inserts into a slot; and two variables that read each other. -/
def cabinet : List Node :=
  [.definition ⟨.template, "Slot", [], .element [.text "slot"]⟩,
   .definition ⟨.template, "Panel", [], .element [.usage ⟨.element, "Slot", [], []⟩]⟩,
   .definition ⟨.template, "Panel", ["kit"], .element [.usage ⟨.element, "Row", [], []⟩]⟩,
   .definition ⟨.template, "Row", [], .element [.usage ⟨.element, "Slot", [],
    [.insert .atBottom none [.usage ⟨.element, "Panel", ["kit"], []⟩]]⟩]⟩,
   .definition ⟨.template, "Theme", [], .vars (.ofList [("main", .var "Theme" "accent"),
    ("accent", .binary .add (.literal "1") (.var "Theme" "main"))])⟩]

theorem reported_cycle_real_cabinet :
    let table := (Namespace.ofDocument cabinet).value
    let panel (path : Path) := Request.usage ⟨.element, "Panel", path, []⟩
    let main := Request.var "Theme" "main"
    Namespace.Grows .empty table ∧ table.PlainGroups ∧
      ((Site.start table 4).run (panel [])).outcome = .ok [.text "slot"] ∧
      ((Site.start table 4).run (panel ["kit"])).outcome = .error (.cyclic "Panel") ∧
      (∃ link : Link, link.name = "Panel" ∧ link.Defined table ∧
        link.ReachedFrom table (panel ["kit"]).mentions ∧ TransGen (Link.Uses table) link link) ∧
      ((Site.start table 4).run main).outcome = .error (.cyclic "Theme(main)") ∧
      ∃ link : Link, link.name = "Theme(main)" ∧ link.Defined table ∧
        link.ReachedFrom table main.mentions ∧ TransGen (Link.Uses table) link link := by
  intro table panel main
  have htable : Namespace.Grows .empty table := .collect cabinet (.refl .empty)
  have hgroups : table.PlainGroups := by
    intro path group d hd
    obtain ⟨rfl, -⟩ := htable.keyed Namespace.keyed_empty hd
    have hnames : ∀ d ∈ definitions cabinet, '(' ∉ d.name.toList := by decide
    exact hnames d (Namespace.mem_definitions_of_getAt? hd)
  have hpanel : ((Site.start table 4).run (panel ["kit"])).outcome = .error (.cyclic "Panel") := rfl
  have hmain : ((Site.start table 4).run main).outcome = .error (.cyclic "Theme(main)") := rfl
  exact ⟨htable, hgroups, rfl, hpanel, reported_cycle_real htable hgroups _ hpanel, hmain,
    reported_cycle_real htable hgroups _ hmain⟩

end Expansion

end Stencil
