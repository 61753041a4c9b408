import Stencil.Expansion
import Stencil.Proofs.Checked
import Stencil.Proofs.Simulation

/-!
# Expansion at two sites

The same nodes may be expanded at two sites. If what the definitions stand for at the one site is
related to what they stand for at the other, then so are the expansions. Definitions are reached
through variables and through usages, so it is enough to relate these.

* `usages` — all usages in a list of nodes, those inside style blocks and specializations included
* `CutOff` — a computation that failed because definitions were nested too deeply
* `Site.Related` — variables and usages stand for related things
* `rel_expandNodes` — then so do all nodes
-/

namespace Stencil

/-! ## Usages in a document -/

mutual

/-- The usages in a list of nodes. Definitions among them are left out, since they vanish. -/
def usages : List Node → List Usage
  | [] => []
  | node :: rest => node.usages ++ usages rest

def Node.usages : Node → List Usage
  | .element ⟨_, _, children⟩ => Stencil.usages children
  | .text _ => []
  | .style ⟨_, _, used, _⟩ => usagesOfAll used
  | .usage usage => usage.usages
  | .definition _ => []

/-- A usage, and the usages in its specializations. -/
def Usage.usages : Usage → List Usage
  | ⟨kind, name, path, specs⟩ => ⟨kind, name, path, specs⟩ :: usagesOfSpecializations specs

def usagesOfAll : List Usage → List Usage
  | [] => []
  | usage :: rest => usage.usages ++ usagesOfAll rest

def usagesOfSpecializations : List Specialization → List Usage
  | [] => []
  | .delete _ :: rest => usagesOfSpecializations rest
  | .insert _ _ content :: rest => usages content ++ usagesOfSpecializations rest
  | .override tree :: rest => usages tree ++ usagesOfSpecializations rest
  | .set _ :: rest => usagesOfSpecializations rest

end

theorem mem_usages_iff {nodes : List Node} {u : Usage} :
    u ∈ usages nodes ↔ ∃ node ∈ nodes, u ∈ node.usages := by
  induction nodes with
  | nil => simp [usages]
  | cons node rest ih => simp [usages, ih]

theorem mem_usagesOfAll_iff {used : List Usage} {u : Usage} :
    u ∈ usagesOfAll used ↔ ∃ usage ∈ used, u ∈ usage.usages := by
  induction used with
  | nil => simp [usagesOfAll]
  | cons usage rest ih => simp [usagesOfAll, ih]

namespace Expansion

/-! ## Being cut off -/

/-- The computation failed because definitions were nested too deeply. -/
def CutOff {α : Type} (x : Expanding α) : Prop :=
  ∃ name depth, x.outcome = .error (.tooDeep name depth)

theorem not_cutOff_of_ok {α : Type} {x : Expanding α} {a : α} (h : x.outcome = .ok a) :
    ¬ CutOff x := by
  rintro ⟨name, depth, hdeep⟩
  rw [h] at hdeep
  cases hdeep

/-- A failure for any other reason is no cut. -/
theorem not_cutOff_of_error {α : Type} {x : Expanding α} {e : ExpandError}
    (h : x.outcome = .error e) (he : ∀ name depth, e ≠ .tooDeep name depth) : ¬ CutOff x := by
  rintro ⟨name, depth, hdeep⟩
  rw [h] at hdeep
  exact he name depth (Except.error.inj hdeep)

/-- A sequence is cut off in its first step or after it. -/
theorem cutOff_bind_iff {α β : Type} {x : Expanding α} {f : α → Expanding β} :
    CutOff (x >>= f) ↔ CutOff x ∨ ∃ a, x.outcome = .ok a ∧ CutOff (f a) := by
  unfold CutOff
  rw [Checked.outcome_bind]
  cases x.outcome with
  | error e => simp [Except.bind]
  | ok a => simp [Except.bind]

@[simp] theorem outcome_noteValueless (d : Definition) (properties : Properties) :
    (Site.noteValueless d properties).outcome = .ok () := by
  unfold Site.noteValueless
  induction d.valueless with
  | nil => rfl
  | cons name rest ih =>
    rw [List.forM, Checked.outcome_bind, ih]
    split <;> rfl

/-! ## What a usage stands for -/

/-- What an element definition stands for, before the rest of the specializations. -/
def Site.elementContent (site : Site) (kind : Kind) (name : String) (path : Path)
    (specs : List Specialization) : Expanding (List Node) := do
  let found ← site.resolve kind name path
  let body ← Site.elementBody found
  site.enter (.ofFound found) fun inside stack =>
    inside.nodes stack (Specialization.keptNodes specs body)

/-- What a style definition stands for, before the rest of the specializations, with the definition
itself. -/
def Site.styleContent (site : Site) (kind : Kind) (name : String) (path : Path)
    (specs : List Specialization) : Expanding (Definition × Properties) := do
  let found ← site.resolve kind name path
  let body ← Site.styleBody found
  let inherited ← site.enter (.ofFound found) fun inside stack =>
    inside.style stack (Specialization.keptStyle specs body)
  pure (found.definition, inherited)

/-- A usage of an element goes through definitions in its content only; its specializations are then
expanded outside of them and applied. -/
theorem elementUsage_eq (site : Site) (kind : Kind) (name : String) (path : Path)
    (specs : List Specialization) : site.elementUsage ⟨kind, name, path, specs⟩ = (do
      let nodes ← site.elementContent kind name path specs
      let specs ← site.expandSpecializations specs
      ExceptT.lift (Specialization.applyToNodes kind name specs nodes)) := by
  rw [Site.elementUsage]
  simp only [Site.elementContent, bind_assoc]

/-- A usage of a style likewise; at its end it notes which properties are left without a value. -/
theorem styleUsage_eq (site : Site) (kind : Kind) (name : String) (path : Path)
    (specs : List Specialization) : site.styleUsage ⟨kind, name, path, specs⟩ = (do
      let content ← site.styleContent kind name path specs
      let specs ← site.expandSpecializations specs
      let properties ←
        ExceptT.lift (Specialization.applyToProperties kind name specs content.2)
      Site.noteValueless content.1 properties
      pure properties) := by
  rw [Site.styleUsage]
  simp only [Site.styleContent, bind_assoc, pure_bind]

/-- What variables and usages stand for at one site is related to what they stand for at another.
Only usages from some paths need to be. What is the same at all sites is related to itself, and is
never cut off. -/
structure Site.Related (sim : Simulation Expanding Expanding) (allowed : Path → Prop)
    (site site' : Site) : Prop where
  refl : ∀ {α : Type} (x : Expanding α), ¬ CutOff x → sim.rel x x
  value : ∀ group name, sim.rel (site.variableValue group name) (site'.variableValue group name)
  nodes : ∀ kind name path specs, allowed path →
    sim.rel (site.elementContent kind name path specs) (site'.elementContent kind name path specs)
  style : ∀ kind name path specs, allowed path →
    sim.rel (site.styleContent kind name path specs) (site'.styleContent kind name path specs)

variable {sim : Simulation Expanding Expanding} {allowed : Path → Prop} {site site' : Site}

/-! ## Variables -/

/-- Variables are all that an expression leads to. -/
theorem rel_substitute (hsite : site.Related sim allowed site') (e : Expr) :
    sim.rel (site.substitute e) (site'.substitute e) := by
  induction e with
  | var group name => exact hsite.value group name
  | binary op left right ihl ihr =>
    exact sim.rel_bind ihl fun _ => sim.rel_bind ihr fun _ => sim.rel_pure _
  | conditional cond yes no ihc ihy ihn =>
    exact sim.rel_bind ihc fun _ => sim.rel_bind ihy fun _ => sim.rel_bind ihn fun _ =>
      sim.rel_pure _
  | _ => exact sim.rel_pure _

theorem rel_substituteAll (hsite : site.Related sim allowed site') (properties : Properties) :
    sim.rel (site.substituteAll properties) (site'.substituteAll properties) := by
  suffices ∀ l : List (String × Expr), sim.rel
      (OrderedMap.entriesM (fun _ e => site.substitute e) l)
      (OrderedMap.entriesM (fun _ e => site'.substitute e) l) from
    sim.rel_bind (this properties.entries) fun _ => sim.rel_pure _
  intro l
  induction l with
  | nil => exact sim.rel_pure _
  | cons e rest ih =>
    exact sim.rel_bind (rel_substitute hsite e.2) fun _ => sim.rel_bind ih fun _ =>
      sim.rel_pure _

/-- Selectors of rules are left as they are, so that only their properties count. -/
theorem rel_substituteRules (hsite : site.Related sim allowed site') (rules : List Rule) :
    sim.rel (rules.mapM site.substituteRule) (rules.mapM site'.substituteRule) := by
  induction rules with
  | nil => exact sim.rel_pure _
  | cons rule rest ih =>
    rw [List.mapM_cons, List.mapM_cons]
    refine sim.rel_bind ?_ fun _ => sim.rel_bind ih fun _ => sim.rel_pure _
    exact sim.rel_bind (rel_substituteAll hsite rule.properties) fun _ => sim.rel_pure _

/-! ## Nodes -/

mutual

/-- Related sites expand nodes to related nodes, if all usages in these are from allowed paths. -/
theorem rel_expandNodes (hsite : site.Related sim allowed site') : ∀ nodes : List Node,
    (∀ u ∈ usages nodes, allowed u.fromPath) →
    sim.rel (site.expandNodes nodes) (site'.expandNodes nodes)
  | [], _ => sim.rel_pure _
  | node :: rest, h => by
    rw [usages, List.forall_mem_append] at h
    rw [Site.expandNodes, Site.expandNodes]
    exact sim.rel_bind (rel_expandNode hsite node h.1) fun _ =>
      sim.rel_bind (rel_expandNodes hsite rest h.2) fun _ => sim.rel_pure _

theorem rel_expandNode (hsite : site.Related sim allowed site') : ∀ node : Node,
    (∀ u ∈ node.usages, allowed u.fromPath) →
    sim.rel (site.expandNode node) (site'.expandNode node)
  | .element ⟨tag, attributes, children⟩, h => by
    rw [Node.usages] at h
    rw [Site.expandNode, Site.expandNode]
    exact sim.rel_bind (rel_expandNodes hsite children h) fun _ => sim.rel_pure _
  | .text text, _ => by
    rw [Site.expandNode, Site.expandNode]
    exact sim.rel_pure _
  | .style ⟨inline, rules, used, deletions⟩, h => by
    rw [Node.usages] at h
    rw [Site.expandNode, Site.expandNode]
    refine sim.rel_bind (rel_mergeUsages hsite .empty used h) fun inherited => ?_
    refine sim.rel_bind (rel_substituteAll hsite _) fun inline => ?_
    exact sim.rel_bind (rel_substituteRules hsite rules) fun _ => sim.rel_pure _
  | .usage usage, h => by
    rw [Node.usages] at h
    rw [Site.expandNode, Site.expandNode]
    cases usage.kind with
    | element => exact rel_elementUsage hsite usage h
    | style => exact sim.rel_bind (rel_styleUsage hsite usage h) fun _ => sim.rel_pure _
    | var => exact hsite.refl _ (not_cutOff_of_error rfl (by simp))
  | .definition _, _ => by
    rw [Site.expandNode, Site.expandNode]
    exact sim.rel_pure _

/-- What a usage stands for is related by assumption; only its specializations are gone into. -/
theorem rel_elementUsage (hsite : site.Related sim allowed site') : ∀ usage : Usage,
    (∀ u ∈ usage.usages, allowed u.fromPath) →
    sim.rel (site.elementUsage usage) (site'.elementUsage usage)
  | ⟨kind, name, path, specs⟩, h => by
    rw [Usage.usages, List.forall_mem_cons] at h
    rw [elementUsage_eq, elementUsage_eq]
    refine sim.rel_bind (hsite.nodes kind name path specs h.1) fun nodes => ?_
    exact sim.rel_bind (rel_expandSpecializations hsite specs h.2) fun specs =>
      hsite.refl _ (not_cutOff_of_ok (Checked.outcome_lift _))

theorem rel_styleUsage (hsite : site.Related sim allowed site') : ∀ usage : Usage,
    (∀ u ∈ usage.usages, allowed u.fromPath) →
    sim.rel (site.styleUsage usage) (site'.styleUsage usage)
  | ⟨kind, name, path, specs⟩, h => by
    rw [Usage.usages, List.forall_mem_cons] at h
    rw [styleUsage_eq, styleUsage_eq]
    refine sim.rel_bind (hsite.style kind name path specs h.1) fun content => ?_
    refine sim.rel_bind (rel_expandSpecializations hsite specs h.2) fun specs => ?_
    refine sim.rel_bind (hsite.refl _ (not_cutOff_of_ok (Checked.outcome_lift _)))
      fun properties => ?_
    exact sim.rel_bind (hsite.refl _ (not_cutOff_of_ok (outcome_noteValueless _ _)))
      fun _ => sim.rel_pure _

/-- What was merged so far is the same at both sites. -/
theorem rel_mergeUsages (hsite : site.Related sim allowed site') (merged : Properties) :
    ∀ used : List Usage,
    (∀ u ∈ usagesOfAll used, allowed u.fromPath) →
    sim.rel (site.mergeUsages merged used) (site'.mergeUsages merged used)
  | [], _ => by
    rw [Site.mergeUsages, Site.mergeUsages]
    exact sim.rel_pure _
  | usage :: rest, h => by
    rw [usagesOfAll, List.forall_mem_append] at h
    rw [Site.mergeUsages, Site.mergeUsages]
    cases usage.kind with
    | style =>
      exact sim.rel_bind (rel_styleUsage hsite usage h.1) fun properties =>
        rel_mergeUsages hsite (merged.extend properties) rest h.2
    | _ => exact hsite.refl _ (not_cutOff_of_error rfl (by simp))

theorem rel_expandSpecializations (hsite : site.Related sim allowed site') :
    ∀ specs : List Specialization,
    (∀ u ∈ usagesOfSpecializations specs, allowed u.fromPath) →
    sim.rel (site.expandSpecializations specs) (site'.expandSpecializations specs)
  | [], _ => by
    rw [Site.expandSpecializations, Site.expandSpecializations]
    exact sim.rel_pure _
  | .delete targets :: rest, h => by
    rw [usagesOfSpecializations] at h
    rw [Site.expandSpecializations, Site.expandSpecializations]
    exact sim.rel_bind (rel_expandSpecializations hsite rest h) fun _ => sim.rel_pure _
  | .insert position target content :: rest, h => by
    rw [usagesOfSpecializations, List.forall_mem_append] at h
    rw [Site.expandSpecializations, Site.expandSpecializations]
    exact sim.rel_bind (rel_expandNodes hsite content h.1) fun _ =>
      sim.rel_bind (rel_expandSpecializations hsite rest h.2) fun _ => sim.rel_pure _
  | .override tree :: rest, h => by
    rw [usagesOfSpecializations, List.forall_mem_append] at h
    rw [Site.expandSpecializations, Site.expandSpecializations]
    exact sim.rel_bind (rel_expandNodes hsite tree h.1) fun _ =>
      sim.rel_bind (rel_expandSpecializations hsite rest h.2) fun _ => sim.rel_pure _
  | .set properties :: rest, h => by
    rw [usagesOfSpecializations] at h
    rw [Site.expandSpecializations, Site.expandSpecializations]
    exact sim.rel_bind (rel_substituteAll hsite properties) fun _ =>
      sim.rel_bind (rel_expandSpecializations hsite rest h) fun _ => sim.rel_pure _

end

/-- The style of a definition, of which rules are no part. -/
theorem rel_mergeStyle (hsite : site.Related sim allowed site') (block : StyleBlock)
    (h : ∀ u ∈ usagesOfAll block.usages, allowed u.fromPath) :
    sim.rel (site.mergeStyle block) (site'.mergeStyle block) :=
  sim.rel_bind (rel_mergeUsages hsite .empty block.usages h) fun _ => rel_substituteAll hsite _

end Expansion

end Stencil
