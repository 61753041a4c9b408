import Stencil.Proofs.NamespacedImport

/-!
# What is asked of expansion

Documents, elements, style blocks, usages and variables are all expanded at a site, and what they come
to is decided by what happens when definitions are entered. So two sites that share their definitions
and their scope can be compared by what is done on entering a definition, and by nothing else.

* `Namespace.frames` — the frames with which definitions can be entered
* `Request`, `Site.run` — everything that can be asked of a site
* `enterWith_of_mem`, `enterWith_atLevel_zero`, `enterWith_atLevel_succ` — what entering a definition
  does
* `related_of_enter`, `related_of_enter_fresh` — sites that enter definitions in related ways are
  related
* `rel_run` — then whatever they are asked for comes to related things
-/

namespace Stencil

open Expansion

/-! ## Frames of definitions -/

/-- The frames of a definition that is kept under a name: an element or a style is entered as a whole,
a group one variable at a time. -/
def Definition.frames (name : String) (d : Definition) : List Frame :=
  match d.body with
  | .style _ | .element _ => [⟨d.kind, d.name, []⟩]
  | .vars bindings => bindings.keys.map (Frame.ofVariable name · [])

namespace Namespace

mutual

/-- The frames with which the definitions of a tree of namespaces can be entered. -/
def Tree.frames : Tree → List Frame
  | ⟨symbols, children⟩ =>
    symbols.entries.flatMap (fun e => e.2.frames e.1.1) ++ Tree.framesAll children

def Tree.framesAll : List (String × Tree) → List Frame
  | [] => []
  | (step, child) :: rest => child.frames.map (Frame.under [step]) ++ Tree.framesAll rest

end

@[inherit_doc Tree.frames]
def frames (ns : Namespace) : List Frame := ns.tree.frames

variable {ns : Namespace} {path : Path} {name : String} {kind : Kind} {d : Definition}
  {frame : Frame}

theorem mem_framesAll {children : List (String × Tree)} {step : String} {child : Tree}
    (hchild : (step, child) ∈ children) (hframe : frame ∈ child.frames) :
    frame.under [step] ∈ Tree.framesAll children := by
  induction children with
  | nil => cases hchild
  | cons e rest ih =>
    rw [Tree.framesAll, List.mem_append]
    rcases List.mem_cons.mp hchild with rfl | hrest
    · exact Or.inl (List.mem_map_of_mem hframe)
    · exact Or.inr (ih hrest)

theorem frames_eq (ns : Namespace) : ns.frames =
    ns.tree.symbols.entries.flatMap (fun e => e.2.frames e.1.1) ++
      Tree.framesAll ns.tree.children := by
  obtain ⟨⟨symbols, children⟩, hproper⟩ := ns
  rw [frames, Tree.frames]

/-- What is defined at a path is entered with a frame of that path. -/
theorem mem_frames_of_getAt? (hd : ns.getAt? path name kind = some d)
    (hframe : frame ∈ d.frames name) : frame.under path ∈ ns.frames := by
  rw [frames_eq, List.mem_append]
  induction path generalizing ns with
  | nil =>
    have hentry : ((name, kind), d) ∈ ns.tree.symbols.entries := OrderedMap.get?_eq_some_iff.mp hd
    exact Or.inl (List.mem_flatMap.mpr ⟨_, hentry, hframe⟩)
  | cons step rest ih =>
    rw [getAt?_cons, child] at hd
    cases hchild : ns.child? step with
    | none =>
      rw [hchild, Option.getD_none, getAt?_empty] at hd
      cases hd
    | some inside =>
      rw [hchild, Option.getD_some] at hd
      have hbelow : frame.under rest ∈ inside.frames := by
        rw [frames_eq, List.mem_append]
        exact ih hd
      exact Or.inr (mem_framesAll (child?_eq_some_iff.mp hchild) hbelow)

end Namespace

namespace Expansion

variable {table : Namespace} {name : String} {kind : Kind} {path : Path} {found : Found}

/-- An element or a style that a lookup finds is entered with a frame of the table. -/
theorem ofFound_mem_frames (h : table.lookup name kind path = some found)
    (hbody : found.definition.kind ≠ .var) : Frame.ofFound found ∈ table.frames := by
  have hframe : (⟨found.definition.kind, found.definition.name, []⟩ : Frame)
      ∈ found.definition.frames name := by
    unfold Definition.frames
    cases hb : found.definition.body with
    | vars bindings => exact absurd (congrArg Body.kind hb) hbody
    | _ => exact List.mem_singleton_self _
  have hmem := Namespace.mem_frames_of_getAt? (Namespace.getAt?_of_lookup h) hframe
  rw [Frame.under, List.append_nil] at hmem
  exact hmem

/-- So is a variable of a group that a lookup finds. -/
theorem ofVariable_mem_frames {group : String} {bindings : OrderedMap String Expr} {e : Expr}
    (h : table.lookup group kind path = some found) (hbody : found.definition.body = .vars bindings)
    (hname : bindings.get? name = some e) :
    Frame.ofVariable group name found.path ∈ table.frames := by
  have hkey : name ∈ bindings.keys := by
    rw [← OrderedMap.contains_iff_mem_keys, OrderedMap.contains, hname]
    rfl
  have hframe : Frame.ofVariable group name [] ∈ found.definition.frames group := by
    rw [Definition.frames, hbody]
    exact List.mem_map.mpr ⟨name, hkey, rfl⟩
  have hmem := Namespace.mem_frames_of_getAt? (Namespace.getAt?_of_lookup h) hframe
  rw [Frame.under, Frame.ofVariable, List.append_nil] at hmem
  exact hmem

/-! ## Contents of definitions -/

/-- What a definition holds, with the type of what it expands to. -/
inductive Content : Type → Type where
  | nodes (nodes : List Node) : Content (List Node)
  | style (block : StyleBlock) : Content Properties
  | value (e : Expr) : Content Expr

variable {α : Type}

/-- Expands what a definition holds, inside of it. -/
def Inside.run (inside : Inside) (stack : List Frame) : Content α → Expanding α
  | .nodes nodes => inside.nodes stack nodes
  | .style block => inside.style stack block
  | .value e => inside.value stack e

/-- Expands what a definition holds, at a site. -/
def Site.expandContent (site : Site) : Content α → Expanding α
  | .nodes nodes => site.expandNodes nodes
  | .style block => site.mergeStyle block
  | .value e => site.substitute e

/-- Enters a definition with some content. -/
def Site.enterWith (site : Site) (frame : Frame) (content : Content α) : Expanding α :=
  site.enter frame fun inside stack => inside.run stack content

/-- The site with a stack and a number of levels left. -/
def Site.atLevel (table : Namespace) (maxDepth n : Nat) (stack : List Frame) : Site :=
  { table, maxDepth, stack, inside := level table maxDepth n }

/-- A cycle is noticed before anything else. -/
theorem enterWith_of_mem {site : Site} {frame : Frame} (h : frame ∈ site.stack)
    (content : Content α) : site.enterWith frame content = throw (.cyclic frame.name) := if_pos h

/-- With no levels left, entering a definition is cut off. -/
theorem enterWith_atLevel_zero {stack : List Frame} {frame : Frame} (h : frame ∉ stack)
    (table : Namespace) (maxDepth : Nat) (content : Content α) :
    (Site.atLevel table maxDepth 0 stack).enterWith frame content
      = throw (.tooDeep frame.name maxDepth) := if_neg h

/-- Otherwise it leads to a site with the frame on the stack and a level less. -/
theorem enterWith_atLevel_succ {stack : List Frame} {frame : Frame} (h : frame ∉ stack)
    (table : Namespace) (maxDepth n : Nat) (content : Content α) :
    (Site.atLevel table maxDepth (n + 1) stack).enterWith frame content
      = (Site.atLevel table maxDepth n (frame :: stack)).expandContent content := by
  cases content <;> exact if_neg h

/-- What is found is what a lookup finds from where the usage says, or from the scope. -/
theorem resolve_yields (site : Site) (kind : Kind) (name : String) (path : Path) :
    (site.resolve kind name path).Yields fun found =>
      site.table.lookup name kind (site.origin path) = some found := by
  unfold Site.resolve
  dsimp only
  rw [← Site.origin]
  cases site.table.lookup name kind (site.origin path) with
  | none => exact Checked.Yields.throw _
  | some found => exact Checked.Yields.pure rfl

/-! ## Requests -/

/-- Something that can be asked of expansion, with the type of the answer. Asked of a site outside of
all definitions, `document` is `expandDocument`. -/
inductive Request : Type → Type where
  | document (nodes : List Node) : Request (List Node)
  | element (e : Element) : Request Element
  | style (block : StyleBlock) : Request StyleBlock
  | usage (usage : Usage) : Request (List Node)
  | var (group name : String) : Request Expr

/-- Does what is asked for. -/
def Site.run (site : Site) : Request α → Expanding α
  | .document nodes => site.expandNodes nodes
  | .element e => site.expandElement e
  | .style block => site.expandStyle block
  | .usage usage => site.expandUsage usage
  | .var group name => site.variableValue group name

/-! ## Sites that share their definitions -/

section Related

variable {sim : Simulation Expanding Expanding} {site site' : Site}

/-- Usages are looked up in the same way where the definitions and the scope are the same. What they
lead to needs to be related for what is found only. -/
theorem rel_resolve_bind (htable : site'.table = site.table) (hscope : site'.scope = site.scope)
    (hrefl : ∀ {β : Type} (x : Expanding β), ¬ CutOff x → sim.rel x x) {f f' : Found → Expanding α}
    (hf : ∀ found, site.table.lookup name kind (site.origin path) = some found →
      sim.rel (f found) (f' found)) :
    sim.rel (site.resolve kind name path >>= f) (site'.resolve kind name path >>= f') := by
  have horigin : site'.origin path = site.origin path := by
    unfold Site.origin
    rw [hscope]
  unfold Site.resolve
  dsimp only
  rw [← Site.origin, ← Site.origin, horigin, htable]
  cases hfound : site.table.lookup name kind (site.origin path) with
  | none => exact hrefl _ (not_cutOff_of_error rfl (by simp))
  | some found =>
    dsimp only
    rw [pure_bind, pure_bind]
    exact hf found hfound

/-- **Sites are compared by how they enter definitions.** If they share the definitions and the scope,
and it is related what they do with each frame of the table, then they are related. -/
theorem related_of_enter (htable : site'.table = site.table) (hscope : site'.scope = site.scope)
    (hrefl : ∀ {β : Type} (x : Expanding β), ¬ CutOff x → sim.rel x x)
    (henter : ∀ {β : Type} (content : Content β), ∀ frame ∈ site.table.frames,
      sim.rel (site.enterWith frame content) (site'.enterWith frame content)) :
    Site.Related sim (fun _ => True) site site' where
  refl := hrefl
  value group name := by
    refine rel_resolve_bind htable hscope hrefl fun found hfound => ?_
    dsimp only
    cases hbody : found.definition.body with
    | vars bindings =>
      dsimp only
      cases hname : bindings.get? name with
      | none => exact hrefl _ (not_cutOff_of_error rfl (by simp))
      | some e => exact henter (.value e) _ (ofVariable_mem_frames hfound hbody hname)
    | _ => exact hrefl _ (not_cutOff_of_error rfl (by simp))
  nodes kind name path specs _ := by
    refine rel_resolve_bind htable hscope hrefl fun found hfound => ?_
    unfold Site.elementBody
    cases hbody : found.definition.body with
    | element nodes =>
      dsimp only
      rw [pure_bind, pure_bind]
      refine henter (.nodes (Specialization.keptNodes specs nodes)) _
        (ofFound_mem_frames hfound ?_)
      rw [Definition.kind, hbody]
      nofun
    | _ => exact hrefl _ (not_cutOff_of_error rfl (by simp))
  style kind name path specs _ := by
    refine rel_resolve_bind htable hscope hrefl fun found hfound => ?_
    unfold Site.styleBody
    cases hbody : found.definition.body with
    | style block =>
      dsimp only
      rw [pure_bind, pure_bind]
      refine sim.rel_bind ?_ fun _ => sim.rel_pure _
      refine henter (.style (Specialization.keptStyle specs block)) _
        (ofFound_mem_frames hfound ?_)
      rw [Definition.kind, hbody]
      nofun
    | _ => exact hrefl _ (not_cutOff_of_error rfl (by simp))

/-- Where the stacks are the same as well, the same cycles are noticed. What is done with the other
frames has to be related. -/
theorem related_of_enter_fresh (htable : site'.table = site.table)
    (hstack : site'.stack = site.stack)
    (hrefl : ∀ {β : Type} (x : Expanding β), ¬ CutOff x → sim.rel x x)
    (henter : ∀ {β : Type} (content : Content β), ∀ frame ∈ site.table.frames,
      frame ∉ site.stack →
      sim.rel (site.enterWith frame content) (site'.enterWith frame content)) :
    Site.Related sim (fun _ => True) site site' := by
  have hscope : site'.scope = site.scope := by
    unfold Site.scope
    rw [hstack]
  refine related_of_enter htable hscope hrefl fun content frame hframe => ?_
  by_cases hcycle : frame ∈ site.stack
  · have hcycle' : frame ∈ site'.stack := by
      rw [hstack]
      exact hcycle
    rw [enterWith_of_mem hcycle, enterWith_of_mem hcycle']
    exact hrefl _ (not_cutOff_of_error rfl (by simp))
  · exact henter content frame hframe hcycle

variable (hsite : Site.Related sim (fun _ => True) site site')
include hsite

theorem rel_expandContent (content : Content α) :
    sim.rel (site.expandContent content) (site'.expandContent content) := by
  cases content with
  | nodes nodes => exact rel_expandNodes hsite nodes fun _ _ => trivial
  | style block => exact rel_mergeStyle hsite block fun _ _ => trivial
  | value e => exact rel_substitute hsite e

/-- At related sites, whatever is asked for comes to related things. -/
theorem rel_run (request : Request α) : sim.rel (site.run request) (site'.run request) := by
  cases request with
  | document nodes => exact rel_expandNodes hsite nodes fun _ _ => trivial
  | element e =>
    exact sim.rel_bind (rel_expandNodes hsite e.children fun _ _ => trivial) fun _ =>
      sim.rel_pure _
  | style block =>
    refine sim.rel_bind (rel_mergeStyle hsite block fun _ _ => trivial) fun inline => ?_
    exact sim.rel_bind (rel_substituteRules hsite block.rules) fun _ => sim.rel_pure _
  | usage usage => exact rel_expandNode hsite (.usage usage) fun _ _ => trivial
  | var group name => exact hsite.value group name

end Related

end Expansion

end Stencil
