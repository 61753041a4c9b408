import Stencil.Proofs.Namespace
import Stencil.Proofs.RelatedSites

/-!
# Importing under a namespace

Definitions that are imported under a path behave as they do on their own, if nothing else is defined
at or below that path, and if no usage in their bodies says where to look. Everything happens as it
does on its own, with the path in front of every namespace.

* `Site.Under` — a site below the path, next to the site on its own
* `level_under` — what can be done inside of definitions below the path
* `expandUsage_mergeUnder` — usages of imported definitions
-/

namespace Stencil

/-- The usages in the body of a definition. -/
def Definition.usages (d : Definition) : List Usage :=
  match d.body with
  | .style block => usagesOfAll block.usages
  | .element nodes => Stencil.usages nodes
  | .vars _ => []

/-- No usage in the body of a definition says where to look. -/
def Namespace.SelfContained (ns : Namespace) : Prop :=
  ∀ ⦃path name kind d⦄, ns.getAt? path name kind = some d → ∀ u ∈ d.usages, u.fromPath = []

/-- It can be seen in a document whether what it defines is self-contained. -/
theorem selfContained_ofDocument {nodes : List Node}
    (h : ∀ d ∈ definitions nodes, ∀ u ∈ d.usages, u.fromPath = []) :
    (Namespace.ofDocument nodes).value.SelfContained :=
  fun _ _ _ d hd => h d (Namespace.mem_definitions_of_getAt? hd)

/-! ## Bodies with usages left out -/

/-- Deletions take usages away and add none. -/
theorem mem_usages_keptNodes {specs : List Specialization} {nodes : List Node} {u : Usage}
    (h : u ∈ usages (Specialization.keptNodes specs nodes)) : u ∈ usages nodes := by
  obtain ⟨node, hnode, hu⟩ := mem_usages_iff.mp h
  exact mem_usages_iff.mpr ⟨node, List.mem_of_mem_filter hnode, hu⟩

theorem mem_usages_keptStyle {specs : List Specialization} {block : StyleBlock} {u : Usage}
    (h : u ∈ usagesOfAll (Specialization.keptStyle specs block).usages) :
    u ∈ usagesOfAll block.usages := by
  obtain ⟨usage, husage, hu⟩ := mem_usagesOfAll_iff.mp h
  exact mem_usagesOfAll_iff.mpr ⟨usage, List.mem_of_mem_filter husage, hu⟩

namespace Expansion

/-! ## Success -/

/-- The second computation succeeds with what the first one succeeds with. -/
def success : Simulation Expanding Expanding where
  rel {α} x y := ∀ a : α, x.outcome = .ok a → y.outcome = .ok a
  rel_pure _ _ h := h
  rel_bind {α β x y f g} hx hf b hb := by
    obtain ⟨a, ha, hfa⟩ := Checked.outcome_bind_eq_ok_iff.mp hb
    exact Checked.outcome_bind_eq_ok_iff.mpr ⟨a, hx a ha, hf a b hfa⟩

theorem success_throw {α : Type} (e : ExpandError) (y : Expanding α) : success.rel (throw e) y :=
  fun _ h => nomatch h

/-! ## Sites below a path -/

/-- The frame of a definition that is moved below a path. -/
def Frame.under (path : Path) (frame : Frame) : Frame := { frame with path := path ++ frame.path }

/-- Frames below a path are as different as they were, so that no cycle is added. -/
theorem Frame.under_injective (path : Path) : Function.Injective (Frame.under path) := by
  intro frame frame' h
  cases frame
  cases frame'
  simp only [Frame.under, Frame.mk.injEq, List.append_cancel_left_eq] at h ⊢
  exact h

/-- What succeeds inside of a definition succeeds below a path, for bodies in which no usage says
where to look. -/
structure Inside.Under (path : Path) (inside inside' : Inside) : Prop where
  nodes : ∀ frame stack nodes, (∀ u ∈ usages nodes, u.fromPath = []) →
    success.rel (inside.nodes (frame :: stack) nodes)
      (inside'.nodes ((frame :: stack).map (Frame.under path)) nodes)
  style : ∀ frame stack block, (∀ u ∈ usagesOfAll block.usages, u.fromPath = []) →
    success.rel (inside.style (frame :: stack) block)
      (inside'.style ((frame :: stack).map (Frame.under path)) block)
  value : ∀ frame stack e, success.rel (inside.value (frame :: stack) e)
    (inside'.value ((frame :: stack).map (Frame.under path)) e)

/-- A site, and one at which all the same definitions are below a path. -/
structure Site.Under (path : Path) (site site' : Site) : Prop where
  selfContained : site.table.SelfContained
  lookup : ∀ {name kind scope found}, site.table.lookup name kind scope = some found →
    site'.table.lookup name kind (path ++ scope)
      = some { definition := found.definition, path := path ++ found.path }
  stack : site'.stack = site.stack.map (Frame.under path)
  inside : ∀ inside, site.inside = some inside →
    ∃ inside', site'.inside = some inside' ∧ inside.Under path inside'

/-- The namespace from which a usage with a `from` path is looked up. -/
def Site.origin (site : Site) (scope : Path) : Path := if scope = [] then site.scope else scope

theorem Site.origin_nil (site : Site) : site.origin [] = site.scope := if_pos rfl

namespace Site.Under

variable {path scope scope' : Path} {site site' : Site} {kind : Kind} {name : String}

theorem enter (h : site.Under path site') (frame : Frame) {α : Type}
    {act act' : Inside → List Frame → Expanding α}
    (hact : ∀ inside inside', inside.Under path inside' →
      success.rel (act inside (frame :: site.stack))
        (act' inside' ((frame :: site.stack).map (Frame.under path)))) :
    success.rel (site.enter frame act) (site'.enter (frame.under path) act') := by
  unfold Site.enter
  by_cases hmem : frame ∈ site.stack
  · rw [if_pos hmem]
    exact success_throw _ _
  · have hmem' : frame.under path ∉ site'.stack := by
      rw [h.stack, List.mem_map_of_injective (Frame.under_injective path)]
      exact hmem
    rw [if_neg hmem, if_neg hmem']
    cases hin : site.inside with
    | none => exact success_throw _ _
    | some inside =>
      obtain ⟨inside', hin', hunder⟩ := h.inside inside hin
      rw [hin', h.stack]
      exact hact inside inside' hunder

/-- What is found from a scope is found below the path from the scope below it. -/
theorem resolve_bind (h : site.Under path site')
    (hscope : site'.origin scope' = path ++ site.origin scope) {α : Type}
    {f f' : Found → Expanding α}
    (hf : ∀ found : Found, (∀ u ∈ found.definition.usages, u.fromPath = []) →
      success.rel (f found)
        (f' { definition := found.definition, path := path ++ found.path })) :
    success.rel (site.resolve kind name scope >>= f) (site'.resolve kind name scope' >>= f') := by
  unfold Site.resolve
  dsimp only
  rw [← Site.origin, ← Site.origin, hscope]
  cases hfound : site.table.lookup name kind (site.origin scope) with
  | none => exact fun _ h => nomatch h
  | some found =>
    rw [h.lookup hfound]
    simp only [pure_bind]
    exact hf found (h.selfContained (Namespace.getAt?_of_lookup hfound))

/-- The definition that a usage finds is the same one, below the path. -/
theorem elementContent (h : site.Under path site')
    (hscope : site'.origin scope' = path ++ site.origin scope) (specs : List Specialization) :
    success.rel (site.elementContent kind name scope specs)
      (site'.elementContent kind name scope' specs) := by
  refine h.resolve_bind hscope fun found hlocal => ?_
  unfold Site.elementBody
  dsimp only
  cases hbody : found.definition.body with
  | element nodes =>
    simp only [pure_bind]
    refine h.enter (.ofFound found) fun inside inside' hunder => ?_
    refine hunder.nodes _ _ _ fun u hu => hlocal u ?_
    rw [Definition.usages, hbody]
    exact mem_usages_keptNodes hu
  | _ => exact fun _ h => nomatch h

theorem styleContent (h : site.Under path site')
    (hscope : site'.origin scope' = path ++ site.origin scope) (specs : List Specialization) :
    success.rel (site.styleContent kind name scope specs)
      (site'.styleContent kind name scope' specs) := by
  refine h.resolve_bind hscope fun found hlocal => ?_
  unfold Site.styleBody
  dsimp only
  cases hbody : found.definition.body with
  | style block =>
    simp only [pure_bind]
    refine success.rel_bind (h.enter (.ofFound found) fun inside inside' hunder => ?_)
      fun _ => success.rel_pure _
    refine hunder.style _ _ _ fun u hu => hlocal u ?_
    rw [Definition.usages, hbody]
    exact mem_usages_keptStyle hu
  | _ => exact fun _ h => nomatch h

theorem variableValue (h : site.Under path site')
    (hscope : site'.origin [] = path ++ site.origin []) (group name : String) :
    success.rel (site.variableValue group name) (site'.variableValue group name) := by
  refine h.resolve_bind hscope fun found _ => ?_
  dsimp only
  split
  · exact success_throw _ _
  · exact h.enter (.ofVariable group name found.path) fun inside inside' hunder =>
      hunder.value _ _ _

/-- Inside of a definition, usages and variables that succeed do so below the path. -/
theorem related (h : site.Under path site') (hscope : site'.scope = path ++ site.scope) :
    Site.Related success (· = []) site site' := by
  have horigin : ∀ scope, scope = [] → site'.origin scope = path ++ site.origin scope := by
    rintro scope rfl
    rw [Site.origin_nil, Site.origin_nil, hscope]
  exact {
    refl := fun _ _ _ ha => ha
    value := h.variableValue (horigin [] rfl)
    nodes := fun _ _ scope specs hs => h.elementContent (horigin scope hs) specs
    style := fun _ _ scope specs hs => h.styleContent (horigin scope hs) specs }

end Site.Under

/-! ## Levels -/

variable {table table' : Namespace} {path : Path}

/-- What can be done inside of definitions can be done below the path, however deep it is. -/
theorem level_under (hlocal : table.SelfContained)
    (hlookup : ∀ {name kind scope found}, table.lookup name kind scope = some found →
      table'.lookup name kind (path ++ scope)
        = some { definition := found.definition, path := path ++ found.path })
    (maxDepth n : Nat) : ∀ inside, level table maxDepth n = some inside →
      ∃ inside', level table' maxDepth n = some inside' ∧ inside.Under path inside' := by
  induction n with
  | zero => exact fun _ h => nomatch h
  | succ n ih =>
    rintro inside ⟨⟩
    refine ⟨_, rfl, ?_⟩
    have hsite (frame : Frame) (stack : List Frame) :
        Site.Related success (· = [])
          ⟨table, maxDepth, frame :: stack, level table maxDepth n⟩
          ⟨table', maxDepth, (frame :: stack).map (Frame.under path), level table' maxDepth n⟩ :=
      Site.Under.related ⟨hlocal, hlookup, rfl, ih⟩ rfl
    exact {
      nodes := fun frame stack nodes h => rel_expandNodes (hsite frame stack) nodes h
      style := fun frame stack block h => rel_mergeStyle (hsite frame stack) block h
      value := fun frame stack e => rel_substitute (hsite frame stack) e }

/-- Outside of all definitions, a usage is looked up from where it says, or from the outermost
namespace. -/
theorem origin_start (table : Namespace) (maxDepth : Nat) (scope : Path) :
    (Site.start table maxDepth).origin scope = scope := by
  unfold Site.origin
  split
  · rename_i h
    rw [h]
    rfl
  · rfl

/-- The sites outside of all definitions, if nothing else is defined at or below the path. -/
theorem start_under {ns library : Namespace} (hlocal : library.SelfContained)
    (hfree : ∀ rest name kind, ns.getAt? (path ++ rest) name kind = none) (maxDepth : Nat) :
    Site.Under path (.start library maxDepth)
      (.start (ns.mergeUnder library path) maxDepth) := by
  have hdefined (name : String) (kind : Kind) (rest : Path) :
      (ns.mergeUnder library path).getAt? (path ++ rest) name kind
        = library.getAt? rest name kind := by
    rw [Namespace.getAt?_mergeUnder, hfree, Option.or_none]
  have hlookup {name : String} {kind : Kind} {scope : Path} {found : Found}
      (hfound : library.lookup name kind scope = some found) :
      (ns.mergeUnder library path).lookup name kind (path ++ scope)
        = some { definition := found.definition, path := path ++ found.path } :=
    Namespace.lookup_append (hdefined name kind) hfound
  exact ⟨hlocal, hlookup, rfl, level_under hlocal hlookup maxDepth _⟩

/-- **Definitions that are imported under a path behave as they do on their own.** If a usage expands
where there are no other definitions, then it expands to the same where they are imported, with the
path in front of where it looks. -/
theorem expandUsage_mergeUnder {ns library : Namespace} {scope : Path} {kind : Kind} {name : String}
    {maxDepth : Nat} {nodes : List Node} (hlocal : library.SelfContained)
    (hfree : ∀ rest name kind, ns.getAt? (path ++ rest) name kind = none)
    (hnodes : ((Site.start library maxDepth).expandUsage ⟨kind, name, scope, []⟩).outcome
      = .ok nodes) :
    ((Site.start (ns.mergeUnder library path) maxDepth).expandUsage
      ⟨kind, name, path ++ scope, []⟩).outcome = .ok nodes := by
  have hunder := start_under hlocal hfree maxDepth
  have hscope : (Site.start (ns.mergeUnder library path) maxDepth).origin (path ++ scope)
      = path ++ (Site.start library maxDepth).origin scope := by
    rw [origin_start, origin_start]
  unfold Site.expandUsage at hnodes ⊢
  rw [Site.expandNode] at hnodes ⊢
  cases kind with
  | element =>
    dsimp only at hnodes ⊢
    rw [elementUsage_eq, Site.expandSpecializations] at hnodes ⊢
    exact success.rel_bind (hunder.elementContent hscope []) (fun _ _ ha => ha) nodes hnodes
  | style =>
    dsimp only at hnodes ⊢
    rw [styleUsage_eq, Site.expandSpecializations] at hnodes ⊢
    refine success.rel_bind ?_ (fun _ => success.rel_pure _) nodes hnodes
    exact success.rel_bind (hunder.styleContent hscope []) fun _ _ ha => ha
  | var => cases hnodes

/-- A card that has its style from outside of its namespace, and a colour from a theme. -/
def kit : List Node :=
  [.definition ⟨.template, "Theme", [], .vars (.ofList [("main", .literal "red")])⟩,
   .definition ⟨.template, "Base", [],
    .style { inline := .ofList [("color", .var "Theme" "main")] }⟩,
   .definition ⟨.template, "Card", ["ui"], .element
    [.element ⟨"div", .empty, [.style { usages := [⟨.style, "Base", [], []⟩] }]⟩]⟩]

/-- Another theme, which is not the card's. -/
def host : List Node :=
  [.definition ⟨.template, "Theme", [], .vars (.ofList [("main", .literal "blue")])⟩]

theorem expandUsage_mergeUnder_kit :
    let library := (Namespace.ofDocument kit).value
    let ns := (Namespace.ofDocument host).value
    library.SelfContained ∧
      (∀ rest name kind, ns.getAt? (["lib"] ++ rest) name kind = none) ∧
      ((Site.start (ns.mergeUnder library ["lib"]) 3).expandUsage
        ⟨.element, "Card", ["lib"] ++ ["ui"], []⟩).outcome
        = .ok [.element ⟨"div", .empty,
            [.style { inline := .ofList [("color", .literal "red")] }]⟩] := by
  intro library ns
  have hlocal : library.SelfContained := selfContained_ofDocument (by decide)
  have hfree : ∀ rest name kind, ns.getAt? (["lib"] ++ rest) name kind = none := by
    intro rest name kind
    rw [Namespace.getAt?_append]
    exact Namespace.getAt?_empty rest name kind
  exact ⟨hlocal, hfree, expandUsage_mergeUnder hlocal hfree rfl⟩

end Expansion

end Stencil
