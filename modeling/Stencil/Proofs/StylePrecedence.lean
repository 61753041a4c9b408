import Stencil.Proofs.OrderedMap
import Stencil.Proofs.Reexpansion
import Stencil.Proofs.Requests
import Stencil.Proofs.SpecializationOrder

/-!
# What a style comes to

A style block takes properties from the styles that it uses, has properties of its own and deletes
properties. A usage in turn sets and deletes properties of what the style that is used comes to. So a
name may be spoken of in many places, and one law says which of them decides, whatever the depth at
which styles use one another.

* `Site.Merges` — the law for a style block
* `Site.Specializes` — the law for a usage
* `style_precedence` — both hold wherever merging and expansion succeed
-/

namespace Stencil

open OrderedMap (lastBound)

/-! ## Values side by side -/

section Rel

variable {α β : Type} {R : α → β → Prop} {o p : Option α} {o' p' : Option β}

theorem eq_none_of_rel (h : Option.Rel R none o') : o' = none := by
  cases h
  rfl

theorem exists_of_rel {a : α} (h : Option.Rel R (some a) o') : ∃ b, R a b ∧ o' = some b := by
  cases h with
  | some hab => exact ⟨_, hab, rfl⟩

theorem rel_or (ho : Option.Rel R o o') (hp : Option.Rel R p p') :
    Option.Rel R (o.or p) (o'.or p') := by
  cases ho with
  | none => exact hp
  | some hab => exact .some hab

end Rel

/-! ## Applying specializations to properties -/

namespace Specialization

/-- The properties that specializations set, one map for each of them. -/
def settings (specs : List Specialization) : List Properties :=
  specs.filterMap fun
    | .set properties => some properties
    | _ => none

variable {kind : Kind} {name : String}

theorem get?_foldl_deleteProperty (targets : List Deletion) (properties : Properties)
    (property : String) :
    (targets.foldl (fun p target => (deleteProperty kind name p target).value) properties).get?
        property
      = if .property property ∈ targets then none else properties.get? property := by
  induction targets generalizing properties with
  | nil => simp
  | cons target rest ih =>
    rw [List.foldl_cons, ih]
    by_cases hrest : .property property ∈ rest
    · simp [hrest]
    · cases target with
      | property deleted =>
        show (if _ then none else (properties.erase deleted).get? property) = _
        rw [OrderedMap.get?_erase]
        simp [hrest, eq_comm]
      | element selector =>
        show (if _ then none else properties.get? property) = _
        simp [hrest]
      | inherited kind name => simp [hrest, deleteProperty]

/-- Going through specializations of which only those that set properties matter. -/
theorem foldl_eq_settings {f : Properties → Specialization → Properties}
    (hset : ∀ p properties, f p (.set properties) = p.extend properties)
    (hother : ∀ p spec, (∀ properties, spec ≠ .set properties) → f p spec = p)
    (specs : List Specialization) (init : Properties) :
    specs.foldl f init = (settings specs).foldl .extend init := by
  induction specs generalizing init with
  | nil => rfl
  | cons spec rest ih =>
    rw [List.foldl_cons, ih]
    cases spec with
    | set properties =>
      rw [hset]
      rfl
    | delete | insert | override =>
      rw [hother _ _ (by simp)]
      rfl

/-- What is set last wins. What is not set is left as it was, unless it is deleted. -/
theorem get?_applyToProperties (specs : List Specialization) (properties : Properties)
    (property : String) :
    (applyToProperties kind name specs properties).value.get? property
      = (lastBound (settings specs) property).or
          (if .property property ∈ deletions specs then none else properties.get? property) := by
  simp only [applyToProperties, Logged.value_bind, Logged.value_foldlM]
  rw [foldl_eq_settings (fun _ _ => rfl), OrderedMap.get?_foldl_extend, get?_foldl_deleteProperty]
  intro p spec hspec
  cases spec with
  | set properties => exact absurd rfl (hspec properties)
  | _ => rfl

end Specialization

namespace Expansion

open Stencil.Specialization

variable {site : Site} {specs out : List Specialization}

/-! ## Style blocks -/

/-- What a style block comes to at a site, if the styles that it uses come to `styles`. A deleted name
is not bound. A name of the block's own is bound to its value, in which variables stand for what they
stand for at the site. Any other name is bound as the last of the styles that binds it says. The names
are in order of first appearance. -/
structure Site.Merges (site : Site) (block : StyleBlock) (styles : List Properties)
    (merged : Properties) : Prop where
  used : List.Forall₂ (fun usage style => (site.styleUsage usage).outcome = .ok style) block.usages
    styles
  deleted : ∀ name ∈ block.deletions, merged.get? name = none
  own : ∀ name ∉ block.deletions, ∀ e, block.inline.get? name = some e →
    ∃ value, (site.substitute e).outcome = .ok value ∧ merged.get? name = some value
  inherited : ∀ name ∉ block.deletions, block.inline.get? name = none →
    merged.get? name = lastBound styles name
  keys : merged.keys = (styles.flatMap OrderedMap.keys ++ block.inline.keys).eraseDups.filter
    (· ∉ block.deletions)

/-- The styles that are used are put into one another. -/
theorem mergeUsages_eq_ok {merged result : Properties} {used : List Usage}
    (h : (site.mergeUsages merged used).outcome = .ok result) :
    ∃ styles, List.Forall₂ (fun usage style => (site.styleUsage usage).outcome = .ok style) used
      styles ∧ result = styles.foldl .extend merged := by
  induction used generalizing merged with
  | nil =>
    rw [Site.mergeUsages] at h
    cases h
    exact ⟨[], .nil, rfl⟩
  | cons usage rest ih =>
    rw [Site.mergeUsages] at h
    split at h
    · obtain ⟨style, hstyle, hrest⟩ := Checked.outcome_bind_eq_ok_iff.mp h
      obtain ⟨styles, hstyles, hresult⟩ := ih hrest
      exact ⟨style :: styles, .cons hstyle hstyles, hresult⟩
    · cases h

/-- A style that a usage comes to has no variables in it, so neither has what is taken from it. -/
theorem varFree_of_lastBound (hsite : site.Normal) {used : List Usage} {styles : List Properties}
    (h : List.Forall₂ (fun usage style => (site.styleUsage usage).outcome = .ok style) used styles)
    {name : String} {e : Expr} (he : lastBound styles name = some e) : e.VarFree := by
  induction h with
  | nil => cases he
  | @cons usage style used styles hstyle _ ih =>
    rw [OrderedMap.lastBound_cons, Option.or_eq_some_iff] at he
    rcases he with he | ⟨-, he⟩
    · exact ih he
    · exact styleUsage_yields hsite usage hstyle _ (OrderedMap.get?_eq_some_iff.mp he)

theorem merges_of_mergeStyle (hsite : site.Normal) {block : StyleBlock} {merged : Properties}
    (h : (site.mergeStyle block).outcome = .ok merged) : ∃ styles, site.Merges block styles merged := by
  obtain ⟨inherited, hinherited, hown⟩ := Checked.outcome_bind_eq_ok_iff.mp h
  obtain ⟨styles, hstyles, rfl⟩ := mergeUsages_eq_ok hinherited
  have hget (name : String) := Checked.rel_get?_of_mapM hown name
  simp only [OrderedMap.get?_eraseAll, OrderedMap.get?_extend, OrderedMap.get?_foldl_extend,
    OrderedMap.get?_empty, Option.or_none] at hget
  refine ⟨styles, hstyles, fun name hname => ?_, fun name hname e he => ?_, fun name hname he => ?_,
    ?_⟩
  · have hrel := hget name
    rw [if_pos hname] at hrel
    exact eq_none_of_rel hrel
  · have hrel := hget name
    rw [if_neg hname, he, Option.some_or] at hrel
    exact exists_of_rel hrel
  · have hrel := hget name
    rw [if_neg hname, he, Option.none_or] at hrel
    cases hlast : lastBound styles name with
    | none =>
      rw [hlast] at hrel
      exact eq_none_of_rel hrel
    | some e =>
      rw [hlast] at hrel
      -- Variables are replaced here a second time, which changes nothing: none are left.
      obtain ⟨value, hvalue, hmerged⟩ := exists_of_rel hrel
      rw [substitute_of_varFree (varFree_of_lastBound hsite hstyles hlast)] at hvalue
      cases hvalue
      exact hmerged
  · have hwhole : (styles.foldl OrderedMap.extend .empty).extend block.inline
        = (styles ++ [block.inline]).foldl OrderedMap.extend .empty := by
      rw [List.foldl_append]
      rfl
    rw [Checked.keys_of_mapM hown, OrderedMap.keys_eraseAll, hwhole, OrderedMap.keys_foldl_extend,
      List.flatMap_append, List.flatMap_singleton]

/-! ## Usages -/

/-- What a usage with specializations comes to at a site, if the style that is used comes to `merged`.
A name that is set is bound to what it is set to last, in which variables stand for what they stand
for at the usage. Another name is not bound if it is deleted, and is bound as before if it is not. -/
structure Site.Specializes (site : Site) (specs : List Specialization)
    (merged result : Properties) : Prop where
  set : ∀ name e, lastBound (settings specs) name = some e →
    ∃ value, (site.substitute e).outcome = .ok value ∧ result.get? name = some value
  deleted : ∀ name, lastBound (settings specs) name = none → .property name ∈ deletions specs →
    result.get? name = none
  kept : ∀ name, lastBound (settings specs) name = none → .property name ∉ deletions specs →
    result.get? name = merged.get? name

/-- Deletions are not touched by expansion. -/
theorem deletions_of_expanded
    (h : List.Forall₂ (fun spec r => (site.expandSpecialization spec).outcome = .ok r) specs out) :
    deletions out = deletions specs := by
  induction h with
  | nil => rfl
  | @cons spec result rest results hresult _ ih =>
    cases spec with
    | delete targets =>
      cases hresult
      exact congrArg (targets ++ ·) ih
    | _ =>
      obtain ⟨content, -, hresult⟩ := Checked.outcome_bind_eq_ok_iff.mp hresult
      cases hresult
      exact ih

/-- What is set last is set to the value, with variables replaced, to which it was set before. -/
theorem rel_lastBound_settings
    (h : List.Forall₂ (fun spec r => (site.expandSpecialization spec).outcome = .ok r) specs out)
    (name : String) :
    Option.Rel (fun e value => (site.substitute e).outcome = .ok value)
      (lastBound (settings specs) name) (lastBound (settings out) name) := by
  induction h with
  | nil => exact .none
  | @cons spec result rest results hresult _ ih =>
    cases spec with
    | delete targets =>
      cases hresult
      exact ih
    | set properties =>
      obtain ⟨values, hvalues, hresult⟩ := Checked.outcome_bind_eq_ok_iff.mp hresult
      cases hresult
      show Option.Rel _ (lastBound (properties :: settings rest) name)
        (lastBound (values :: settings results) name)
      rw [OrderedMap.lastBound_cons, OrderedMap.lastBound_cons]
      exact rel_or ih (Checked.rel_get?_of_mapM hvalues name)
    | _ =>
      obtain ⟨content, -, hresult⟩ := Checked.outcome_bind_eq_ok_iff.mp hresult
      cases hresult
      exact ih

theorem specializes_of_expanded {kind : Kind} {name : String} {merged : Properties}
    (h : (site.expandSpecializations specs).outcome = .ok out) :
    site.Specializes specs merged (applyToProperties kind name out merged).value := by
  rw [expandSpecializations_eq_mapM, outcome_mapM_eq_ok_iff] at h
  have hrel := rel_lastBound_settings h
  constructor
  · intro name e he
    have hname := hrel name
    rw [he] at hname
    obtain ⟨value, hvalue, hset⟩ := exists_of_rel hname
    refine ⟨value, hvalue, ?_⟩
    rw [get?_applyToProperties, hset, Option.some_or]
  · intro name he hdeleted
    have hname := hrel name
    rw [he] at hname
    rw [get?_applyToProperties, eq_none_of_rel hname, Option.none_or, deletions_of_expanded h,
      if_pos hdeleted]
  · intro name he hkept
    have hname := hrel name
    rw [he] at hname
    rw [get?_applyToProperties, eq_none_of_rel hname, Option.none_or, deletions_of_expanded h,
      if_neg hkept]

/-! ## Inside a definition -/

variable {table : Namespace} {maxDepth : Nat} {stack : List Frame}

theorem ofStack_normal (table : Namespace) (maxDepth : Nat) (stack : List Frame) :
    (Site.ofStack table maxDepth stack).Normal := level_normal table maxDepth _

/-- What a definition that can be entered holds is expanded with its frame on the stack. -/
theorem expandContent_of_enterWith {α : Type} {frame : Frame} {content : Content α} {result : α}
    (h : ((Site.ofStack table maxDepth stack).enterWith frame content).outcome = .ok result) :
    ((Site.ofStack table maxDepth (frame :: stack)).expandContent content).outcome
      = .ok result := by
  change ((Site.atLevel table maxDepth (maxDepth - stack.length) stack).enterWith frame
    content).outcome = .ok result at h
  by_cases hcycle : frame ∈ stack
  · rw [enterWith_of_mem hcycle] at h
    cases h
  · cases hleft : maxDepth - stack.length with
    | zero =>
      rw [hleft, enterWith_atLevel_zero hcycle] at h
      cases h
    | succ n =>
      have hn : n = maxDepth - (frame :: stack).length := by
        rw [List.length_cons]
        omega
      rw [hleft, enterWith_atLevel_succ hcycle, hn] at h
      exact h

theorem styleBody_eq_ok {found : Found} {body : StyleBlock}
    (h : (Site.styleBody found).outcome = .ok body) : found.definition.body = .style body := by
  unfold Site.styleBody at h
  split at h
  · rename_i block hbody
    cases h
    exact hbody
  · cases h

/-- A style usage that expands is one of a style definition whose body is merged inside of it. -/
theorem styleContent_eq_ok {kind : Kind} {name : String} {path : Path}
    {content : Definition × Properties}
    (h : ((Site.ofStack table maxDepth stack).styleContent kind name path specs).outcome
      = .ok content) :
    ∃ found body,
      table.lookup name kind ((Site.ofStack table maxDepth stack).origin path) = some found ∧
      found.definition.body = .style body ∧
      ((Site.ofStack table maxDepth (.ofFound found :: stack)).mergeStyle
        (keptStyle specs body)).outcome = .ok content.2 := by
  obtain ⟨found, hfound, h⟩ := Checked.outcome_bind_eq_ok_iff.mp h
  obtain ⟨body, hbody, h⟩ := Checked.outcome_bind_eq_ok_iff.mp h
  obtain ⟨merged, hmerged, h⟩ := Checked.outcome_bind_eq_ok_iff.mp h
  cases h
  have hentered : ((Site.ofStack table maxDepth stack).enterWith (.ofFound found)
      (.style (keptStyle specs body))).outcome = .ok merged := hmerged
  exact ⟨found, body, resolve_yields _ kind name path hfound, styleBody_eq_ok hbody,
    expandContent_of_enterWith hentered⟩

/-- **One law decides what a style comes to.** At every site, a style block that can be merged binds
names as `Site.Merges` says. A style usage that expands is one of a style definition, whose body,
without the usages that the specializations delete, is merged by the same law inside the definition,
that is from its namespace. What comes out is specialized as `Site.Specializes` says, at the site of
the usage. -/
theorem style_precedence (table : Namespace) (maxDepth : Nat) (stack : List Frame) :
    (∀ block merged, ((Site.ofStack table maxDepth stack).mergeStyle block).outcome = .ok merged →
      ∃ styles, (Site.ofStack table maxDepth stack).Merges block styles merged) ∧
    ∀ kind name path specs result,
      ((Site.ofStack table maxDepth stack).styleUsage ⟨kind, name, path, specs⟩).outcome
        = .ok result →
      ∃ found body merged styles,
        table.lookup name kind ((Site.ofStack table maxDepth stack).origin path) = some found ∧
        found.definition.body = .style body ∧
        ((Site.ofStack table maxDepth (.ofFound found :: stack)).mergeStyle
          (keptStyle specs body)).outcome = .ok merged ∧
        (Site.ofStack table maxDepth (.ofFound found :: stack)).Merges (keptStyle specs body) styles
          merged ∧
        (Site.ofStack table maxDepth stack).Specializes specs merged result := by
  refine ⟨fun block merged h => merges_of_mergeStyle (ofStack_normal table maxDepth stack) h, ?_⟩
  intro kind name path specs result h
  rw [styleUsage_eq] at h
  obtain ⟨content, hcontent, h⟩ := Checked.outcome_bind_eq_ok_iff.mp h
  obtain ⟨out, hout, h⟩ := Checked.outcome_bind_eq_ok_iff.mp h
  obtain ⟨properties, hproperties, h⟩ := Checked.outcome_bind_eq_ok_iff.mp h
  obtain ⟨-, -, h⟩ := Checked.outcome_bind_eq_ok_iff.mp h
  cases hproperties
  cases h
  obtain ⟨found, body, hfound, hbody, hmerged⟩ := styleContent_eq_ok hcontent
  obtain ⟨styles, hstyles⟩ := merges_of_mergeStyle (ofStack_normal _ _ _) hmerged
  exact ⟨found, body, content.2, styles, hfound, hbody, hmerged, hstyles,
    specializes_of_expanded hout⟩

/-- A panel made from two other styles, in a namespace with a theme of its own. -/
def wardrobe : List Node :=
  [.definition ⟨.template, "Theme", [], .vars (.ofList [("main", .literal "blue")])⟩,
   .definition ⟨.template, "Theme", ["ui"], .vars (.ofList [("main", .literal "red")])⟩,
   .definition ⟨.template, "Base", ["ui"], .style
    { inline := .ofList [("color", .var "Theme" "main"), ("width", .literal "narrow")] }⟩,
   .definition ⟨.template, "Loose", ["ui"], .style
    { inline := .ofList [("margin", .literal "large"), ("width", .literal "wide")] }⟩,
   .definition ⟨.template, "Panel", ["ui"], .style
    { usages := [⟨.style, "Base", [], []⟩, ⟨.style, "Loose", [], []⟩]
      inline := .ofList [("border", .var "Theme" "main"), ("color", .var "Theme" "main")]
      deletions := ["shadow"] }⟩]

/-- The panel is used without the second style, with a width from the theme outside and without a
border. The block that uses it has a colour of its own. -/
theorem style_precedence_wardrobe :
    let table := (Namespace.ofDocument wardrobe).value
    let site := Site.ofStack table 3 []
    let specs : List Specialization :=
      [.set (.ofList [("width", .literal "none")]), .set (.ofList [("width", .var "Theme" "main")]),
       .delete [.property "width", .property "border", .inherited .style "Loose"]]
    let block : StyleBlock :=
      { usages := [⟨.style, "Panel", ["ui"], []⟩, ⟨.style, "Panel", ["ui"], specs⟩]
        inline := .ofList [("height", .literal "low"), ("color", .var "Theme" "main")]
        deletions := ["margin"] }
    let panel : Properties := .ofList [("color", .literal "red"), ("width", .literal "blue")]
    let merged : Properties := .ofList [("color", .literal "blue"), ("width", .literal "blue"),
      ("border", .literal "red"), ("height", .literal "low")]
    (site.styleUsage ⟨.style, "Panel", ["ui"], specs⟩).outcome = .ok panel ∧
      (site.mergeStyle block).outcome = .ok merged ∧
      (∃ styles, site.Merges block styles merged) ∧
      ∃ found body inherited styles, table.lookup "Panel" .style ["ui"] = some found ∧
        found.definition.body = .style body ∧
        ((Site.ofStack table 3 [.ofFound found]).mergeStyle (keptStyle specs body)).outcome
          = .ok inherited ∧
        (Site.ofStack table 3 [.ofFound found]).Merges (keptStyle specs body) styles inherited ∧
        site.Specializes specs inherited panel := by
  intro table site specs block panel merged
  have hpanel : (site.styleUsage ⟨.style, "Panel", ["ui"], specs⟩).outcome = .ok panel := rfl
  have hmerged : (site.mergeStyle block).outcome = .ok merged := rfl
  obtain ⟨hblock, husage⟩ := style_precedence table 3 []
  exact ⟨hpanel, hmerged, hblock block merged hmerged, husage _ _ _ _ panel hpanel⟩

end Expansion

end Stencil
