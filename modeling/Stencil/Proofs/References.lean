import Stencil.Proofs.PlainResolution

/-!
# What a property reads

The expression of a property mentions other properties, and these mention others. `Plain.Reads` is one
step of this. A step that leads to another element is a dependency of the one element on the other.

* `Plain.Refers` — an expression mentions a property
* `Dependencies.dependsOn_of_reads` — a property that reads another element makes its own element
  depend on that one
* `Dependencies.not_acyclic_of_reads` — properties of several elements that read each other make the
  elements depend on each other
-/

namespace Stencil

theorem Expr.mem_references {e : Expr} {selector : Selector} {name : String}
    (h : .property (some selector) name ∈ e.walk) : (selector, name) ∈ e.references :=
  List.mem_filterMap.mpr ⟨_, h, rfl⟩

/-- An element that declares a property has a style of its own. -/
theorem Element.hasInlineStyle_of_inlineProperty? {element : Element} {name : String} {e : Expr}
    (h : element.inlineProperty? name = some e) : element.hasInlineStyle = true := by
  obtain ⟨block, hblock, hget⟩ := List.mem_filterMap.mp (List.mem_of_getLast? h)
  refine List.any_eq_true.mpr ⟨block, hblock, ?_⟩
  cases hentries : block.inline.entries with
  | nil => simp [OrderedMap.get?, hentries] at hget
  | cons => simp [OrderedMap.isEmpty, hentries]

/-! ## References -/

namespace Plain

variable {r : Registry} {h : Handle} {name : String} {e : Expr}

/-- A property of an element, by the number of the element. -/
abbrev Slot := Handle × String

/-- An expression mentions a property: of the element at hand, or of one that a selector addresses. -/
def Refers (r : Registry) (here : Option Handle) (e : Expr) (slot : Slot) : Prop :=
  ∃ selector, .property selector slot.2 ∈ e.walk ∧ target? r here selector = some slot.1

/-- The expression that counts for a property mentions another property. -/
def Reads (r : Registry) (a b : Slot) : Prop :=
  ∃ e, bound? r a.1 a.2 = some e ∧ Refers r (some a.1) e b

theorem bound?_eq_some_iff : bound? r h name = some e ↔
    ∃ entry, r.entry? h = some entry ∧ entry.element.inlineProperty? name = some e := by
  simp [bound?, Registry.element?, Option.bind_eq_some_iff]

theorem Reads.exists_entry {a b : Slot} (hab : Reads r a b) : ∃ entry, r.entry? a.1 = some entry := by
  obtain ⟨e, hbound, -⟩ := hab
  obtain ⟨entry, he, -⟩ := bound?_eq_some_iff.mp hbound
  exact ⟨entry, he⟩

end Plain

/-! ## Dependencies from references -/

namespace Dependencies

open Relation Plain

variable {g : Dependencies} {r : Registry} {entry entry' : Entry} {a b : Slot}

theorem dependsOn_foldl_addEdge {source : String} {targets : List String} {x y : String} :
    (targets.foldl (fun g target => g.addEdge source target) g).DependsOn x y ↔
      g.DependsOn x y ∨ (x = source ∧ y ∈ targets ∧ source ≠ y) := by
  induction targets generalizing g with
  | nil => simp
  | cons target rest ih =>
    rw [List.foldl_cons, ih, dependsOn_addEdge]
    constructor
    · rintro ((h | ⟨hx, rfl, hne⟩) | ⟨hx, hy, hne⟩)
      · exact Or.inl h
      · exact Or.inr ⟨hx, List.mem_cons_self, hne⟩
      · exact Or.inr ⟨hx, List.mem_cons_of_mem _ hy, hne⟩
    · rintro (h | ⟨hx, hy, hne⟩)
      · exact Or.inl (Or.inl h)
      · rcases List.mem_cons.mp hy with rfl | hy
        · exact Or.inl (Or.inr ⟨hx, rfl, hne⟩)
        · exact Or.inr ⟨hx, hy, hne⟩

theorem dependsOn_addEntry_of_dependsOn {x y : String} (h : g.DependsOn x y) (r : Registry)
    (entry : Entry) : (g.addEntry r entry).DependsOn x y := by
  unfold addEntry
  split
  · refine dependsOn_foldl_addEdge.mpr (Or.inl ?_)
    rw [DependsOn, of_addNode]
    exact h
  · exact h

theorem dependsOn_foldl_addEntry_of_dependsOn {x y : String} (h : g.DependsOn x y) (r : Registry)
    (entries : List Entry) : (entries.foldl (addEntry r) g).DependsOn x y := by
  induction entries generalizing g with
  | nil => exact h
  | cons entry rest ih => exact ih (dependsOn_addEntry_of_dependsOn h r entry)

/-- A reference through a selector makes an element depend on the one that the selector addresses. -/
theorem dependsOn_build {name property target : String} {e : Expr} {selector : Selector}
    (hentry : entry ∈ r.entries.toList) (hdecl : entry.element.inlineProperties.get? name = some e)
    (href : (selector, property) ∈ e.references) (htarget : r.firstPrimary selector = some target)
    (hstyle : entry.element.hasInlineStyle = true) (hne : entry.primary ≠ target) :
    (build r).DependsOn entry.primary target := by
  have hvalue : e ∈ entry.element.inlineProperties.values :=
    List.mem_map.mpr ⟨(name, e), OrderedMap.get?_eq_some_iff.mp hdecl, rfl⟩
  obtain ⟨before, after, hsplit⟩ := List.append_of_mem hentry
  rw [build, hsplit, List.foldl_append, List.foldl_cons]
  refine dependsOn_foldl_addEntry_of_dependsOn ?_ r after
  unfold addEntry
  rw [if_pos hstyle]
  refine dependsOn_foldl_addEdge.mpr (Or.inr ⟨rfl, ?_, hne⟩)
  exact List.mem_flatMap.mpr ⟨e, hvalue, List.mem_filterMap.mpr ⟨_, href, htarget⟩⟩

/-- A property that reads one of another element makes its own element depend on that one. -/
theorem dependsOn_of_reads (hd : r.Distinct) (hab : Reads r a b) (ha : r.entry? a.1 = some entry)
    (hb : r.entry? b.1 = some entry') (hne : a.1 ≠ b.1) :
    (build r).DependsOn entry.primary entry'.primary := by
  obtain ⟨e, hbound, selector, hmem, htarget⟩ := hab
  obtain ⟨_, ha', hdecl⟩ := bound?_eq_some_iff.mp hbound
  obtain rfl := Option.some.inj (ha.symm.trans ha')
  cases selector with
  | none => exact absurd (Option.some.inj htarget) hne
  | some selector =>
    have hfirst : r.firstPrimary selector = some entry'.primary := by
      have hfirst : r.first selector = some b.1 := htarget
      simp [Registry.firstPrimary, hfirst, Registry.primary?, hb]
    have hstyle := Element.hasInlineStyle_of_inlineProperty? hdecl
    rw [← Element.get?_inlineProperties] at hdecl
    refine dependsOn_build (Array.mem_toList_iff.mpr (Array.mem_of_getElem? ha)) hdecl
      (Expr.mem_references hmem) hfirst hstyle ?_
    exact fun hname => hne (hd.handle_eq ha hb hname)

/-- The order of evaluation has every element that declares a property. -/
theorem primary_mem_order {order : List String} {h : Handle} {name : String} {e : Expr}
    (hsort : (build r).sort = .ok order) (he : r.entry? h = some entry)
    (hp : entry.element.inlineProperty? name = some e) : entry.primary ∈ order := by
  obtain ⟨-, hmem, -⟩ := sort_ok (built_build r) hsort
  have hentry : entry ∈ r.entries.toList := Array.mem_toList_iff.mpr (Array.mem_of_getElem? he)
  exact (hmem _).mpr
    (primary_mem_nodes_build hentry (Element.hasInlineStyle_of_inlineProperty? hp))

/-! ## Properties that read each other -/

/-- Where reading leads from one element to another, the one depends on the other, be it through
others. -/
theorem reflTransGen_dependsOn_of_reads (hd : r.Distinct) (hab : ReflTransGen (Reads r) a b)
    (ha : r.entry? a.1 = some entry) (hb : r.entry? b.1 = some entry') :
    ReflTransGen (build r).DependsOn entry.primary entry'.primary := by
  induction hab using ReflTransGen.head_induction_on generalizing entry with
  | refl =>
    obtain rfl := Option.some.inj (ha.symm.trans hb)
    exact ReflTransGen.refl
  | @head a c hac hcb ih =>
    -- The property in between is declared: either it reads something itself, or it is the last one.
    obtain ⟨middle, hc⟩ : ∃ middle, r.entry? c.1 = some middle := by
      rcases ReflTransGen.cases_head hcb with rfl | ⟨d, hcd, -⟩
      · exact ⟨entry', hb⟩
      · exact hcd.exists_entry
    by_cases hne : a.1 = c.1
    · obtain rfl : entry = middle := by
        rw [← hne] at hc
        exact Option.some.inj (ha.symm.trans hc)
      exact ih hc
    · exact ReflTransGen.head (dependsOn_of_reads hd hac ha hc hne) (ih hc)

/-- If properties of several elements read each other, the elements depend on each other. -/
theorem not_acyclic_of_reads (hd : r.Distinct) (hne : a.1 ≠ b.1) (hab : TransGen (Reads r) a b)
    (hba : TransGen (Reads r) b a) : ¬ (build r).Acyclic := by
  intro hacyclic
  obtain ⟨c, hac, -⟩ := TransGen.head'_iff.mp hab
  obtain ⟨d, hbd, -⟩ := TransGen.head'_iff.mp hba
  obtain ⟨entry, ha⟩ := hac.exists_entry
  obtain ⟨entry', hb⟩ := hbd.exists_entry
  have hto := reflTransGen_dependsOn_of_reads hd hab.to_reflTransGen ha hb
  have hback := reflTransGen_dependsOn_of_reads hd hba.to_reflTransGen hb ha
  rcases reflTransGen_iff_eq_or_transGen.mp hto with hname | hto
  · exact hne (hd.handle_eq ha hb hname.symm)
  · exact hacyclic entry.primary (hto.trans_left hback)

end Dependencies

end Stencil
