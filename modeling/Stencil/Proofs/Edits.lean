import Stencil.Proofs.References
import Stencil.Proofs.StyleEntries

/-!
# Trees that differ in one expression

Two trees may differ in nothing but the expression of one property, in one style block of one element.
Then the elements have the same names and are found by the same selectors, every other property has the
same expression, and the rules are the same.

* `Edited` — two trees that differ in such a way
* `Edited.map_outline` — their elements, each without the elements inside of it
* `Edited.alike` — the names of the elements and the selectors that address them are the same
* `Edited.agree` — so is what references read, but for the one property
* `Edited.ownedRules_eq` — so are the rules
-/

namespace Stencil

/-! ## Edits -/

/-- Two style blocks that differ at most in the expression of one property, which both of them have. -/
def StyleBlock.Rebinds (p : String) (b b' : StyleBlock) : Prop :=
  b.inline.contains p = true ∧ ∃ e, b' = { b with inline := b.inline.insert p e }

/-- Two trees that differ at most in the expression of the property `p` in one style block of one
element, the one with the given number. -/
inductive Edited (p : String) : Handle → List Node → List Node → Prop
  | here {before after front back : List Node} {tag : String}
      {attributes : OrderedMap String String} {b b' : StyleBlock} : b.Rebinds p b' →
      Edited p (preorder before).length
        (before ++ .element ⟨tag, attributes, front ++ .style b :: back⟩ :: after)
        (before ++ .element ⟨tag, attributes, front ++ .style b' :: back⟩ :: after)
  | inside {h : Handle} {before after children children' : List Node} {tag : String}
      {attributes : OrderedMap String String} : Edited p h children children' →
      Edited p ((preorder before).length + 1 + h)
        (before ++ .element ⟨tag, attributes, children⟩ :: after)
        (before ++ .element ⟨tag, attributes, children'⟩ :: after)

theorem preorder_append (before after : List Node) :
    preorder (before ++ after) = preorder before ++ preorder after := by
  induction before with
  | nil => rfl
  | cons node rest ih => rw [List.cons_append, preorder, preorder, ih, List.append_assoc]

/-- An element comes before what is inside of it. -/
theorem preorder_element (tag : String) (attributes : OrderedMap String String)
    (children after : List Node) : preorder (.element ⟨tag, attributes, children⟩ :: after)
      = ⟨tag, attributes, children⟩ :: (preorder children ++ preorder after) := by
  rw [preorder, Node.preorder, List.cons_append]

theorem preorder_style (b : StyleBlock) (after : List Node) :
    preorder (.style b :: after) = preorder after := by
  simp [preorder, Node.preorder]

/-! ## Elements without what is inside of them -/

namespace Element

/-- An element of which nothing is left but its style blocks. -/
def outline (e : Element) : Element := { e with children := e.styleBlocks.map .style }

/-- Two elements that differ at most in the expression of one property, in one style block. -/
def Rebinds (p : String) (e e' : Element) : Prop :=
  ∃ front back b b', b.Rebinds p b' ∧ e.styleBlocks = front ++ b :: back ∧
    e' = { e with children := (front ++ b' :: back).map .style }

variable {p name : String} {e e' : Element}

theorem styleBlocks_mk (tag : String) (attributes : OrderedMap String String)
    (blocks : List StyleBlock) : styleBlocks ⟨tag, attributes, blocks.map .style⟩ = blocks := by
  simp [styleBlocks, List.filterMap_map, Function.comp_def, Node.style?]

/-- An outline keeps the style blocks of its element. -/
theorem styleBlocks_outline (e : Element) : e.outline.styleBlocks = e.styleBlocks :=
  styleBlocks_mk e.tag e.attributes e.styleBlocks

theorem inlineProperty?_outline (e : Element) (name : String) :
    e.outline.inlineProperty? name = e.inlineProperty? name := by
  rw [inlineProperty?, styleBlocks_outline, inlineProperty?]

theorem rules_outline (e : Element) : e.outline.rules = e.rules := by
  rw [rules, styleBlocks_outline, rules]

/-- All other properties are bound as before. -/
theorem Rebinds.inlineProperty? (he : e.Rebinds p e') (hname : name ≠ p) :
    e'.inlineProperty? name = e.inlineProperty? name := by
  obtain ⟨front, back, b, -, ⟨-, bound, rfl⟩, hblocks, rfl⟩ := he
  rw [Element.inlineProperty?, styleBlocks_mk, Element.inlineProperty?, hblocks]
  simp [List.filterMap_cons, Ne.symm hname]

theorem Rebinds.rules (he : e.Rebinds p e') : e'.rules = e.rules := by
  obtain ⟨front, back, b, -, ⟨-, bound, rfl⟩, hblocks, rfl⟩ := he
  rw [Element.rules, styleBlocks_mk, Element.rules, hblocks]
  simp

/-- Names of an element come from its tag and its attributes, which are kept. -/
theorem Rebinds.face (he : e.Rebinds p e') :
    (e'.tag, e'.attributes) = (e.tag, e.attributes) := by
  obtain ⟨front, back, b, b', -, -, rfl⟩ := he
  rfl

end Element

namespace Edited

variable {p : String} {h : Handle} {tree tree' : List Node}

/-- The style blocks that stand in the list itself are the same: an edit is inside of an element. -/
theorem filterMap_style? (hedit : Edited p h tree tree') :
    tree'.filterMap Node.style? = tree.filterMap Node.style? := by
  cases hedit <;> simp [List.filterMap_cons, Node.style?]

/-- Of the elements, one has an edited style block, and the others are the same but for what is inside
of them. -/
theorem map_outline (hedit : Edited p h tree tree') :
    ∃ before after o o', o.Rebinds p o' ∧ before.length = h ∧
      (preorder tree).map Element.outline = before ++ o :: after ∧
      (preorder tree').map Element.outline = before ++ o' :: after := by
  induction hedit with
  | @here before after front back tag attributes b b' hb =>
    have hrebinds : (Element.outline ⟨tag, attributes, front ++ .style b :: back⟩).Rebinds p
        (Element.outline ⟨tag, attributes, front ++ .style b' :: back⟩) :=
      ⟨front.filterMap Node.style?, back.filterMap Node.style?, b, b', hb,
        (Element.styleBlocks_outline _).trans (by simp [Element.styleBlocks, Node.style?]),
        by simp [Element.outline, Element.styleBlocks, Node.style?]⟩
    refine ⟨(preorder before).map Element.outline,
      (preorder front ++ preorder back ++ preorder after).map Element.outline, _, _, hrebinds,
      List.length_map _, ?_, ?_⟩
    all_goals simp [preorder_append, preorder_element, preorder_style]
  | @inside h before after children children' tag attributes hinner ih =>
    obtain ⟨front, back, o, o', ho, rfl, hmap, hmap'⟩ := ih
    -- The element around the edit keeps its own style blocks.
    have houter : Element.outline ⟨tag, attributes, children'⟩
        = Element.outline ⟨tag, attributes, children⟩ := by
      rw [Element.outline, Element.styleBlocks, hinner.filterMap_style?]
      rfl
    refine ⟨(preorder before).map Element.outline
        ++ Element.outline ⟨tag, attributes, children⟩ :: front,
      back ++ (preorder after).map Element.outline, o, o', ho, ?_, ?_, ?_⟩
    · rw [List.length_append, List.length_map, List.length_cons, Nat.add_comm front.length,
        Nat.add_assoc]
    · simp [preorder_append, preorder_element, hmap]
    · simp [preorder_append, preorder_element, hmap', houter]

end Edited

/-! ## Names and selectors -/

namespace Registry

/-- Two registries whose elements have the same names and are addressed by the same selectors. -/
structure Alike (r r' : Registry) : Prop where
  primaries : r'.entries.toList.map Entry.primary = r.entries.toList.map Entry.primary
  byId : r'.byId = r.byId
  byClass : r'.byClass = r.byClass
  byTag : r'.byTag = r.byTag
  occurrences : r'.occurrences = r.occurrences

namespace Alike

variable {r r' : Registry}

theorem size (ha : Alike r r') : r'.entries.size = r.entries.size := by
  simpa using congrArg List.length ha.primaries

/-- Names and selectors go by the tag and the attributes of an element. -/
theorem add (ha : Alike r r') {e e' : Element} (htag : e'.tag = e.tag)
    (hattributes : e'.attributes = e.attributes) : Alike (r.add e).value (r'.add e').value := by
  obtain ⟨tag, attributes, children⟩ := e
  obtain ⟨tag', attributes', children'⟩ := e'
  obtain rfl : tag' = tag := htag
  obtain rfl : attributes' = attributes := hattributes
  have hprimary : r'.nextPrimary ⟨tag', attributes', children'⟩
      = r.nextPrimary ⟨tag', attributes', children⟩ := by
    rw [nextPrimary, nextPrimary, ha.occurrences]
    rfl
  rw [value_add, value_add, hprimary, ha.byId, ha.byClass, ha.byTag, ha.occurrences, ha.size]
  exact ⟨by simp [ha.primaries], rfl, rfl, rfl, rfl⟩

/-- Registries of elements with the same tags and attributes have the same names. -/
theorem foldlM (ha : Alike r r') {elements elements' : List Element}
    (hfaces : elements'.map (fun e => (e.tag, e.attributes))
      = elements.map fun e => (e.tag, e.attributes)) :
    Alike (elements.foldlM Registry.add r).value (elements'.foldlM Registry.add r').value := by
  induction elements generalizing r r' elements' with
  | nil =>
    obtain rfl : elements' = [] := List.map_eq_nil_iff.mp hfaces
    exact ha
  | cons e rest ih =>
    obtain ⟨e', rest', rfl, hface, hfaces⟩ := List.map_eq_cons_iff.mp hfaces
    obtain ⟨htag, hattributes⟩ := Prod.mk.inj hface
    rw [List.foldlM_cons, List.foldlM_cons, Logged.value_bind, Logged.value_bind]
    exact ih (ha.add htag hattributes) hfaces

/-- A selector finds the same element. -/
theorem first (ha : Alike r r') (s : Selector) : r'.first s = r.first s := by
  have hmatching : ∀ t, r'.matching t = r.matching t := fun t => by
    cases t <;> simp only [matching, ha.byId, ha.byClass, ha.byTag]
  simp only [Registry.first, find, hmatching]

theorem primary? (ha : Alike r r') (h : Handle) : r'.primary? h = r.primary? h := by
  have hget := congrArg (·[h]?) ha.primaries
  simpa [Registry.primary?, entry?] using hget

theorem distinct (ha : Alike r r') (hd : r.Distinct) : r'.Distinct := by
  rw [Distinct, ha.primaries]
  exact hd

end Alike

end Registry

/-! ## What is left the same -/

namespace Plain

/-- Two registries in which references read the same expressions, but for one property. -/
structure Agree (slot : Slot) (r r' : Registry) : Prop where
  first : ∀ s, r'.first s = r.first s
  bound? : ∀ a : Slot, a ≠ slot → bound? r' a.1 a.2 = bound? r a.1 a.2

/-- The property of an element in a registry is that of the element in the tree, and is seen in its
outline. -/
theorem bound?_build (tree : List Node) (h : Handle) (name : String) :
    bound? (Registry.build tree).value h name
      = (((preorder tree).map Element.outline)[h]?).bind (·.inlineProperty? name) := by
  rw [← Registry.map_element_build, bound?, Registry.element?, Registry.entry?]
  simp only [List.map_map, List.getElem?_map, Array.getElem?_toList, Option.bind_map,
    Function.comp_def, Element.inlineProperty?_outline]

theorem ownedRules_build (wantLocal : Bool) (tree : List Node) :
    ownedRules (Registry.build tree).value wantLocal tree =
      (if wantLocal then
        (((preorder tree).map Element.outline).map Element.rules).zipIdx.flatMap fun (rules, h) =>
          rules.map (some h, ·)
      else [])
        ++ (tree.filterMap Node.style?).flatMap fun block => block.rules.map (none, ·) := by
  rw [← Registry.map_element_build, ownedRules]
  simp only [List.map_map, List.zipIdx_map, List.flatMap_map, Function.comp_def,
    Element.rules_outline]
  rfl

end Plain

namespace Edited

open Plain

variable {p : String} {h : Handle} {tree tree' : List Node}

/-- An edit of a property leaves all names as they are. -/
theorem alike (hedit : Edited p h tree tree') :
    (Registry.build tree).value.Alike (Registry.build tree').value := by
  obtain ⟨before, after, o, o', ho, -, hmap, hmap'⟩ := hedit.map_outline
  rw [Registry.build_eq_foldlM, Registry.build_eq_foldlM]
  refine Registry.Alike.foldlM ⟨rfl, rfl, rfl, rfl, rfl⟩ ?_
  have hfaces := congrArg (List.map fun o : Element => (o.tag, o.attributes)) hmap
  have hfaces' := congrArg (List.map fun o : Element => (o.tag, o.attributes)) hmap'
  simp only [List.map_append, List.map_cons, ho.face] at hfaces hfaces'
  simpa [Element.outline, Function.comp_def] using hfaces'.trans hfaces.symm

/-- References read the same expressions in both trees, but for the property that is edited. -/
theorem agree (hedit : Edited p h tree tree') :
    Agree (h, p) (Registry.build tree).value (Registry.build tree').value where
  first := hedit.alike.first
  bound? := by
    rintro ⟨i, name⟩ hne
    obtain ⟨before, after, o, o', ho, rfl, hmap, hmap'⟩ := hedit.map_outline
    rw [bound?_build, bound?_build, hmap, hmap']
    by_cases hi : i = before.length
    · have hname : name ≠ p := fun hname => hne (by rw [hi, hname])
      simp [hi, ho.inlineProperty? hname]
    · have hother : (before ++ o' :: after)[i]? = (before ++ o :: after)[i]? := by
        grind
      rw [hother]

/-- An edit of a property leaves all rules as they are. -/
theorem ownedRules_eq (hedit : Edited p h tree tree') (wantLocal : Bool) :
    ownedRules (Registry.build tree').value wantLocal tree'
      = ownedRules (Registry.build tree).value wantLocal tree := by
  obtain ⟨before, after, o, o', ho, -, hmap, hmap'⟩ := hedit.map_outline
  rw [ownedRules_build, ownedRules_build, hedit.filterMap_style?, hmap, hmap', List.map_append,
    List.map_append, List.map_cons, List.map_cons, ho.rules]

end Edited

end Stencil
