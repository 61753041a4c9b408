import Mathlib.Data.List.Nodup
import Stencil.Proofs.Checked
import Stencil.Registry

/-!
# The registry of elements: laws

What a registry holds after an element is added, and what its index by primary name says.

* `Registry.Indexed` — the index leads to an element with the name, and every name is in it
* `Registry.Distinct.get?_primary` — if all names differ, it leads to the element of the name
-/

namespace Stencil

namespace Registry

variable {r : Registry} {h h' : Handle} {entry entry' : Entry}

/-! ## One element more -/

/-- The name that an element gets when it is added. -/
def nextPrimary (r : Registry) (e : Element) : String :=
  Element.occurrence e.canonical ((r.occurrences.get? e.canonical).getD 0)

theorem value_add (r : Registry) (e : Element) : (r.add e).value = {
    entries := r.entries.push ⟨e, r.nextPrimary e⟩
    byId := match e.id? with
      | some id => r.byId.insert id r.entries.size
      | none => r.byId
    byClass := e.classes.foldl (fun index name => enlist index name r.entries.size) r.byClass
    byTag := enlist r.byTag (Text.lower e.tag) r.entries.size
    byPrimary := r.byPrimary.insert (r.nextPrimary e) r.entries.size
    occurrences :=
      r.occurrences.insert e.canonical ((r.occurrences.get? e.canonical).getD 0 + 1) } := by
  unfold add
  cases e.id? with
  | none => rfl
  | some id => cases h : r.byId.contains id <;> simp only [h] <;> rfl

/-- A new element takes the next handle. -/
theorem entry?_add (r : Registry) (e : Element) (h : Handle) :
    (r.add e).value.entry? h
      = if h = r.entries.size then some ⟨e, r.nextPrimary e⟩ else r.entry? h := by
  unfold entry?
  rw [value_add, Array.getElem?_push]

/-! ## The walk -/

/-- The walk adds what is on the stack in the order of the tree. -/
theorem walk_eq_foldlM (r : Registry) (stack : List Element) :
    r.walk stack = (pending stack).foldlM Registry.add r := by
  fun_induction walk r stack with
  | case1 r => rfl
  | case2 r e rest ih =>
    rw [pending_cons, List.foldlM_cons]
    exact congrArg _ (funext ih)

theorem build_eq_foldlM (nodes : List Node) :
    build nodes = (preorder nodes).foldlM Registry.add empty := by
  rw [build, walk_eq_foldlM, preorder_eq_pending]

/-- The elements of a registry are those of the tree, in document order. -/
theorem map_element_build (tree : List Node) :
    (build tree).value.entries.toList.map Entry.element = preorder tree := by
  -- For any registry at the start, since elements are added one after another.
  suffices ∀ (elements : List Element) (r : Registry),
      (elements.foldlM add r).value.entries.toList.map Entry.element
        = r.entries.toList.map Entry.element ++ elements by
    have h := this (preorder tree) empty
    rw [build_eq_foldlM, h]
    rfl
  intro elements
  induction elements with
  | nil => intro r; simp
  | cons e rest ih =>
    intro r
    rw [List.foldlM_cons, Logged.value_bind, ih, value_add]
    simp

/-! ## The index by primary name -/

/-- The index by primary name leads to elements of that name, and knows the name of each one. -/
structure Indexed (r : Registry) : Prop where
  sound : ∀ {name h}, r.byPrimary.get? name = some h →
    ∃ entry, r.entry? h = some entry ∧ entry.primary = name
  complete : ∀ {h entry}, r.entry? h = some entry → ∃ h', r.byPrimary.get? entry.primary = some h'

theorem Indexed.empty : Indexed empty where
  sound h := nomatch h
  complete h := nomatch h

/-- The index is kept up when an element is added. -/
theorem Indexed.add (hr : Indexed r) (e : Element) : Indexed (r.add e).value where
  sound {name h} hget := by
    rw [value_add, OrderedMap.get?_insert] at hget
    rw [entry?_add]
    split at hget
    · cases hget
      exact ⟨_, if_pos rfl, by assumption⟩
    · obtain ⟨entry, he, hp⟩ := hr.sound hget
      have hlt : h < r.entries.size := (Array.getElem?_eq_some_iff.mp he).1
      exact ⟨entry, by rw [if_neg (Nat.ne_of_lt hlt), he], hp⟩
  complete {h entry} he := by
    rw [entry?_add] at he
    rw [value_add, OrderedMap.get?_insert]
    split at he
    · cases he
      exact ⟨_, if_pos rfl⟩
    · split
      · exact ⟨_, rfl⟩
      · exact hr.complete he

/-- The index by primary name is right for every tree. -/
theorem indexed_build (nodes : List Node) : Indexed (build nodes).value := by
  rw [build_eq_foldlM]
  exact Logged.foldlM_induction Indexed.empty fun _ hr e _ => hr.add e

/-! ## Names that all differ -/

/-- No two elements have the same primary name. -/
def Distinct (r : Registry) : Prop := (r.entries.toList.map Entry.primary).Nodup

instance : Decidable r.Distinct := inferInstanceAs (Decidable (List.Nodup _))

theorem Distinct.handle_eq (hd : r.Distinct) (he : r.entry? h = some entry)
    (he' : r.entry? h' = some entry') (hp : entry.primary = entry'.primary) : h = h' := by
  have hget : (r.entries.toList.map Entry.primary)[h]? = some entry.primary := by
    rw [List.getElem?_map, Array.getElem?_toList]
    exact congrArg _ he
  have hget' : (r.entries.toList.map Entry.primary)[h']? = some entry.primary := by
    rw [List.getElem?_map, Array.getElem?_toList, hp]
    exact congrArg _ he'
  have hlt := (List.getElem?_eq_some_iff.mp hget).1
  exact (List.getElem?_inj hlt hd).mp (hget.trans hget'.symm)

/-- If all names differ, the index leads from the name of an element to the element. -/
theorem Distinct.get?_primary (hd : r.Distinct) (hr : Indexed r) (he : r.entry? h = some entry) :
    r.byPrimary.get? entry.primary = some h := by
  obtain ⟨h', hget⟩ := hr.complete he
  obtain ⟨entry', he', hp⟩ := hr.sound hget
  rw [hget, hd.handle_eq he he' hp.symm]

end Registry

end Stencil
