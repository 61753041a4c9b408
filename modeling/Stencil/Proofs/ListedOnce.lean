import Stencil.Proofs.IndexedLookup

/-!
# How often an element is found

The index by class has an element once for each time that the class occurs in its `class` attribute, so
a selector may find one element twice, and two indexes of a selector may address the same element. It
happens for repeated classes only: tags and ids list each element once.

* `Registry.Lists` — an index lists an element as often as the element has the key
* `Registry.find_nodup_iff` — when all elements that are found differ
-/

namespace Stencil

namespace Registry

variable {r : Registry} {keys : Element → List String} {index : OrderedMap String (List Handle)}
  {name : String}

/-! ## Indexes -/

theorem element?_add (r : Registry) (e : Element) (h : Handle) :
    (r.add e).value.element? h = if h = r.entries.size then some e else r.element? h := by
  unfold element?
  rw [entry?_add]
  split <;> rfl

theorem element?_size (r : Registry) : r.element? r.entries.size = none := by
  simp [element?, entry?]

/-- The index lists each element as often as the element has the key. -/
def Lists (r : Registry) (keys : Element → List String) (index : OrderedMap String (List Handle)) :
    Prop :=
  ∀ name h, (listed index name).count h = (r.element? h).elim 0 fun e => (keys e).count name

theorem Lists.add (hr : r.Lists keys index) (e : Element) :
    (r.add e).value.Lists keys
      ((keys e).foldl (fun index name => enlist index name r.entries.size) index) := by
  intro name h
  rw [listed_foldl_enlist, List.count_append, hr, element?_add]
  by_cases hlast : h = r.entries.size
  · simp [hlast, element?_size]
  · simp [hlast, List.count_replicate, Ne.symm hlast]

theorem lists_build (tree : List Node) :
    (build tree).value.Lists Element.classes (build tree).value.byClass ∧
      (build tree).value.Lists (fun e => [Text.lower e.tag]) (build tree).value.byTag := by
  rw [build_eq_foldlM]
  refine Logged.foldlM_induction
    (P := fun r : Registry => r.Lists Element.classes r.byClass ∧
      r.Lists (fun e => [Text.lower e.tag]) r.byTag) ⟨fun _ _ => rfl, fun _ _ => rfl⟩ ?_
  rintro r ⟨hclass, htag⟩ e -
  have hclass' := hclass.add e
  have htag' := htag.add e
  rw [value_add] at hclass' htag' ⊢
  exact ⟨hclass', htag'⟩

theorem mem_preorder_iff {tree : List Node} {e : Element} :
    e ∈ preorder tree ↔ ∃ h, (build tree).value.element? h = some e := by
  rw [← map_element_build, List.mem_iff_getElem?]
  simp [element?, entry?]

/-- All that is listed under a key differs if no element has the key twice. -/
theorem Lists.nodup_iff {tree : List Node} (hr : (build tree).value.Lists keys index) :
    (listed index name).Nodup ↔ ∀ e ∈ preorder tree, (keys e).count name ≤ 1 := by
  rw [List.nodup_iff_count_le_one]
  constructor
  · intro hcount e he
    obtain ⟨h, he⟩ := mem_preorder_iff.mp he
    have hle := hcount h
    rw [hr, he] at hle
    exact hle
  · intro hkeys h
    rw [hr]
    cases he : (build tree).value.element? h with
    | none => exact Nat.zero_le 1
    | some e => exact hkeys e (mem_preorder_iff.mpr ⟨h, he⟩)

/-! ## Selectors -/

theorem matching_nodup_iff (tree : List Node) (target : Target) :
    ((build tree).value.matching target).Nodup ↔
      ∀ name, target = .className name → ∀ e ∈ preorder tree, e.classes.count name ≤ 1 := by
  obtain ⟨hclass, htag⟩ := lists_build tree
  cases target with
  | id name =>
    have hnodup : ((build tree).value.matching (.id name)).Nodup := Option.toList_nodup _
    simpa using hnodup
  | className name =>
    rw [matching, ← listed, hclass.nodup_iff]
    simp
  | tag name =>
    have hnodup : ((build tree).value.matching (.tag name)).Nodup := by
      rw [matching, ← listed, htag.nodup_iff]
      intro e _
      exact List.count_le_length
    simpa using hnodup

/-- In a list without repetitions, different positions lead to different handles. -/
theorem find_index_ne {i j : UInt64} {target : Target} (hnodup : (r.matching target).Nodup)
    (hi : i.toNat < (r.matching target).length) (hj : j.toNat < (r.matching target).length)
    (hij : i ≠ j) :
    ∃ h h', r.find ⟨target, some i⟩ = [h] ∧ r.find ⟨target, some j⟩ = [h'] ∧ h ≠ h' := by
  refine ⟨(r.matching target)[i.toNat], (r.matching target)[j.toNat], ?_, ?_, ?_⟩
  · simp [find, hi]
  · simp [find, hj]
  · rw [Ne, hnodup.getElem_inj_iff, UInt64.toNat_inj]
    exact hij

/-- **An element is found twice only if it has a class twice.** The elements that a selector finds
differ, unless it is a class without an index and some element repeats the class. So if no element
repeats a class, then two indexes of that class that are both in range address two elements. -/
theorem find_nodup_iff (tree : List Node) :
    (∀ s : Selector, ((build tree).value.find s).Nodup ↔
      ∀ name, s = ⟨.className name, none⟩ → ∀ e ∈ preorder tree, e.classes.count name ≤ 1) ∧
    ∀ name, (∀ e ∈ preorder tree, e.classes.count name ≤ 1) → ∀ i j : UInt64,
      i.toNat < ((build tree).value.find ⟨.className name, none⟩).length →
      j.toNat < ((build tree).value.find ⟨.className name, none⟩).length → i ≠ j →
      ∃ h h', (build tree).value.find ⟨.className name, some i⟩ = [h] ∧
        (build tree).value.find ⟨.className name, some j⟩ = [h'] ∧ h ≠ h' := by
  refine ⟨?_, ?_⟩
  · rintro ⟨target, index⟩
    cases index with
    | none =>
      show ((build tree).value.matching target).Nodup ↔ _
      simp [matching_nodup_iff]
    | some i =>
      have hnodup : ((build tree).value.find ⟨target, some i⟩).Nodup := Option.toList_nodup _
      simpa using hnodup
  · intro name hclasses i j hi hj hij
    refine find_index_ne ((matching_nodup_iff tree _).mpr ?_) hi hj hij
    rintro _ ⟨⟩
    exact hclasses

/-- Two elements with the same classes. The first one has one of them twice. -/
def twins : List Node :=
  [.element ⟨"div", .ofList [("class", "card lead lead")], []⟩,
   .element ⟨"p", .ofList [("class", "card lead")], []⟩]

/-- The two elements are told apart by the class that neither has twice. -/
theorem find_nodup_iff_twins :
    (∀ e ∈ preorder twins, e.classes.count "card" ≤ 1) ∧
      ((build twins).value.find ⟨.className "card", none⟩).Nodup ∧
      ((build twins).value.find ⟨.className "card", none⟩).length = 2 ∧
      ∃ h h', (build twins).value.find ⟨.className "card", some 0⟩ = [h] ∧
        (build twins).value.find ⟨.className "card", some 1⟩ = [h'] ∧ h ≠ h' := by
  have hclasses : ∀ e ∈ preorder twins, e.classes.count "card" ≤ 1 := by decide
  have hlength : ((build twins).value.find ⟨.className "card", none⟩).length = 2 := by
    rw [build_eq_foldlM]
    decide
  obtain ⟨hnodup, hindex⟩ := find_nodup_iff twins
  refine ⟨hclasses, (hnodup _).mpr ?_, hlength, hindex "card" hclasses 0 1 ?_ ?_ (by decide)⟩
  · rintro name ⟨⟩
    exact hclasses
  · rw [hlength]
    decide
  · rw [hlength]
    decide

/-- By the other class, the second index leads to the first element again. -/
theorem find_repeated_twins :
    ¬ ((build twins).value.find ⟨.className "lead", none⟩).Nodup ∧
      (build twins).value.find ⟨.className "lead", some 0⟩ = [0] ∧
      (build twins).value.find ⟨.className "lead", some 1⟩ = [0] := by
  rw [build_eq_foldlM]
  decide

end Registry

end Stencil
