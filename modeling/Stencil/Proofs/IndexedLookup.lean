import Mathlib.Data.List.Triplewise
import Stencil.Proofs.Registry

/-!
# Lookup by index and lookup by scan

The registry answers a selector from one of its indexes: by id, by class or by tag. The same answer
comes from going through the elements of the document one after another and asking of each whether the
selector matches it.

* `Selector.scan` — the elements that a selector addresses, found without an index
* `Registry.Indexes` — what the three indexes hold for a list of elements
* `Registry.find_eq_scan` — the two ways agree

The index by class lists an element once for each time that the class occurs in the element's `class`
attribute. A scan lists it once, so the two agree only if no class is repeated.
-/

namespace Stencil

/-! ## Scan -/

namespace Selector

/-- The positions of the elements that a selector looks for, its index left aside. Of several elements
with the same id only the last one counts. -/
def hits (s : Selector) (elements : List Element) : List Handle :=
  match s.target with
  | .id _ => (elements.findIdxs s.matches).getLast?.toList
  | .className _ | .tag _ => elements.findIdxs s.matches

/-- The positions of the elements that a selector addresses: all hits, or the one at its index. -/
def scan (s : Selector) (elements : List Element) : List Handle :=
  match s.index with
  | none => s.hits elements
  | some n => (s.hits elements)[n.toNat]?.toList

end Selector

namespace Registry

/-! ## Lists of handles -/

/-- What an index has listed under a key. -/
def listed (index : OrderedMap String (List Handle)) (key : String) : List Handle :=
  (index.get? key).getD []

/-- A handle is listed at the end, under its key. -/
theorem listed_enlist (index : OrderedMap String (List Handle)) (key key' : String) (h : Handle) :
    listed (enlist index key h) key' = listed index key' ++ if key = key' then [h] else [] := by
  by_cases hkey : key = key'
  · simp [listed, enlist, hkey]
  · simp [listed, enlist, hkey]

/-- An element is listed under a key as often as the key is given for it. -/
theorem listed_foldl_enlist (index : OrderedMap String (List Handle)) (keys : List String)
    (key : String) (h : Handle) :
    listed (keys.foldl (fun index name => enlist index name h) index) key
      = listed index key ++ List.replicate (keys.count key) h := by
  induction keys generalizing index with
  | nil => simp
  | cons name rest ih =>
    rw [List.foldl_cons, ih, listed_enlist, List.append_assoc]
    by_cases hname : name = key
    · simp [hname, List.replicate_succ]
    · simp [hname]

theorem findIdxs_concat (p : Element → Bool) (elements : List Element) (e : Element) :
    (elements ++ [e]).findIdxs p
      = elements.findIdxs p ++ if p e then [elements.length] else [] := by
  simp [List.findIdxs_append]

/-! ## The indexes -/

/-- The entries are the elements of a list, and each index leads to the positions in it of the elements
that have the key. -/
structure Indexes (r : Registry) (elements : List Element) : Prop where
  entries : r.entries.toList.map Entry.element = elements
  byId : ∀ name, r.byId.get? name = (elements.findIdxs fun e => e.id? == some name).getLast?
  byClass : ∀ name, listed r.byClass name = elements.findIdxs fun e => e.hasClass name
  byTag : ∀ name, listed r.byTag name = elements.findIdxs fun e => Text.lower e.tag == name

variable {r : Registry} {elements : List Element}

theorem Indexes.empty : Indexes empty [] := ⟨rfl, fun _ => rfl, fun _ => rfl, fun _ => rfl⟩

theorem Indexes.size_eq (hr : Indexes r elements) : r.entries.size = elements.length := by
  rw [← hr.entries]
  simp

/-- The indexes are kept up when an element is added. -/
theorem Indexes.add (hr : Indexes r elements) {e : Element} (hclasses : e.classes.Nodup) :
    Indexes (r.add e).value (elements ++ [e]) where
  entries := by
    rw [value_add]
    simp [hr.entries]
  byId name := by
    rw [value_add, findIdxs_concat]
    cases hid : e.id? with
    | none => simp [hr.byId]
    | some id =>
      rw [OrderedMap.get?_insert, hr.size_eq]
      by_cases hname : id = name
      · simp [hname]
      · simp [hname, hr.byId]
  byClass name := by
    rw [value_add, listed_foldl_enlist, hr.byClass, hr.size_eq, findIdxs_concat]
    by_cases hmem : name ∈ e.classes
    · simp [Element.hasClass, hmem, List.count_eq_one_of_mem hclasses hmem]
    · simp [Element.hasClass, hmem, List.count_eq_zero_of_not_mem hmem]
  byTag name := by
    rw [value_add, listed_enlist, hr.byTag, hr.size_eq, findIdxs_concat]
    simp

/-- The indexes of a document lead to the positions of its elements, if no class is repeated. -/
theorem indexes_build {tree : List Node} (hclasses : ∀ e ∈ preorder tree, e.classes.Nodup) :
    Indexes (build tree).value (preorder tree) := by
  rw [build_eq_foldlM]
  -- The elements that have been added so far are a prefix of the document.
  suffices ∀ (rest done : List Element) (r : Registry), Indexes r done →
      (∀ e ∈ rest, e.classes.Nodup) → Indexes (rest.foldlM Registry.add r).value (done ++ rest) from
    this (preorder tree) [] .empty Indexes.empty hclasses
  intro rest
  induction rest with
  | nil =>
    intro done r hr _
    simpa using hr
  | cons e rest ih =>
    intro done r hr hrest
    rw [List.forall_mem_cons] at hrest
    have hadded := ih (done ++ [e]) (r.add e).value (hr.add hrest.1) hrest.2
    simpa using hadded

/-! ## Agreement -/

/-- The indexes list what a search through all elements hits. -/
theorem Indexes.matching_eq (hr : Indexes r elements) (s : Selector) :
    r.matching s.target = s.hits elements := by
  obtain ⟨target, index⟩ := s
  cases target with
  | id name =>
    show (r.byId.get? name).toList = _
    rw [hr.byId]
    rfl
  | className name => exact hr.byClass name
  | tag name => exact hr.byTag (Text.lower name)

/-- **Lookup by index agrees with a scan of the document.** If no element has a class twice, then the
registry holds the elements of the document in document order, each of them once, and for every
selector it finds the elements that the selector matches, of an id the last one; if the selector has
an index, only the element at that place among them, if there is one. -/
theorem find_eq_scan {tree : List Node} (hclasses : ∀ e ∈ preorder tree, e.classes.Nodup) :
    (build tree).value.entries.toList.map Entry.element = preorder tree ∧
      ∀ s : Selector, (build tree).value.find s = s.scan (preorder tree) := by
  have hr := indexes_build hclasses
  refine ⟨hr.entries, fun s => ?_⟩
  unfold find Selector.scan
  cases s.index with
  | none => exact hr.matching_eq s
  | some n => rw [hr.matching_eq]

/-- A list in which two elements have the same id, and tags differ by case. -/
def menu : List Node :=
  [.element ⟨"UL", .ofList [("id", " top "), ("class", "wide menu")],
    [.text "menu", .element ⟨"li", .ofList [("class", "item")], []⟩,
     .element ⟨"LI", .ofList [("class", "item wide")], []⟩]⟩,
   .element ⟨"p", .ofList [("id", "top")], []⟩]

theorem find_eq_scan_menu :
    (∀ e ∈ preorder menu, e.classes.Nodup) ∧
      ((build menu).value.entries.toList.map Entry.element).map Element.tag
        = ["UL", "li", "LI", "p"] ∧
      (build menu).value.find ⟨.id "top", none⟩ = [3] ∧
      (build menu).value.find ⟨.className "wide", none⟩ = [0, 2] ∧
      (build menu).value.find ⟨.tag "li", some 1⟩ = [2] ∧
      (build menu).value.find ⟨.tag "li", some 2⟩ = [] := by
  have hclasses : ∀ e ∈ preorder menu, e.classes.Nodup := by decide
  obtain ⟨hentries, hfind⟩ := find_eq_scan hclasses
  refine ⟨hclasses, ?_, ?_, ?_, ?_, ?_⟩
  · rw [hentries]
    decide
  all_goals
    rw [hfind]
    decide

end Registry

end Stencil
