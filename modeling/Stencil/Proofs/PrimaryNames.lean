import Stencil.Proofs.Registry

/-!
# Primary names

An element gets its canonical name as its primary name, and if earlier elements have had that name,
then the number of them in brackets behind it. The brackets are text like any other, so that `.a[1]` may
be the second element of class `a` and the first one of class `a[1]`. If no canonical name is another
one with brackets behind it, then all primary names differ.

* `append_indexText_inj` — a name and the brackets behind it are told apart
* `Registry.Numbered` — the number in a primary name counts the earlier elements of the canonical name
* `Registry.primaries_unique` — when primary names lead back to their elements
-/

namespace Stencil

/-! ## Names with brackets -/

theorem bracket_not_mem_digits (n : Nat) : '[' ∉ ']' :: (Text.digits n).reverse := by
  rw [List.mem_cons, not_or, List.mem_reverse]
  refine ⟨by decide, fun hmem => ?_⟩
  have hdigit := Nat.isDigit_of_mem_toDigits (by decide) (by decide) hmem
  exact absurd hdigit (by decide)

/-- Seen from its end, a name with brackets behind it starts with the brackets. -/
theorem toList_reverse_append_indexText (name : String) (n : Nat) :
    (name ++ Selector.indexText n).toList.reverse
      = (']' :: (Text.digits n).reverse) ++ '[' :: name.toList.reverse := by
  simp [Selector.indexText]

/-- A name and a number can be read off from the text they make. -/
theorem append_indexText_inj {name name' : String} {m n : Nat}
    (h : name ++ Selector.indexText m = name' ++ Selector.indexText n) : name = name' ∧ m = n := by
  have hreverse := congrArg (fun s => s.toList.reverse) h
  simp only [toList_reverse_append_indexText] at hreverse
  obtain ⟨hdigits, hname⟩ :=
    Text.append_mark_inj (bracket_not_mem_digits m) (bracket_not_mem_digits n) hreverse
  rw [List.cons.injEq, List.reverse_inj] at hdigits
  rw [List.reverse_inj, String.toList_inj] at hname
  exact ⟨hname, Text.digits_inj hdigits.2⟩

/-- A name that does not end in a bracket has no brackets behind it. -/
theorem ne_append_indexText {name : String} (h : name.toList.getLast? ≠ some ']') (name' : String)
    (n : Nat) : name ≠ name' ++ Selector.indexText n := by
  rintro rfl
  apply h
  rw [List.getLast?_eq_head?_reverse, toList_reverse_append_indexText]
  rfl

/-- Of names without brackets behind them, different occurrences have different primary names. -/
theorem occurrence_inj {name name' : String} {m n : Nat}
    (hname : ∀ k, 1 ≤ k → name ≠ name' ++ Selector.indexText k)
    (hname' : ∀ k, 1 ≤ k → name' ≠ name ++ Selector.indexText k)
    (h : Element.occurrence name m = Element.occurrence name' n) : name = name' ∧ m = n := by
  unfold Element.occurrence at h
  split at h <;> split at h
  · exact ⟨h, by omega⟩
  · exact absurd h (hname n (by omega))
  · exact absurd h.symm (hname' m (by omega))
  · exact append_indexText_inj h

namespace Registry

variable {r : Registry} {h h' : Handle} {entry entry' : Entry}

/-! ## Numbers -/

/-- The canonical names of the elements, in order. -/
def canonicals (r : Registry) : List String :=
  r.entries.toList.map fun entry => entry.element.canonical

theorem canonicals_add (r : Registry) (e : Element) :
    (r.add e).value.canonicals = r.canonicals ++ [e.canonical] := by
  simp [canonicals, value_add]

/-- Canonical names come in document order. -/
theorem canonicals_build (tree : List Node) :
    (build tree).value.canonicals = (preorder tree).map Element.canonical := by
  rw [← map_element_build, List.map_map]
  rfl

theorem length_canonicals (r : Registry) : r.canonicals.length = r.entries.size := by
  simp [canonicals]

theorem getElem?_canonicals (he : r.entry? h = some entry) :
    r.canonicals[h]? = some entry.element.canonical := by
  rw [canonicals, List.getElem?_map, Array.getElem?_toList, ← entry?, he]
  rfl

/-- The number of each canonical name is how often it has occurred, and the number in a primary name
is how often the canonical name has occurred before. -/
structure Numbered (r : Registry) : Prop where
  occurrences : ∀ name, (r.occurrences.get? name).getD 0 = r.canonicals.count name
  primary : ∀ {h entry}, r.entry? h = some entry → entry.primary =
    Element.occurrence entry.element.canonical
      ((r.canonicals.take h).count entry.element.canonical)

theorem Numbered.empty : Numbered empty where
  occurrences _ := rfl
  primary h := nomatch h

/-- The numbers are kept up when an element is added. -/
theorem Numbered.add (hr : Numbered r) (e : Element) : Numbered (r.add e).value where
  occurrences name := by
    rw [canonicals_add, List.count_append, ← hr.occurrences, value_add, OrderedMap.get?_insert]
    by_cases hname : e.canonical = name
    · simp [hname]
    · simp [hname]
  primary {h entry} he := by
    rw [entry?_add] at he
    rw [canonicals_add]
    split at he
    · rename_i hlast
      cases he
      rw [hlast, ← length_canonicals, List.take_left, nextPrimary, hr.occurrences]
    · have hlt : h < r.canonicals.length := by
        rw [length_canonicals]
        exact (Array.getElem?_eq_some_iff.mp he).1
      rw [List.take_append_of_le_length (Nat.le_of_lt hlt)]
      exact hr.primary he

theorem numbered_build (tree : List Node) : Numbered (build tree).value := by
  rw [build_eq_foldlM]
  exact Logged.foldlM_induction Numbered.empty fun _ hr e _ => hr.add e

/-! ## Different numbers -/

/-- Behind an occurrence of a name there is one more of them. -/
theorem count_take_lt {names : List String} {name : String} {i j : Nat}
    (hi : names[i]? = some name) (hij : i < j) :
    (names.take i).count name < (names.take j).count name := by
  have hsucc : (names.take (i + 1)).count name = (names.take i).count name + 1 := by
    rw [List.take_add_one, hi]
    simp
  have hle : (names.take (i + 1)).count name ≤ (names.take j).count name :=
    (List.take_sublist_take_left hij).count_le name
  omega

/-- If no canonical name is another one with brackets behind it, elements with the same primary name
are the same element. -/
theorem Numbered.handle_eq (hr : Numbered r)
    (hclear : ∀ name ∈ r.canonicals, ∀ name' ∈ r.canonicals, ∀ k, 1 ≤ k →
      name ≠ name' ++ Selector.indexText k)
    (he : r.entry? h = some entry) (he' : r.entry? h' = some entry')
    (hprimary : entry.primary = entry'.primary) : h = h' := by
  have hget := getElem?_canonicals he
  have hget' := getElem?_canonicals he'
  have hmem := List.mem_of_getElem? hget
  have hmem' := List.mem_of_getElem? hget'
  rw [hr.primary he, hr.primary he'] at hprimary
  obtain ⟨hname, hcount⟩ :=
    occurrence_inj (hclear _ hmem _ hmem') (hclear _ hmem' _ hmem) hprimary
  rw [← hname] at hget' hcount
  rcases Nat.lt_trichotomy h h' with hlt | heq | hlt
  · exact absurd hcount (Nat.ne_of_lt (count_take_lt hget hlt))
  · exact heq
  · exact absurd hcount (Nat.ne_of_gt (count_take_lt hget' hlt))

/-- Primary names differ, unless a canonical name is another one with a number behind it. -/
theorem Numbered.distinct (hr : Numbered r)
    (hclear : ∀ name ∈ r.canonicals, ∀ name' ∈ r.canonicals, ∀ k, 1 ≤ k →
      name ≠ name' ++ Selector.indexText k) : r.Distinct := by
  unfold Distinct
  rw [List.nodup_iff_getElem?_ne_getElem?]
  intro i j hij hj heq
  rw [List.length_map] at hj
  simp only [List.getElem?_map, Array.getElem?_toList] at heq
  cases hentry : r.entries[i]? with
  | none =>
    rw [Array.getElem?_eq_none_iff, ← Array.length_toList] at hentry
    omega
  | some entry =>
    rw [hentry] at heq
    obtain ⟨entry', hentry', hprimary⟩ := Option.map_eq_some_iff.mp heq.symm
    have hsame := hr.handle_eq hclear hentry hentry' hprimary.symm
    exact absurd hsame (Nat.ne_of_lt hij)

/-- **Primary names lead back to their elements.** If no element's canonical name is another one's with
a number in brackets behind it, then no two elements have the same primary name, the index leads from
each primary name to its element, and each primary name is the canonical name with the number of earlier
elements of that canonical name, if there are any. -/
theorem primaries_unique {tree : List Node}
    (hclear : ∀ e ∈ preorder tree, ∀ e' ∈ preorder tree, ∀ k, 1 ≤ k →
      e.canonical ≠ e'.canonical ++ Selector.indexText k) :
    (build tree).value.Distinct ∧
      ∀ h e, (preorder tree)[h]? = some e → ∃ primary,
        (build tree).value.primary? h = some primary ∧
        (build tree).value.byPrimary.get? primary = some h ∧
        primary = Element.occurrence e.canonical
          ((((preorder tree).take h).map Element.canonical).count e.canonical) := by
  have hr := numbered_build tree
  have hnames : ∀ name ∈ (build tree).value.canonicals, ∀ name' ∈ (build tree).value.canonicals,
      ∀ k, 1 ≤ k → name ≠ name' ++ Selector.indexText k := by
    simpa [canonicals_build] using hclear
  have hdistinct := hr.distinct hnames
  refine ⟨hdistinct, fun h e he => ?_⟩
  rw [← map_element_build, List.getElem?_map, Array.getElem?_toList] at he
  obtain ⟨entry, hentry, rfl⟩ := Option.map_eq_some_iff.mp he
  refine ⟨entry.primary, ?_, hdistinct.get?_primary (indexed_build tree) hentry, ?_⟩
  · rw [primary?, entry?, hentry]
    rfl
  · rw [hr.primary hentry, canonicals_build, List.map_take]

/-- Elements with the same class, with an id, and with brackets inside of a class. -/
def shelves : List Node :=
  [.element ⟨"div", .ofList [("class", "a wide")],
    [.element ⟨"LI", .empty, []⟩, .element ⟨"li", .ofList [("id", " top ")], []⟩]⟩,
   .element ⟨"li", .empty, []⟩, .element ⟨"p", .ofList [("class", "a")], []⟩,
   .element ⟨"p", .ofList [("class", "a[1]b")], []⟩, .element ⟨"p", .ofList [("class", "a")], []⟩]

theorem primaries_unique_shelves :
    (∀ e ∈ preorder shelves, ∀ e' ∈ preorder shelves, ∀ k, 1 ≤ k →
      e.canonical ≠ e'.canonical ++ Selector.indexText k) ∧
    (build shelves).value.Distinct ∧
    (build shelves).value.primary? 3 = some "li[1]" ∧
    (build shelves).value.primary? 6 = some ".a[2]" ∧
    (build shelves).value.byPrimary.get? ".a[2]" = some 6 := by
  have hends : ∀ e ∈ preorder shelves, e.canonical.toList.getLast? ≠ some ']' := by decide
  have hclear : ∀ e ∈ preorder shelves, ∀ e' ∈ preorder shelves, ∀ k, 1 ≤ k →
      e.canonical ≠ e'.canonical ++ Selector.indexText k :=
    fun e he e' _ k _ => ne_append_indexText (hends e he) e'.canonical k
  obtain ⟨hdistinct, hnames⟩ := primaries_unique hclear
  obtain ⟨item, hitem, -, hitem_eq⟩ := hnames 3 _ rfl
  obtain ⟨last, hlast, hindex, hlast_eq⟩ := hnames 6 _ rfl
  obtain rfl : item = "li[1]" := hitem_eq.trans (by decide)
  obtain rfl : last = ".a[2]" := hlast_eq.trans (by decide)
  exact ⟨hclear, hdistinct, hitem, hlast, hindex⟩

end Registry

end Stencil
