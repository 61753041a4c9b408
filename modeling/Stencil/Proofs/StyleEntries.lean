import Stencil.Proofs.PlainResolution

/-!
# The entries of the style map

The style of an element is filed under its primary name. Names are texts: the second element with the
class `a` is called `.a[1]`, and so is an element that has the class `a[1]`. Where the name of a styled
element is borne by no other element, the style map has exactly the styled elements, in document
order, each with the names of its own properties. Where it is, a style may get lost.

* `Registry.StyledApart` — no other element bears the name of a styled one
* `Resolution.styles_eq_styled` — the entries of the style map
* `Resolution.styles_lost_overshadowed` — a style that is lost to an element of the same name
-/

namespace Stencil

/-! ## Elements of the registry -/

namespace Registry

variable {r : Registry} {h h' : Handle} {entry entry' : Entry}

/-- Of two elements with the same primary name neither is styled. -/
def StyledApart (r : Registry) : Prop :=
  r.entries.toList.Pairwise fun a b =>
    a.primary = b.primary → a.element.hasInlineStyle = false ∧ b.element.hasInlineStyle = false

instance : Decidable r.StyledApart := inferInstanceAs (Decidable (List.Pairwise _ _))

/-- The name of a styled element leads to one element only. -/
theorem StyledApart.handle_eq (hs : r.StyledApart) (he : r.entry? h = some entry)
    (he' : r.entry? h' = some entry') (hstyle : entry.element.hasInlineStyle = true)
    (hname : entry.primary = entry'.primary) : h = h' := by
  have apart := List.pairwise_iff_getElem.mp hs
  unfold entry? at he he'
  rw [← Array.getElem?_toList] at he he'
  obtain ⟨hlt, rfl⟩ := List.getElem?_eq_some_iff.mp he
  obtain ⟨hlt', rfl⟩ := List.getElem?_eq_some_iff.mp he'
  rcases Nat.lt_trichotomy h h' with hh | hh | hh
  · have hplain := (apart h h' hlt hlt' hh hname).1
    rw [hstyle] at hplain
    cases hplain
  · exact hh
  · have hplain := (apart h' h hlt' hlt hh hname.symm).2
    rw [hstyle] at hplain
    cases hplain

/-- The index by primary name leads from the name of a styled element to the element. -/
theorem StyledApart.get?_primary (hs : r.StyledApart) (hr : Indexed r)
    (he : r.entry? h = some entry) (hstyle : entry.element.hasInlineStyle = true) :
    r.byPrimary.get? entry.primary = some h := by
  obtain ⟨h', hget⟩ := hr.complete he
  obtain ⟨entry', he', hname⟩ := hr.sound hget
  rw [hget, hs.handle_eq he he' hstyle hname.symm]

/-- The names of the styled elements all differ. -/
theorem StyledApart.nodup (hs : r.StyledApart) :
    ((r.entries.toList.filter (·.element.hasInlineStyle)).map Entry.primary).Nodup := by
  rw [List.Nodup, List.pairwise_map, List.pairwise_filter]
  refine hs.imp fun hab ha _ hname => ?_
  simp [(hab hname).1] at ha

end Registry

namespace Resolution

open Session

variable {r : Registry} {order : List String} {inline : List (String × Outcomes)}

/-! ## Names of properties -/

/-- An outcome for every property of an element, under the name of the element. -/
def NamedOutcomes (found : String × Handle × Element) (out : String × Outcomes) : Prop :=
  out.1 = found.1 ∧ out.2.keys = found.2.2.inlineProperties.keys

theorem keys_texts (outcomes : Outcomes) : outcomes.texts.keys = outcomes.keys := by
  simp [Outcomes.texts, OrderedMap.keys]

theorem ensures_keys {α β γ : Type} (f : α → β → Resolving γ) (m : OrderedMap α β) :
    Ensures (fun _ => True) (m.mapM f) fun n => n.keys = m.keys := by
  have hany (e : α × β) : Ensures (fun _ => True) (f e.1 e.2) fun _ => True :=
    fun _ _ _ _ _ => ⟨trivial, trivial⟩
  exact (Ensures.mapM_entries fun e _ => hany e).mono fun n hn =>
    map_eq_of_forall₂ hn fun _ _ he => he.1

theorem ensures_namedOutcomes (r : Registry) (order : List String) :
    Ensures (fun _ => True) (inlineOutcomes r order)
      (List.Forall₂ NamedOutcomes (styledIn r order)) := by
  refine Ensures.mapM fun found _ => ?_
  exact Ensures.bind (ensures_keys _ _) fun o ho => Ensures.pure ⟨rfl, ho⟩

/-- The style map of a resolved tree comes from outcomes for all properties of the elements of the
order. -/
theorem styles_of_resolveIn {wantLocal : Bool} {tree : List Node} {res : Resolved} {s : Session}
    (hrun : (resolveIn r order wantLocal tree).run.run {} = (.ok res, s)) :
    ∃ inline, List.Forall₂ NamedOutcomes (styledIn r order) inline ∧
      res.styles = styleMap r inline := by
  have h : Ensures (fun _ => True) (resolveIn r order wantLocal tree) fun res =>
      ∃ inline, List.Forall₂ NamedOutcomes (styledIn r order) inline ∧
        res.styles = styleMap r inline := by
    refine Ensures.bind (ensures_namedOutcomes r order) fun inline hi => ?_
    refine Ensures.bind (P := fun _ => True) (fun _ _ _ _ _ => ⟨trivial, trivial⟩) fun rules _ => ?_
    exact Ensures.pure ⟨inline, hi, rfl⟩
  exact (h trivial hrun).2

/-! ## Finding the outcomes of an element -/

/-- The outcomes of a styled element are found under its name. -/
theorem lookup_inline_styled (hr : r.Indexed) (hs : r.StyledApart) (hnodup : order.Nodup)
    (hinline : List.Forall₂ NamedOutcomes (styledIn r order) inline) {h : Handle} {entry : Entry}
    (he : r.entry? h = some entry) (hstyle : entry.element.hasInlineStyle = true)
    (hmem : entry.primary ∈ order) :
    ∃ o : Outcomes, inline.lookup entry.primary = some o ∧
      o.keys = entry.element.inlineProperties.keys := by
  have hfound : styled? r entry.primary = some (h, entry.element) := by
    simp [styled?, hs.get?_primary hr he hstyle, Registry.element?, he, hstyle]
  have hin : (entry.primary, h, entry.element) ∈ styledIn r order :=
    List.mem_filterMap.mpr ⟨entry.primary, hmem, by rw [hfound]; rfl⟩
  obtain ⟨⟨name, o⟩, ho, rfl, hkeys⟩ := exists_right_of_forall₂ hinline hin
  have hnames : inline.map Prod.fst = (styledIn r order).map Prod.fst :=
    map_eq_of_forall₂ hinline fun _ _ h => h.1
  refine ⟨o, ?_, hkeys⟩
  exact OrderedMap.lookup_of_mem (hnames ▸ nodup_styledIn hnodup) ho

/-- There are no outcomes under the name of an element that is not styled. -/
theorem lookup_inline_unstyled (hr : r.Indexed) (hs : r.StyledApart)
    (hinline : List.Forall₂ NamedOutcomes (styledIn r order) inline) {h : Handle} {entry : Entry}
    (he : r.entry? h = some entry) (hstyle : entry.element.hasInlineStyle = false) :
    inline.lookup entry.primary = none := by
  refine OrderedMap.lookup_eq_none fun hmem => ?_
  rw [map_eq_of_forall₂ hinline (f := Prod.fst) fun _ _ h => h.1] at hmem
  obtain ⟨⟨name, h', e⟩, hin, rfl⟩ := List.mem_map.mp hmem
  obtain ⟨name', -, hf⟩ := List.mem_filterMap.mp hin
  obtain ⟨found, hfound, heq⟩ := Option.map_eq_some_iff.mp hf
  cases heq
  obtain ⟨he', hstyle'⟩ := entry?_of_styled? hr hfound
  obtain rfl : h' = h := hs.handle_eq he' he hstyle' rfl
  have hel : entry.element = e := congrArg Entry.element (Option.some.inj (he.symm.trans he'))
  rw [hel, hstyle'] at hstyle
  cases hstyle

/-! ## The style map -/

/-- The entry of an element in the style map: its name and the names of its properties. -/
def styleEntry (entry : Entry) : String × List String :=
  (entry.primary, entry.element.inlineProperties.keys)

/-- The names in a style map are those of the styled elements, in document order. -/
theorem entries_styleMap (hr : r.Indexed) (hs : r.StyledApart) (hnodup : order.Nodup)
    (hinline : List.Forall₂ NamedOutcomes (styledIn r order) inline)
    (hall : ∀ entry ∈ r.entries.toList, entry.element.hasInlineStyle = true →
      entry.primary ∈ order) :
    (styleMap r inline).entries.map (fun e => (e.1, e.2.keys))
      = (r.entries.toList.filter (·.element.hasInlineStyle)).map styleEntry := by
  let file (entry : Entry) : Option (String × PropertyTexts) :=
    (inline.lookup entry.primary).map fun o => (entry.primary, o.texts)
  have hfile : (r.entries.toList.filterMap file).map (fun e => (e.1, e.2.keys))
      = (r.entries.toList.filter (·.element.hasInlineStyle)).map styleEntry := by
    rw [List.map_filterMap, ← List.filterMap_eq_map_iff_forall_eq_some.mpr fun _ _ => rfl,
      List.filterMap_filter]
    refine List.filterMap_congr fun entry hmem => ?_
    obtain ⟨h, he⟩ := List.getElem?_of_mem hmem
    rw [Array.getElem?_toList] at he
    cases hstyle : entry.element.hasInlineStyle with
    | true =>
      obtain ⟨o, ho, hkeys⟩ :=
        lookup_inline_styled hr hs hnodup hinline he hstyle (hall entry hmem hstyle)
      simp [file, ho, keys_texts, hkeys, styleEntry]
    | false => simp [file, lookup_inline_unstyled hr hs hinline he hstyle]
  have hkeys : ((r.entries.toList.filterMap file).map Prod.fst).Nodup := by
    have hnames : (r.entries.toList.filterMap file).map Prod.fst
        = (r.entries.toList.filter (·.element.hasInlineStyle)).map Entry.primary := by
      simpa [Function.comp_def, styleEntry] using congrArg (List.map Prod.fst) hfile
    rw [hnames]
    exact hs.nodup
  rw [styleMap, OrderedMap.entries_ofList hkeys]
  exact hfile

/-- **The style map has the styled elements, and nothing else.** If no other element bears the name
of a styled one and the styles of a tree are resolved, then the style map has one entry for each
element with a style of its own, in document order, and the names in the entry are those of the
element's own properties, in the order in which they are declared. -/
theorem styles_eq_styled {wantLocal : Bool} {tree : List Node} {res : Resolved}
    (hs : (Registry.build tree).value.StyledApart)
    (hres : (resolve wantLocal tree).outcome = .ok res) :
    let r := (Registry.build tree).value
    r.entries.toList.map Entry.element = preorder tree ∧
      res.styles.entries.map (fun e => (e.1, e.2.keys))
        = (r.entries.toList.filter (·.element.hasInlineStyle)).map fun entry =>
            (entry.primary, entry.element.inlineProperties.keys) := by
  intro r
  refine ⟨Registry.map_element_build tree, ?_⟩
  obtain ⟨order, s, hsort, hrun⟩ := resolve_ok hres
  obtain ⟨hnodup, hmem, -⟩ := Dependencies.sort_ok (Dependencies.built_build r) hsort
  obtain ⟨inline, hinline, hstyles⟩ := styles_of_resolveIn hrun
  rw [hstyles]
  refine entries_styleMap (Registry.indexed_build tree) hs hnodup hinline fun entry he hstyle => ?_
  exact (hmem _).mpr (Dependencies.primary_mem_nodes_build he hstyle)

/-- Two styled elements with the same class, one of them inside an element without a style. -/
def cards : List Node :=
  [.element ⟨"main", .empty,
    [.element ⟨"div", .ofList [("class", "card")],
      [.style { inline := .ofList [("width", .literal "wide"), ("color", .literal "red")] }]⟩]⟩,
   .element ⟨"div", .ofList [("class", "card")],
    [.style { inline := .ofList [("color", .literal "blue")] }]⟩]

theorem styles_eq_styled_cards :
    (Registry.build cards).value.StyledApart ∧ ∃ res, (resolve true cards).outcome = .ok res ∧
      res.styles.entries.map (fun e => (e.1, e.2.keys))
        = [(".card", ["width", "color"]), (".card[1]", ["color"])] := by
  have hs : (Registry.build cards).value.StyledApart := by
    rw [Registry.build_eq_foldlM]
    decide
  have hok : (resolve true cards).outcome.isOk = true := by decide +kernel
  cases h : (resolve true cards).outcome with
  | error e => rw [h] at hok; cases hok
  | ok res =>
    refine ⟨hs, res, rfl, ?_⟩
    rw [(styles_eq_styled hs h).2, Registry.build_eq_foldlM]
    rfl

/-- The second element is called `.a[1]` for its place, the third one for its class. -/
def overshadowed : List Node :=
  [.element ⟨"div", .ofList [("class", "a")], []⟩,
   .element ⟨"div", .ofList [("class", "a")],
    [.style { inline := .ofList [("color", .literal "red")] }]⟩,
   .element ⟨"div", .ofList [("class", "a[1]")], []⟩]

/-- The second element has a style, and the style map is empty. -/
theorem styles_lost_overshadowed :
    (preorder overshadowed).map Element.hasInlineStyle = [false, true, false] ∧
      ∃ res, (resolve true overshadowed).outcome = .ok res ∧ res.styles.entries = [] := by
  have hlost : (resolve true overshadowed).outcome.toOption.map (·.styles.entries) = some [] := by
    decide +kernel
  refine ⟨by decide, ?_⟩
  cases h : (resolve true overshadowed).outcome with
  | error e => rw [h] at hlost; cases hlost
  | ok res =>
    rw [h] at hlost
    exact ⟨res, rfl, Option.some.inj hlost⟩

end Resolution

end Stencil
