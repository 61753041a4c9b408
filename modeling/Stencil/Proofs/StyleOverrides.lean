import Stencil.Proofs.Names
import Stencil.Proofs.OrderedMap
import Stencil.Specialization

/-!
# What overrides change

An override tree goes with a node list level by level: its `k`-th element with a tag goes with the
`k`-th element of the list with that tag, whatever the case of the letters, and their children go with
each other in the same way. The styles of an override element win over those of the element it goes
with, and nothing else is touched.

* `partner?` — which override element goes with an element
* `Restyled` — a node list with new styles in its last style block, or in a new one at its front
* `Overridden`, `Merged` — all changes to a tree, at every depth
* `overrideNodes_changes_only` — overriding makes these changes and no others
-/

namespace Stencil

/-! ## The rules -/

namespace Specialization

/-- The elements of a node list that have a tag, up to the case of its letters. -/
def tagged (tag : String) (nodes : List Node) : List Element :=
  (nodes.filterMap Node.element?).filter fun e => Text.sameLetters e.tag tag

/-- The element of an override tree that goes with an element behind the nodes `before`: as many others
with its tag come before the one as before the other. -/
def partner? (tree before : List Node) (e : Element) : Option Element :=
  (tagged e.tag tree)[(tagged e.tag before).length]?

/-- A node list, and the same with other properties and rules in its last style block. Without a style
block it gets one in front. -/
inductive Restyled : List Node → List Node → Prop
  | same {nodes : List Node} : Restyled nodes nodes
  | fresh {nodes : List Node} {b : StyleBlock} : nodes.filterMap Node.style? = [] →
      b.usages = [] → b.deletions = [] → Restyled nodes (.style b :: nodes)
  | last {front back : List Node} {b b' : StyleBlock} : back.filterMap Node.style? = [] →
      b'.usages = b.usages → b'.deletions = b.deletions →
      Restyled (front ++ .style b :: back) (front ++ .style b' :: back)

mutual

/-- Node lists before and after the overrides of a tree. The nodes `before` stand in front of them. -/
inductive Overridden : (tree before nodes nodes' : List Node) → Prop
  | nil {tree before : List Node} : Overridden tree before [] []
  | other {tree before rest rest' : List Node} {node : Node} : node.element? = none →
      Overridden tree (before ++ [node]) rest rest' →
      Overridden tree before (node :: rest) (node :: rest')
  | alone {tree before rest rest' : List Node} {e : Element} : partner? tree before e = none →
      Overridden tree (before ++ [.element e]) rest rest' →
      Overridden tree before (.element e :: rest) (.element e :: rest')
  | paired {tree before rest rest' : List Node} {e o e' : Element} :
      partner? tree before e = some o → Merged e o e' →
      Overridden tree (before ++ [.element e]) rest rest' →
      Overridden tree before (.element e :: rest) (.element e' :: rest')

/-- An element, its partner, and the element with the styles of its partner. -/
inductive Merged : (e o e' : Element) → Prop
  | mk {e o e' : Element} {styled : List Node} : e'.tag = e.tag → e'.attributes = e.attributes →
      (∀ name, e'.inlineProperty? name = (o.inlineProperty? name).or (e.inlineProperty? name)) →
      e'.rules = e.rules ++ o.rules → Restyled e.children styled →
      Overridden o.children [] styled e'.children → Merged e o e'

end

end Specialization

/-! ## Trees without styles -/

mutual

/-- A node list without its style blocks, at every depth. -/
def withoutStyles : List Node → List Node
  | [] => []
  | node :: rest => node.withoutStyles ++ withoutStyles rest

/-- A node without the style blocks inside it; a style block is left out. -/
def Node.withoutStyles : Node → List Node
  | .element ⟨tag, attributes, children⟩ =>
    [.element ⟨tag, attributes, Stencil.withoutStyles children⟩]
  | .style _ => []
  | node => [node]

end

/-! ## The last style block -/

/-- A later map wins over all before it. -/
theorem OrderedMap.lastBound_concat {α β : Type} [DecidableEq α] (maps : List (OrderedMap α β))
    (m : OrderedMap α β) (k : α) : lastBound (maps ++ [m]) k = (m.get? k).or (lastBound maps k) := by
  unfold lastBound
  rw [List.filterMap_append, List.getLast?_append]
  cases hm : m.get? k <;> simp [hm]

namespace Element

variable {e : Element} {front back nodes : List Node} {b : StyleBlock} {f g : StyleBlock → StyleBlock}

theorem updateLastStyle_none (h : nodes.filterMap Node.style? = []) :
    updateLastStyle f nodes = none := by
  induction nodes with
  | nil => rfl
  | cons node rest ih =>
    cases node with
    | style b => simp [Node.style?] at h
    | _ => simp [updateLastStyle, ih (by simpa [Node.style?] using h)]

/-- The last style block is the one after which there is none. -/
theorem updateLastStyle_append (h : back.filterMap Node.style? = []) :
    updateLastStyle f (front ++ .style b :: back) = some (front ++ .style (f b) :: back) := by
  induction front with
  | nil => simp [updateLastStyle, updateLastStyle_none h]
  | cons node rest ih => simp [updateLastStyle, ih]

/-- A node list has no style block, or a last one. -/
theorem noStyle_or_last (nodes : List Node) : nodes.filterMap Node.style? = [] ∨
    ∃ front b back, nodes = front ++ .style b :: back ∧ back.filterMap Node.style? = [] := by
  induction nodes with
  | nil => exact Or.inl rfl
  | cons node rest ih =>
    rcases ih with hrest | ⟨front, b, back, rfl, hback⟩
    · cases node with
      | style b => exact Or.inr ⟨[], b, rest, rfl, hrest⟩
      | _ => exact Or.inl (by simpa [Node.style?] using hrest)
    · exact Or.inr ⟨node :: front, b, back, rfl, hback⟩

theorem updateStyle_fresh (h : e.children.filterMap Node.style? = []) :
    e.updateStyle f = { e with children := .style (f .empty) :: e.children } := by
  rw [updateStyle, updateLastStyle_none h]
  rfl

theorem updateStyle_last (h : e.children = front ++ .style b :: back)
    (hback : back.filterMap Node.style? = []) :
    e.updateStyle f = { e with children := front ++ .style (f b) :: back } := by
  rw [updateStyle, h, updateLastStyle_append hback]
  rfl

/-- Two changes of the last style block are one. -/
theorem updateStyle_updateStyle : (e.updateStyle f).updateStyle g = e.updateStyle (g ∘ f) := by
  rcases noStyle_or_last e.children with hnone | ⟨front, b, back, hchildren, hback⟩
  · rw [updateStyle_fresh hnone, updateStyle_fresh hnone]
    exact @updateStyle_last _ [] _ _ _ rfl hnone
  · rw [updateStyle_last hchildren hback, updateStyle_last hchildren hback]
    exact updateStyle_last rfl hback

/-! ## Adding styles -/

/-- Among the style blocks of an element, the last one that binds a property has it. -/
theorem inlineProperty?_eq_lastBound (e : Element) (name : String) :
    e.inlineProperty? name = OrderedMap.lastBound (e.styleBlocks.map StyleBlock.inline) name := by
  rw [OrderedMap.lastBound, List.filterMap_map]
  rfl

theorem styleBlocks_last (h : e.children = front ++ .style b :: back)
    (hback : back.filterMap Node.style? = []) :
    e.styleBlocks = front.filterMap Node.style? ++ [b] := by
  simp [styleBlocks, h, hback, Node.style?]

/-- The properties of a block win over those of an element. -/
theorem inlineProperty?_addStyle (e : Element) (block : StyleBlock) (name : String) :
    (e.addStyle block).inlineProperty? name
      = (block.inline.get? name).or (e.inlineProperty? name) := by
  unfold addStyle
  split
  · rename_i hempty
    rw [Bool.and_eq_true, OrderedMap.isEmpty, List.isEmpty_iff] at hempty
    rw [OrderedMap.get?, hempty.1]
    rfl
  · rw [inlineProperty?_eq_lastBound, inlineProperty?_eq_lastBound]
    rcases noStyle_or_last e.children with hnone | ⟨front, b, back, hchildren, hback⟩
    · rw [updateStyle_fresh hnone, styleBlocks_last (List.nil_append _).symm hnone, styleBlocks,
        hnone]
      simp [OrderedMap.lastBound, OrderedMap.get?_extend, StyleBlock.empty]
    · rw [updateStyle_last hchildren hback, styleBlocks_last rfl hback,
        styleBlocks_last hchildren hback]
      simp [OrderedMap.lastBound_concat, OrderedMap.get?_extend, Option.or_assoc]

/-- The rules of a block come behind those of an element. -/
theorem rules_addStyle (e : Element) (block : StyleBlock) :
    (e.addStyle block).rules = e.rules ++ block.rules := by
  unfold addStyle
  split
  · rename_i hempty
    rw [Bool.and_eq_true, List.isEmpty_iff] at hempty
    rw [hempty.2, List.append_nil]
  · rw [rules, rules]
    rcases noStyle_or_last e.children with hnone | ⟨front, b, back, hchildren, hback⟩
    · rw [updateStyle_fresh hnone, styleBlocks_last (List.nil_append _).symm hnone, styleBlocks,
        hnone]
      simp [StyleBlock.empty]
    · rw [updateStyle_last hchildren hback, styleBlocks_last rfl hback,
        styleBlocks_last hchildren hback]
      simp

/-- An element, and the same after changes to properties and rules of its last style block. -/
def Updated (e e' : Element) : Prop :=
  e' = e ∨ ∃ f : StyleBlock → StyleBlock,
    (∀ b, (f b).usages = b.usages ∧ (f b).deletions = b.deletions) ∧ e' = e.updateStyle f

theorem Updated.trans {e' e'' : Element} (h : e.Updated e') (h' : e'.Updated e'') :
    e.Updated e'' := by
  rcases h with rfl | ⟨f, hf, rfl⟩
  · exact h'
  · rcases h' with rfl | ⟨g, hg, rfl⟩
    · exact Or.inr ⟨f, hf, rfl⟩
    · refine Or.inr ⟨g ∘ f, fun b => ?_, updateStyle_updateStyle⟩
      exact ⟨(hg (f b)).1.trans (hf b).1, (hg (f b)).2.trans (hf b).2⟩

/-- Adding a style changes one style block, or puts one in front. -/
theorem updated_addStyle (e : Element) (block : StyleBlock) : e.Updated (e.addStyle block) := by
  unfold addStyle
  split
  · exact Or.inl rfl
  · refine Or.inr ⟨_, fun b => ?_, rfl⟩
    exact ⟨rfl, rfl⟩

theorem Updated.restyled {e' : Element} (h : e.Updated e') :
    e'.tag = e.tag ∧ e'.attributes = e.attributes ∧
      Specialization.Restyled e.children e'.children := by
  rcases h with rfl | ⟨f, hf, rfl⟩
  · exact ⟨rfl, rfl, .same⟩
  · refine ⟨rfl, rfl, ?_⟩
    rcases noStyle_or_last e.children with hnone | ⟨front, b, back, hchildren, hback⟩
    · rw [updateStyle_fresh hnone]
      exact .fresh hnone (hf _).1 (hf _).2
    · rw [updateStyle_last hchildren hback, hchildren]
      exact .last hback (hf b).1 (hf b).2

/-- What an element has after the styles of several blocks are added to it. -/
theorem foldl_addStyle (blocks : List StyleBlock) (e : Element) :
    e.Updated (blocks.foldl Element.addStyle e) ∧
      (∀ name, (blocks.foldl Element.addStyle e).inlineProperty? name
        = (OrderedMap.lastBound (blocks.map StyleBlock.inline) name).or (e.inlineProperty? name)) ∧
      (blocks.foldl Element.addStyle e).rules = e.rules ++ blocks.flatMap StyleBlock.rules := by
  induction blocks generalizing e with
  | nil => exact ⟨Or.inl rfl, fun _ => rfl, (List.append_nil _).symm⟩
  | cons b rest ih =>
    obtain ⟨hupdated, hproperty, hrules⟩ := ih (e.addStyle b)
    refine ⟨(updated_addStyle e b).trans hupdated, fun name => ?_, ?_⟩
    · rw [List.foldl_cons, hproperty, inlineProperty?_addStyle, List.map_cons,
        OrderedMap.lastBound_cons, Option.or_assoc]
    · rw [List.foldl_cons, hrules, rules_addStyle, List.flatMap_cons, List.append_assoc]

end Element

namespace Specialization

/-! ## One override element -/

section ChangeNth

variable {p : Element → Bool} {f : Element → Element} {n : Nat} {node : Node} {e : Element}

/-- Changes the `n`-th of the elements that satisfy `p`, if there are so many. -/
def changeNth (p : Element → Bool) (f : Element → Element) (n : Nat) (nodes : List Node) :
    List Node :=
  match split? p n nodes with
  | some s => s.before ++ .element (f s.element) :: s.after
  | none => nodes

theorem changeNth_of_later {rest : List Node} {m : Nat}
    (h : split? p n (node :: rest)
      = (split? p m rest).map fun s => { s with before := node :: s.before }) :
    changeNth p f n (node :: rest) = node :: changeNth p f m rest := by
  unfold changeNth
  rw [h]
  cases split? p m rest <;> rfl

theorem changeNth_other (h : node.element? = none) (rest : List Node) :
    changeNth p f n (node :: rest) = node :: changeNth p f n rest := by
  apply changeNth_of_later
  cases node with
  | element e => cases h
  | _ => rfl

theorem changeNth_neg (h : p e = false) (rest : List Node) :
    changeNth p f n (.element e :: rest) = .element e :: changeNth p f n rest :=
  changeNth_of_later (by simp [split?, h])

theorem changeNth_zero (h : p e = true) (rest : List Node) :
    changeNth p f 0 (.element e :: rest) = .element (f e) :: rest := by
  simp [changeNth, split?, h]

/-- Elements that are hit are counted down. -/
theorem changeNth_succ (h : p e = true) (rest : List Node) :
    changeNth p f (n + 1) (.element e :: rest) = .element e :: changeNth p f n rest :=
  changeNth_of_later (by simp [split?, h])

end ChangeNth

/-! ## Partners -/

variable {tree tree' before nodes nodes' : List Node} {e o e' : Element} {tag : String}

theorem tagged_append (tag : String) (before nodes : List Node) :
    tagged tag (before ++ nodes) = tagged tag before ++ tagged tag nodes := by
  simp [tagged]

theorem tagged_other {node : Node} (h : node.element? = none) : tagged tag [node] = [] := by
  simp [tagged, h]

/-- Tags are compared without regard to the size of letters. -/
theorem tagged_element (tag : String) (e : Element) :
    tagged tag [.element e] = if Text.sameLetters e.tag tag then [e] else [] := by
  simp [tagged, Node.element?, List.filter_cons]

theorem sameLetters_lower (a b : String) :
    Text.sameLetters a (Text.lower b) = Text.sameLetters a b := by
  rw [Text.sameLetters, Text.lower_lower, Text.sameLetters]

theorem sameLetters_comm (a b : String) : Text.sameLetters a b = Text.sameLetters b a := by
  simp only [Text.sameLetters]
  exact BEq.comm

/-- Tags with the same letters have the same elements. -/
theorem tagged_congr {tag tag' : String} (h : Text.sameLetters tag tag' = true) (nodes : List Node) :
    tagged tag nodes = tagged tag' nodes := by
  have hlower : Text.lower tag = Text.lower tag' := beq_iff_eq.mp h
  simp only [tagged, Text.sameLetters, hlower]

/-- A further override element leaves the partners as they are that the others have given. -/
theorem partner?_concat_of_some (h : partner? tree before e = some e') (o : Element) :
    partner? (tree ++ [.element o]) before e = some e' := by
  obtain ⟨hlt, -⟩ := List.getElem?_eq_some_iff.mp h
  unfold partner? at h ⊢
  rwa [tagged_append, List.getElem?_append_left hlt]

theorem partner?_concat_of_ne (h : Text.sameLetters e.tag o.tag = false) :
    partner? (tree ++ [.element o]) before e = partner? tree before e := by
  rw [sameLetters_comm] at h
  simp [partner?, tagged_append, tagged_element, h]

/-- It has a partner if it is as many elements with its tag behind the start in the one list as in the
other. -/
theorem partner?_concat_self (h : Text.sameLetters e.tag o.tag = true)
    (hlength : (tagged e.tag before).length = (tagged e.tag tree).length) :
    partner? (tree ++ [.element o]) before e = some o := by
  rw [sameLetters_comm] at h
  simp [partner?, tagged_append, tagged_element, h, hlength]

theorem partner?_concat_of_lt (h : (tagged e.tag tree).length < (tagged e.tag before).length) :
    partner? (tree ++ [.element o]) before e = partner? tree before e := by
  have hlength : (tagged e.tag (tree ++ [.element o])).length ≤ (tagged e.tag before).length := by
    rw [tagged_append, List.length_append, tagged_element]
    split <;> simp <;> omega
  unfold partner?
  rw [List.getElem?_eq_none hlength, List.getElem?_eq_none (Nat.le_of_lt h)]

/-- Only partners matter, those of the elements from here on. -/
theorem Overridden.congr {tree tree' : List Node} : ∀ {before nodes nodes' : List Node},
    Overridden tree before nodes nodes' →
    (∀ more e, partner? tree' (before ++ more) e = partner? tree (before ++ more) e) →
    Overridden tree' before nodes nodes'
  | _, _, _, .nil, _ => .nil
  | _, _, _, .other hnode hrest, h =>
    .other hnode (hrest.congr fun more e => by simpa using h (_ :: more) e)
  | _, _, _, .alone hpartner hrest, h =>
    .alone (by simpa using (h [] _).trans (by simpa using hpartner))
      (hrest.congr fun more e => by simpa using h (_ :: more) e)
  | _, _, _, .paired hpartner hmerged hrest, h =>
    .paired (by simpa using (h [] _).trans (by simpa using hpartner)) hmerged
      (hrest.congr fun more e => by simpa using h (_ :: more) e)

/-- An override element with which no element goes any more changes nothing. -/
theorem Overridden.past (h : Overridden tree before nodes nodes')
    (hlt : (tagged o.tag tree).length < (tagged o.tag before).length) :
    Overridden (tree ++ [.element o]) before nodes nodes' := by
  refine h.congr fun more e => ?_
  cases hsame : Text.sameLetters e.tag o.tag with
  | false => exact partner?_concat_of_ne hsame
  | true =>
    refine partner?_concat_of_lt ?_
    rw [tagged_congr hsame, tagged_congr hsame, tagged_append, List.length_append]
    omega

/-- **One more override element.** The elements before it in the tree have been dealt with, and it
changes the element it goes with, if there is one. -/
theorem Overridden.step {tree : List Node} {o : Element} {f : Element → Element}
    (hf : ∀ e, Merged e o (f e)) : ∀ {before nodes nodes' : List Node} {n : Nat},
    Overridden tree before nodes nodes' →
    n + (tagged o.tag before).length = (tagged o.tag tree).length →
    Overridden (tree ++ [.element o]) before nodes
      (changeNth (fun e => Text.sameLetters e.tag (Text.lower o.tag)) f n nodes')
  | _, _, _, _, .nil, _ => .nil
  | _, _, _, _, .other hnode hrest, hn => by
    rw [changeNth_other hnode]
    exact .other hnode (hrest.step hf (by simpa [tagged_append, tagged_other hnode] using hn))
  | before, .element e :: rest, _, n, .alone hpartner hrest, hn => by
    cases hsame : Text.sameLetters e.tag o.tag with
    | false =>
      rw [changeNth_neg (by rw [sameLetters_lower, hsame])]
      refine .alone ((partner?_concat_of_ne hsame).trans hpartner) (hrest.step hf ?_)
      simpa [tagged_append, tagged_element, hsame] using hn
    | true =>
      -- All earlier override elements with the tag have found theirs, so this one is next.
      have hle := List.getElem?_eq_none_iff.mp hpartner
      rw [tagged_congr hsame, tagged_congr hsame] at hle
      obtain rfl : n = 0 := by omega
      rw [changeNth_zero (by rw [sameLetters_lower, hsame])]
      refine .paired (partner?_concat_self hsame ?_) (hf e) (hrest.past ?_)
      · rw [tagged_congr hsame, tagged_congr hsame]
        omega
      · simp only [tagged_append, tagged_element, hsame, if_true, List.length_append,
          List.length_singleton]
        omega
  | before, .element e :: rest, .element e' :: _, n, .paired hpartner hmerged hrest, hn => by
    have htag : e'.tag = e.tag := by
      obtain ⟨htag, -, -, -, -, -⟩ := hmerged
      exact htag
    cases hsame : Text.sameLetters e.tag o.tag with
    | false =>
      rw [changeNth_neg (by rw [sameLetters_lower, htag, hsame])]
      refine .paired (partner?_concat_of_some hpartner o) hmerged (hrest.step hf ?_)
      simpa [tagged_append, tagged_element, hsame] using hn
    | true =>
      obtain ⟨hlt, -⟩ := List.getElem?_eq_some_iff.mp hpartner
      rw [tagged_congr hsame, tagged_congr hsame] at hlt
      obtain ⟨m, rfl⟩ : ∃ m, n = m + 1 := ⟨n - 1, by omega⟩
      rw [changeNth_succ (by rw [sameLetters_lower, htag, hsame])]
      refine .paired (partner?_concat_of_some hpartner o) hmerged (hrest.step hf ?_)
      simp only [tagged_append, tagged_element, hsame, if_true, List.length_append,
        List.length_singleton]
      omega

/-- Nodes of the tree that are no elements change nothing. -/
theorem Overridden.skip (h : Overridden tree before nodes nodes') {node : Node}
    (hnode : node.element? = none) : Overridden (tree ++ [node]) before nodes nodes' :=
  h.congr fun more e => by rw [partner?, tagged_append, tagged_other hnode, List.append_nil, partner?]

/-! ## The whole tree -/

/-- Without overrides everything stays. -/
theorem overridden_nil : ∀ before nodes : List Node, Overridden [] before nodes nodes
  | _, [] => .nil
  | _, .element _ :: rest => .alone rfl (overridden_nil _ rest)
  | _, .text _ :: rest | _, .style _ :: rest | _, .usage _ :: rest | _, .definition _ :: rest =>
    .other rfl (overridden_nil _ rest)

/-- An overriding element changes the element of its tag that has its number, and is counted itself.
-/
theorem value_overrideNodes_element (seen : List String) (nodes : List Node) (o : Element)
    (rest : List Node) : (overrideNodes seen nodes (.element o :: rest)).value
      = (overrideNodes (Text.lower o.tag :: seen)
          (changeNth (fun e => Text.sameLetters e.tag (Text.lower o.tag))
            (fun e => (overrideElement e o).value) (seen.count (Text.lower o.tag)) nodes) rest).value := by
  rw [overrideNodes, changeNth]
  cases split? (fun e => Text.sameLetters e.tag (Text.lower o.tag)) (seen.count (Text.lower o.tag)) nodes
  all_goals rfl

theorem overrideNodes_other {node : Node} (h : node.element? = none) (seen : List String)
    (nodes rest : List Node) :
    overrideNodes seen nodes (node :: rest) = overrideNodes seen nodes rest := by
  cases node with
  | element e => cases h
  | _ => rw [overrideNodes]; simp

/-- The style blocks of a list itself stay as they are; those of its elements may change. -/
theorem Overridden.filterMap_style? : ∀ {tree before nodes nodes' : List Node},
    Overridden tree before nodes nodes' →
    nodes'.filterMap Node.style? = nodes.filterMap Node.style?
  | _, _, _, _, .nil => rfl
  | _, _, _, _, .other _ hrest => by
    rw [List.filterMap_cons, List.filterMap_cons, hrest.filterMap_style?]
  | _, _, _, _, .alone _ hrest => hrest.filterMap_style?
  | _, _, _, _, .paired _ _ hrest => hrest.filterMap_style?

/-- `seen` holds the tags of the elements of a tree. -/
def Counts (seen : List String) (tree : List Node) : Prop :=
  ∀ tag, seen.count (Text.lower tag) = (tagged tag tree).length

theorem Counts.other {seen : List String} (h : Counts seen tree) {node : Node}
    (hnode : node.element? = none) : Counts seen (tree ++ [node]) := by
  intro tag
  rw [tagged_append, tagged_other hnode, List.append_nil, h tag]

/-- The tags that were seen count the elements gone through so far. -/
theorem Counts.element {seen : List String} (h : Counts seen tree) (o : Element) :
    Counts (Text.lower o.tag :: seen) (tree ++ [.element o]) := by
  intro tag
  rw [List.count_cons, h tag, tagged_append, List.length_append, tagged_element, Text.sameLetters]
  split <;> rfl

mutual

/-- The loop over the override tree. What is left of it is dealt with behind what has been. -/
theorem Overridden.run : ∀ (rest : List Node) {tree nodes nodes' : List Node} {seen : List String},
    Overridden tree [] nodes nodes' → Counts seen tree →
    Overridden (tree ++ rest) [] nodes (overrideNodes seen nodes' rest).value
  | [], _, _, _, _, h, _ => by
    rw [List.append_nil, overrideNodes]
    exact h
  | .element o :: rest, _, _, _, _, h, hseen => by
    rw [value_overrideNodes_element, List.append_cons]
    refine Overridden.run rest (h.step (merged_overrideElement o) ?_) (hseen.element o)
    exact hseen o.tag
  | .text _ :: rest, _, _, _, _, h, hseen
  | .style _ :: rest, _, _, _, _, h, hseen
  | .usage _ :: rest, _, _, _, _, h, hseen
  | .definition _ :: rest, _, _, _, _, h, hseen => by
    rw [overrideNodes_other rfl, List.append_cons]
    exact Overridden.run rest (h.skip rfl) (hseen.other rfl)

/-- Elements are merged all the way down. The recursion is on the overriding element. -/
theorem merged_overrideElement : ∀ o e : Element, Merged e o (overrideElement e o).value
  | ⟨tag, attributes, children⟩, e => by
    obtain ⟨hupdated, hproperty, hrules⟩ :=
      Element.foldl_addStyle (children.filterMap Node.style?) e
    obtain ⟨htag, hattributes, hrestyled⟩ := hupdated.restyled
    have hnone : Counts [] [] := fun _ => rfl
    have hinner := Overridden.run children (overridden_nil []
      ((children.filterMap Node.style?).foldl Element.addStyle e).children) hnone
    -- The elements inside are changed last, which leaves the style blocks as they are.
    have hblocks : (overrideElement e ⟨tag, attributes, children⟩).value.styleBlocks
        = ((children.filterMap Node.style?).foldl Element.addStyle e).styleBlocks := by
      rw [overrideElement]
      exact hinner.filterMap_style?
    refine .mk ?_ ?_ (fun name => ?_) ?_ hrestyled ?_
    · rw [overrideElement]
      exact htag
    · rw [overrideElement]
      exact hattributes
    · rw [Element.inlineProperty?, hblocks, ← Element.inlineProperty?, hproperty,
        Element.inlineProperty?_eq_lastBound ⟨tag, attributes, children⟩]
      rfl
    · rw [Element.rules, hblocks, ← Element.rules, hrules]
      rfl
    · rw [overrideElement]
      exact hinner

end

/-! ## What stays -/

theorem withoutStyles_append (nodes rest : List Node) :
    withoutStyles (nodes ++ rest) = withoutStyles nodes ++ withoutStyles rest := by
  induction nodes with
  | nil => rfl
  | cons node more ih => rw [List.cons_append, withoutStyles, withoutStyles, ih, List.append_assoc]

theorem Restyled.withoutStyles_eq {nodes nodes' : List Node} (h : Restyled nodes nodes') :
    withoutStyles nodes' = withoutStyles nodes := by
  cases h with
  | same => rfl
  | fresh => rfl
  | last => simp [withoutStyles_append, withoutStyles, Node.withoutStyles]

mutual

theorem Overridden.withoutStyles_eq : ∀ {tree before nodes nodes' : List Node},
    Overridden tree before nodes nodes' → withoutStyles nodes' = withoutStyles nodes
  | _, _, _, _, .nil => rfl
  | _, _, _, _, .other _ hrest => by rw [withoutStyles, withoutStyles, hrest.withoutStyles_eq]
  | _, _, _, _, .alone _ hrest => by rw [withoutStyles, withoutStyles, hrest.withoutStyles_eq]
  | _, _, _, _, .paired _ hmerged hrest => by
    rw [withoutStyles, withoutStyles, hrest.withoutStyles_eq, hmerged.withoutStyles_eq]

/-- A merge leaves everything as it was but styles. -/
theorem Merged.withoutStyles_eq : ∀ {e o e' : Element}, Merged e o e' →
    (Node.element e').withoutStyles = (Node.element e).withoutStyles
  | ⟨tag, attributes, children⟩, _, ⟨tag', attributes', children'⟩,
      .mk htag hattributes _ _ hrestyled hinner => by
    rw [Node.withoutStyles, Node.withoutStyles, hinner.withoutStyles_eq, hrestyled.withoutStyles_eq]
    cases htag
    cases hattributes
    rfl

end

/-- **Overrides win, and touch nothing else.** The elements of a tree go with those of a node list by
tag and number, level by level. An element gets the properties and rules of the one it goes with, in its
last style block; one that goes with none stays as it is. Style blocks apart, the list stays the same at
every depth. -/
theorem overrideNodes_changes_only (nodes tree : List Node) :
    Overridden tree [] nodes (overrideNodes [] nodes tree).value ∧
      withoutStyles (overrideNodes [] nodes tree).value = withoutStyles nodes := by
  have hnone : Counts [] [] := fun _ => rfl
  have hoverridden := Overridden.run tree (overridden_nil [] nodes) hnone
  exact ⟨hoverridden, hoverridden.withoutStyles_eq⟩

example : (preorder (overrideNodes [] [.element ⟨"p", .empty, []⟩, .text "and", .element ⟨"P", .empty, []⟩]
    [.element ⟨"P", .empty, []⟩,
      .element ⟨"p", .empty, [.style { inline := .ofList [("color", .literal "red")] }]⟩]).value).map
    (fun e => e.inlineProperty? "color") = [none, some (.literal "red")] := by
  decide +kernel

end Specialization

end Stencil
