import Mathlib.Data.List.Basic
import Stencil.Proofs.Checked
import Stencil.Specialization

/-!
# Insertions

A usage may insert nodes into what its definition stands for: at the top, at the bottom, or next to
an element, and it may put nodes in the place of an element. Insertions take turns, each in the list
that the ones before it left. So the element that one of them looks for may have come with another.

* `Selector.Addresses` — the element that a selector addresses, by how many before it match
* `split?_eq_some_iff`, `split?_eq_none_iff` — taking a list apart finds it, or there is none
* `Insertion.Turn` — what one insertion does to a list
* `Insertion.Turns` — what insertions do one after the other
* `insertions_in_turn` — insertions lose nothing, and put in all that they have to or nothing at all
-/

namespace Stencil

/-! ## Addressed elements -/

section Split

variable {p : Element → Bool} {n : Nat} {node : Node} {e : Element} {nodes rest : List Node} {s : Split}

/-- How many of the outermost elements satisfy `p`. -/
def countElements (p : Element → Bool) (nodes : List Node) : Nat :=
  nodes.countP fun node => node.element?.any p

theorem split?_of_miss (h : node.element?.any p = false) (n : Nat) (rest : List Node) :
    split? p n (node :: rest)
      = (split? p n rest).map fun s => { s with before := node :: s.before } := by
  cases node with
  | element e => exact if_neg (Bool.eq_false_iff.mp h)
  | _ => rfl

theorem split?_zero (h : p e = true) (rest : List Node) :
    split? p 0 (.element e :: rest) = some ⟨[], e, rest⟩ := if_pos h

theorem split?_succ (h : p e = true) (n : Nat) (rest : List Node) :
    split? p (n + 1) (.element e :: rest)
      = (split? p n rest).map fun s => { s with before := .element e :: s.before } := if_pos h

/-- A node is an element that satisfies `p`, or is passed over. -/
theorem hit_or_miss (p : Element → Bool) (node : Node) :
    (∃ e, node = .element e ∧ p e = true) ∨ node.element?.any p = false := by
  cases node with
  | element e =>
    cases h : p e with
    | true => exact Or.inl ⟨e, rfl, h⟩
    | false => exact Or.inr h
  | _ => exact Or.inr rfl

theorem countElements_miss (h : node.element?.any p = false) (rest : List Node) :
    countElements p (node :: rest) = countElements p rest :=
  List.countP_cons_of_neg (p := fun node : Node => node.element?.any p) (Bool.eq_false_iff.mp h)

theorem countElements_hit (h : p e = true) (rest : List Node) :
    countElements p (.element e :: rest) = countElements p rest + 1 :=
  List.countP_cons_of_pos h

/-- An element is found by counting those in front of it. -/
theorem split?_append (h : p e = true) (front back : List Node) :
    split? p (countElements p front) (front ++ .element e :: back) = some ⟨front, e, back⟩ := by
  induction front with
  | nil => exact split?_zero h back
  | cons node front ih =>
    rw [List.cons_append]
    rcases hit_or_miss p node with ⟨other, rfl, hother⟩ | hmiss
    · rw [countElements_hit hother, split?_succ hother, ih]
      rfl
    · rw [countElements_miss hmiss, split?_of_miss hmiss, ih]
      rfl

/-- A list is taken apart at an element that satisfies `p`, with as many such elements before it as
were asked for. -/
theorem split?_eq_some_iff : split? p n nodes = some s ↔
    nodes = s.before ++ .element s.element :: s.after ∧ p s.element = true ∧
      countElements p s.before = n := by
  constructor
  · intro h
    induction nodes generalizing n s with
    | nil => cases h
    | cons node rest ih =>
      rcases hit_or_miss p node with ⟨e, rfl, he⟩ | hmiss
      · cases n with
        | zero =>
          rw [split?_zero he] at h
          cases h
          exact ⟨rfl, he, rfl⟩
        | succ n =>
          rw [split?_succ he] at h
          obtain ⟨s', hs', rfl⟩ := Option.map_eq_some_iff.mp h
          obtain ⟨hrest, hp, hcount⟩ := ih hs'
          exact ⟨congrArg _ hrest, hp, (countElements_hit he _).trans (congrArg _ hcount)⟩
      · rw [split?_of_miss hmiss] at h
        obtain ⟨s', hs', rfl⟩ := Option.map_eq_some_iff.mp h
        obtain ⟨hrest, hp, hcount⟩ := ih hs'
        exact ⟨congrArg _ hrest, hp, (countElements_miss hmiss _).trans hcount⟩
  · rintro ⟨rfl, hp, rfl⟩
    exact split?_append hp s.before s.after

/-- It is not taken apart if there are too few such elements. -/
theorem split?_eq_none_iff : split? p n nodes = none ↔ countElements p nodes ≤ n := by
  induction nodes generalizing n with
  | nil => simp [split?, countElements]
  | cons node rest ih =>
    rcases hit_or_miss p node with ⟨e, rfl, he⟩ | hmiss
    · rw [countElements_hit he]
      cases n with
      | zero => simp [split?_zero he]
      | succ n => rw [split?_succ he, Option.map_eq_none_iff, ih, Nat.succ_le_succ_iff]
    · rw [split?_of_miss hmiss, countElements_miss hmiss, Option.map_eq_none_iff, ih]

end Split

/-- A list consists of some nodes, the element that a selector addresses, and other nodes: the element
matches the selector, and as many elements before it match as the index says, or none without an
index. -/
structure Selector.Addresses (s : Selector) (nodes front : List Node) (e : Element)
    (back : List Node) : Prop where
  apart : nodes = front ++ .element e :: back
  hit : s.matches e = true
  place : countElements s.matches front = (s.index.getD 0).toNat

/-- Too few elements match a selector for one to be addressed. -/
def Selector.Misses (s : Selector) (nodes : List Node) : Prop :=
  countElements s.matches nodes ≤ (s.index.getD 0).toNat

/-- A selector finds the element that it addresses. -/
theorem Selector.split?_eq_some_iff {s : Selector} {nodes front back : List Node} {e : Element} :
    s.split? nodes = some ⟨front, e, back⟩ ↔ s.Addresses nodes front e back :=
  Stencil.split?_eq_some_iff.trans
    ⟨fun h => ⟨h.1, h.2.1, h.2.2⟩, fun h => ⟨h.apart, h.hit, h.place⟩⟩

theorem Selector.split?_eq_none_iff {s : Selector} {nodes : List Node} :
    s.split? nodes = none ↔ s.Misses nodes := Stencil.split?_eq_none_iff

namespace Specialization

/-- An insertion of a usage. -/
structure Insertion where
  position : Position
  target : Option Selector
  content : List Node

namespace Insertion

def specialization (i : Insertion) : Specialization := .insert i.position i.target i.content

/-! ## One insertion -/

/-- What an insertion does to a list when it has its turn: what it puts in, and what comes of it. -/
inductive Turn (i : Insertion) (nodes : List Node) : List Node → List Node → Prop
  | top : i.position = .atTop → Turn i nodes i.content (i.content ++ nodes)
  | bottom : i.position = .atBottom → Turn i nodes i.content (nodes ++ i.content)
  | before {s : Selector} {front back : List Node} {e : Element} : i.position = .before →
      i.target = some s → s.Addresses nodes front e back →
      Turn i nodes i.content (front ++ i.content ++ .element e :: back)
  | after {s : Selector} {front back : List Node} {e : Element} : i.position = .after →
      i.target = some s → s.Addresses nodes front e back →
      Turn i nodes i.content (front ++ .element e :: (i.content ++ back))
  | replace {s : Selector} {front back : List Node} {e : Element} : i.position = .replace →
      i.target = some s → s.Addresses nodes front e back →
      Turn i nodes i.content (front ++ i.content ++ back)
  /-- The element is not there, or none is named. -/
  | missing : i.position ≠ .atTop → i.position ≠ .atBottom →
      (∀ s, i.target = some s → s.Misses nodes) → Turn i nodes [] nodes

/-- The list with the insertion made. -/
def into (i : Insertion) (nodes : List Node) : List Node :=
  (insertNodes i.position i.target i.content nodes).value

variable {i : Insertion} {inserts : List Insertion} {nodes next content : List Node}
  {added : List (List Node)}

/-- A list that was taken apart, put together with the content next to the element or in its place. -/
def joined (i : Insertion) (s : Split) : List Node :=
  match i.position with
  | .before => s.before ++ i.content ++ .element s.element :: s.after
  | .after => s.before ++ .element s.element :: (i.content ++ s.after)
  | _ => s.before ++ i.content ++ s.after

/-- Next to an element, or in its place, it depends on whether the element is there. -/
theorem into_beside (htop : i.position ≠ .atTop) (hbottom : i.position ≠ .atBottom) :
    i.into nodes = ((i.target.bind (·.split? nodes)).map i.joined).getD nodes := by
  obtain ⟨position, target, content⟩ := i
  have hbeside (place : Split → List Node) : (insertNodes.beside position target nodes place).value
      = ((target.bind (·.split? nodes)).map place).getD nodes := by
    unfold insertNodes.beside
    cases target with
    | none => rfl
    | some s =>
      dsimp only [Option.bind]
      cases s.split? nodes <;> rfl
  cases position with
  | atTop => exact absurd rfl htop
  | atBottom => exact absurd rfl hbottom
  | _ => exact hbeside _

theorem into_of_addresses {s : Selector} {e : Element} {front back : List Node}
    (htop : i.position ≠ .atTop) (hbottom : i.position ≠ .atBottom) (ht : i.target = some s)
    (ha : s.Addresses nodes front e back) : i.into nodes = i.joined ⟨front, e, back⟩ := by
  rw [into_beside htop hbottom, ht, Option.bind_some, Selector.split?_eq_some_iff.mpr ha]
  rfl

/-- An insertion whose target is missing changes nothing. -/
theorem into_of_misses (htop : i.position ≠ .atTop) (hbottom : i.position ≠ .atBottom)
    (h : ∀ s, i.target = some s → s.Misses nodes) : i.into nodes = nodes := by
  have hnone : i.target.bind (·.split? nodes) = none := by
    rw [Option.bind_eq_none_iff]
    exact fun s ht => Selector.split?_eq_none_iff.mpr (h s ht)
  rw [into_beside htop hbottom, hnone]
  rfl

/-- Every insertion has its turn, with a place or without. -/
theorem exists_turn (i : Insertion) (nodes : List Node) :
    ∃ content, Turn i nodes content (i.into nodes) := by
  by_cases htop : i.position = .atTop
  · have hinto : i.into nodes = i.content ++ nodes := by simp [into, insertNodes, htop]
    exact ⟨i.content, hinto ▸ .top htop⟩
  by_cases hbottom : i.position = .atBottom
  · have hinto : i.into nodes = nodes ++ i.content := by simp [into, insertNodes, hbottom]
    exact ⟨i.content, hinto ▸ .bottom hbottom⟩
  by_cases h : ∃ s front e back, i.target = some s ∧ s.Addresses nodes front e back
  · obtain ⟨s, front, e, back, ht, ha⟩ := h
    refine ⟨i.content, ?_⟩
    rw [into_of_addresses htop hbottom ht ha, joined]
    cases hp : i.position with
    | before => exact .before hp ht ha
    | after => exact .after hp ht ha
    | replace => exact .replace hp ht ha
    | atTop => exact absurd hp htop
    | atBottom => exact absurd hp hbottom
  · have hmisses : ∀ s, i.target = some s → s.Misses nodes := by
      intro s ht
      rw [← Selector.split?_eq_none_iff, Option.eq_none_iff_forall_ne_some]
      intro found hfound
      exact h ⟨s, _, _, _, ht, Selector.split?_eq_some_iff.mp hfound⟩
    refine ⟨[], ?_⟩
    rw [into_of_misses htop hbottom hmisses]
    exact .missing htop hbottom hmisses

/-- A turn comes out in one way only. -/
theorem Turn.eq_into (h : Turn i nodes content next) : next = i.into nodes := by
  cases h with
  | top hp | bottom hp => simp [into, insertNodes, hp]
  | before hp ht ha | after hp ht ha | replace hp ht ha =>
    rw [into_of_addresses (by simp [hp]) (by simp [hp]) ht ha, joined, hp]
  | missing htop hbottom hmisses => exact (into_of_misses htop hbottom hmisses).symm

/-- What is not put in the place of something leaves everything where it is, in order. -/
theorem Turn.sublist (h : Turn i nodes content next) (hr : i.position ≠ .replace) :
    nodes.Sublist next := by
  cases h with
  | top => exact List.sublist_append_right _ _
  | bottom => exact List.sublist_append_left _ _
  | before _ _ ha =>
    rw [ha.apart, List.append_assoc]
    exact (List.Sublist.refl _).append (List.sublist_append_right _ _)
  | after _ _ ha =>
    rw [ha.apart]
    exact (List.Sublist.refl _).append ((List.sublist_append_right _ _).cons_cons _)
  | replace hp => exact absurd hp hr
  | missing => exact List.Sublist.refl _

/-- The nodes afterwards are those before and those that were put in. -/
theorem Turn.perm (h : Turn i nodes content next) (hr : i.position ≠ .replace) :
    next.Perm (nodes ++ content) := by
  cases h with
  | top => exact List.perm_append_comm
  | bottom => exact List.Perm.refl _
  | before _ _ ha =>
    rw [ha.apart, List.append_assoc, List.append_assoc]
    exact List.perm_append_comm.append_left _
  | after _ _ ha =>
    rw [ha.apart, List.append_assoc]
    exact (List.perm_append_comm.cons _).append_left _
  | replace hp => exact absurd hp hr
  | missing => rw [List.append_nil]

/-! ## One after the other -/

/-- What insertions do when each has its turn: what each of them puts in, and what comes of it. -/
inductive Turns : List Insertion → List Node → List (List Node) → List Node → Prop
  | nil {nodes : List Node} : Turns [] nodes [] nodes
  | cons {i : Insertion} {rest : List Insertion} {nodes content next result : List Node}
      {added : List (List Node)} : Turn i nodes content next → Turns rest next added result →
      Turns (i :: rest) nodes (content :: added) result

/-- The list with all insertions made. -/
def allInto (inserts : List Insertion) (nodes : List Node) : List Node :=
  inserts.foldl (fun nodes i => i.into nodes) nodes

theorem exists_turns (inserts : List Insertion) (nodes : List Node) :
    ∃ added, Turns inserts nodes added (allInto inserts nodes) := by
  induction inserts generalizing nodes with
  | nil => exact ⟨[], .nil⟩
  | cons i rest ih =>
    obtain ⟨content, hturn⟩ := exists_turn i nodes
    obtain ⟨added, hturns⟩ := ih (i.into nodes)
    exact ⟨content :: added, .cons hturn hturns⟩

/-- Turns have one result. -/
theorem Turns.eq_allInto {result : List Node} (h : Turns inserts nodes added result) :
    result = allInto inserts nodes := by
  induction h with
  | nil => rfl
  | cons hturn _ ih => rw [ih, hturn.eq_into, allInto, allInto, List.foldl_cons]

theorem Turns.sublist {result : List Node} (h : Turns inserts nodes added result)
    (hr : ∀ i ∈ inserts, i.position ≠ .replace) : nodes.Sublist result := by
  induction h with
  | nil => exact List.Sublist.refl _
  | cons hturn _ ih =>
    obtain ⟨hi, hrest⟩ := List.forall_mem_cons.mp hr
    exact (hturn.sublist hi).trans (ih hrest)

/-- Without replacements, the result is all that was there and all that was added. -/
theorem Turns.perm {result : List Node} (h : Turns inserts nodes added result)
    (hr : ∀ i ∈ inserts, i.position ≠ .replace) : result.Perm (nodes ++ added.flatten) := by
  induction h with
  | nil => rw [List.flatten_nil, List.append_nil]
  | cons hturn _ ih =>
    obtain ⟨hi, hrest⟩ := List.forall_mem_cons.mp hr
    rw [List.flatten_cons, ← List.append_assoc]
    exact (ih hrest).trans ((hturn.perm hi).append_right _)

end Insertion

/-- A usage that does nothing but insert makes its insertions in order. -/
theorem value_applyToNodes_insertions (kind : Kind) (name : String) (inserts : List Insertion)
    (nodes : List Node) :
    (applyToNodes kind name (inserts.map Insertion.specialization) nodes).value
      = Insertion.allInto inserts nodes := by
  have hdeletions : deletions (inserts.map Insertion.specialization) = [] := by
    simp [deletions, Insertion.specialization, List.flatMap_map]
  simp only [applyToNodes, Logged.value_bind, Logged.value_foldlM, List.foldl_map, hdeletions]
  exact List.foldl_fixed inserts

/-- **Insertions take turns, and lose nothing.** Of any insertions into any list: each has its turn in
the list that the ones before it left. At the top and at the bottom it puts in its whole content. Next
to an element, or in its place, it does so if the element is there, which is the one with as many
matching elements before it as the selector's index says; it changes nothing if there is none. All this
comes out in one way only. If nothing is put in the place of an element, then the list is part of the
result, in the same order, and besides it there is in the result what was put in, once each. -/
theorem insertions_in_turn (kind : Kind) (name : String) (inserts : List Insertion)
    (nodes : List Node) :
    let result := (applyToNodes kind name (inserts.map Insertion.specialization) nodes).value
    (∃ added, Insertion.Turns inserts nodes added result) ∧
      ∀ added other, Insertion.Turns inserts nodes added other → other = result ∧
        ((∀ i ∈ inserts, i.position ≠ .replace) →
          nodes.Sublist result ∧ result.Perm (nodes ++ added.flatten)) := by
  intro result
  have hresult : result = Insertion.allInto inserts nodes :=
    value_applyToNodes_insertions kind name inserts nodes
  refine ⟨hresult ▸ Insertion.exists_turns inserts nodes, fun added other hturns => ?_⟩
  obtain rfl : other = result := hturns.eq_allInto.trans hresult.symm
  exact ⟨rfl, fun hr => ⟨hturns.sublist hr, hturns.perm hr⟩⟩

/-- Two paragraphs with a text between them. -/
def row : List Node :=
  [.element ⟨"p", .ofList [("id", "a")], []⟩, .text "between",
   .element ⟨"p", .ofList [("id", "b")], []⟩]

/-- A paragraph comes before the second one, and so becomes the second one, which the next insertion
goes by. An element that is not there is looked for, and nothing is put on top. -/
def rowInserts : List Insertion :=
  let second : Selector := ⟨.tag "p", some 1⟩
  [⟨.before, some second, [.element ⟨"p", .ofList [("id", "new")], []⟩, .text "!"]⟩,
   ⟨.after, some second, [.text "after"]⟩, ⟨.before, some ⟨.id "gone", none⟩, [.text "lost"]⟩,
   ⟨.atTop, none, []⟩, ⟨.atBottom, none, [.text "end"]⟩]

theorem insertions_in_turn_row :
    let result : List Node :=
      [.element ⟨"p", .ofList [("id", "a")], []⟩, .text "between",
       .element ⟨"p", .ofList [("id", "new")], []⟩, .text "after", .text "!",
       .element ⟨"p", .ofList [("id", "b")], []⟩, .text "end"]
    (applyToNodes .element "Row" (rowInserts.map Insertion.specialization) row).value = result ∧
      (∀ i ∈ rowInserts, i.position ≠ .replace) ∧ row.Sublist result ∧
      ∃ added, Insertion.Turns rowInserts row added result ∧
        result.Perm (row ++ added.flatten) := by
  intro result
  have hresult :
      (applyToNodes .element "Row" (rowInserts.map Insertion.specialization) row).value = result := rfl
  have hr : ∀ i ∈ rowInserts, i.position ≠ .replace := by simp [rowInserts]
  obtain ⟨⟨added, hadded⟩, hturns⟩ := insertions_in_turn .element "Row" rowInserts row
  obtain ⟨hsublist, hperm⟩ := (hturns added _ hadded).2 hr
  exact ⟨hresult, hr, hresult ▸ hsublist, added, hresult ▸ hadded, hresult ▸ hperm⟩

end Specialization

end Stencil
