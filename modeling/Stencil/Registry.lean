import Stencil.Element

/-!
# The registry of elements

The elements of a tree, numbered in the order in which they start, with indexes by id, class, tag and
primary name. The primary name of an element is its canonical name, followed by `[n]` for the `n`-th
element after the first with that canonical name.

* `Registry.find` lists the elements that a selector addresses
* `Registry.first` is the element that a reference through a selector reads

The tree is walked with a stack. The walk stops because each element is taken from the stack once, and
only the elements inside it are put there for it (`pending_cons`).
-/

namespace Stencil

/-- The number of an element in its tree. -/
abbrev Handle := Nat

/-- An element and its primary name. -/
structure Entry where
  element : Element
  primary : String

structure Registry where
  entries : Array Entry := #[]
  byId : OrderedMap String Handle := .empty
  byClass : OrderedMap String (List Handle) := .empty
  byTag : OrderedMap String (List Handle) := .empty
  byPrimary : OrderedMap String Handle := .empty
  /-- How many elements have had each canonical name. -/
  occurrences : OrderedMap String Nat := .empty

namespace Registry

/-- The registry without elements. -/
def empty : Registry := {}

instance : Inhabited Registry := ⟨empty⟩

/-! ## Building -/

/-- Adds a handle at the end of the list of a key. -/
def enlist (index : OrderedMap String (List Handle)) (key : String) (h : Handle) :
    OrderedMap String (List Handle) :=
  index.insert key ((index.get? key).getD [] ++ [h])

/-- Adds an element. Of two elements with the same id the later one wins, which is worth a note. -/
def add (r : Registry) (e : Element) : Logged Registry := do
  let h := r.entries.size
  if let some id := e.id? then
    if r.byId.contains id then
      Logged.note (.duplicateId id)
  let name := e.canonical
  let n := (r.occurrences.get? name).getD 0
  let primary := Element.occurrence name n
  pure {
    entries := r.entries.push { element := e, primary }
    byId := match e.id? with
      | some id => r.byId.insert id h
      | none => r.byId
    byClass := e.classes.foldl (fun index name => enlist index name h) r.byClass
    byTag := enlist r.byTag (Text.lower e.tag) h
    byPrimary := r.byPrimary.insert primary h
    occurrences := r.occurrences.insert name (n + 1) }

/-- The elements that are still to be added: those on a stack, and those inside them. -/
def pending (stack : List Element) : List Element :=
  stack.flatMap fun e => e :: preorder e.children

theorem preorder_eq_pending (nodes : List Node) :
    preorder nodes = pending (nodes.filterMap Node.element?) := by
  induction nodes with
  | nil => rfl
  | cons node rest ih =>
    rw [preorder, ih]
    cases node with
    | element e => cases e; rfl
    | _ => rfl

theorem pending_cons (e : Element) (stack : List Element) :
    pending (e :: stack) = e :: pending (e.childElements ++ stack) := by
  have hinside : pending e.childElements = preorder e.children :=
    (preorder_eq_pending e.children).symm
  unfold pending at hinside ⊢
  rw [List.flatMap_cons, List.flatMap_append, hinside, List.cons_append]

/-- Adds the elements of a stack. The elements inside of an element go on top of the stack, the first
one uppermost, so that they come before all that is left. -/
def walk (r : Registry) (stack : List Element) : Logged Registry :=
  match stack with
  | [] => pure r
  | e :: rest => do
    let r' ← r.add e
    r'.walk (e.childElements ++ rest)
termination_by (pending stack).length
decreasing_by simp [pending_cons]

/-- The registry of a tree. -/
def build (nodes : List Node) : Logged Registry := empty.walk (nodes.filterMap Node.element?)

/-! ## Reading -/

variable (r : Registry)

def entry? (h : Handle) : Option Entry := r.entries[h]?

def element? (h : Handle) : Option Element := (r.entry? h).map Entry.element

def primary? (h : Handle) : Option String := (r.entry? h).map Entry.primary

def size : Nat := r.entries.size

/-- The elements that a target looks for. -/
def matching : Target → List Handle
  | .id name => (r.byId.get? name).toList
  | .className name => (r.byClass.get? name).getD []
  | .tag name => (r.byTag.get? (Text.lower name)).getD []

/-- The elements that a selector addresses: all that match, or the one at its index. -/
def find (s : Selector) : List Handle :=
  match s.index with
  | none => r.matching s.target
  | some n => (r.matching s.target)[n.toNat]?.toList

/-- The element that a reference through a selector reads. -/
def first (s : Selector) : Option Handle := (r.find s).head?

/-- The primary name of the element that a reference through a selector reads. -/
def firstPrimary (s : Selector) : Option String := (r.first s).bind r.primary?

end Registry

end Stencil
