import Stencil.Element

/-!
# Specializations

What a usage changes in the expansion of a definition. Whatever the order in which a usage lists them,
deletions come first, then insertions, then overrides and property values, because the later ones go
by the places of elements.

* `applyToNodes` for element definitions
* `applyToProperties` for style definitions
-/

namespace Stencil

/-! ## Addressing an element of a list -/

/-- A node list, taken apart at one of its elements. -/
structure Split where
  before : List Node
  element : Element
  after : List Node

/-- Takes a list apart at the `n`-th of its elements that satisfy `p`, counted from zero. -/
def split? (p : Element → Bool) : Nat → List Node → Option Split
  | _, [] => none
  | n, node :: rest =>
    let later (n : Nat) : Option Split :=
      (split? p n rest).map fun s => { s with before := node :: s.before }
    match node with
    | .element e =>
      if p e then
        match n with
        | 0 => some { before := [], element := e, after := rest }
        | n + 1 => later n
      else later n
    | _ => later n

/-- Takes a list apart at the element that a selector addresses: the one its index says, else the
first. -/
def Selector.split? (s : Selector) (nodes : List Node) : Option Split :=
  Stencil.split? s.matches (s.index.getD 0).toNat nodes

/-! ## Deletions -/

namespace Specialization

/-- The deletions of a list of specializations, in order. -/
def deletions (specs : List Specialization) : List Deletion :=
  specs.flatMap fun
    | .delete targets => targets
    | _ => []

/-- Whether the specializations delete the usages of a definition. -/
def skips (specs : List Specialization) (u : Usage) : Bool :=
  (deletions specs).contains (.inherited u.kind u.name)

/-- The nodes of a body without the usages that the specializations delete. -/
def keptNodes (specs : List Specialization) (nodes : List Node) : List Node :=
  nodes.filter fun
    | .usage u => !skips specs u
    | _ => true

/-- A style block without the usages that the specializations delete. -/
def keptStyle (specs : List Specialization) (block : StyleBlock) : StyleBlock :=
  { block with usages := block.usages.filter fun u => !skips specs u }

/-- Deletes from a node list: an attribute of its elements, or one of its elements. -/
def deleteNode (nodes : List Node) : Deletion → Logged (List Node)
  | .property name => pure (nodes.map fun
      | .element e => .element { e with attributes := e.attributes.erase name }
      | node => node)
  | .element selector =>
    match selector.split? nodes with
    | some s => pure (s.before ++ s.after)
    | none => do
      Logged.note (.deleteTargetMissing selector)
      pure nodes
  | .inherited .. => pure nodes

/-! ## Insertions -/

/-- Inserts into a node list. An insertion next to an element that is not there does nothing. -/
def insertNodes (position : Position) (target : Option Selector) (content nodes : List Node) :
    Logged (List Node) :=
  match position with
  | .atTop => pure (content ++ nodes)
  | .atBottom => pure (nodes ++ content)
  | .before => beside fun s => s.before ++ content ++ .element s.element :: s.after
  | .after => beside fun s => s.before ++ .element s.element :: (content ++ s.after)
  | .replace => beside fun s => s.before ++ content ++ s.after
where
  beside (place : Split → List Node) : Logged (List Node) :=
    match target with
    | none => do
      Logged.note (.insertWithoutTarget position)
      pure nodes
    | some selector =>
      match selector.split? nodes with
      | some s => pure (place s)
      | none => do
        Logged.note (.insertTargetMissing selector)
        pure nodes

/-! ## Overrides -/

end Specialization

/-- Adds the properties and rules of a block to the last style block of an element. -/
def Element.addStyle (e : Element) (block : StyleBlock) : Element :=
  if block.inline.isEmpty && block.rules.isEmpty then e
  else e.updateStyle fun b =>
    { b with inline := b.inline.extend block.inline, rules := b.rules ++ block.rules }

namespace Specialization

mutual

/-- Adds the styles of an override tree to a node list. The `k`-th override element with a tag goes
with the `k`-th element of the list with that tag; `seen` holds the tags of the override elements
before. -/
def overrideNodes (seen : List String) (nodes : List Node) : List Node → Logged (List Node)
  | [] => pure nodes
  | .element overriding :: rest => do
    let tag := Text.lower overriding.tag
    let nodes' ←
      match split? (fun e => Text.sameLetters e.tag tag) (seen.count tag) nodes with
      | some s => do
        let merged ← overrideElement s.element overriding
        pure (s.before ++ .element merged :: s.after)
      | none => do
        Logged.note (.overrideUnmatched tag)
        pure nodes
    overrideNodes (tag :: seen) nodes' rest
  | _ :: rest => overrideNodes seen nodes rest

/-- Adds the styles of an override element to an element, and those inside it to the elements
inside. -/
def overrideElement (target : Element) : Element → Logged Element
  | ⟨_, _, children⟩ => do
    let styled := (children.filterMap Node.style?).foldl Element.addStyle target
    let children' ← overrideNodes [] styled.children children
    pure { styled with children := children' }

end

/-! ## All at once -/

/-- Changes the expansion of an element definition, for a usage of a kind and name. -/
def applyToNodes (kind : Kind) (name : String) (specs : List Specialization) (nodes : List Node) :
    Logged (List Node) := do
  let kept ← (deletions specs).foldlM deleteNode nodes
  let grown ← specs.foldlM (fun nodes spec =>
    match spec with
    | .insert position target content => insertNodes position target content nodes
    | _ => pure nodes) kept
  specs.foldlM (fun nodes spec =>
    match spec with
    | .override tree => overrideNodes [] nodes tree
    | .set _ => do
      Logged.note (.uselessValues kind name)
      pure nodes
    | _ => pure nodes) grown

/-- Deletes from the properties of a style. -/
def deleteProperty (kind : Kind) (name : String) (properties : Properties) :
    Deletion → Logged Properties
  | .property property => pure (properties.erase property)
  | .element selector => do
    Logged.note (.cannotDelete selector kind name)
    pure properties
  | .inherited .. => pure properties

/-- Changes the expansion of a style definition, for a usage of a kind and name. -/
def applyToProperties (kind : Kind) (name : String) (specs : List Specialization)
    (properties : Properties) : Logged Properties := do
  let kept ← (deletions specs).foldlM (deleteProperty kind name) properties
  specs.foldlM (fun properties spec =>
    match spec with
    | .set values => pure (properties.extend values)
    | .delete _ => pure properties
    | _ => do
      Logged.note (.uselessSpecialization kind name)
      pure properties) kept

end Specialization

end Stencil
