import Stencil.Node

/-!
# Elements

Ids, classes and styles of a single element. An id is the trimmed text of the `id` attribute, and
classes are the words of the `class` attribute. An element may have several style blocks; where they
bind the same property, the last one counts.
-/

namespace Stencil

namespace Element

/-! ## Ids and classes -/

/-- The id, unless it is blank. -/
def id? (e : Element) : Option String :=
  ((e.attributes.get? "id").map Text.trimmed).filter (· ≠ "")

def classes (e : Element) : List String :=
  match e.attributes.get? "class" with
  | some text => Text.wordsOf text
  | none => []

def hasClass (e : Element) (name : String) : Bool := e.classes.contains name

/-- Adds a class at the end of the `class` attribute, unless the element has it. -/
def addClass (e : Element) (name : String) : Element :=
  if e.hasClass name then e
  else
    let old := (e.attributes.get? "class").getD ""
    let gap := if Text.trimmed old = "" then "" else " "
    { e with attributes := e.attributes.insert "class" (old ++ gap ++ name) }

def setId (e : Element) (id : String) : Element :=
  { e with attributes := e.attributes.insert "id" id }

/-! ## Children and styles -/

def childElements (e : Element) : List Element := e.children.filterMap Node.element?

def styleBlocks (e : Element) : List StyleBlock := e.children.filterMap Node.style?

/-- The expression of a property: the one in the last block that binds it. -/
def inlineProperty? (e : Element) (name : String) : Option Expr :=
  (e.styleBlocks.filterMap fun b => b.inline.get? name).getLast?

/-- All properties of the element, in order of first appearance. -/
def inlineProperties (e : Element) : Properties :=
  e.styleBlocks.foldl (fun merged b => merged.extend b.inline) .empty

def hasInlineStyle (e : Element) : Bool := e.styleBlocks.any fun b => !b.inline.isEmpty

/-- All rules of the element, in order. -/
def rules (e : Element) : List Rule := e.styleBlocks.flatMap StyleBlock.rules

/-- Changes the last style block of a node list, if there is one. -/
def updateLastStyle (f : StyleBlock → StyleBlock) : List Node → Option (List Node)
  | [] => none
  | node :: rest =>
    match updateLastStyle f rest with
    | some rest' => some (node :: rest')
    | none =>
      match node with
      | .style b => some (.style (f b) :: rest)
      | _ => none

/-- Changes the last style block of the element. An element without one gets an empty block in front
of its children first. -/
def updateStyle (f : StyleBlock → StyleBlock) (e : Element) : Element :=
  { e with children := (updateLastStyle f e.children).getD (.style (f .empty) :: e.children) }

end Element

/-! ## Matching and naming -/

/-- Whether an element is what a target looks for. -/
def Target.matches (t : Target) (e : Element) : Bool :=
  match t with
  | .id name => e.id? == some name
  | .className name => e.hasClass name
  | .tag name => Text.sameLetters e.tag name

/-- Whether an element is what a selector looks for, its index left aside. -/
def Selector.matches (s : Selector) (e : Element) : Bool := s.target.matches e

namespace Element

/-- The canonical name of an element in references and styles: its id, else its first class, else its
tag in lower case. -/
def canonical (e : Element) : String :=
  match e.id?, e.classes with
  | some id, _ => "#" ++ id
  | none, name :: _ => "." ++ name
  | none, [] => Text.lower e.tag

/-- A canonical name that occurred `n` times before. The first occurrence has no suffix. -/
def occurrence (name : String) (n : Nat) : String :=
  if n = 0 then name else name ++ Selector.indexText n

end Element

end Stencil
