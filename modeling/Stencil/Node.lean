import Stencil.Note
import Stencil.OrderedMap

/-!
# Document trees

A document is a list of nodes: elements, texts, style blocks, definitions, and usages of definitions.
Usages carry specializations, which hold nodes themselves, so all these types are defined together.

After expansion only elements, texts and style blocks are left.
-/

namespace Stencil

/-! ## Properties and rules -/

/-- The properties of a style, in order. -/
abbrev Properties := OrderedMap String Expr

/-- A rule inside a style block: a selector and its properties. The selector is free text, in which
`&` stands for the element that the rule belongs to. -/
structure Rule where
  selector : String
  properties : Properties

/-- What a specialization deletes. -/
inductive Deletion where
  /-- A property of a style, or an attribute of the outermost elements. -/
  | property (name : String)
  /-- One of the outermost elements. -/
  | element (selector : Selector)
  /-- The usages of a definition inside the body. -/
  | inherited (kind : Kind) (name : String)
deriving DecidableEq

/-- Templates are used as they are; customs may name properties that each usage has to supply. -/
inductive Form where
  | template
  | custom (valueless : List String)
deriving DecidableEq

/-! ## Nodes -/

mutual

inductive Node where
  | element (element : Element)
  | text (text : String)
  | style (block : StyleBlock)
  | usage (usage : Usage)
  | definition (definition : Definition)

structure Element where
  tag : String
  attributes : OrderedMap String String := .empty
  children : List Node := []

/-- A style block: its own properties and rules, the style definitions it uses, and the names of the
properties it removes. -/
structure StyleBlock where
  inline : OrderedMap String Expr := .empty
  rules : List Rule := []
  usages : List Usage := []
  deletions : List String := []

/-- The use of a definition. An empty `from` path means the namespace at hand. -/
structure Usage where
  kind : Kind
  name : String
  fromPath : List String := []
  specializations : List Specialization := []

/-- How a usage departs from the definition. -/
inductive Specialization where
  | delete (targets : List Deletion)
  | insert (position : Position) (target : Option Selector) (content : List Node)
  /-- Adds the styles of a tree to the elements that match it by tag. -/
  | override (tree : List Node)
  | set (properties : OrderedMap String Expr)

/-- What a definition stands for. -/
inductive Body where
  | style (block : StyleBlock)
  | element (nodes : List Node)
  | vars (bindings : OrderedMap String Expr)

/-- A named style, element or variable group. -/
structure Definition where
  form : Form
  name : String
  path : List String := []
  body : Body

end

instance : Inhabited Node := ⟨.text ""⟩

/-- The style block with nothing in it. -/
def StyleBlock.empty : StyleBlock := {}

namespace Body

def kind : Body → Kind
  | style _ => .style
  | element _ => .element
  | vars _ => .var

end Body

namespace Definition

def kind (d : Definition) : Kind := d.body.kind

/-- The properties that a usage has to supply. -/
def valueless (d : Definition) : List String :=
  match d.form with
  | .template => []
  | .custom names => names

end Definition

namespace Node

def element? : Node → Option Element
  | element e => some e
  | _ => none

def style? : Node → Option StyleBlock
  | style b => some b
  | _ => none

end Node

/-! ## Definitions in a document -/

mutual

/-- The definitions of a node list in document order, those inside elements included. -/
def definitions : List Node → List Definition
  | [] => []
  | node :: rest => node.definitions ++ definitions rest

/-- The definitions at a node and inside it. -/
def Node.definitions : Node → List Definition
  | .definition d => [d]
  | .element ⟨_, _, children⟩ => Stencil.definitions children
  | _ => []

end

/-! ## Elements in a document -/

mutual

/-- The elements of a node list, each before the elements inside it. -/
def preorder : List Node → List Element
  | [] => []
  | node :: rest => node.preorder ++ preorder rest

/-- The element at a node, if it is one, and the elements inside it. -/
def Node.preorder : Node → List Element
  | .element ⟨tag, attributes, children⟩ =>
    ⟨tag, attributes, children⟩ :: Stencil.preorder children
  | _ => []

end

end Stencil
