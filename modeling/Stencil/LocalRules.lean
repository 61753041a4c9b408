import Stencil.Element

/-!
# Rules inside elements

A style block inside an element may hold rules with selectors of their own, such as `.card:hover` or
`&:hover`. Before these rules go into the style sheet, the element takes on the first class or id that
they name, if it has none, and `&` is replaced by a selector for the element.
-/

namespace Stencil.LocalRules

/-- Which attributes an element may take on from its rules. -/
structure Options where
  addClass : Bool := true
  addId : Bool := true

/-- The name behind a sigil at the start of a selector: `card` in `.card:hover`. -/
def leadingName? (sigil : Char) (selector : String) : Option String :=
  match Text.trimStart selector.toList with
  | [] => none
  | c :: rest =>
    let name := rest.takeWhile Text.isNameChar
    if c = sigil ∧ name ≠ [] then some (String.ofList name) else none

/-- The first name behind a sigil among the selectors of an element's rules. -/
def firstName? (sigil : Char) (e : Element) : Option String :=
  e.rules.findSome? fun rule => leadingName? sigil rule.selector

/-- What `&` stands for: the first class, else the id, else the tag in lower case. -/
def owner (e : Element) : String :=
  match e.classes, e.id? with
  | name :: _, _ => "." ++ name
  | [], some id => "#" ++ id
  | [], none => Text.lower e.tag

/-- Gives an element without a class the first one that its rules name. -/
def nameClass (e : Element) : Logged Element :=
  match e.classes, firstName? '.' e with
  | [], some name => do
    Logged.note (.classAdded name e.tag)
    pure (e.addClass name)
  | _, _ => pure e

/-- Gives an element without an id the first one that its rules name. -/
def nameId (e : Element) : Logged Element :=
  match e.id?, firstName? '#' e with
  | none, some id => do
    Logged.note (.idAdded id e.tag)
    pure (e.setId id)
  | _, _ => pure e

/-- Gives an element what its rules name and it lacks. -/
def nameElement (options : Options) (e : Element) : Logged Element := do
  let e ← if options.addClass then nameClass e else pure e
  if options.addId then nameId e else pure e

/-- Replaces `&` in a selector. -/
def replaceOwner (owner selector : String) : String :=
  String.ofList (selector.toList.flatMap fun c => if c = '&' then owner.toList else [c])

/-- Replaces `&` in the rules of a style block. -/
def replaceInBlock (owner : String) (block : StyleBlock) : StyleBlock :=
  { block with
    rules := block.rules.map fun rule =>
      { rule with selector := replaceOwner owner rule.selector } }

mutual

/-- Prepares the rules of a node list. `around` is what `&` stands for in style blocks of the list
itself; outside of all elements it stands for nothing. -/
def prepareIn (options : Options) (around : Option String) : List Node → Logged (List Node)
  | [] => pure []
  | node :: rest => do
    let first ← prepareNode options around node
    let others ← prepareIn options around rest
    pure (first :: others)

/-- Prepares the rules of a node. An element is named before `&` is replaced inside it. -/
def prepareNode (options : Options) (around : Option String) : Node → Logged Node
  | .element ⟨tag, attributes, children⟩ => do
    let named ← nameElement options ⟨tag, attributes, children⟩
    let children ← prepareIn options (some (owner named)) children
    pure (.element { named with children })
  | .style block => pure (.style (around.elim block fun owner => replaceInBlock owner block))
  | node => pure node

end

/-- Prepares the rules of a document. -/
def prepare (options : Options) (nodes : List Node) : Logged (List Node) :=
  prepareIn options none nodes

end Stencil.LocalRules
