import Stencil.Namespace
import Stencil.Specialization

/-!
# Expansion

Replaces every usage by what its definition stands for, with the specializations of the usage
applied, and every variable by its value. The result holds elements, texts and style blocks only.

Expansion keeps a stack of the definitions it is inside of. A usage without a `from` path is looked up
from the namespace of the innermost one, a definition that is already on the stack is a cycle, and the
stack may not grow beyond a given depth. A usage is looked up first, then the cycle is noticed, then
the depth.

## Termination

Inside one definition, expansion follows the tree it is given. Entering a definition uses up one level
of depth: `level n` is what can be done with `n` levels left, and with none left entering fails.
-/

namespace Stencil

/-! ## Failures -/

/-- Where a usage of the wrong kind was met. -/
inductive Place where
  | elementContent | styleBlock
deriving DecidableEq, Repr

def Place.text : Place → String
  | .elementContent => "element content"
  | .styleBlock => "a style block"

/-- Why a document cannot be expanded. -/
inductive ExpandError where
  | undefined (kind : Kind) (name : String) (path : Path)
  | cyclic (name : String)
  | undefinedVariable (group name : String)
  | tooDeep (name : String) (depth : Nat)
  | misplaced (kind : Kind) (name : String) (place : Place)
  /-- A definition is stored under a kind that is not the kind of its body. -/
  | foreignBody (kind : Kind) (name : String)
deriving DecidableEq

def ExpandError.message : ExpandError → String
  | .undefined kind name path =>
    "undefined " ++ Note.subject kind name ++ " (looked up from namespace '" ++ path.text ++ "')"
  | .cyclic name => "cyclic template expansion through '" ++ name ++ "'"
  | .undefinedVariable group name =>
    "variable group '" ++ group ++ "' has no variable '" ++ name ++ "'"
  | .tooDeep name depth =>
    "expansion of '" ++ name ++ "' exceeds the maximum depth of " ++ toString depth
  | .misplaced kind name place => Note.subject kind name ++ " cannot be used in " ++ place.text
  | .foreignBody kind name => Note.subject kind name ++ " has a body of another kind"

/-- An expansion step: it may fail, and it may make notes. -/
abbrev Expanding := Checked ExpandError

namespace Expansion

/-! ## Sites -/

/-- A definition or a variable that is being expanded. -/
structure Frame where
  kind : Kind
  name : String
  path : Path
deriving DecidableEq

/-- The frame of a definition. -/
def Frame.ofFound (f : Found) : Frame := ⟨f.definition.kind, f.definition.name, f.path⟩

/-- The frame of a variable. -/
def Frame.ofVariable (group name : String) (path : Path) : Frame :=
  ⟨.var, group ++ "(" ++ name ++ ")", path⟩

/-- What can be done inside a definition, given the stack up to it. -/
structure Inside where
  nodes : List Frame → List Node → Expanding (List Node)
  style : List Frame → StyleBlock → Expanding Properties
  value : List Frame → Expr → Expanding Expr

/-- Where expansion takes place: the definitions, the stack with the innermost frame first, and what
can be done one level further in. -/
structure Site where
  table : Namespace
  maxDepth : Nat
  stack : List Frame
  /-- Nothing, once the depth is used up. -/
  inside : Option Inside

namespace Site

variable (site : Site)

/-- The namespace from which usages without a `from` path are looked up. -/
def scope : Path :=
  match site.stack with
  | [] => []
  | frame :: _ => frame.path

/-- Looks up a definition from a path, the empty one meaning the namespace at hand. -/
def resolve (kind : Kind) (name : String) (path : Path) : Expanding Found :=
  let path := if path = [] then site.scope else path
  match site.table.lookup name kind path with
  | some found => pure found
  | none => throw (.undefined kind name path)

/-- Goes one level further in, unless that closes a cycle or is too deep. -/
def enter {α : Type} (frame : Frame) (act : Inside → List Frame → Expanding α) : Expanding α :=
  if frame ∈ site.stack then throw (.cyclic frame.name)
  else match site.inside with
    | none => throw (.tooDeep frame.name site.maxDepth)
    | some inside => act inside (frame :: site.stack)

/-! ## Variables -/

/-- The value of a variable, with the variables in it replaced. -/
def variableValue (group name : String) : Expanding Expr := do
  let found ← site.resolve .var group []
  let bound := match found.definition.body with
    | .vars bindings => bindings.get? name
    | _ => none
  match bound with
  | none => throw (.undefinedVariable group name)
  | some e =>
    site.enter (.ofVariable group name found.path) fun inside stack => inside.value stack e

/-- Replaces every variable in an expression. -/
def substitute : Expr → Expanding Expr
  | .var group name => site.variableValue group name
  | .binary op left right => do
    let left ← substitute left
    let right ← substitute right
    pure (.binary op left right)
  | .conditional cond yes no => do
    let cond ← substitute cond
    let yes ← substitute yes
    let no ← substitute no
    pure (.conditional cond yes no)
  | e => pure e

/-- Replaces every variable in the values of a style. -/
def substituteAll (properties : Properties) : Expanding Properties :=
  properties.mapM fun _ e => site.substitute e

def substituteRule (rule : Rule) : Expanding Rule := do
  return { rule with properties := ← site.substituteAll rule.properties }

/-! ## Styles and elements -/

/-- Adds a block's own properties to those of its usages, then removes the deleted ones. -/
def ownStyle (inherited inline : Properties) (deletions : List String) : Expanding Properties :=
  site.substituteAll ((inherited.extend inline).eraseAll deletions)

/-- The body of an element definition. -/
def elementBody (found : Found) : Expanding (List Node) :=
  match found.definition.body with
  | .element nodes => pure nodes
  | _ => throw (.foreignBody .element found.definition.name)

/-- The body of a style definition. -/
def styleBody (found : Found) : Expanding StyleBlock :=
  match found.definition.body with
  | .style block => pure block
  | _ => throw (.foreignBody .style found.definition.name)

/-- Notes the properties that a usage should have supplied and did not. -/
def noteValueless (definition : Definition) (properties : Properties) : Expanding Unit :=
  definition.valueless.forM fun name => do
    unless properties.contains name do
      Checked.note (.valuelessDropped name definition.kind definition.name)

mutual

/-- Expands the nodes of a list in order. -/
def expandNodes : List Node → Expanding (List Node)
  | [] => pure []
  | node :: rest => do
    let first ← expandNode node
    let others ← expandNodes rest
    pure (first ++ others)

/-- Expands a node. Definitions vanish. -/
def expandNode : Node → Expanding (List Node)
  | .element ⟨tag, attributes, children⟩ => do
    return [.element ⟨tag, attributes, ← expandNodes children⟩]
  | .text text => pure [.text text]
  | .style ⟨inline, rules, usages, deletions⟩ => do
    let inherited ← mergeUsages .empty usages
    let inline ← site.ownStyle inherited inline deletions
    let rules ← rules.mapM site.substituteRule
    pure [.style { inline, rules }]
  | .usage usage =>
    match usage.kind with
    | .element => elementUsage usage
    | .style => do return [.style { inline := ← styleUsage usage }]
    | .var => throw (.misplaced .var usage.name .elementContent)
  | .definition _ => pure []

/-- Expands a usage of an element definition. -/
def elementUsage : Usage → Expanding (List Node)
  | ⟨kind, name, path, specs⟩ => do
    let found ← site.resolve kind name path
    let body ← elementBody found
    let nodes ← site.enter (.ofFound found) fun inside stack =>
      inside.nodes stack (Specialization.keptNodes specs body)
    let specs ← expandSpecializations specs
    ExceptT.lift (Specialization.applyToNodes kind name specs nodes)

/-- Expands a usage of a style definition. -/
def styleUsage : Usage → Expanding Properties
  | ⟨kind, name, path, specs⟩ => do
    let found ← site.resolve kind name path
    let body ← styleBody found
    let inherited ← site.enter (.ofFound found) fun inside stack =>
      inside.style stack (Specialization.keptStyle specs body)
    let specs ← expandSpecializations specs
    let properties ← ExceptT.lift (Specialization.applyToProperties kind name specs inherited)
    noteValueless found.definition properties
    pure properties

/-- Adds the properties of the usages of a style block to `merged`, the later ones winning. -/
def mergeUsages (merged : Properties) : List Usage → Expanding Properties
  | [] => pure merged
  | usage :: rest =>
    match usage.kind with
    | .style => do
      let properties ← styleUsage usage
      mergeUsages (merged.extend properties) rest
    | kind => throw (.misplaced kind usage.name .styleBlock)

/-- Expands what specializations hold, at the place of the usage. -/
def expandSpecializations : List Specialization → Expanding (List Specialization)
  | [] => pure []
  | .delete targets :: rest => do
    return .delete targets :: (← expandSpecializations rest)
  | .insert position target content :: rest => do
    let content ← expandNodes content
    return .insert position target content :: (← expandSpecializations rest)
  | .override tree :: rest => do
    let tree ← expandNodes tree
    return .override tree :: (← expandSpecializations rest)
  | .set properties :: rest => do
    let properties ← site.substituteAll properties
    return .set properties :: (← expandSpecializations rest)

end

/-- Expands a usage that stands among nodes. A style usage becomes a style block. -/
def expandUsage (usage : Usage) : Expanding (List Node) := site.expandNode (.usage usage)

/-- Expands what is inside an element. -/
def expandElement (e : Element) : Expanding Element := do
  return { e with children := ← site.expandNodes e.children }

/-- The properties of a style block: those of its usages in order, then its own, then without the
deleted ones, and with the variables replaced. -/
def mergeStyle (block : StyleBlock) : Expanding Properties := do
  let inherited ← site.mergeUsages .empty block.usages
  site.ownStyle inherited block.inline block.deletions

/-- A style block without usages, deletions and variables. -/
def expandStyle (block : StyleBlock) : Expanding StyleBlock := do
  let inline ← site.mergeStyle block
  let rules ← block.rules.mapM site.substituteRule
  pure { inline, rules }

end Site

/-! ## Levels -/

/-- What can be done inside a definition with `n` levels of depth left. -/
def level (table : Namespace) (maxDepth : Nat) : Nat → Option Inside
  | 0 => none
  | n + 1 =>
    let site (stack : List Frame) : Site :=
      { table, maxDepth, stack, inside := level table maxDepth n }
    some
      { nodes := fun stack nodes => (site stack).expandNodes nodes
        style := fun stack block => (site stack).mergeStyle block
        value := fun stack e => (site stack).substitute e }

/-- The site with a given stack. -/
def Site.ofStack (table : Namespace) (maxDepth : Nat) (stack : List Frame) : Site :=
  { table, maxDepth, stack, inside := level table maxDepth (maxDepth - stack.length) }

/-- The site outside of all definitions. -/
def Site.start (table : Namespace) (maxDepth : Nat) : Site := .ofStack table maxDepth []

/-- How deep expansions may be nested unless something else is asked for. -/
def defaultDepth : Nat := 64

end Expansion

/-- Expands a whole document. -/
def expandDocument (table : Namespace) (maxDepth : Nat) (nodes : List Node) :
    Expanding (List Node) :=
  (Expansion.Site.start table maxDepth).expandNodes nodes

/-- The value of a variable, looked up from outside of all definitions, as it is written. -/
def variableText (table : Namespace) (group name : String) : Expanding String := do
  let value ← (Expansion.Site.start table Expansion.defaultDepth).variableValue group name
  pure value.text

end Stencil
