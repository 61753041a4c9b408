import Stencil.Expansion
import Stencil.LocalRules
import Stencil.Resolution

/-!
# Compiling a document

Definitions are gathered, usages are expanded, rules inside of elements are prepared, and styles are
resolved. A definition of the document wins over an imported one, and a later import over an earlier
one.
-/

namespace Stencil

namespace Document

/-- How a document is compiled. -/
structure Options where
  /-- How deep usages may be nested. -/
  maxDepth : Nat := Expansion.defaultDepth
  /-- Which attributes elements take on from their rules. -/
  attributes : LocalRules.Options := {}
  /-- Whether rules inside of elements go into the style sheet. -/
  collectRules : Bool := true

/-- Definitions of another document, and the namespace they go into. -/
structure Import where
  path : Path := []
  definitions : Namespace

/-- A compiled document. -/
structure Output where
  /-- The tree without definitions and usages. -/
  tree : List Node
  resolved : Resolved

/-- Why a document cannot be compiled. -/
inductive CompileError where
  | expand (error : ExpandError)
  | resolve (error : ResolveError)

def CompileError.message : CompileError → String
  | .expand e => e.message
  | .resolve e => e.message

/-- The definitions of all imports. -/
def importAll (imports : List Import) : Namespace :=
  imports.foldl
    (fun ns i => if i.path = [] then ns.merge i.definitions else ns.mergeUnder i.definitions i.path)
    .empty

/-- The definitions that usages in a document can see. -/
def definitionsFor (imports : List Import) (document : List Node) : Logged Namespace := do
  let ns ← (importAll imports).collect document
  Logged.note (.definitionsCollected (Stencil.definitions document).length ns.size)
  pure ns

/-- Expands a document and prepares the rules inside of its elements. -/
def expandAndPrepare (options : Options) (imports : List Import) (document : List Node) :
    Checked ExpandError (List Node) := do
  let ns ← ExceptT.lift (definitionsFor imports document)
  let tree ← expandDocument ns options.maxDepth document
  ExceptT.lift (LocalRules.prepare options.attributes tree)

/-- Compiles a document. -/
def compile (options : Options) (imports : List Import) (document : List Node) :
    Checked CompileError Output := do
  let tree ← (expandAndPrepare options imports document).adapt .expand
  let resolved ← (resolve options.collectRules tree).adapt .resolve
  pure { tree, resolved }

end Document

end Stencil
