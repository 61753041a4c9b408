import Stencil.Document
import Stencil.Proofs.Namespace
import Stencil.Proofs.RelatedSites

/-!
# Definitions of a document as an import

A document may hold definitions of its own, next to those that it imports. It makes no difference if
they are taken out of the document and imported last.

* `expandDocument_congr` — expansion sees nothing of the definitions but what lookups find
* `expandDocument_withoutDefinitions` — definitions in a document expand to nothing
* `compile_definitions_eq_import` — the document compiles to the same, or fails in the same way
-/

namespace Stencil

namespace Expansion

/-! ## Definitions that lookups find -/

/-- Being the same computation, as a simulation. -/
def sameness : Simulation Expanding Expanding where
  rel x y := x = y
  rel_pure _ := rfl
  rel_bind hx hf := by rw [hx, funext hf]

variable {table table' : Namespace}

/-- Two sites with definitions that lookups cannot tell apart. -/
theorem related_of_lookup_eq (h : table.lookup = table'.lookup) (maxDepth : Nat)
    (stack : List Frame) (inside : Option Inside) :
    Site.Related sameness (fun _ => True) ⟨table, maxDepth, stack, inside⟩
      ⟨table', maxDepth, stack, inside⟩ := by
  have hresolve : Site.resolve ⟨table, maxDepth, stack, inside⟩
      = Site.resolve ⟨table', maxDepth, stack, inside⟩ := by
    funext kind name path
    simp only [Site.resolve, h]
    rfl
  exact {
    refl := fun _ _ => rfl
    value := fun group name => by
      show Site.variableValue _ group name = Site.variableValue _ group name
      unfold Site.variableValue
      rw [hresolve]
      rfl
    nodes := fun kind name path specs _ => by
      show Site.elementContent _ kind name path specs = Site.elementContent _ kind name path specs
      unfold Site.elementContent
      rw [hresolve]
      rfl
    style := fun kind name path specs _ => by
      show Site.styleContent _ kind name path specs = Site.styleContent _ kind name path specs
      unfold Site.styleContent
      rw [hresolve]
      rfl }

/-- What stands inside of definitions is the same on every level. The induction is on the levels
left. -/
theorem level_congr (h : table.lookup = table'.lookup) (maxDepth n : Nat) :
    level table maxDepth n = level table' maxDepth n := by
  induction n with
  | zero => rfl
  | succ n ih =>
    have hsite (stack : List Frame) :=
      related_of_lookup_eq h maxDepth stack (level table' maxDepth n)
    rw [level, level, ih]
    congr 2
    · funext stack nodes
      exact rel_expandNodes (hsite stack) nodes fun _ _ => trivial
    · funext stack block
      exact rel_mergeStyle (hsite stack) block fun _ _ => trivial
    · funext stack e
      exact rel_substitute (hsite stack) e

end Expansion

/-- Expansion sees nothing of the definitions but what lookups find. -/
theorem expandDocument_congr {table table' : Namespace} (h : table.lookup = table'.lookup)
    (maxDepth : Nat) (nodes : List Node) :
    expandDocument table maxDepth nodes = expandDocument table' maxDepth nodes := by
  have hsite := Expansion.related_of_lookup_eq h maxDepth []
    (Expansion.level table' maxDepth maxDepth)
  unfold expandDocument Expansion.Site.start Expansion.Site.ofStack
  rw [Expansion.level_congr h]
  exact Expansion.rel_expandNodes hsite nodes fun _ _ => trivial

/-! ## Documents without definitions -/

mutual

/-- Takes the definitions out of a list of nodes, and out of the elements in it. -/
def withoutDefinitions : List Node → List Node
  | [] => []
  | node :: rest => node.withoutDefinitions ++ withoutDefinitions rest

def Node.withoutDefinitions : Node → List Node
  | .definition _ => []
  | .element ⟨tag, attributes, children⟩ =>
    [.element ⟨tag, attributes, Stencil.withoutDefinitions children⟩]
  | .text text => [.text text]
  | .style block => [.style block]
  | .usage usage => [.usage usage]

end

theorem definitions_append (nodes rest : List Node) :
    definitions (nodes ++ rest) = definitions nodes ++ definitions rest := by
  induction nodes with
  | nil => simp [definitions]
  | cons node nodes ih => simp [definitions, ih]

mutual

/-- Nothing is defined where the definitions are taken out, at any depth. -/
theorem definitions_withoutDefinitions : ∀ nodes : List Node,
    definitions (withoutDefinitions nodes) = []
  | [] => by simp [withoutDefinitions, definitions]
  | node :: rest => by
    rw [withoutDefinitions, definitions_append, definitions_withoutDefinitions_node node,
      definitions_withoutDefinitions rest, List.append_nil]

theorem definitions_withoutDefinitions_node : ∀ node : Node,
    definitions node.withoutDefinitions = []
  | .definition _ => by simp [Node.withoutDefinitions, definitions]
  | .element ⟨tag, attributes, children⟩ => by
    simp [Node.withoutDefinitions, definitions, Node.definitions,
      definitions_withoutDefinitions children]
  | .text _ | .style _ | .usage _ => by
    simp [Node.withoutDefinitions, definitions, Node.definitions]

end

namespace Expansion

variable (site : Site)

theorem expandNodes_append (nodes rest : List Node) :
    site.expandNodes (nodes ++ rest) = (do
      let first ← site.expandNodes nodes
      let others ← site.expandNodes rest
      pure (first ++ others)) := by
  induction nodes with
  | nil => simp [Site.expandNodes]
  | cons node nodes ih =>
    simp only [List.cons_append, Site.expandNodes, ih, bind_assoc, pure_bind, List.append_assoc]

theorem expandNodes_singleton (node : Node) : site.expandNodes [node] = site.expandNode node := by
  simp [Site.expandNodes]

mutual

/-- At any site, definitions among the nodes expand to nothing. -/
theorem expandNodes_withoutDefinitions : ∀ nodes : List Node,
    site.expandNodes (withoutDefinitions nodes) = site.expandNodes nodes
  | [] => by rw [withoutDefinitions]
  | node :: rest => by
    rw [withoutDefinitions, expandNodes_append, expandNodes_withoutDefinitions_node node,
      expandNodes_withoutDefinitions rest, Site.expandNodes]

theorem expandNodes_withoutDefinitions_node : ∀ node : Node,
    site.expandNodes node.withoutDefinitions = site.expandNode node
  | .definition _ => by rw [Node.withoutDefinitions, Site.expandNodes, Site.expandNode]
  | .element ⟨tag, attributes, children⟩ => by
    rw [Node.withoutDefinitions, expandNodes_singleton, Site.expandNode,
      expandNodes_withoutDefinitions children, Site.expandNode]
  | .text _ => by rw [Node.withoutDefinitions, expandNodes_singleton]
  | .style _ => by rw [Node.withoutDefinitions, expandNodes_singleton]
  | .usage _ => by rw [Node.withoutDefinitions, expandNodes_singleton]

end

end Expansion

/-- So a document expands to the same without its definitions. -/
theorem expandDocument_withoutDefinitions (table : Namespace) (maxDepth : Nat) (nodes : List Node) :
    expandDocument table maxDepth (withoutDefinitions nodes) = expandDocument table maxDepth nodes :=
  Expansion.expandNodes_withoutDefinitions _ nodes

namespace Document

/-! ## Compiling -/

variable {options : Options} {imports imports' : List Import} {document document' : List Node}

theorem importAll_append (imports : List Import) (ns : Namespace) :
    importAll (imports ++ [⟨[], ns⟩]) = (importAll imports).merge ns := by
  rw [importAll, List.foldl_append]
  rfl

theorem value_definitionsFor (imports : List Import) (document : List Node) :
    (definitionsFor imports document).value = ((importAll imports).collect document).value := rfl

/-- Importing the definitions of a document last defines the same as collecting them. -/
theorem lookup_import_eq_collect (imports : List Import) (document : List Node) :
    (definitionsFor imports document).value.lookup
      = (definitionsFor (imports ++ [⟨[], (Namespace.ofDocument document).value⟩])
          (withoutDefinitions document)).value.lookup := by
  refine Namespace.lookup_congr fun path name kind => ?_
  rw [value_definitionsFor, value_definitionsFor, importAll_append, Namespace.value_collect _
    (withoutDefinitions document), definitions_withoutDefinitions, List.foldl_nil,
    Namespace.getAt?_merge, Namespace.getAt?_collect]

/-- Notes apart, a document is expanded with the definitions in scope and prepared. -/
theorem outcome_expandAndPrepare (options : Options) (imports : List Import)
    (document : List Node) :
    let ns := (definitionsFor imports document).value
    (expandAndPrepare options imports document).outcome
      = (expandDocument ns options.maxDepth document).outcome.bind fun tree =>
          .ok (LocalRules.prepare options.attributes tree).value := by
  intro ns
  unfold expandAndPrepare
  simp only [Checked.outcome_bind, Checked.outcome_lift]
  rfl

/-- What a document compiles to depends on its expansion only. -/
theorem compile_congr (h : (expandAndPrepare options imports document).outcome
    = (expandAndPrepare options imports' document').outcome) :
    (compile options imports document).outcome = (compile options imports' document').outcome := by
  unfold compile
  simp only [Checked.outcome_bind, Checked.outcome_adapt, h]

/-- **Definitions of a document are an import that comes last.** A document compiles to the same if its
definitions are taken out of it and imported after all others, and fails in the same way. -/
theorem compile_definitions_eq_import (options : Options) (imports : List Import)
    (document : List Node) :
    (compile options imports document).outcome
      = (compile options
          (imports ++ [{ path := [], definitions := (Namespace.ofDocument document).value }])
          (withoutDefinitions document)).outcome := by
  refine compile_congr ?_
  rw [outcome_expandAndPrepare, outcome_expandAndPrepare, expandDocument_withoutDefinitions,
    expandDocument_congr (lookup_import_eq_collect imports document)]

/-- A style that paints in one colour. -/
def tint (color : String) : Definition :=
  ⟨.template, "Tint", [], .style { inline := .ofList [("color", .literal color)] }⟩

/-- An element that is painted in a colour, which it defines after that. -/
def signpost : List Node :=
  [.element ⟨"div", .empty, [.style { usages := [⟨.style, "Tint", [], []⟩] },
    .definition (tint "red")]⟩]

theorem compile_definitions_eq_import_signpost :
    let grey : Import := { definitions := (Namespace.ofDocument [.definition (tint "grey")]).value }
    let own : Import := { definitions := (Namespace.ofDocument signpost).value }
    let color (outcome : Except CompileError Output) : Option String :=
      outcome.toOption.bind fun output => output.resolved.styles.property? "div" "color"
    color (compile {} [grey] signpost).outcome = some "red" ∧
      color (compile {} [grey] (withoutDefinitions signpost)).outcome = some "grey" ∧
      color (compile {} [grey, own] (withoutDefinitions signpost)).outcome = some "red" := by
  intro grey own color
  have hred : color (compile {} [grey] signpost).outcome = some "red" := by decide +kernel
  have hsame := compile_definitions_eq_import {} [grey] signpost
  exact ⟨hred, by decide +kernel, (congrArg color hsame).symm.trans hred⟩

end Document

end Stencil
