import Stencil.Session
import Stencil.StyleSheet

/-!
# Resolving the styles of a tree

Every property of every styled element is evaluated and written as text, elements after those that
they depend on. Then come the rules, those inside of elements first. A property that fails is not the
end: a marker stands in for its text, and a diagnostic says why.
-/

namespace Stencil

/-- A property that could not be written, of an element or of a rule. -/
structure Diagnostic where
  selector : String
  property : String
  error : EvalError

def Diagnostic.text (d : Diagnostic) : String :=
  d.selector ++ " " ++ d.property ++ ": " ++ d.error.message

/-! ## Outcomes -/

/-- The text of a value. A truth value has none. -/
def Value.render (v : Value) : Except EvalError String :=
  if v.isRenderable then .ok v.text
  else .error (.operandType .propertyValue .renderable v.type)

/-- Properties with their texts, or with why they have none. -/
abbrev Outcomes := OrderedMap String (Except EvalError String)

namespace Outcomes

/-- The texts, with a marker where there is none. -/
def texts (outcomes : Outcomes) : PropertyTexts :=
  outcomes.mapValues fun
    | .ok text => text
    | .error e => e.marker

/-- What went wrong in an element or a rule. -/
def diagnostics (selector : String) (outcomes : Outcomes) : List Diagnostic :=
  outcomes.entries.filterMap fun
    | (_, .ok _) => none
    | (property, .error error) => some { selector, property, error }

end Outcomes

/-- The styles of a tree. -/
structure Resolved where
  styles : StyleMap
  rules : List SheetRule
  diagnostics : List Diagnostic
  /-- The styled elements and those that they read, in order of evaluation. -/
  order : List String

namespace Resolution

open Session

/-- The outcome of a property, with a note if it failed. -/
def conclude (selector property : String) (value : Except EvalError Value) :
    Resolving (Except EvalError String) := do
  match value.bind Value.render with
  | .ok text => pure (.ok text)
  | .error e =>
    modify fun s => { s with notes := .propertyFailed selector property e :: s.notes }
    pure (.error e)

/-! ## Elements -/

/-- The styled element with a primary name. -/
def styled? (r : Registry) (primary : String) : Option (Handle × Element) := do
  let h ← r.byPrimary.get? primary
  let e ← r.element? h
  if e.hasInlineStyle then some (h, e) else none

/-- Evaluates all properties of an element. -/
def elementOutcomes (r : Registry) (primary : String) (h : Handle) (e : Element) :
    Resolving Outcomes :=
  e.inlineProperties.mapM fun name _ => do
    let value ← evaluate r h name
    conclude primary name (value.getD (.ok (.string name)))

/-- Evaluates the styled elements of an order. -/
def inlineOutcomes (r : Registry) (order : List String) : Resolving (List (String × Outcomes)) :=
  (order.filterMap fun primary => (styled? r primary).map fun found => (primary, found)).mapM
    fun (primary, h, e) => do
      let outcomes ← elementOutcomes r primary h e
      pure (primary, outcomes)

/-- The styles of the elements of a registry, in document order. -/
def styleMap (r : Registry) (outcomes : List (String × Outcomes)) : StyleMap :=
  .ofList (r.entries.toList.filterMap fun entry =>
    (outcomes.lookup entry.primary).map fun o => (entry.primary, o.texts))

/-! ## Rules -/

/-- Evaluates the properties of a rule. -/
def ruleOutcomes (scope : Scope Evaluating) (rule : Rule) : Resolving (String × Outcomes) := do
  let outcomes ← rule.properties.mapM fun name e => do
    let value ← settle (e.eval scope).run
    conclude rule.selector name value
  pure (rule.selector, outcomes)

/-- Evaluates the rules inside of an element. -/
def localRules (r : Registry) (h : Handle) (e : Element) : Resolving (List (String × Outcomes)) :=
  e.rules.mapM (ruleOutcomes (elementScope r (lookup r (budget r)) h))

/-- Evaluates the rules of a style block outside of all elements. Properties of the block itself
belong to no element. -/
def globalRules (r : Registry) (block : StyleBlock) : Resolving (List (String × Outcomes)) := do
  unless block.inline.isEmpty do
    modify fun s => { s with notes := .topLevelInlineIgnored :: s.notes }
  block.rules.mapM (ruleOutcomes (documentScope r (lookup r (budget r))))

/-- Evaluates all rules, those inside of elements only if they are wanted. -/
def allRules (r : Registry) (wantLocal : Bool) (tree : List Node) :
    Resolving (List (String × Outcomes)) := do
  let inside ←
    if wantLocal then
      r.entries.toList.zipIdx.mapM fun (entry, h) => localRules r h entry.element
    else pure []
  let outside ← (tree.filterMap Node.style?).mapM (globalRules r)
  pure (inside.flatten ++ outside.flatten)

/-! ## The whole tree -/

/-- Resolves a tree with its registry and the order of its elements. -/
def resolveIn (r : Registry) (order : List String) (wantLocal : Bool) (tree : List Node) :
    Resolving Resolved := do
  let inline ← inlineOutcomes r order
  let rules ← allRules r wantLocal tree
  pure {
    styles := styleMap r inline
    rules := rules.map fun (selector, outcomes) => ⟨selector, outcomes.texts⟩
    diagnostics := (inline ++ rules).flatMap fun (selector, o) => o.diagnostics selector
    order }

end Resolution

/-- Resolves the styles of a tree. `wantLocal` says whether rules inside of elements are wanted. -/
def resolve (wantLocal : Bool) (tree : List Node) : Checked ResolveError Resolved := do
  let r ← ExceptT.lift (Registry.build tree)
  let order ← (Dependencies.build r).order
  Session.fresh (Resolution.resolveIn r order wantLocal tree)

end Stencil
