import Stencil.Dependencies
import Stencil.Expr.Eval

/-!
# Evaluating properties on demand

A property is evaluated when it is first asked for, after the properties that it reads, and its value
or its failure is kept. A session is what is kept between questions.

* `Session.lookup` evaluates a property of an element
* `Session.evaluate` does so too, and fails if a property was found to read itself

## Termination

`lookup` is asked for properties of other elements while it evaluates one. Its fuel bounds how deep
this goes. The properties under evaluation are all different, and each is declared by some element, so
`budget` is always enough.
-/

namespace Stencil

/-- A property of an element: the element's primary name, and the property's name. -/
abbrev PropertyKey := String × String

/-- What is kept while properties are evaluated. -/
structure Session where
  /-- Values and failures of the properties that have been evaluated. -/
  memo : List (PropertyKey × Except EvalError Value) := []
  /-- The properties under evaluation, the innermost first. -/
  inProgress : List PropertyKey := []
  /-- The first property found to read itself, since this was last asked for. -/
  circular : Option ResolveError := none
  /-- The notes made, the last one first. -/
  notes : List Note := []

namespace Session

/-- A step of evaluation. It has no result if it runs out of fuel. -/
abbrev Evaluating := StateT Session Option

def note (n : Note) : Evaluating Unit := modify fun s => { s with notes := n :: s.notes }

/-- How the property of an element is looked up. An element may not declare it, and its evaluation may
fail. -/
abbrev Lookup := Handle → String → Evaluating (Option (Except EvalError Value))

/-! ## Changes of a session -/

/-- The properties that read each other when `key` is read again, from `key` to `key`. Properties of
other elements are named with their element. -/
def cycle (key : PropertyKey) (inProgress : List PropertyKey) : List String :=
  let inner := (inProgress.takeWhile (· ≠ key)).reverse
  let name (other : PropertyKey) : String :=
    if other.1 = key.1 then other.2 else other.1 ++ "." ++ other.2
  key.2 :: inner.map name ++ [key.2]

/-- Keeps the cycle through `key`, unless there is one already. -/
def recordCycle (key : PropertyKey) (s : Session) : Session :=
  { s with circular := s.circular.or (some (.circularProperty key.1 (cycle key s.inProgress))) }

/-- Starts to evaluate a property. -/
def enter (key : PropertyKey) (s : Session) : Session :=
  { s with inProgress := key :: s.inProgress }

/-- Keeps the value of the innermost property under evaluation. -/
def leave (key : PropertyKey) (value : Except EvalError Value) (s : Session) : Session :=
  { s with inProgress := s.inProgress.tail, memo := (key, value) :: s.memo }

/-! ## Scopes -/

/-- Reads a property of the selected element, or of the element at hand. -/
def readFrom (r : Registry) (lookup : Lookup) (h : Handle) (selector : Option Selector)
    (property : String) : Evaluating (Except EvalError (Option Value)) := do
  match selector with
  | none =>
    match ← lookup h property with
    | some value => pure (value.map some)
    | none => pure (.ok none)
  | some s =>
    match r.first s with
    | none =>
      note (.referenceUnmatched s property)
      pure (.ok none)
    | some target =>
      match ← lookup target property with
      | some value => pure (value.map some)
      | none =>
        note (.propertyUndeclared property)
        pure (.ok none)

/-- The scope of the properties of an element. -/
def elementScope (r : Registry) (lookup : Lookup) (h : Handle) : Scope Evaluating where
  read := readFrom r lookup h
  note := note

/-- The scope of rules outside of all elements: there is no element at hand. -/
def documentScope (r : Registry) (lookup : Lookup) : Scope Evaluating where
  read selector property :=
    match selector.bind r.first with
    | some target => readFrom r lookup target none property
    | none => pure (.ok none)
  note := note

/-! ## Lookup -/

/-- Looks up a property, given how to look up the properties that it reads. -/
def lookupStep (r : Registry) (lookup : Lookup) (h : Handle) (property : String) :
    Evaluating (Option (Except EvalError Value)) := do
  match r.entry? h with
  | none => pure none
  | some entry =>
    let key := (entry.primary, property)
    match (← get).memo.lookup key with
    | some value => pure (some value)
    | none =>
      match entry.element.inlineProperty? property with
      | none => pure none
      | some e =>
        if key ∈ (← get).inProgress then
          modify (recordCycle key)
          pure (some (.error (.circularProperty entry.primary property)))
        else
          modify (enter key)
          let value ← (e.eval (elementScope r lookup h)).run
          modify (leave key value)
          pure (some value)

/-- Looks up a property, at most `fuel` properties deep. -/
def lookup (r : Registry) : Nat → Lookup
  | 0 => fun _ _ => failure
  | fuel + 1 => lookupStep r (lookup r fuel)

/-- All properties that elements declare, once for each style block that binds them. -/
def declared (r : Registry) : List PropertyKey :=
  r.entries.toList.flatMap fun entry =>
    (entry.element.styleBlocks.flatMap fun b => b.inline.keys).map fun name => (entry.primary, name)

/-- Enough fuel for every property. -/
def budget (r : Registry) : Nat := (declared r).length + 1

/-! ## Answers -/

/-- A computation that goes on from one session to the next, and that may fail. -/
abbrev Resolving := ExceptT ResolveError (StateM Session)

/-- Runs a step of evaluation. A property found to read itself makes it fail. -/
def settle {α : Type} (x : Evaluating α) : Resolving α := ExceptT.mk fun s =>
  match x.run s with
  | none => (.error .exhausted, s)
  | some (a, s') =>
    match s'.circular with
    | some error => (.error error, { s' with circular := none })
    | none => (.ok a, s')

/-- The value of a property of an element, or `none` if the element does not declare it. -/
def evaluate (r : Registry) (h : Handle) (property : String) :
    Resolving (Option (Except EvalError Value)) :=
  settle (lookup r (budget r) h property)

/-- Runs a computation in a session of its own. -/
def fresh {α : Type} (x : Resolving α) : Checked ResolveError α :=
  let (result, s) := x.run.run {}
  ExceptT.mk ⟨result, s.notes.reverse⟩

end Session

end Stencil
