import Stencil.Number.Shortest
import Stencil.Value

/-!
# Notes

What the compiler has to say beside its result: warnings about input that is probably wrong, and
details of how a result came about. Notes are data and come in the order in which they arise; a
computation that fails keeps the notes it made before.
-/

namespace Stencil

/-- The three kinds of definition. -/
inductive Kind where
  | style | element | var
deriving DecidableEq, Repr

/-- A kind as it is written in front of a name. -/
def Kind.text : Kind → String
  | .style => "@Style"
  | .element => "@Element"
  | .var => "@Var"

/-- The names of nested namespaces, the outermost first. -/
abbrev Path := List String

/-- A path as messages show it. -/
def Path.text (path : Path) : String :=
  if path = [] then "<global>" else ".".intercalate path

/-- Where content is inserted: next to a target, in place of it, or at an end of the whole. -/
inductive Position where
  | before | after | replace | atTop | atBottom
deriving DecidableEq, Repr

def Position.name : Position → String
  | .before => "Before"
  | .after => "After"
  | .replace => "Replace"
  | .atTop => "AtTop"
  | .atBottom => "AtBottom"

inductive NoteLevel where
  | warning | detail
deriving DecidableEq, Repr

inductive Note where
  | redefinition (kind : Kind) (name : String) (path : Path)
  | definitionsCollected (count total : Nat)
  | valuelessDropped (property : String) (kind : Kind) (name : String)
  | cannotDelete (selector : Selector) (kind : Kind) (name : String)
  | uselessValues (kind : Kind) (name : String)
  | uselessSpecialization (kind : Kind) (name : String)
  | deleteTargetMissing (selector : Selector)
  | insertWithoutTarget (position : Position)
  | insertTargetMissing (selector : Selector)
  | overrideUnmatched (tag : String)
  | duplicateId (id : String)
  | classAdded (name tag : String)
  | idAdded (id tag : String)
  | evaluationOrder (order : List String)
  | comparedByMagnitude (left : Float) (leftUnit : String) (op : BinaryOp) (right : Float)
      (rightUnit : String)
  | dividedByZero (left : Float) (op : BinaryOp)
  | propertyFailed (selector property : String) (error : EvalError)
  | referenceUnmatched (selector : Selector) (property : String)
  | propertyUndeclared (property : String)
  | topLevelInlineIgnored
deriving DecidableEq

namespace Note

def level : Note → NoteLevel
  | redefinition .. | valuelessDropped .. | cannotDelete .. | uselessValues ..
  | uselessSpecialization .. | duplicateId .. | comparedByMagnitude .. | propertyFailed ..
  | referenceUnmatched .. | propertyUndeclared .. => .warning
  | definitionsCollected .. | deleteTargetMissing .. | insertWithoutTarget ..
  | insertTargetMissing .. | overrideUnmatched .. | classAdded .. | idAdded ..
  | evaluationOrder .. | dividedByZero .. | topLevelInlineIgnored => .detail

/-- A kind and a name as messages show them. -/
def subject (kind : Kind) (name : String) : String := kind.text ++ " '" ++ name ++ "'"

def message : Note → String
  | redefinition kind name path =>
    "redefinition of " ++ kind.text ++ " " ++ name ++ " in namespace '" ++ path.text ++ "'"
  | definitionsCollected count total =>
    toString count ++ " definitions collected, " ++ toString total ++ " in scope"
  | valuelessDropped property kind name =>
    "valueless property '" ++ property ++ "' of " ++ subject kind name
      ++ " was not given a value; dropped"
  | cannotDelete selector kind name =>
    "cannot delete element " ++ selector.text ++ " from " ++ subject kind name
  | uselessValues kind name => "property values have no effect on " ++ subject kind name
  | uselessSpecialization kind name =>
    "element specialization has no effect on " ++ subject kind name
  | deleteTargetMissing selector => "delete target " ++ selector.text ++ " not found"
  | insertWithoutTarget position => position.name ++ " insert without a target ignored"
  | insertTargetMissing selector => "insert target " ++ selector.text ++ " not found"
  | overrideUnmatched tag => "override for <" ++ tag ++ "> matched nothing"
  | duplicateId id => "duplicate element id '#" ++ id ++ "'; the later element wins"
  | classAdded name tag => "adding class '" ++ name ++ "' to <" ++ tag ++ ">"
  | idAdded id tag => "adding id '" ++ id ++ "' to <" ++ tag ++ ">"
  | evaluationOrder order => "style evaluation order: " ++ ", ".intercalate order
  | comparedByMagnitude left leftUnit op right rightUnit =>
    "comparing " ++ Number.plainText left ++ leftUnit ++ " " ++ op.symbol ++ " "
      ++ Number.plainText right ++ rightUnit ++ " by magnitude only"
  | dividedByZero left op =>
    Number.plainText left ++ " " ++ op.symbol ++ " 0 evaluated to infinity"
  | propertyFailed selector property error =>
    selector ++ " " ++ property ++ ": " ++ error.message
  | referenceUnmatched selector property =>
    "reference " ++ selector.text ++ "." ++ property ++ " matches no element"
  | propertyUndeclared property => "reference to undeclared property '" ++ property ++ "'"
  | topLevelInlineIgnored => "ignoring inline properties of a top-level style block"

end Note

/-! ## Results with notes -/

/-- A result and the notes made on the way to it, the first one first. -/
structure Logged (α : Type) where
  value : α
  notes : List Note := []

namespace Logged

instance : Monad Logged where
  pure a := ⟨a, []⟩
  bind x f := let y := f x.value; ⟨y.value, x.notes ++ y.notes⟩

/-- Makes a note. -/
def note (n : Note) : Logged Unit := ⟨(), [n]⟩

@[simp] theorem value_pure {α : Type} (a : α) : (pure a : Logged α).value = a := rfl

@[simp] theorem value_bind {α β : Type} (x : Logged α) (f : α → Logged β) :
    (x >>= f).value = (f x.value).value := rfl

@[simp] theorem value_note (n : Note) : (note n).value = () := rfl

instance : LawfulMonad Logged := LawfulMonad.mk' Logged
  (fun x => by simp [Functor.map])
  (fun _ _ => rfl)
  (fun x f g => by simp [bind, List.append_assoc])

end Logged

/-- A computation that may fail. Its notes survive a failure. -/
abbrev Checked (ε : Type) := ExceptT ε Logged

namespace Checked

variable {ε α β : Type}

/-- The outcome without the notes. -/
def outcome (x : Checked ε α) : Except ε α := x.run.value

/-- Makes a note. -/
def note (n : Note) : Checked ε Unit := ExceptT.lift (Logged.note n)

@[simp] theorem outcome_pure (a : α) : outcome (pure a : Checked ε α) = .ok a := rfl

@[simp] theorem outcome_throw (e : ε) : outcome (throw e : Checked ε α) = .error e := rfl

@[simp] theorem outcome_note (n : Note) : outcome (note n : Checked ε Unit) = .ok () := rfl

/-- A sequence fails where its first step does, and goes on with that step's result otherwise. -/
@[simp] theorem outcome_bind (x : Checked ε α) (f : α → Checked ε β) :
    outcome (x >>= f) = (outcome x).bind fun a => outcome (f a) := by
  simp only [outcome, ExceptT.run_bind, Logged.value_bind]
  cases x.run.value <;> rfl

end Checked

end Stencil
