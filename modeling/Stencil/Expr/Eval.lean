import Stencil.Note
import Stencil.Number.Remainder

/-!
# Evaluation

An expression is evaluated in a scope, which says how properties are read. The scope may be any
computation: one that keeps a record of what it is asked, one that evaluates other properties first,
or a plain table. Operands are evaluated from left to right, and a left operand of the wrong sort
fails before the right one is looked at; `&&`, `||` and `?:` leave out what they do not need.
-/

namespace Stencil

/-- How an expression reaches the properties it reads, and where its notes go. -/
structure Scope (m : Type → Type) where
  /-- The value of a property, of the selected element or of the element at hand. There may be no
  such property, and its own evaluation may have failed. -/
  read : Option Selector → String → m (Except EvalError (Option Value))
  note : Note → m Unit

namespace Expr

/-! ## Operands -/

def expectBoolean (site : Site) : Value → Except EvalError Bool
  | .boolean b => .ok b
  | v => .error (.operandType site .boolean v.type)

def expectDimension (op : BinaryOp) : Value → Except EvalError (Float × Option String)
  | .dimension value unit => .ok (value, normalUnit unit)
  | v => .error (.operandType (.operator op) .dimension v.type)

/-- The two units, when both are there and differ. -/
def mismatch? (left right : Option String) : Option (String × String) :=
  match left, right with
  | some l, some r => if l = r then none else some (l, r)
  | _, _ => none

/-! ## Operators on dimensions -/

/-- What an operator does with two dimensions: its value, and a note if there is one to make. -/
structure Computed where
  value : Value
  note : Option Note := none

/-- Compares two numbers. Units are left out of account, which is worth a note when they differ. -/
def compareDimensions (op : BinaryOp) (holds : Bool) (a : Float × Option String)
    (b : Float × Option String) : Computed :=
  { value := .boolean holds
    note := (mismatch? a.2 b.2).map fun (l, r) => .comparedByMagnitude a.1 l op b.1 r }

/-- A number with the unit of the left operand, or else of the right one. -/
def joined (a b : Option String) (value : Float) : Value := .dimension value (a.or b)

/-- Divides by a rule; a division by zero is infinity. -/
def divide (op : BinaryOp) (rule : Float → Float → Float) (a : Float × Option String)
    (b : Float × Option String) : Computed :=
  if b.1 == 0 then
    { value := joined a.2 b.2 Number.infinity, note := some (.dividedByZero a.1 op) }
  else { value := joined a.2 b.2 (rule a.1 b.1) }

/-- Applies an operator to two dimensions. Sums need units that agree. -/
def onDimensions (op : BinaryOp) (a b : Float × Option String) : Except EvalError Computed :=
  match op with
  | .gt => .ok (compareDimensions op (b.1 < a.1) a b)
  | .ge => .ok (compareDimensions op (b.1 ≤ a.1) a b)
  | .lt => .ok (compareDimensions op (a.1 < b.1) a b)
  | .le => .ok (compareDimensions op (a.1 ≤ b.1) a b)
  | .add => sum (a.1 + b.1)
  | .sub => sum (a.1 - b.1)
  | .mul => .ok { value := joined a.2 b.2 (a.1 * b.1) }
  | .div => .ok (divide op (· / ·) a b)
  | .rem => .ok (divide op Number.remainder a b)
  | _ => .ok { value := joined a.2 b.2 (a.1.pow b.1) }
where
  sum (value : Float) : Except EvalError Computed :=
    match mismatch? a.2 b.2 with
    | some (l, r) => .error (.unitMismatch l r)
    | none => .ok { value := joined a.2 b.2 value }

/-! ## Expressions -/

variable {m : Type → Type} [Monad m]

/-- The value of an expression in a scope. -/
def eval (scope : Scope m) : Expr → ExceptT EvalError m Value
  | .literal text => pure (.string text)
  | .dimension value unit => pure (.dimension value (normalUnit unit))
  | .property selector name => do
    match ← ExceptT.mk (scope.read selector name) with
    | some value => pure value
    | none =>
      match selector with
      | none => pure (.string name)
      | some selector => throw (.unresolvedReference selector.text name)
  | .var group name => throw (.unresolvedVariable group name)
  | .binary .and left right => do
    if ← expectBoolean (.operator .and) (← eval scope left) then
      return .boolean (← expectBoolean (.operator .and) (← eval scope right))
    else
      return .boolean false
  | .binary .or left right => do
    if ← expectBoolean (.operator .or) (← eval scope left) then
      return .boolean true
    else
      return .boolean (← expectBoolean (.operator .or) (← eval scope right))
  | .binary .eq left right => do
    let a ← eval scope left
    let b ← eval scope right
    return .boolean (a.same b)
  | .binary .ne left right => do
    let a ← eval scope left
    let b ← eval scope right
    return .boolean (!a.same b)
  | .binary op left right => do
    let a ← expectDimension op (← eval scope left)
    let b ← expectDimension op (← eval scope right)
    let computed ← onDimensions op a b
    if let some note := computed.note then
      ExceptT.lift (scope.note note)
    return computed.value
  | .conditional cond yes no => do
    if ← expectBoolean .condition (← eval scope cond) then eval scope yes
    else eval scope no

end Expr

end Stencil
