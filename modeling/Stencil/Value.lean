import Stencil.Expr

/-!
# Values

What a property value comes to: a number with a unit, a string or a truth value. Only the first two
can be written into a style.
-/

namespace Stencil

inductive Value where
  | dimension (value : Float) (unit : Option String)
  | string (text : String)
  | boolean (value : Bool)
deriving DecidableEq

/-- The sorts of value. -/
inductive ValueType where
  | dimension | string | boolean
deriving DecidableEq, Repr

def ValueType.name : ValueType → String
  | .dimension => "dimension"
  | .string => "string"
  | .boolean => "boolean"

/-- A unit, the empty one being none. -/
def normalUnit (unit : Option String) : Option String := unit.filter (· ≠ "")

namespace Value

def type : Value → ValueType
  | .dimension .. => .dimension
  | .string _ => .string
  | .boolean _ => .boolean

/-- A number with a unit; the empty unit is none. -/
def withUnit (value : Float) (unit : String) : Value :=
  .dimension value (normalUnit (some unit))

/-- Whether a value can be written into a style. -/
def isRenderable (v : Value) : Bool := v.type ≠ .boolean

/-- A value as it is written. A number that is not finite has no unit. -/
def text : Value → String
  | .dimension value unit =>
    match Number.read value with
    | .finite .. => Number.text value ++ unit.getD ""
    | _ => Number.text value
  | .string t => t
  | .boolean true => "true"
  | .boolean false => "false"

/-- Equality as `==` means it: numbers by value and unit, and no two sorts alike. -/
def same : Value → Value → Bool
  | .dimension a unit, .dimension b unit' => a == b && normalUnit unit == normalUnit unit'
  | .string a, .string b => a == b
  | .boolean a, .boolean b => a == b
  | _, _ => false

end Value

/-! ## Failures -/

/-- Where a value of the wrong sort was met. -/
inductive Site where
  | operator (op : BinaryOp)
  | condition
  | propertyValue
deriving DecidableEq, Repr

def Site.text : Site → String
  | .operator op => op.symbol
  | .condition => "?:"
  | .propertyValue => "property value"

/-- Which sorts of value would have been right. -/
inductive Requirement where
  | boolean | dimension | renderable
deriving DecidableEq, Repr

def Requirement.text : Requirement → String
  | .boolean => "boolean"
  | .dimension => "dimension"
  | .renderable => "dimension or string"

/-- Why an expression has no value. -/
inductive EvalError where
  | unitMismatch (left right : String)
  | operandType (site : Site) (expected : Requirement) (found : ValueType)
  | unresolvedReference (selector property : String)
  | unresolvedVariable (group name : String)
  | circularProperty (selector property : String)
deriving DecidableEq, Repr

def EvalError.message : EvalError → String
  | .unitMismatch left right => "unit mismatch: '" ++ left ++ "' vs '" ++ right ++ "'"
  | .operandType site expected found =>
    "operator '" ++ site.text ++ "' expects " ++ expected.text ++ ", found " ++ found.name
  | .unresolvedReference selector property =>
    "unresolved reference " ++ selector ++ "." ++ property
  | .unresolvedVariable group name => "unresolved variable " ++ group ++ "(" ++ name ++ ")"
  | .circularProperty selector property =>
    "circular reference through " ++ selector ++ "." ++ property

/-- What stands in a style in place of a value that could not be computed. -/
def EvalError.marker (e : EvalError) : String := "/* error: " ++ e.message ++ " */"

end Stencil
