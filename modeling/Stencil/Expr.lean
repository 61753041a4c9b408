import Stencil.Number.Fixed
import Stencil.Selector

/-!
# Property-value expressions

The value of a style property is an expression: a literal, a number with a unit, a property of this
or another element, a variable of a group, or these joined by operators.

* `Expr.walk` lists the sub-expressions, parents first
* `Expr.references` lists the properties of other elements that an expression mentions
* `Expr.text` writes an expression
-/

namespace Stencil

/-! ## Operators -/

inductive BinaryOp where
  | add | sub | mul | div | rem | pow
  | gt | ge | lt | le
  | eq | ne
  | and | or
deriving DecidableEq, Repr

def BinaryOp.symbol : BinaryOp → String
  | .add => "+" | .sub => "-" | .mul => "*" | .div => "/" | .rem => "%" | .pow => "**"
  | .gt => ">" | .ge => ">=" | .lt => "<" | .le => "<="
  | .eq => "==" | .ne => "!="
  | .and => "&&" | .or => "||"

/-! ## Expressions -/

inductive Expr where
  /-- A keyword or a string, kept as it is. -/
  | literal (text : String)
  /-- A number with an optional unit. -/
  | dimension (value : Float) (unit : Option String)
  /-- A property, of the element that a selector addresses or of the element at hand. -/
  | property (selector : Option Selector) (name : String)
  /-- The variable `group(name)`. -/
  | var (group name : String)
  | binary (op : BinaryOp) (left right : Expr)
  /-- The expression `cond ? yes : no`. -/
  | conditional (cond yes no : Expr)
deriving DecidableEq

namespace Expr

instance : Inhabited Expr := ⟨.literal ""⟩

/-- A number without a unit. -/
def number (value : Float) : Expr := .dimension value none

/-- A number with a unit; the empty unit is none. -/
def withUnit (value : Float) (unit : String) : Expr :=
  .dimension value (if unit = "" then none else some unit)

/-- The expression and all its sub-expressions, each before its own parts. -/
def walk : Expr → List Expr
  | e@(.binary _ left right) => e :: (left.walk ++ right.walk)
  | e@(.conditional cond yes no) => e :: (cond.walk ++ yes.walk ++ no.walk)
  | e => [e]

/-- The property that an expression reads when it is nothing but a reference through a selector. -/
def reference? : Expr → Option (Selector × String)
  | .property (some selector) name => some (selector, name)
  | _ => none

/-- The properties read through a selector, in the order in which they are written. -/
def references (e : Expr) : List (Selector × String) := e.walk.filterMap reference?

/-! ## Text -/

/-- Whether an operand is written in parentheses. -/
def isCompound : Expr → Bool
  | .binary .. => true
  | .conditional .. => true
  | _ => false

/-- An expression as it is written. Operands that have operators themselves get parentheses; the
parts of a conditional do not. -/
def text : Expr → String
  | .literal t => t
  | .dimension value unit => Number.text value ++ unit.getD ""
  | .property none name => name
  | .property (some selector) name => selector.text ++ "." ++ name
  | .var group name => group ++ "(" ++ name ++ ")"
  | .binary op left right =>
    (if left.isCompound then "(" ++ left.text ++ ")" else left.text)
      ++ " " ++ op.symbol ++ " "
      ++ (if right.isCompound then "(" ++ right.text ++ ")" else right.text)
  | .conditional cond yes no => cond.text ++ " ? " ++ yes.text ++ " : " ++ no.text

end Expr

end Stencil
