import Stencil.Text.Blank
import Stencil.Text.Name

/-!
# Selectors

A selector addresses elements by id (`#box`), class (`.card`) or tag (`div`), and may pick one of the
matches by position (`li[2]`, counted from zero).

* `Selector.text` writes a selector
* `Selector.read` reads one
-/

namespace Stencil

/-! ## Type and text -/

/-- What a selector looks at. -/
inductive Target where
  | id (name : String)
  | className (name : String)
  | tag (name : String)
deriving DecidableEq, Repr

/-- A target, and the position of one of its matches. -/
structure Selector where
  target : Target
  index : Option UInt64 := none
deriving DecidableEq, Repr

/-- A target as it is written. -/
def Target.text : Target → String
  | .id name => "#" ++ name
  | .className name => "." ++ name
  | .tag name => name

namespace Selector

/-- The text of an index: its number in brackets. -/
def indexText (n : Nat) : String := "[" ++ String.ofList (Text.digits n) ++ "]"

/-- A selector as it is written. -/
def text (s : Selector) : String :=
  s.target.text ++ match s.index with
    | none => ""
    | some n => indexText n.toNat

end Selector

/-! ## Reading -/

/-- Why a text is no selector. -/
inductive SelectorError where
  | empty
  | invalid (trimmed : String)
deriving DecidableEq, Repr

def SelectorError.message : SelectorError → String
  | .empty => "empty selector"
  | .invalid trimmed => "invalid selector '" ++ trimmed ++ "'"

namespace Selector

/-- Splits off a trailing `[…]`, at the last opening bracket. A text that ends in `]` and has no
opening bracket does not split. -/
def splitIndex (cs : List Char) : Option (List Char × Option (List Char)) :=
  match cs.reverse with
  | ']' :: before =>
    match before.dropWhile (· != '[') with
    | '[' :: body => some (body.reverse, some (before.takeWhile (· != '[')).reverse)
    | _ => none
  | _ => some (cs, none)

/-- Reads `#name`, `.name` or `name`. -/
def readTarget (cs : List Char) : Option Target :=
  let name? (cs : List Char) : Option String :=
    if cs ≠ [] ∧ cs.all Text.isNameChar then some (String.ofList cs) else none
  match cs with
  | '#' :: rest => (name? rest).map .id
  | '.' :: rest => (name? rest).map .className
  | _ => (name? cs).map fun name => .tag (Text.lower name)

/-- Reads a selector without blanks around it. -/
def readTrimmed (cs : List Char) : Option Selector := do
  let (body, inside) ← splitIndex cs
  let index ← match inside with
    | none => some none
    | some digits => (Text.readIndex (Text.trim digits)).map some
  let target ← readTarget body
  pure { target, index }

/-- Reads a selector. Blanks around it and inside the brackets are dropped. -/
def read (s : String) : Except SelectorError Selector :=
  let cs := Text.trim s.toList
  if cs = [] then .error .empty
  else match readTrimmed cs with
    | some sel => .ok sel
    | none => .error (.invalid (String.ofList cs))

end Selector

end Stencil
