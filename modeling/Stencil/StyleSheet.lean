import Stencil.OrderedMap

/-!
# Styles as text

What is left in the end: the properties of each element, and rules for the style sheet, all of them
with their values as text.
-/

namespace Stencil

/-- Properties with their values as text, in order. -/
abbrev PropertyTexts := OrderedMap String String

/-- The properties of the styled elements, by primary name. -/
abbrev StyleMap := OrderedMap String PropertyTexts

/-- A property as it is written. -/
def declaration (name value : String) : String := name ++ ": " ++ value ++ ";"

/-- Properties as they are written in a `style` attribute. -/
def PropertyTexts.inlineText (properties : PropertyTexts) : String :=
  " ".intercalate (properties.entries.map fun (name, value) => declaration name value)

namespace StyleMap

/-- One property of one element. -/
def property? (styles : StyleMap) (selector name : String) : Option String :=
  (styles.get? selector).bind (·.get? name)

/-- The style of an element as it is written in a `style` attribute. -/
def inlineText? (styles : StyleMap) (selector : String) : Option String :=
  (styles.get? selector).map PropertyTexts.inlineText

end StyleMap

/-- A rule of the style sheet. -/
structure SheetRule where
  selector : String
  properties : PropertyTexts

/-- A rule as it is written, on one line. -/
def SheetRule.text (rule : SheetRule) : String :=
  let body := rule.properties.entries.map fun (name, value) => " " ++ declaration name value
  rule.selector ++ " \x7b" ++ String.join body ++ " \x7d"

/-- A style sheet, one rule to a line. -/
def sheetText (rules : List SheetRule) : String := "\n".intercalate (rules.map SheetRule.text)

end Stencil
