import Stylesheet.ListValue
import Stylesheet.Printer.Detect
import Stylesheet.Text.Cut

/-!
# Lists of selectors

The selector of a rule is a list separated by commas: `selectors` reads it and `setSelectors`
writes it in the manner of the selector that was there before.
-/

set_option autoImplicit false

namespace Stylesheet.Forest

open Stylesheet.Text

/-- The selectors of a rule. -/
def selectors (f : Forest) (id : NodeId) : List String := ListValue.comma (f.data id).selector

/-- What stands between the selectors of a rule: its first comma and the blanks behind it. For a
selector without a comma the blanks are those before an opening brace. -/
def selectorSeparator (f : Forest) (id : NodeId) : String :=
  match (f.data id).selector.toList.dropWhile (· ≠ ',') with
  | _ :: rest => "," ++ String.ofList (rest.takeWhile isBlank)
  | [] => "," ++ (f.resolve id "between" .beforeOpen).toText

/-- Sets the selectors of a rule. -/
def setSelectors (f : Forest) (id : NodeId) (new : List String) : Forest :=
  f.modifyData id (·.setSelector ((f.selectorSeparator id).intercalate new))

/-- Whether a node is a declaration of a variable, whose property starts with two dashes. -/
def isVariable (f : Forest) (id : NodeId) : Bool := startsWith (f.data id).prop "--"

end Stylesheet.Forest
