import Stylesheet.Position
import Stylesheet.Text.Cut

/-!
# Errors in stylesheet text

A `SourceError` is a problem with a place: text that the parser refuses, or a complaint about a
node. `message` is its one line form, `Snippet` its rendering with the lines around the place, and
`describe` both together.
-/

set_option autoImplicit false

namespace Stylesheet

/-- A problem in stylesheet text. What is not known about its place is `none`. -/
structure SourceError where
  reason : String
  plugin : Option String
  file : Option String
  line : Option Nat
  column : Option Nat
  endLine : Option Nat
  endColumn : Option Nat
  /-- The text that the problem is in, kept to show the lines around it. -/
  text : Option String
deriving DecidableEq, Repr, Inhabited

namespace SourceError

/-- A problem without a place. -/
def unlocated (reason : String) : SourceError :=
  ⟨reason, none, none, none, none, none, none, none⟩

/-- `plugin: file:line:column: reason`, without what is unknown. -/
def message (e : SourceError) : String :=
  let plugin := match e.plugin with
    | some p => p ++ ": "
    | none => ""
  let place := match e.line, e.column with
    | some line, some column => ":" ++ toString line ++ ":" ++ toString column
    | _, _ => ""
  plugin ++ e.file.getD "<css input>" ++ place ++ ": " ++ e.reason

end SourceError

/-! ## The lines around a place -/

namespace Snippet

/-- How many lines are shown above and below the reported one. -/
def context : Nat := 2

/-- Whether marks and gutters are wrapped in terminal colours. -/
inductive Style where
  | plain
  | color
deriving DecidableEq, Repr

/-- The text of a mark: the pointer at the reported line, or the carets. -/
def Style.mark : Style → String → String
  | .plain, t => t
  | .color, t => "\x1b[1;31m" ++ t ++ "\x1b[0m"

/-- The text of a gutter. -/
def Style.aside : Style → String → String
  | .plain, t => t
  | .color, t => "\x1b[90m" ++ t ++ "\x1b[0m"

/-- The lines of a text, without the carriage returns at their ends. -/
def lines (text : String) : List (List Char) :=
  (Text.parts '\n' text.toList).map fun l => (l.reverse.dropWhile (· = '\r')).reverse

/-- The gutter of a line: its number, right-aligned in `width` columns. -/
def gutter (width number : Nat) : String :=
  let digits := toString number
  " " ++ String.ofList (List.replicate (width - digits.length) ' ') ++ digits ++ " | "

/-- The gutter below a line: the same with blanks for its digits. -/
def blankGutter (width number : Nat) : String :=
  String.ofList ((gutter width number).toList.map fun c => if c.isDigit then ' ' else c)

/-- What stands above a caret at `column`: a tab for each tab of the line and a space for each
other character. -/
def padding (line : List Char) (column : Nat) : String :=
  String.ofList ((line.take (column - 1)).map fun c => if c = '\t' then '\t' else ' ')

/-- The place that a snippet points at: a line, a column, and how many carets stand below it. -/
structure Target where
  line : Nat
  column : Nat
  carets : Nat
deriving DecidableEq, Repr

/-- One line of the snippet, with the row of carets below it if it is the reported one. -/
def row (style : Style) (target : Target) (width number : Nat) (line : List Char) : String :=
  if number = target.line then
    style.mark ">" ++ style.aside (gutter width number) ++ String.ofList line ++ "\n " ++
      style.aside (blankGutter width number) ++ padding line target.column ++
      style.mark (String.ofList (List.replicate target.carets '^'))
  else
    " " ++ style.aside (gutter width number) ++ String.ofList line

/-- The lines from two above the reported line to two below it, as far as they exist. -/
def render (style : Style) (target : Target) (text : String) : String :=
  let all := lines text
  let first := target.line - (context + 1)
  let last := min (target.line + context) all.length
  let shown := (all.take last).drop first
  let width := (toString last).length
  "\n".intercalate <|
    (shown.zipIdx (first + 1)).map fun (line, number) => row style target width number line

end Snippet

namespace SourceError

/-- Where the snippet of an error points: one caret, or one for each character of a range that
ends in the same line. -/
def target (e : SourceError) (line : Nat) : Snippet.Target :=
  let column := max (e.column.getD 1) 1
  let carets := match e.endLine, e.endColumn with
    | some endLine, some endColumn =>
      if endLine = line ∧ endColumn > column then endColumn - column else 1
    | _, _ => 1
  ⟨line, column, carets⟩

/-- The lines around the error; nothing when the text or the line is unknown. -/
def snippet (e : SourceError) (style : Snippet.Style) : String :=
  match e.text, e.line with
  | some text, some line => Snippet.render style (e.target line) text
  | _, _ => ""

/-- The message followed by the snippet. -/
def describe (e : SourceError) : String :=
  let code := e.snippet .plain
  "CssSyntaxError: " ++ e.message ++ if code = "" then "" else "\n\n" ++ code ++ "\n"

end SourceError

end Stylesheet
