import Stylesheet.SourceError
import Stylesheet.SourceMap.Previous
import Stylesheet.Text.Digest

/-!
# Inputs

An `Input` is a stylesheet text with the name it is reported under and the source map it came
with. Inputs without a file are named for their content.
-/

set_option autoImplicit false

namespace Stylesheet

open Stylesheet.Text

/-- A stylesheet text, shared by the nodes that are read from it. -/
structure Input where
  text : String
  /-- The path of the stylesheet, when it is known. -/
  file : Option String
  /-- A name that depends on the text alone. -/
  id : String
  /-- Whether a byte order mark stood before the text. -/
  hasBom : Bool
  map : Option PreviousMap
deriving Repr

namespace Input

/-- A byte order mark, in either order of bytes. -/
def isBom (c : Char) : Bool := c = '\ufeff' || c = '\ufffe'

/-- The text without a byte order mark at its start, and whether there was one. -/
def dropBom (text : String) : String × Bool :=
  match text.toList with
  | c :: rest => if isBom c then (String.ofList rest, true) else (text, false)
  | [] => (text, false)

/-- The input for a text; it fails when the map that it came with cannot be used. -/
def make (files : Files) (text : String) (file : Option String) (setting : MapSetting) :
    Except PreviousMapError Input := do
  let (text, hasBom) := dropBom text
  let map ← PreviousMap.discover files text file setting
  return { text, file, id := "<input css " ++ Digest.ofText text ++ ">", hasBom, map }

/-- The path of the stylesheet, else its id. -/
def name (i : Input) : String := i.file.getD i.id

/-- The directory of the stylesheet. -/
def directory (i : Input) : Option String := i.file.bind Path.parent?

/-- The position of a byte offset. -/
def position (i : Input) (offset : Nat) : Position := Position.ofOffset i.text.toList offset

/-- The byte offset of a line and column. -/
def offsetOf (i : Input) (line column : Nat) : Nat := Stylesheet.offsetOf i.text.toList line column

/-- An error at a range of the input. -/
def errorAt (i : Input) (reason : String) (start : Position) (stop : Option Position) :
    SourceError where
  reason := reason
  plugin := none
  file := some i.name
  line := some start.line
  column := some start.column
  endLine := stop.map (·.line)
  endColumn := stop.map (·.column)
  text := some i.text

/-- An error at a range of byte offsets. -/
def error (i : Input) (reason : String) (start : Nat) (stop : Option Nat) : SourceError :=
  i.errorAt reason (i.position start) (stop.map i.position)

end Input

end Stylesheet
