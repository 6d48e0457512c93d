import Stylesheet.Files
import Stylesheet.Text.Base64
import Stylesheet.Text.Blank
import Stylesheet.Text.Cut
import Stylesheet.SourceMap.Reader
import Stylesheet.SourceMap.Settings
import Stylesheet.Json.Writer

/-!
# Maps that inputs come with

A stylesheet that is itself the output of an earlier run may come with a map: one that is given in
the settings, or one that a comment at its end names or holds. `MapLink.find` finds the comment,
`PreviousMap.discover` the map.
-/

set_option autoImplicit false

namespace Stylesheet

open Stylesheet.Text

/-! ## Link comments -/

namespace MapLink

/-- What follows the opening of a link comment: `/*`, `#` and `sourceMappingURL=`, with
blanks around the `#`. -/
def opening? (cs : List Char) : Option (List Char) := do
  let cs ← after? "/*".toList cs
  let cs ← after? ['#'] (cs.dropWhile isBlank)
  after? "sourceMappingURL=".toList (cs.dropWhile isBlank)

/-- What follows the last opening of a link comment. -/
def lastOpening? : List Char → Option (List Char)
  | [] => none
  | c :: rest =>
    match lastOpening? rest with
    | some cs => some cs
    | none => opening? (c :: rest)

/-- The characters before the end of a comment; `none` when it has no end. -/
def commentText? : List Char → Option (List Char)
  | [] => none
  | c :: rest =>
    if c = '*' && rest.head? = some '/' then some []
    else (commentText? rest).map (c :: ·)

/-- The URL of the last link comment of a text. -/
def find (text : String) : Option String := do
  let cs ← lastOpening? text.toList
  let url ← commentText? cs
  return String.ofList (trimChars url)

end MapLink

/-! ## The map -/

/-- Why the map of an input cannot be used. -/
inductive PreviousMapError where
  /-- The file at `path` is there but cannot be read as text. -/
  | unreadable (path : String)
  /-- The data URL has an encoding that is not known. -/
  | encoding (name : String)
  /-- The data URL holds no text. -/
  | undecodable
  /-- The text is no source map. -/
  | invalid
deriving DecidableEq, Repr

/-- The wording of the error. What is wrong with undecodable data is left to the decoder. -/
def PreviousMapError.message : PreviousMapError → String
  | unreadable path => "Unable to load previous source map " ++ path
  | encoding name => "Unsupported source map encoding " ++ name
  | undecodable => "Unable to decode inline source map"
  | invalid => "Invalid previous source map"

/-- A source map that an input came with. -/
structure PreviousMap where
  text : String
  /-- The file of the map, or of the stylesheet when the map is not from a file. -/
  file : Option String
  /-- The directory that the sources of the map are relative to. -/
  root : Option String
  /-- The URL of the link comment. -/
  link : Option String
  inline : Bool
  map : SourceMap
deriving Repr

namespace PreviousMap

/-- The start of every data URL that can hold a map. -/
def dataStart : List Char := "data:application/json".toList

/-- Drops the character set of a data URL. -/
def afterCharset (cs : List Char) : List Char :=
  match after? ";charset=utf".toList cs with
  | some rest => (after? ['-', '8'] rest).getD ((after? ['8'] rest).getD cs)
  | none => cs

/-- The payload of a data URL and whether it is in base64; `none` when its form is not known. -/
def payload? (url : List Char) : Option (Bool × List Char) := do
  let cs ← after? dataStart url
  let cs := afterCharset cs
  match after? ";base64,".toList cs with
  | some rest => return (true, rest)
  | none =>
    let rest ← after? [','] cs
    return (false, rest)

/-- What a data URL of an unknown form is called: the part up to the comma that follows its media
type, else its first 40 characters. -/
def encodingName (url : List Char) : String :=
  let named := do
    let cs ← after? (dataStart ++ [';']) url
    let (name, rest) := cs.span (· ≠ ',')
    if name.isEmpty || rest.isEmpty then none else some name
  String.ofList (named.getD (url.take 40))

/-- The text that a data URL holds. -/
def decodeInline (url : String) : Except PreviousMapError String :=
  match payload? url.toList with
  | none => .error (.encoding (encodingName url.toList))
  | some (true, data) =>
    match (Base64.decode? (trimChars data)).bind ofBytes? with
    | some text => .ok text
    | none => .error .undecodable
  | some (false, data) =>
    match Percent.decode? (String.ofList data) with
    | some text => .ok text
    | none => .error .undecodable

/-- The path of the map file that a link names, seen from the stylesheet. -/
def mapPath (source : Option String) (link : String) : String :=
  match source.bind Path.parent? with
  | some dir => Path.join dir link
  | none => link

/-- The text of the map that a link holds or names, with the path of its file. -/
def linked (files : Files) (source : Option String) (link : String) :
    Except PreviousMapError (Option (String × Option String)) :=
  if startsWith link "data:" then
    (decodeInline link).map fun text => some (text, none)
  else
    let path := mapPath source link
    match files.read path with
    | .text t => .ok (some (trim t, some path))
    | .missing => .ok none
    | .failed => .error (.unreadable path)

/-- The text of the map of a stylesheet, with the path of its file if it is from one. -/
def locate (files : Files) (link source : Option String) (setting : MapSetting) :
    Except PreviousMapError (Option (String × Option String)) :=
  match setting.options?.bind (·.previous) with
  | some .disabled => .ok none
  | some (.text t) => .ok (some (t, none))
  | some (.json j) => .ok (some (j.canonical.compress, none))
  | none =>
    match link with
    | some a => linked files source a
    | none => .ok none

/-- The map that the stylesheet `text`, read from `source`, came with. -/
def discover (files : Files) (text : String) (source : Option String) (setting : MapSetting) :
    Except PreviousMapError (Option PreviousMap) := do
  if setting.isDisabled then return none
  let link := MapLink.find text
  match ← locate files link source setting with
  | none => return none
  | some (json, mapFile) =>
    let file := mapFile.orElse fun _ => source
    match SourceMap.parse? json with
    | none => throw .invalid
    | some map =>
      return some {
        text := json
        file
        root := file.bind Path.parent?
        link
        inline := link.any (startsWith · "data:")
        map }

end PreviousMap

end Stylesheet
