import Stylesheet.Path
import Stylesheet.Config
import Stylesheet.Text.WordChar

/-!
# Names in a map

Sources are named relative to the directory that the map is written to. `Naming` knows where the
output goes; `outputFile` names the output, `sourceName` a source, and `previousSourceName` a
source of the map of an input, which is relative to that map.
-/

set_option autoImplicit false

namespace Stylesheet

open Stylesheet.Text

/-- What names depend on. -/
structure Naming where
  source : Option String
  target : Option String
  link : LinkSetting
  absolute : Bool
deriving Repr

namespace Naming

/-- Whether a text is a URL: a word, a colon and two slashes at its start. -/
def isUrl (s : String) : Bool :=
  let rest := s.toList.dropWhile isWordChar
  rest.length < s.toList.length && (after? "://".toList rest).isSome

/-- A path with slashes for backslashes. -/
def withSlashes (path : String) : String :=
  String.ofList (path.toList.map fun c => if c = '\\' then '/' else c)

/-- A path as a relative URL. -/
def toUrl (path : String) : String := Percent.encode Percent.inUrl (withSlashes path)

/-- Whether a name is that of a text without a file. -/
def isAnonymous (name : String) : Bool := startsWith name "<"

/-- The directory of the output, or of the map if it goes elsewhere. -/
def baseDirectory (n : Naming) : String :=
  let dir := (n.target.bind Path.parent?).getD ""
  match n.link with
  | .path url => (Path.parent? (Path.join dir url)).getD dir
  | _ => dir

/-- A path seen from the map. URLs and names of texts without a file stay as they are, and so do
all paths where absolute ones are wanted. -/
def relative (n : Naming) (path : String) : String :=
  if n.absolute || isAnonymous path || isUrl path then path
  else
    let base := n.baseDirectory
    if base = "" then path else (Path.relativeTo path base).getD path

/-- The name of the output. -/
def outputFile (n : Naming) : String :=
  match n.target with
  | some target => (Path.fileName? target).getD target
  | none =>
    match n.source with
    | some source => toUrl (n.relative source)
    | none => "to.css"

/-- The name of an input as a source. -/
def sourceName (n : Naming) (name : String) : String :=
  let url := if n.absolute && !isAnonymous name then Path.fileUrl? name else none
  url.getD (toUrl (n.relative name))

/-- The name of a source of an earlier map, which is relative to the directory `root`. -/
def previousSourceName (n : Naming) (root : Option String) (source : String) : String :=
  if isAnonymous source || isUrl source then source
  else
    let path := match root with
      | some dir => Path.join dir source
      | none => source
    let url := if n.absolute then Path.fileUrl? path else none
    url.getD (withSlashes (n.relative path))

end Naming

end Stylesheet
