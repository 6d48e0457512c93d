import Stylesheet.Forest.Edit
import Stylesheet.SourceMap.Builder
import Stylesheet.SourceMap.Writer

/-!
# Output

`Session.output` prints the tree of a session and writes its map: put into the text as a data URL,
next to it with a comment that names it, or not at all. What the settings leave open is decided by
the maps that the inputs of the tree came with. Comments that name earlier maps are removed from
the top level of the tree.
-/

set_option autoImplicit false

namespace Stylesheet

open Stylesheet.Text

/-- The text of a printed tree, with its map when that is not part of the text. -/
structure Output where
  css : String
  map : Option SourceMap
deriving Repr

/-- What the writing of a map depends on. -/
structure MapPlan where
  setting : MapSetting
  options : MapOptions
  naming : Naming
  /-- The maps that the inputs of the tree came with. -/
  previous : List PreviousMap

namespace Forest

/-- The inputs of a tree that came with a map, each once, in the order of the tree. -/
def mappedInputs (f : Forest) (root : NodeId) : List InputId :=
  let ids := (root :: f.descendants root).filterMap fun id => (f.source id).input
  (ids.filter fun i => ((f.input? i).bind Input.map).isSome).eraseDups

/-- Whether a node is a comment that names a map. -/
def namesMap (f : Forest) (id : NodeId) : Bool :=
  match f.data id with
  | .comment text => startsWith text "# sourceMappingURL="
  | _ => false

/-- Removes the children at the top level that name a map, the last one first. -/
def clearLinks (f : Forest) (root : NodeId) : Forest :=
  (List.range (f.children root).length).reverse.foldl (fun f index =>
    if ((f.children root)[index]?).any f.namesMap then (f.removeAt root index).2 else f) f

end Forest

namespace MapPlan

/-- The plan for the tree of a session. -/
def make (f : Forest) (root : NodeId) (o : RunOptions) : MapPlan :=
  let options := o.map.options?.getD {}
  { setting := o.map
    options
    naming := ⟨o.source, o.target, options.link, options.absolute⟩
    previous := (f.mappedInputs root).filterMap fun i => (f.input? i).bind Input.map }

/-- Whether there is a map at all. -/
def hasMap (p : MapPlan) : Bool :=
  match p.setting with
  | .disabled => false
  | .enabled _ => true
  | .auto => !p.previous.isEmpty

/-- Whether the map is put into the text. -/
def isInline (p : MapPlan) : Bool :=
  match p.options.inline with
  | some b => b
  | none => p.options.link = .auto && (p.previous.isEmpty || p.previous.any PreviousMap.inline)

/-- Whether a comment at the end of the text holds or names the map. -/
def hasLink (p : MapPlan) : Bool :=
  p.isInline ||
    match p.options.link with
    | .disabled => false
    | .path _ => true
    | .auto => p.previous.isEmpty || p.previous.any fun m => m.link.isSome

/-- Whether the map holds the texts of its sources. -/
def hasContents (p : MapPlan) : Bool :=
  match p.options.sourcesContent with
  | some b => b
  | none => p.previous.isEmpty || p.previous.any fun m => m.map.hasContent

/-- The URL of the map in its comment. -/
def url (p : MapPlan) (m : SourceMap) : String :=
  if p.isInline then
    "data:application/json;base64," ++ String.ofList (Base64.encode (toBytes m.write))
  else match p.options.link with
    | .path url => url
    | _ => p.naming.outputFile ++ ".map"

/-- Whether a text has lines that end in a carriage return and a line feed. -/
def hasCrLf : List Char → Bool
  | [] => false
  | c :: rest => (c = '\r' && rest.head? = some '\n') || hasCrLf rest

/-- The comment that holds or names the map, on a line of its own. -/
def comment (p : MapPlan) (css : String) (m : SourceMap) : String :=
  (if hasCrLf css.toList then "\r\n" else "\n") ++ "/*# sourceMappingURL=" ++ p.url m ++ " */"

end MapPlan

/-- Prints a tree and makes its map, by a plan. -/
def Forest.printMapped (f : Forest) (root : NodeId) (p : MapPlan) : String × SourceMap :=
  let fragments := f.print root
  let ms := f.mappings p.options.unmapped .start fragments
  (Fragment.concat fragments, .build f.input? p.naming p.hasContents ms)

/-- Prints a tree with its map; comments that name earlier maps are gone from the tree then. -/
def Forest.output (f : Forest) (root : NodeId) (o : RunOptions) : Output × Forest :=
  let p := MapPlan.make f root o
  let f := if p.options.link = .disabled then f else f.clearLinks root
  if !p.hasMap then (⟨f.css root, none⟩, f)
  else
    let (css, m) := f.printMapped root p
    let css := if p.hasLink then css ++ p.comment css m else css
    (⟨css, if p.isInline then none else some m⟩, f)

/-- Prints the tree of a session. -/
def Session.output (s : Session) (f : Forest) : Output × Forest := f.output s.root s.options

end Stylesheet
