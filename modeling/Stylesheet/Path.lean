import Stylesheet.Text.Cut
import Stylesheet.Text.Percent

/-!
# File paths

A path is a text in which slashes separate components. `components` is what a path means: empty
components and dots are dropped, except a dot that a relative path starts with. `parent` and
`fileName` cut off the last component, `join` appends a path, `relativeTo` finds the way from one
directory to a path, and `fileUrl` writes a path as a URL.
-/

set_option autoImplicit false

namespace Stylesheet

namespace Path

open Stylesheet.Text

/-- A component of a path. -/
inductive Component where
  | root
  | here
  | up
  | name (text : String)
deriving DecidableEq, Repr

/-- The text of a component. -/
def Component.text : Component → String
  | root => "/"
  | here => "."
  | up => ".."
  | name t => t

/-- The texts between the slashes of a path. -/
def segments (cs : List Char) : List (List Char) := parts '/' cs

/-- The component of a segment; empty segments and dots are none. -/
def ofSegment? (s : List Char) : Option Component :=
  if s = [] || s = ['.'] then none
  else if s = ['.', '.'] then some .up
  else some (.name (String.ofList s))

/-- Whether a path starts at the root directory. -/
def isAbsolute (path : String) : Bool := path.toList.head? = some '/'

/-- Whether the path is relative and starts with the component `.`. -/
def startsHere (cs : List Char) : Bool :=
  match cs with
  | ['.'] => true
  | '.' :: '/' :: _ => true
  | _ => false

/-- The components of a path. -/
def components (path : String) : List Component :=
  let cs := path.toList
  let front := if isAbsolute path then [.root] else if startsHere cs then [.here] else []
  front ++ (segments cs).filterMap ofSegment?

/-! ## The last component -/

/-- The number of characters before the components that can be cut off: the slash of an absolute
path or the dot that a relative one starts with. -/
def frontLength (cs : List Char) : Nat :=
  if cs.head? = some '/' || startsHere cs then 1 else 0

/-- Whether a text has its last component at the end: what stands behind the last slash is
neither empty nor a dot. -/
def lastSegment (reversed : List Char) : List Char × List Char :=
  let (s, before) := reversed.span (· ≠ '/')
  (s.reverse, before.drop 1)

/-- Drops the empty segments and dots at the end of the reversed text `body`. -/
def trimBody (fuel : Nat) (body : List Char) : List Char :=
  match fuel with
  | 0 => body
  | fuel + 1 =>
    if body.isEmpty then []
    else
      let (s, before) := lastSegment body
      if (ofSegment? s).isNone then trimBody fuel before else body

/-- Cuts a path into its front and the rest, reversed, without empty segments and dots at its
end. -/
def frontAndBody (path : String) : List Char × List Char :=
  let cs := path.toList
  let n := frontLength cs
  (cs.take n, trimBody cs.length (cs.drop n).reverse)

/-- The path without its last component; `none` when there is none to cut off. -/
def parent? (path : String) : Option String :=
  let (front, body) := frontAndBody path
  if !body.isEmpty then
    let before := (lastSegment body).2
    some (String.ofList (front ++ (trimBody before.length before).reverse))
  else if front = ['.'] then some ""
  else none

/-- The last component if it is a name. -/
def fileName? (path : String) : Option String :=
  let (_, body) := frontAndBody path
  if body.isEmpty then none
  else match ofSegment? (lastSegment body).1 with
    | some (.name t) => some t
    | _ => none

/-! ## Joining and comparing -/

/-- Appends `path` to `base`; an absolute path replaces it. -/
def join (base path : String) : String :=
  if isAbsolute path then path
  else if base = "" || base.toList.getLast? = some '/' then base ++ path
  else base ++ "/" ++ path

/-- The path of components. -/
def ofComponents (cs : List Component) : String := cs.foldl (fun p c => join p c.text) ""

/-- The way from the components `base` to the components `path`; `diverged` says whether they
have differed before. -/
def way : (diverged : Bool) → (path base : List Component) → Option (List Component)
  | _, path, [] => some path
  | _, [], _ :: base => (way true [] base).map (.up :: ·)
  | diverged, p :: path, b :: base =>
    if !diverged && p = b then way false path base
    else if b = .here then (way true path base).map (p :: ·)
    else if b = .up then none
    else some (List.replicate (base.length + 1) .up ++ p :: path)

/-- `path` seen from the directory `base`; `none` when that is unknown. -/
def relativeTo (path base : String) : Option String :=
  if isAbsolute path != isAbsolute base then
    if isAbsolute path then some path else none
  else (way false (components path) (components base)).map ofComponents

/-- The `file` URL of a path, where a relative one starts at the root directory. The empty path
has none. -/
def fileUrl? (path : String) : Option String :=
  if path = "" then none
  else
    let parts := (components path).filterMap fun
      | .up => some ".."
      | .name t => some t
      | _ => none
    let text := String.join (parts.map fun p => "/" ++ Percent.encode Percent.inFileUrl p)
    some ("file://" ++ if parts.isEmpty then "/" else text)

end Path

end Stylesheet
