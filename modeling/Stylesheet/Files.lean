import Stylesheet.Path
import Stylesheet.Text.Bytes

/-!
# Files that a run can see

`Files` holds the files below the current directory. `read` looks a path up component by
component, as a file system does: what is not there is missing, and anything else that is no
readable text is a failure.
-/

set_option autoImplicit false

namespace Stylesheet

/-- The files below the current directory, by their relative paths. -/
structure Files where
  entries : List (String × List UInt8)
deriving DecidableEq, Repr, Inhabited

namespace Files

/-- No files. -/
def empty : Files := ⟨[]⟩

/-- What reading a file gives. -/
inductive Outcome where
  | text (text : String)
  | missing
  | failed
deriving DecidableEq, Repr

/-- Where a look-up stands: in the directory or at the file with these components below the
current directory, or in a directory outside of it. -/
inductive Place where
  | inside (names : List String)
  | outside
deriving DecidableEq, Repr

/-- The names that make up the path of an entry. -/
def namesOf (path : String) : List String :=
  (Path.components path).filterMap fun
    | .name t => some t
    | _ => none

/-- The content of the file at a place. -/
def file? (fs : Files) (names : List String) : Option (List UInt8) :=
  (fs.entries.find? fun e => namesOf e.1 = names).map (·.2)

/-- Whether there is a directory at a place below the current directory, or it is that one. -/
def isDirectory (fs : Files) (names : List String) : Bool :=
  names.isEmpty || fs.entries.any fun e =>
    let entry := namesOf e.1
    entry.length > names.length && entry.take names.length = names

/-- The longest name and the longest path of a file system, in bytes. -/
def maxName : Nat := 255

/-- The longest path that is looked up, in bytes. -/
def maxPath : Nat := 4095

/-- Follows the segments of a path. Each segment but the first is looked up in a directory. -/
def follow (fs : Files) : Place → List (List Char) → Except Outcome Place
  | p, [] => .ok p
  | .outside, s :: rest =>
    if s = [] || s = ['.'] || s = ['.', '.'] then follow fs .outside rest
    else if Text.byteSize s > maxName then .error .failed
    else .error .missing
  | .inside names, s :: rest =>
    if !fs.isDirectory names then .error .failed
    else if s = [] || s = ['.'] then follow fs (.inside names) rest
    else if s = ['.', '.'] then
      follow fs (if names.isEmpty then .outside else .inside names.dropLast) rest
    else if Text.byteSize s > maxName then .error .failed
    else
      let names := names ++ [String.ofList s]
      if fs.isDirectory names || (fs.file? names).isSome then follow fs (.inside names) rest
      else .error .missing

/-- Reads the text of a file. -/
def read (fs : Files) (path : String) : Outcome :=
  let cs := path.toList
  if cs.isEmpty then .missing
  else if cs.contains '\x00' || Text.byteSize cs > maxPath then .failed
  else
    let start := if Path.isAbsolute path then Place.outside else .inside []
    match follow fs start (Path.segments cs) with
    | .error o => o
    | .ok .outside => .failed
    | .ok (.inside names) =>
      match fs.file? names with
      | none => .failed
      | some bytes => match Text.ofBytes? bytes with
        | some t => .text t
        | none => .failed

end Files

end Stylesheet
