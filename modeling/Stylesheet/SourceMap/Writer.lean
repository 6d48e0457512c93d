import Stylesheet.Json.Writer
import Stylesheet.SourceMap
import Stylesheet.SourceMap.Vlq

/-!
# Writing source maps

`SourceMap.write` gives the JSON text of a map. Tokens are written as differences to the token
before them, lines end with `;` and tokens within a line are separated by `,`. A token that
repeats the one before it in the same line is not written.
-/

set_option autoImplicit false

namespace Stylesheet.SourceMap

namespace Writer

/-- The numbers that the next token is written relative to. -/
structure Running where
  line : Nat
  col : Nat
  source : Nat
  srcLine : Nat
  srcCol : Nat
  name : Nat
deriving Repr

/-- A number relative to the one before. -/
def difference (n before : Nat) : List Char := Vlq.encode ((n : Int) - before)

/-- The digits of a token, and the numbers for the next one. -/
def segment (run : Running) (t : MapToken) : List Char × Running :=
  let run' := { run with line := t.dstLine, col := t.dstCol }
  match t.source with
  | none => (difference t.dstCol run.col, run')
  | some source =>
    let place := difference t.dstCol run.col ++ difference source run.source ++
      difference t.srcLine run.srcLine ++ difference t.srcCol run.srcCol
    let run' := { run' with source, srcLine := t.srcLine, srcCol := t.srcCol }
    match t.name with
    | none => (place, run')
    | some name => (place ++ difference name run.name, { run' with name })

/-- The tokens behind the token `before`. -/
def tokens (before : Option MapToken) (run : Running) : List MapToken → List Char
  | [] => []
  | t :: rest =>
    if t.dstLine ≠ run.line then
      let (digits, run') := segment { run with col := 0 } t
      List.replicate (t.dstLine - run.line) ';' ++ digits ++ tokens (some t) run' rest
    else if before = some t then tokens (some t) run rest
    else
      let (digits, run') := segment run t
      (if before.isSome then [','] else []) ++ digits ++ tokens (some t) run' rest

end Writer

/-- The text of the mappings. -/
def mappings (m : SourceMap) : String :=
  String.ofList (Writer.tokens none ⟨0, 0, 0, 0, 0, 0⟩ m.tokens)

/-- The map as a JSON document; the texts of sources only when one is known. -/
def toJson (m : SourceMap) : Json :=
  let text (s : Option String) : Json := match s with
    | some s => .str s
    | none => .null
  let file := match m.file with
    | some f => [("file", Json.str f)]
    | none => []
  let contents :=
    if m.contents.any Option.isSome then [("sourcesContent", Json.arr (m.contents.map text))]
    else []
  .obj ([("version", .int 3)] ++ file ++ [("sources", .arr (m.sources.map .str))] ++ contents ++
    [("names", .arr (m.names.map .str)), ("mappings", .str m.mappings)])

/-- The JSON text of the map. -/
def write (m : SourceMap) : String := m.toJson.compress

end Stylesheet.SourceMap
