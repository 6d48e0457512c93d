import Stylesheet.Json.Reader
import Stylesheet.SourceMap
import Stylesheet.SourceMap.Vlq
import Stylesheet.Text.Cut

/-!
# Reading source maps

`SourceMap.parse?` reads the JSON form of a source map. Every field may be missing, a field that
is not known is passed over if it has a value at all, and a field of the wrong kind makes the map
unreadable. The mappings are decoded with running numbers of 32 bits, and every index must exist.
-/

set_option autoImplicit false

namespace Stylesheet.SourceMap

open Stylesheet.Text

namespace Reader

/-! ## Mappings -/

/-- A running number of 32 bits moved by a difference. -/
def move (n : Nat) (d : Int) : Nat := ((n + d) % UInt32.size).toNat

/-- The numbers that run on over all segments. -/
structure Running where
  source : Nat
  srcLine : Nat
  srcCol : Nat
  name : Nat
deriving Repr

/-- How many sources and names there are to refer to. -/
structure Bounds where
  sources : Nat
  names : Nat
deriving Repr

/-- The token of the numbers of a segment: a column alone, or with a source and a place in it, or
with a name as well. A token without a source has no place in one. -/
def token (bounds : Bounds) (run : Running) (line col : Nat) (range : Bool) :
    List Int → Option (Running × MapToken)
  | [_] => some (run, ⟨line, col, none, MapToken.maxIndex, MapToken.maxIndex, none, range⟩)
  | _ :: s :: l :: c :: more => do
    let source := move run.source s
    let srcLine := move run.srcLine l
    let srcCol := move run.srcCol c
    if bounds.sources ≤ source then none
    match more with
    | [] =>
      return (⟨source, srcLine, srcCol, run.name⟩,
        ⟨line, col, some source, srcLine, srcCol, none, range⟩)
    | [n] =>
      let name := move run.name n
      if bounds.names ≤ name then none
      return (⟨source, srcLine, srcCol, name⟩,
        ⟨line, col, some source, srcLine, srcCol, some name, range⟩)
    | _ => none
  | _ => none

/-- The tokens of the segments of a line, from column `col` on. Empty segments are passed over;
`ranges` says for each segment whether it is a range. -/
def lineTokens (bounds : Bounds) (line : Nat) :
    Running → (col : Nat) → (ranges : List Bool) → List (List Char) →
      Option (Running × List MapToken)
  | run, _, _, [] => some (run, [])
  | run, col, ranges, [] :: rest => lineTokens bounds line run col ranges.tail rest
  | run, col, ranges, segment :: rest => do
    match Vlq.decodeSegment segment with
    | .error _ => none
    | .ok numbers =>
      let col := move col (numbers.headD 0)
      let (run, t) ← token bounds run line col (ranges.headD false) numbers
      let (run, ts) ← lineTokens bounds line run col ranges.tail rest
      return (run, t :: ts)

/-- The six bits of a digit, the lowest first. -/
def bits (n : Nat) : List Bool := (List.range 6).map fun i => n.testBit i

/-- Which segments of a line are ranges. -/
def rangeBits (cs : List Char) : Option (List Bool) := do
  let values ← cs.mapM Base64.value?
  return values.flatMap bits

/-- The tokens of all lines. -/
def mappingTokens (bounds : Bounds) :
    Running → (line : Nat) → (ranges : List (List Char)) → List (List Char) →
      Option (List MapToken)
  | _, _, _, [] => some []
  | run, line, ranges, [] :: rest => mappingTokens bounds run (line + 1) ranges.tail rest
  | run, line, ranges, text :: rest => do
    let flags ← rangeBits (ranges.headD [])
    let (run, ts) ← lineTokens bounds line run 0 flags (parts ',' text)
    let more ← mappingTokens bounds run (line + 1) ranges.tail rest
    return ts ++ more

/-! ## Fields -/

/-- A field that may be missing or null; `read` reads its value. The outer `none` is a field of
the wrong kind, or one that is repeated. -/
def field? {α : Type} (members : List (String × Json)) (name : String) (read : Json → Option α) :
    Option (Option α) :=
  match Json.valuesOf name members with
  | [] => some none
  | [.null] => some none
  | [j] => (read j).map some
  | _ => none

/-- A text. -/
def text? : Json → Option String
  | .str s => some s
  | _ => none

/-- A text or null. -/
def textOrNull? : Json → Option (Option String)
  | .str s => some (some s)
  | .null => some none
  | _ => none

/-- A natural number of 32 bits. -/
def word? : Json → Option Nat
  | .int i => if 0 ≤ i ∧ i < UInt32.size then some i.toNat else none
  | _ => none

/-- A natural number of 32 bits, or null. -/
def wordOrNull? : Json → Option (Option Nat)
  | .null => some none
  | j => (word? j).map some

/-- A list of what `read` reads. -/
def list? {α : Type} (read : Json → Option α) : Json → Option (List α)
  | .arr items => items.mapM read
  | _ => none

/-- The name that an entry of the list of names gives: a number is its text, and what is neither
a text nor a number is empty. -/
def nameText : Json → String
  | .str s => s
  | .int i => toString i
  | .decimal d => d.text
  | _ => ""

/-- Whether there are hexadecimal digits only. -/
def isHex (cs : List Char) : Bool := cs.all fun c => (Json.Reader.hexDigit? c).isSome

/-- Whether the text is a number of 32 bits in hexadecimal digits; a plus may stand before it. -/
def isHexWord (cs : List Char) : Bool :=
  let ds := if cs.head? = some '+' then cs.tail else cs
  !ds.isEmpty && isHex ds && (ds.dropWhile (· = '0')).length ≤ 8

/-- Whether the text is an identifier for debuggers in its short form, a time and an age. -/
def isShortDebugId (cs : List Char) : Bool :=
  let hyphens := if cs[8]? = some '-' then 1 else 0
  9 + hyphens ≤ cs.length && cs.length ≤ 16 + hyphens && isHexWord (cs.take 8) &&
    isHexWord (cs.drop (8 + hyphens))

/-- Whether the text is an identifier for debuggers in its long form: 32 hexadecimal digits and an
age, of which eight characters are read. In the form with hyphens the digits stand in groups and
the age has one before it. The age may be missing. -/
def isLongDebugId (cs : List Char) : Bool :=
  if cs[8]? = some '-' then
    let groups := parts '-' (cs.take 36)
    let rest := cs.drop 36
    groups.map List.length = [8, 4, 4, 4, 12] && groups.all isHex &&
      (rest.isEmpty || (rest.head? = some '-' && isHexWord (rest.tail.take 8)))
  else
    let rest := cs.drop 32
    (cs.take 32).length = 32 && isHex (cs.take 32) &&
      (rest.isEmpty || (rest.head? ≠ some '-' && isHexWord (rest.take 8)))

/-- An identifier for debuggers, in ASCII. -/
def debugId? : Json → Option Unit
  | .str s =>
    let cs := s.toList
    if cs.all (·.toNat < 128) && (isShortDebugId cs || isLongDebugId cs) then some () else none
  | _ => none

/-- A source with the source root before it, unless it is a path from the root or a web address. -/
def withRoot (root source : String) : String :=
  let rootChars := root.toList
  let root := if rootChars.getLast? = some '/' then String.ofList rootChars.dropLast else root
  if startsWith source "/" || startsWith source "http:" || startsWith source "https:" then source
  else root ++ "/" ++ source

/-- The map that the members of an object describe. -/
def ofMembers? (ms : List (String × Json)) : Option SourceMap := do
  let _ ← field? ms "version" word?
  let file ← field? ms "file" some
  let sources ← field? ms "sources" (list? textOrNull?)
  let root ← field? ms "sourceRoot" text?
  let contents ← field? ms "sourcesContent" (list? textOrNull?)
  -- a map in sections, or one with scopes of functions, is of another kind
  let _ ← field? ms "sections" (fun _ => (none : Option Unit))
  let _ ← field? ms "x_facebook_sources" (fun _ => (none : Option Unit))
  let names ← field? ms "names" (list? some)
  let ranges ← field? ms "rangeMappings" text?
  let mappings ← field? ms "mappings" text?
  let _ ← field? ms "ignoreList" (list? word?)
  let _ ← field? ms "x_facebook_offsets" (list? wordOrNull?)
  let _ ← field? ms "x_metro_module_paths" (list? text?)
  let _ ← field? ms "debug_id" debugId?
  let _ ← field? ms "debugId" debugId?
  let sources := (sources.getD []).map (·.getD "")
  let names := names.getD []
  let tokens ← mappingTokens ⟨sources.length, names.length⟩ ⟨0, 0, 0, 0⟩ 0
    (parts ';' (ranges.getD "").toList) (parts ';' (mappings.getD "").toList)
  return {
    file := file.map fun | .str s => s | _ => "<invalid>"
    sources := if root.getD "" = "" then sources else sources.map (withRoot (root.getD ""))
    contents := contents.getD []
    names := names.map nameText
    tokens := sortTokens tokens }

/-! ## Documents -/

/-- The characters that mark a first line to be passed over. -/
def isJunk (c : Char) : Bool := c = ')' || c = ']' || c = '\x7d' || c = '\''

/-- What follows a line; a carriage return is allowed only before its end. -/
def afterLine : List Char → Option (List Char)
  | [] => some []
  | '\n' :: rest => some ('\n' :: rest)
  | '\r' :: '\n' :: rest => some ('\n' :: rest)
  | '\r' :: [] => some []
  | '\r' :: _ :: _ => none
  | _ :: rest => afterLine rest

/-- The document without a first line that keeps it from being run as a script. -/
def dropJunk (cs : List Char) : Option (List Char) :=
  match cs with
  | c :: _ => if isJunk c then afterLine cs else some cs
  | [] => some []

end Reader

/-- The source map of a JSON text. -/
def parse? (text : String) : Option SourceMap := do
  let cs ← Reader.dropJunk text.toList
  match Json.parseChars? cs with
  | some (.obj members) => if (Json.obj members).readable 0 then Reader.ofMembers? members else none
  | _ => none

end Stylesheet.SourceMap
