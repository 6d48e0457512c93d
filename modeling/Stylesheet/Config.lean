import Stylesheet.Json.Reader
import Stylesheet.SourceMap.Settings

/-!
# Options of a run, and their JSON form

`RunOptions` says where a stylesheet comes from, where its output goes and what map is wanted.
`RunOptions.ofText?` reads them from a JSON document: an object with the members `from`, `to` and
`map`, or an array of the three. A member that is not known is passed over; one that is known must
not be repeated and must be of its kind.
-/

set_option autoImplicit false

namespace Stylesheet

/-- The options of a run. -/
structure RunOptions where
  /-- The path that the stylesheet is read from. -/
  source : Option String := none
  /-- The path that the output is written to. -/
  target : Option String := none
  map : MapSetting := .auto
deriving Repr, Inhabited

namespace RunOptions

/-- What the members `names` of an object hold, or the elements of an array in their place. An
array has at least `least` elements and no more than there are names. -/
def fields? (names : List String) (least : Nat) : Json → Option (List (Option Json))
  | .obj members => names.mapM fun name =>
    match Json.valuesOf name members with
    | [] => some none
    | [j] => some (some j)
    | _ => none
  | .arr items =>
    if least ≤ items.length ∧ items.length ≤ names.length then
      some (items.map some ++ List.replicate (names.length - items.length) none)
    else none
  | _ => none

/-- A value that may be missing or null. -/
def optional? {α : Type} (read : Json → Option α) : Option Json → Option (Option α)
  | none => some none
  | some .null => some none
  | some j => (read j).map some

/-- A value that may be missing but not null. -/
def defaulted? {α : Type} (value : α) (read : Json → Option α) : Option Json → Option α
  | none => some value
  | some j => read j

/-- A text. -/
def text? : Json → Option String
  | .str s => some s
  | _ => none

/-- A truth value. -/
def bool? : Json → Option Bool
  | .bool b => some b
  | _ => none

/-- The setting of the link: whether there is one, or its URL. -/
def link? : Json → Option LinkSetting
  | .bool true => some .auto
  | .bool false => some .disabled
  | .str url => some (.path url)
  | _ => none

/-- The setting of the previous map: `false` for none, its text, or the map itself. The inner
`none` leaves it to the link of the input. -/
def previous? : Json → Option (Option PreviousSetting)
  | .bool true => some none
  | .bool false => some (some .disabled)
  | .str s => some (some (.text s))
  | j => some (some (.json j))

/-- The policy with a given name. -/
def policyNamed? (name : String) : Option UnmappedPolicy :=
  if name = "skip" then some .skip
  else if name = "nearestAncestor" then some .nearestAncestor
  else none

/-- The policy for output without a place: its name, alone or as the member of an object whose
value is null. -/
def unmapped? : Json → Option UnmappedPolicy
  | .str name => policyNamed? name
  | .obj [(name, .null)] => policyNamed? name
  | _ => none

/-- The members of the options of a map. -/
def mapFields : List String :=
  ["inline", "annotation", "sourcesContent", "prev", "absolute", "unmapped"]

/-- The options of a map. -/
def mapOptions? (j : Json) : Option MapOptions := do
  match ← fields? mapFields 0 j with
  | [inline, link, sourcesContent, previous, absolute, unmapped] =>
    return {
      inline := ← optional? bool? inline
      link := (← optional? link? link).getD .auto
      sourcesContent := ← optional? bool? sourcesContent
      previous := (← optional? previous? previous).join
      absolute := ← defaulted? false bool? absolute
      unmapped := ← defaulted? .skip unmapped? unmapped }
  | _ => none

/-- The setting of the map: whether there is one, or its options. -/
def mapSetting? (j : Json) : Option MapSetting :=
  match j with
  | .bool false => some .disabled
  | .bool true => some (.enabled {})
  | j => if j.readable 1 then (mapOptions? j).map .enabled else none

/-- The options that a document holds. -/
def ofJson? (j : Json) : Option RunOptions := do
  match ← fields? ["from", "to", "map"] 3 j with
  | [source, target, map] =>
    return {
      source := ← optional? text? source
      target := ← optional? text? target
      map := (← optional? mapSetting? map).getD .auto }
  | _ => none

/-- The options that a JSON text holds. -/
def ofText? (text : String) : Option RunOptions := (Json.parse? text).bind ofJson?

end RunOptions

end Stylesheet
