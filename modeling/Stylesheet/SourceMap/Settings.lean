import Stylesheet.Json

/-!
# Settings of the map

What a run is asked to do about source maps: none, one only if an input came with a map, or one
with given options.
-/

set_option autoImplicit false

namespace Stylesheet

/-- Where the map of the input comes from when it is given. -/
inductive PreviousSetting where
  /-- Any map of the input is left out of account. -/
  | disabled
  /-- The JSON text of a map. -/
  | text (text : String)
  /-- A map as a JSON document. -/
  | json (value : Json)
deriving Repr, Inhabited

/-- The comment that names the map at the end of the output. -/
inductive LinkSetting where
  /-- There is one, unless the maps of the inputs had none. -/
  | auto
  | disabled
  /-- There is one, with this URL. -/
  | path (url : String)
deriving DecidableEq, Repr, Inhabited

/-- What becomes of output whose node has no known place. -/
inductive UnmappedPolicy where
  /-- It gets no token. -/
  | skip
  /-- It is mapped to the start of the closest ancestor with a known place. -/
  | nearestAncestor
deriving DecidableEq, Repr, Inhabited

/-- The options of a map that is wanted. What is `none` is decided by the maps of the inputs. -/
structure MapOptions where
  /-- Whether the map is put into the output as a data URL. -/
  inline : Option Bool := none
  link : LinkSetting := .auto
  /-- Whether the map holds the texts of its sources. -/
  sourcesContent : Option Bool := none
  previous : Option PreviousSetting := none
  /-- Whether sources are written as `file` URLs. -/
  absolute : Bool := false
  unmapped : UnmappedPolicy := .skip
deriving Repr, Inhabited

/-- Whether and how a map is written. -/
inductive MapSetting where
  /-- Only if an input came with a map. -/
  | auto
  | disabled
  | enabled (options : MapOptions)
deriving Repr, Inhabited

/-- The options of a setting. -/
def MapSetting.options? : MapSetting → Option MapOptions
  | enabled o => some o
  | _ => none

/-- Whether maps are turned off. -/
def MapSetting.isDisabled : MapSetting → Bool
  | disabled => true
  | _ => false

end Stylesheet
