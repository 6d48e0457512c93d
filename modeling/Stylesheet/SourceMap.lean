/-!
# Source maps

A `SourceMap` says for places of a generated text where they come from. Its tokens are sorted by
their place in the generated text; `lookup` finds the token that covers a place. Lines and columns
count from 0.
-/

set_option autoImplicit false

namespace Stylesheet

/-- A place of the generated text, with the place it comes from if that is known. -/
structure MapToken where
  dstLine : Nat
  dstCol : Nat
  /-- Index of the source. -/
  source : Option Nat
  srcLine : Nat
  srcCol : Nat
  /-- Index of the name. -/
  name : Option Nat
  /-- Whether what follows the place maps column by column. -/
  range : Bool
deriving DecidableEq, Repr, Inhabited

/-- A source map. `sources` have the source root applied. -/
structure SourceMap where
  file : Option String
  sources : List String
  /-- The texts of the sources, as far as they are known. -/
  contents : List (Option String)
  names : List String
  tokens : List MapToken
deriving DecidableEq, Repr, Inhabited

namespace MapToken

/-- Whether the token stands before or at a place of the generated text. -/
def atOrBefore (t : MapToken) (line col : Nat) : Bool :=
  t.dstLine < line || (t.dstLine = line && t.dstCol ≤ col)

/-- Whether the token stands exactly at a place. -/
def isAt (t : MapToken) (line col : Nat) : Bool := t.dstLine = line && t.dstCol = col

/-- The order of tokens in a map. -/
def le (s t : MapToken) : Bool := s.atOrBefore t.dstLine t.dstCol

/-- The largest number that a line or column can be. -/
def maxIndex : Nat := UInt32.size - 1

/-- The token as it applies to column `col`: behind a range token the source column moves
along. -/
def shiftedTo (t : MapToken) (col : Nat) : MapToken :=
  if t.range then
    let distance := (col + UInt32.size - t.dstCol) % UInt32.size
    { t with srcCol := min (t.srcCol + distance) maxIndex }
  else t

end MapToken

namespace SourceMap

/-- The map with the given tokens in order; tokens at the same place keep their order. -/
def sortTokens (tokens : List MapToken) : List MapToken := tokens.mergeSort MapToken.le

/-- The token for a place of the generated text: the first token exactly there, else the last one
before it. -/
def lookup (m : SourceMap) (line col : Nat) : Option MapToken :=
  let found : Option MapToken := match m.tokens.find? (MapToken.isAt · line col) with
    | some t => some t
    | none => (m.tokens.filter (MapToken.atOrBefore · line col)).getLast?
  found.map (MapToken.shiftedTo · col)

/-- The source that a token refers to. -/
def sourceOf (m : SourceMap) (t : MapToken) : Option String := t.source.bind (m.sources[·]?)

/-- The name that a token refers to. -/
def nameOf (m : SourceMap) (t : MapToken) : Option String := t.name.bind (m.names[·]?)

/-- The text of a source. -/
def contentOf (m : SourceMap) (source : Nat) : Option String := (m.contents[source]?).join

/-- Whether the text of any source is known. -/
def hasContent (m : SourceMap) : Bool :=
  (List.range m.sources.length).any fun i => (m.contentOf i).isSome

end SourceMap

end Stylesheet
