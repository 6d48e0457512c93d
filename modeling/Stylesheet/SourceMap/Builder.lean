import Stylesheet.SourceMap.Mapping
import Stylesheet.SourceMap.Names

/-!
# Building a map

`SourceMap.build` turns the mappings of printed text into a map. Each source and each name is
listed once, in the order in which it is first used. A mapping into an input with a map of its own
is carried on to the source that this map names.
-/

set_option autoImplicit false

namespace Stylesheet

namespace SourceMap

/-- A map that is being built, and whether it holds the texts of its sources. -/
structure Builder where
  withContents : Bool
  sources : List String
  contents : List (Option String)
  names : List String
  tokens : List MapToken
deriving Repr

namespace Builder

/-- Nothing so far. -/
def start (withContents : Bool) : Builder := ⟨withContents, [], [], [], []⟩

/-- The index of a source, which is listed if it is new; its text is that of the first use. -/
def addSource (b : Builder) (name : String) (content : Option String) : Nat × Builder :=
  match b.sources.findIdx? (· = name) with
  | some i => (i, b)
  | none => (b.sources.length, { b with
      sources := b.sources ++ [name]
      contents := if b.withContents then b.contents ++ [content] else b.contents })

/-- The index of a name, which is listed if it is new. -/
def addName (b : Builder) (name : String) : Nat × Builder :=
  match b.names.findIdx? (· = name) with
  | some i => (i, b)
  | none => (b.names.length, { b with names := b.names ++ [name] })

/-- Adds a token. -/
def addToken (b : Builder) (t : MapToken) : Builder := { b with tokens := b.tokens ++ [t] }

/-- Adds the token of a mapping into an input that is itself a source. -/
def addOwn (b : Builder) (naming : Naming) (input : Input) (m : Mapping) : Builder :=
  let (source, b) := b.addSource (naming.sourceName input.name) (some input.text)
  b.addToken ⟨m.dstLine, m.dstCol, some source, m.srcLine, m.srcCol, none, false⟩

/-- Adds the token of a mapping into an input that came with a map, if that map covers it. -/
def addTraced (b : Builder) (naming : Naming) (previous : PreviousMap) (m : Mapping) : Builder :=
  match previous.tokenAt? m.srcLine m.srcCol with
  | none => b
  | some t =>
    match previous.map.sourceOf t with
    | none => b
    | some name =>
      let (source, b) := b.addSource (naming.previousSourceName previous.root name)
        (t.source.bind previous.map.contentOf)
      match previous.map.nameOf t with
      | none => b.addToken ⟨m.dstLine, m.dstCol, some source, t.srcLine, t.srcCol, none, false⟩
      | some name =>
        let (index, b) := b.addName name
        b.addToken ⟨m.dstLine, m.dstCol, some source, t.srcLine, t.srcCol, some index, false⟩

/-- Adds the token of a mapping. -/
def addMapping (inputs : InputId → Option Input) (naming : Naming) (b : Builder) (m : Mapping) :
    Builder :=
  match inputs m.input with
  | none => b
  | some input =>
    match input.map with
    | none => b.addOwn naming input m
    | some previous => b.addTraced naming previous m

/-- The finished map. -/
def finish (b : Builder) (file : String) : SourceMap where
  file := some file
  sources := b.sources
  contents := b.contents
  names := b.names
  tokens := sortTokens b.tokens

end Builder

/-- The map of mappings. -/
def build (inputs : InputId → Option Input) (naming : Naming) (withContents : Bool)
    (ms : List Mapping) : SourceMap :=
  (ms.foldl (Builder.addMapping inputs naming) (Builder.start withContents)).finish
    naming.outputFile

end SourceMap

end Stylesheet
