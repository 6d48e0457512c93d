import Stylesheet.Forest.Edit
import Stylesheet.Parser

/-!
# Planting and copying trees

`plantParsed` adds the tree that was read from an input, `copy` adds a copy of a tree that is
already there. Neither has a parent; `copyBefore` and `copyAfter` put the copy next to the node.
-/

set_option autoImplicit false

namespace Stylesheet

/-! ## Trees from inputs -/

namespace Input

/-- The position of the last character of a node, with the offset behind it. -/
def endPosition (i : Input) (last : Nat) : Position := Position.ofLast i.text.toList last

/-- A parsed node with its places in the input. -/
def element (i : Input) (id : InputId) (n : Parsed) : Element where
  data := n.data
  raws := n.raws
  source := ⟨some id, some (i.position n.start), n.last.map i.endPosition⟩

end Input

namespace Forest

/-- Adds the tree of an input. The root ends where the text ends. -/
def plantParsed (f : Forest) (input : InputId) (i : Input) (t : Tree Parsed) : NodeId × Forest :=
  let (id, f) := f.plant none (t.map (i.element input))
  (id, f.modify id fun n => { n with
    source := { n.source with stop := some (i.position (Text.byteSize i.text.toList)) } })

/-- Reads an input and adds its tree. -/
def parseInput (f : Forest) (input : InputId) (i : Input) : Except SourceError (NodeId × Forest) :=
  match Parser.parse i.text.toList with
  | .error e => .error (e.toError i)
  | .ok t => .ok (f.plantParsed input i t)

/-- Why a text cannot be read. -/
inductive ReadError where
  | previousMap (e : PreviousMapError)
  | text (e : SourceError)
deriving Repr

/-- Reads a text as a new input and adds its tree. -/
def parse (f : Forest) (files : Files) (text : String) (file : Option String)
    (setting : MapSetting) : Except ReadError (NodeId × Forest) :=
  match Input.make files text file setting with
  | .error e => .error (.previousMap e)
  | .ok i =>
    let (input, f) := f.addInput i
    match f.parseInput input i with
    | .error e => .error (.text e)
    | .ok r => .ok r

/-! ## Copies -/

/-- What a copy leaves out. -/
structure CopyOptions where
  /-- Where the nodes come from. -/
  stripSource : Bool := false
  /-- The formatting that depends on where a node stands. -/
  cleanRaws : Bool := false
deriving DecidableEq, Repr, Inhabited

/-- What the copy of a node says. -/
def copiedElement (f : Forest) (options : CopyOptions) (id : NodeId) : Element :=
  let n := f.node id
  { data := n.data
    source := if options.stripSource then .unknown else n.source
    raws := if options.cleanRaws then n.raws.clean false else n.raws }

/-- Copies a node and all nodes below it. -/
def copy (f : Forest) (id : NodeId) (options : CopyOptions) : NodeId × Forest :=
  f.plant none ((f.outline id).map (f.copiedElement options))

/-- Inserts a copy of a node right before it. -/
def copyBefore (f : Forest) (id : NodeId) : Except TreeError (NodeId × Forest) :=
  let (new, f) := f.copy id {}
  (f.insertBefore id new).map (new, ·)

/-- Inserts a copy of a node right behind it. -/
def copyAfter (f : Forest) (id : NodeId) : Except TreeError (NodeId × Forest) :=
  let (new, f) := f.copy id {}
  (f.insertAfter id new).map (new, ·)

end Forest

end Stylesheet
