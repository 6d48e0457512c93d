import Stylesheet.Printer
import Stylesheet.Session

/-!
# Mappings of printed text

`mappings` goes over the fragments of a printed tree and notes where in the output nodes start and
end, and which place of an input each of them comes from. A place of an input that has a map of its
own counts only if that map leads on to a source.
-/

set_option autoImplicit false

namespace Stylesheet

/-- A place of the output and the place of the input that it comes from, all counted from 0. -/
structure Mapping where
  dstLine : Nat
  dstCol : Nat
  input : InputId
  srcLine : Nat
  srcCol : Nat
deriving DecidableEq, Repr

/-- A place in the output, counted from 0. -/
structure OutputPlace where
  line : Nat
  col : Nat
deriving DecidableEq, Repr

namespace OutputPlace

/-- The start of the output. -/
def start : OutputPlace := ⟨0, 0⟩

/-- The place behind a character. -/
def next (p : OutputPlace) (c : Char) : OutputPlace :=
  if c = '\n' then ⟨p.line + 1, 0⟩ else ⟨p.line, p.col + 1⟩

/-- The place behind a text. -/
def after (p : OutputPlace) (text : String) : OutputPlace := text.toList.foldl next p

end OutputPlace

namespace PreviousMap

/-- The token of an earlier map that covers a place: one that starts in the same line, at the place
or before it. -/
def tokenAt? (p : PreviousMap) (line col : Nat) : Option MapToken :=
  (p.map.lookup line col).filter fun t => t.dstLine = line

end PreviousMap

namespace Forest

/-- Whether a position of an input leads to a source. An input without a map is itself one. -/
def resolves (f : Forest) (input : InputId) (p : Position) : Bool :=
  match (f.input? input).bind Input.map with
  | none => true
  | some previous =>
    ((previous.tokenAt? (p.line - 1) (p.column - 1)).bind previous.map.sourceOf).isSome

/-- The position of a node, if it leads to a source. -/
def resolved? (f : Forest) (id : NodeId) (position : Source → Option Position) :
    Option (InputId × Position) :=
  match (f.source id).input, position (f.source id) with
  | some input, some p => if f.resolves input p then some (input, p) else none
  | _, _ => none

/-- Where a position of a node comes from: from itself, or by the policy from the start of the
closest ancestor that leads to a source. -/
def origin? (f : Forest) (policy : UnmappedPolicy) (id : NodeId)
    (position : Source → Option Position) : Option (InputId × Position) :=
  match f.resolved? id position, policy with
  | some o, _ => some o
  | none, .skip => none
  | none, .nearestAncestor => (f.ancestors id).findSome? (f.resolved? · Source.start)

/-- Whether the output of a node ends in a text of its own, a brace or a semicolon. -/
def closesVisibly (f : Forest) (id : NodeId) : Bool :=
  let childless := match f.kind id with
    | .declaration => true
    | .atRule => !(f.node id).hasBlock
    | _ => false
  if !childless then true
  else match f.parent? id with
    | none => true
    | some parent =>
      (f.children parent).getLast? ≠ some id ||
        ((f.raws parent).get? "semicolon").any RawValue.isTruthy

/-- The mapping of a place of the output. -/
def mappingAt (place : OutputPlace) (origin : InputId × Position) : Mapping :=
  ⟨place.line, place.col, origin.1, origin.2.line - 1, origin.2.column - 1⟩

/-- The mappings of a fragment that starts at `place`: one for the start of its node and one for
the end. -/
def fragmentMappings (f : Forest) (policy : UnmappedPolicy) (place : OutputPlace)
    (fragment : Fragment) : List Mapping :=
  match fragment.node with
  | none => []
  | some id =>
    let start := if fragment.role = some .stop then none
      else (f.origin? policy id Source.start).map (mappingAt place)
    let stop := if fragment.role = some .start || !f.closesVisibly id then none
      else
        let behind := place.after fragment.text
        (f.origin? policy id Source.stop).map (mappingAt { behind with col := behind.col - 1 })
    start.toList ++ stop.toList

/-- The mappings of fragments from `place` on. -/
def mappings (f : Forest) (policy : UnmappedPolicy) : OutputPlace → List Fragment → List Mapping
  | _, [] => []
  | place, fragment :: rest =>
    f.fragmentMappings policy place fragment ++
      mappings f policy (place.after fragment.text) rest

end Forest

end Stylesheet
