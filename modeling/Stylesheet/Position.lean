import Stylesheet.Text.Bytes

/-!
# Positions in a text

A `Position` names a place by line and column, both counted from 1 in characters, and by its byte
offset. `Position.ofOffset` finds the line and column of an offset, `offsetOf` goes back.
-/

set_option autoImplicit false

namespace Stylesheet

open Stylesheet.Text

/-- A place in a text: line and column count characters from 1, the offset counts bytes from 0. -/
structure Position where
  line : Nat
  column : Nat
  offset : Nat
deriving DecidableEq, Repr, Inhabited

namespace Position

/-- The first place of a text. -/
def start : Position := ⟨1, 1, 0⟩

/-- The place behind the character `c` at `p`. -/
def next (p : Position) (c : Char) : Position :=
  if c = '\n' then ⟨p.line + 1, 1, p.offset + c.utf8Size⟩
  else ⟨p.line, p.column + 1, p.offset + c.utf8Size⟩

/-- Goes on from `p` over `cs` as long as whole characters fit below the offset. -/
def advance (offset : Nat) : Position → List Char → Position
  | p, [] => p
  | p, c :: rest => if p.offset + c.utf8Size ≤ offset then advance offset (p.next c) rest else p

/-- Goes on from `p` to the character at the offset, and takes the offset behind it. -/
def advanceOver (offset : Nat) : Position → List Char → Position
  | p, [] => p
  | p, c :: rest =>
    if p.offset + c.utf8Size ≤ offset then advanceOver offset (p.next c) rest
    else { p with offset := p.offset + c.utf8Size }

/-- The position of the character at a byte offset, with the offset behind that character. -/
def ofLast (text : List Char) (offset : Nat) : Position := advanceOver offset start text

/-- The position of a byte offset. An offset inside a character means that character, one past
the end means the end. -/
def ofOffset (text : List Char) (offset : Nat) : Position := advance offset start text

end Position

/-- The byte offset behind `n` characters of `cs`, which stand at `offset`; `none` when there is
no character there. -/
def offsetAfter : List Char → Nat → Nat → Option Nat
  | [], _, _ => none
  | _ :: _, offset, 0 => some offset
  | c :: rest, offset, n + 1 => offsetAfter rest (offset + c.utf8Size) n

/-- The text from its `n`-th line break on, with its offset; `none` when it has fewer. -/
def fromLine : List Char → Nat → Nat → Option (List Char × Nat)
  | cs, offset, 0 => some (cs, offset)
  | [], _, _ + 1 => none
  | c :: rest, offset, n + 1 =>
    if c = '\n' then fromLine rest (offset + c.utf8Size) n
    else fromLine rest (offset + c.utf8Size) (n + 1)

/-- The byte offset of a line and column. A column beyond its line counts on into the next lines;
what lies beyond the text means its end. -/
def offsetOf (text : List Char) (line column : Nat) : Nat :=
  match fromLine text 0 (line - 1) with
  | none => byteSize text
  | some (rest, offset) => (offsetAfter rest offset (column - 1)).getD (byteSize text)

end Stylesheet
