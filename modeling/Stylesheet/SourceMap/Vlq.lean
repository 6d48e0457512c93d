import Stylesheet.Text.Base64

/-!
# Numbers in mappings

A number is written as base64 digits of five bits, the lowest first, each with a bit that says
whether more follow; the lowest bit of the number is its sign. `encode` writes one number,
`decodeSegment` reads as many as a segment holds.
-/

set_option autoImplicit false

namespace Stylesheet.Vlq

open Stylesheet.Text

/-- The digits of a natural number. -/
def digits (n : Nat) : List Char :=
  if h : n < 32 then [Base64.digit n]
  else Base64.digit (n % 32 + 32) :: digits (n / 32)
termination_by n
decreasing_by omega

/-- The digits of a number. -/
def encode (i : Int) : List Char :=
  digits (if i < 0 then 2 * i.natAbs + 1 else 2 * i.natAbs)

/-- What is wrong with a segment. -/
inductive Fault where
  | overflow
  | leftover
deriving DecidableEq, Repr

/-- The five bits of a digit and whether more digits follow. A character that is no digit counts
as one with all bits set, the delete character as one with all but the lowest. -/
def digitValue (c : Char) : Nat × Bool :=
  match Base64.value? c with
  | some v => (v % 32, 32 ≤ v)
  | none => (if c = '\x7f' then 30 else 31, true)

/-- The number for the bits of a word of 64 bits: the lowest is the sign. -/
def ofBits (bits : Nat) : Int :=
  let half := Int.fdiv (Int.bmod bits UInt64.size) 2
  if bits % 2 = 1 then -half else half

/-- Reads numbers; `bits` and `shift` are those of the number at hand. -/
def decode : (bits shift : Nat) → List Char → Except Fault (List Int)
  | _, shift, [] => if shift = 0 then .ok [] else .error .leftover
  | bits, shift, c :: rest =>
    if shift ≥ 64 then .error .overflow
    else
      let (v, more) := digitValue c
      let bits := (bits + v * Nat.pow 2 shift) % UInt64.size
      if more then decode bits (shift + 5) rest
      else (decode 0 0 rest).map (ofBits bits :: ·)

/-- The numbers of a segment; each byte of a character beyond ASCII counts as a digit. -/
def decodeSegment (cs : List Char) : Except Fault (List Int) :=
  decode 0 0 (cs.flatMap fun c => List.replicate c.utf8Size c)

end Stylesheet.Vlq
