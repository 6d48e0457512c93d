import Stylesheet.Text.Bytes

/-!
# Percent encoding

A character that may not stand in a URL is written as its bytes, each as `%` and two hexadecimal
digits. `encode` takes the set of those characters; all beyond ASCII belong to it. `decode?` takes
an escape that is not followed by two digits as it stands.
-/

set_option autoImplicit false

namespace Stylesheet.Text.Percent

/-- A hexadecimal digit in upper case. -/
def digit (n : Nat) : Char := if n < 10 then Char.ofNat (48 + n) else Char.ofNat (55 + n)

/-- The value of a hexadecimal digit. -/
def value? (b : UInt8) : Option Nat :=
  let n := b.toNat
  if 48 ≤ n && n ≤ 57 then some (n - 48)
  else if 65 ≤ n && n ≤ 70 then some (n - 55)
  else if 97 ≤ n && n ≤ 102 then some (n - 87)
  else none

/-- A byte as an escape. -/
def escape (b : UInt8) : List Char := ['%', digit (b.toNat / 16), digit (b.toNat % 16)]

/-- The text with the characters that `reserved` accepts, and those beyond ASCII, escaped. -/
def encode (reserved : Char → Bool) (s : String) : String :=
  String.ofList <| s.toList.flatMap fun c =>
    if c.toNat < 128 && !reserved c then [c] else (String.utf8EncodeChar c).flatMap escape

/-- The bytes with the escapes resolved. -/
def decodeBytes : List UInt8 → List UInt8
  | 37 :: a :: b :: rest =>
    match value? a, value? b with
    | some x, some y => UInt8.ofNat (x * 16 + y) :: decodeBytes rest
    | _, _ => 37 :: decodeBytes (a :: b :: rest)
  | b :: rest => b :: decodeBytes rest
  | [] => []

/-- The text with the escapes resolved; `none` when the bytes are no text. -/
def decode? (s : String) : Option String := ofBytes? (decodeBytes (toBytes s))

/-- The control characters of ASCII. -/
def isControl (c : Char) : Bool := c.toNat < 0x20 || c.toNat = 0x7f

/-- What is escaped in the relative URLs of a map. -/
def inUrl (c : Char) : Bool :=
  isControl c || " \"#%<>?[\\]^\x60\x7b|\x7d".toList.contains c

/-- What is escaped in a component of a `file` URL. -/
def inFileUrl (c : Char) : Bool :=
  isControl c || " \"#%/<>?\x60\x7b\x7d\\".toList.contains c

end Stylesheet.Text.Percent
