import Stylesheet.Json.Double

/-!
# Writing JSON

`Json.compress` writes a document without blanks. In strings the quote, the backslash and the
control characters below the space are escaped, everything else stands as it is.
-/

set_option autoImplicit false

namespace Stylesheet.Json

namespace Writer

/-- A hexadecimal digit in lower case. -/
def hexDigit (n : Nat) : Char := if n < 10 then Char.ofNat (48 + n) else Char.ofNat (87 + n)

/-- A character inside a string. -/
def escape (c : Char) : List Char :=
  if c = '"' then ['\\', '"']
  else if c = '\\' then ['\\', '\\']
  else if c = '\x08' then ['\\', 'b']
  else if c = '\x0c' then ['\\', 'f']
  else if c = '\n' then ['\\', 'n']
  else if c = '\r' then ['\\', 'r']
  else if c = '\t' then ['\\', 't']
  else if c.toNat < 0x20 then
    ['\\', 'u', '0', '0', hexDigit (c.toNat / 16), hexDigit (c.toNat % 16)]
  else [c]

/-- A string in quotes. -/
def quote (s : String) : String := String.ofList ('"' :: s.toList.flatMap escape ++ ['"'])

mutual

/-- The text of a document. -/
def value : Json → String
  | null => "null"
  | bool true => "true"
  | bool false => "false"
  | int i => toString i
  | decimal d => d.text
  | str s => quote s
  | arr items => "[" ++ itemTexts items ++ "]"
  | obj members => "\x7b" ++ memberTexts members ++ "\x7d"
  | valueless => "null"

/-- The texts of items with commas between them. -/
def itemTexts : List Json → String
  | [] => ""
  | [j] => value j
  | j :: rest => value j ++ "," ++ itemTexts rest

/-- The texts of members with commas between them. -/
def memberTexts : List (String × Json) → String
  | [] => ""
  | [(n, j)] => quote n ++ ":" ++ value j
  | (n, j) :: rest => quote n ++ ":" ++ value j ++ "," ++ memberTexts rest

end

end Writer

/-- The text of a document, without blanks. -/
def compress (j : Json) : String := Writer.value j

end Stylesheet.Json
