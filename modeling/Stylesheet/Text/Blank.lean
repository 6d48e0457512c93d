/-!
# Blank characters

`isBlank` is the Unicode property White_Space. `trim` drops the blank characters at both ends of
a text; what remains starts and ends with a character that is not blank.
-/

set_option autoImplicit false

namespace Stylesheet.Text

/-- The characters with the Unicode property White_Space. -/
def isBlank (c : Char) : Bool :=
  let n := c.toNat
  (0x09 ≤ n && n ≤ 0x0D) || n = 0x20 || n = 0x85 || n = 0xA0 || n = 0x1680 ||
    (0x2000 ≤ n && n ≤ 0x200A) || n = 0x2028 || n = 0x2029 || n = 0x202F || n = 0x205F ||
    n = 0x3000

/-- The characters without the blank ones at the end. -/
def trimRight (cs : List Char) : List Char :=
  (cs.reverse.dropWhile isBlank).reverse

/-- The characters without the blank ones at either end. -/
def trimChars (cs : List Char) : List Char :=
  trimRight (cs.dropWhile isBlank)

/-- The text without the blank characters at either end. -/
def trim (s : String) : String :=
  String.ofList (trimChars s.toList)

/-- Only the blank characters of the text, in order. -/
def blanks (s : String) : String :=
  String.ofList (s.toList.filter isBlank)

end Stylesheet.Text
