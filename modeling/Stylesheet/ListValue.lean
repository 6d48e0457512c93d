import Stylesheet.Text.Blank

/-!
# Lists written inside values

A value such as `a, f(b, c), "d, e"` is a list whose separators count only at top level: not
inside quotes or parentheses and not after a backslash. `Nesting` is the reading position,
`pieces` cuts at the separators that count, `split` trims the pieces and drops the empty ones.
-/

set_option autoImplicit false

namespace Stylesheet.ListValue

open Stylesheet.Text

/-- Where a reader of a value stands: after a backslash, inside a quote, under open
parentheses. -/
structure Nesting where
  escaped : Bool
  quote : Option Char
  depth : Nat
deriving DecidableEq, Repr

namespace Nesting

/-- Outside of quotes and parentheses, and not after a backslash. -/
def top : Nesting := ⟨false, none, 0⟩

/-- Reads one character. A parenthesis that closes nothing is passed over. -/
def step (n : Nesting) (c : Char) : Nesting :=
  if n.escaped then { n with escaped := false }
  else if c = '\\' then { n with escaped := true }
  else match n.quote with
    | some q => if c = q then { n with quote := none } else n
    | none =>
      if c = '"' || c = '\'' then { n with quote := some c }
      else if c = '(' then { n with depth := n.depth + 1 }
      else if c = ')' then { n with depth := n.depth - 1 }
      else n

end Nesting

/-- The characters that change the nesting; none of them ever separates. -/
def isStructural (c : Char) : Bool :=
  c = '\\' || c = '"' || c = '\'' || c = '(' || c = ')'

/-- Whether `c`, read at `n`, is one of `separators` and counts. -/
def separates (separators : List Char) (n : Nesting) (c : Char) : Bool :=
  n = Nesting.top && !isStructural c && separators.contains c

/-- The text cut at the separators that count; there is always a last piece. -/
def pieces (separators : List Char) : Nesting → List Char → List Char × List (List Char)
  | _, [] => ([], [])
  | n, c :: rest =>
    if separates separators n c then
      let (piece, others) := pieces separators n rest
      ([], piece :: others)
    else
      let (piece, others) := pieces separators (n.step c) rest
      (c :: piece, others)

/-- The items of the pieces `first :: others`: an empty piece is no item, except the last one when
`last` asks for it. -/
def items (last : Bool) : List Char → List (List Char) → List (List Char)
  | piece, [] => if last || !piece.isEmpty then [trimChars piece] else []
  | piece, next :: others =>
    if piece.isEmpty then items last next others
    else trimChars piece :: items last next others

/-- Splits `value` at the separators that count. With `last` the text after the final separator
is an item even when it is empty. -/
def split (value : String) (separators : List Char) (last : Bool) : List String :=
  let (piece, others) := pieces separators Nesting.top value.toList
  (items last piece others).map String.ofList

/-- The items of a list separated by commas. -/
def comma (value : String) : List String := split value [','] true

/-- The items of a list separated by spaces, line breaks and tabs. -/
def space (value : String) : List String := split value [' ', '\n', '\t'] false

end Stylesheet.ListValue
