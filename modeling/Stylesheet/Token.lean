/-!
# Tokens

A `Token` is a piece of stylesheet text with its kind and the byte offsets of its first and its
last character.
-/

set_option autoImplicit false

namespace Stylesheet

/-- What a token is. `brackets` is a parenthesised text that is kept whole. -/
inductive TokenKind where
  | space
  | word
  | string
  | atWord
  | brackets
  | comment
  | openParen
  | closeParen
  | openSquare
  | closeSquare
  | openCurly
  | closeCurly
  | colon
  | semicolon
deriving DecidableEq, Repr, Inhabited

/-- A piece of the text. `first` and `last` are the byte offsets of its first and last
character. -/
structure Token where
  kind : TokenKind
  text : String
  first : Nat
  last : Nat
deriving DecidableEq, Repr, Inhabited

end Stylesheet
