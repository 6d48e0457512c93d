import Stylesheet.Input
import Stylesheet.Node
import Stylesheet.Token.Lexer
import Stylesheet.Tree

/-!
# What the parser works on

The parser turns tokens into a `Tree` of `Parsed` nodes, whose places are byte offsets. This module
has those nodes, the errors of the parser, and the operations on runs of tokens that all statements
share: taking blanks and comments off either end, and cleaning a value.
-/

set_option autoImplicit false

namespace Stylesheet

/-- A node that was read from a text: the byte offset where it starts, and that of its last
character where it is known. -/
structure Parsed where
  data : NodeData
  raws : Raws
  start : Nat
  last : Option Nat
deriving DecidableEq, Repr, Inhabited

/-- What can be wrong with a text. -/
inductive ParseProblem where
  | unclosed (what : Lexer.Unclosed)
  | unclosedBracket
  | unclosedBlock
  | unexpectedClose
  | unknownWord
  | namelessAtRule
  | doubleColon
  | missedSemicolon
deriving DecidableEq, Repr

/-- The wording of a problem. -/
def ParseProblem.reason : ParseProblem → String
  | unclosed what => what.reason
  | unclosedBracket => "Unclosed bracket"
  | unclosedBlock => "Unclosed block"
  | unexpectedClose => "Unexpected \x7d"
  | unknownWord => "Unknown word"
  | namelessAtRule => "At-rule without name"
  | doubleColon => "Double colon"
  | missedSemicolon => "Missed semicolon"

/-- A problem with its place: the byte offset of its start, and that of its end if it has one. -/
structure ParseFault where
  problem : ParseProblem
  start : Nat
  stop : Option Nat
deriving DecidableEq, Repr

namespace ParseFault

/-- The problem as an error in an input. -/
def toError (f : ParseFault) (input : Input) : SourceError :=
  input.error f.problem.reason f.start f.stop

/-- The problem of a construct that the lexer finds unclosed. -/
def ofLexError (e : LexError) : ParseFault := ⟨.unclosed e.what, e.offset, none⟩

/-- A run of tokens that is no statement; it is named for its first token. -/
def unknownWord : List Token → ParseFault
  | [] => ⟨.unknownWord, 0, none⟩
  | t :: _ => ⟨.unknownWord, t.first, some (t.first + t.text.utf8ByteSize)⟩

end ParseFault

namespace Token

/-- Whether the token is a blank or a comment. -/
def isFiller (t : Token) : Bool := t.kind = .space || t.kind = .comment

/-- Whether the token is a blank. -/
def isSpace (t : Token) : Bool := t.kind = .space

/-- The text of a run of tokens. -/
def concat (ts : List Token) : String := String.join (ts.map Token.text)

/-- Cuts off the tokens at the end that `p` accepts. -/
def cutEnd (p : Token → Bool) (ts : List Token) : List Token × List Token :=
  ((ts.reverse.dropWhile p).reverse, (ts.reverse.takeWhile p).reverse)

theorem cutEnd_append (p : Token → Bool) (ts : List Token) :
    (cutEnd p ts).1 ++ (cutEnd p ts).2 = ts := by
  simp [cutEnd, ← List.reverse_append]

theorem length_cutEnd (p : Token → Bool) (ts : List Token) :
    (cutEnd p ts).2.length ≤ ts.length := by
  have := congrArg List.length (cutEnd_append p ts)
  simp only [List.length_append] at this
  omega

end Token

/-! ## Cleaned values -/

namespace Cleaning

/-- Whether a comment next to this token, or at the edge of the value, can be dropped without
joining words. -/
def isSafe (neighbour : Option Token) : Bool :=
  match neighbour with
  | none => true
  | some t => t.isSpace

/-- The value of a run of tokens, and whether it is all of their text. Comments are dropped, unless
they keep two words apart; with `trimEnd` a blank at the end is dropped as well. -/
def clean (trimEnd : Bool) : (before : Option Token) → (value : String) → List Token → String × Bool
  | _, value, [] => (value, true)
  | before, value, t :: rest =>
    if t.kind = .space && rest.isEmpty && trimEnd then (value, false)
    else if t.kind = .comment then
      if isSafe before || isSafe rest.head? then
        ((clean trimEnd (some t) value rest).1, false)
      else if value.toList.getLast? = some ',' then
        ((clean trimEnd (some t) value rest).1, false)
      else clean trimEnd (some t) (value ++ t.text) rest
    else clean trimEnd (some t) (value ++ t.text) rest

end Cleaning

/-- The cleaned value of a run of tokens, with its lexeme put into `slot` if cleaning dropped
anything. -/
def cleanInto (raws : Raws) (slot : String) (trimEnd : Bool) (ts : List Token) : String × Raws :=
  let (value, whole) := Cleaning.clean trimEnd none "" ts
  (value, if whole then raws else raws.set slot (.lexeme value (Token.concat ts)))

end Stylesheet
