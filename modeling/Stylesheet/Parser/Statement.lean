import Stylesheet.Parser.Basic

/-!
# Gathering the tokens of a statement

A statement that is no comment and no stray semicolon ends at a semicolon, at a brace or at the end
of the text; what ends it does not count inside brackets. `Phrase.gather` collects the tokens of a
declaration or of a selector, `Params.gather` those of an at-rule's parameters. Both are recursions
on the tokens, and the length lemmas say that they only move on.
-/

set_option autoImplicit false

namespace Stylesheet

/-! ## Declarations and selectors -/

namespace Phrase

/-- What ends a run of tokens. -/
inductive Ending where
  | semicolon (t : Token)
  | openCurly (t : Token)
  /-- A closing brace, which belongs to the block around the run. -/
  | closeCurly
  | endOfText
deriving DecidableEq, Repr

/-- Where a reader of the run stands: whether a colon came by outside of brackets, the closing
tokens that are awaited (the innermost first), and the first bracket that is open. -/
structure Nest where
  colon : Bool
  awaited : List TokenKind
  opener : Option Token
deriving DecidableEq, Repr

/-- Nothing read so far. -/
def Nest.start : Nest := ⟨false, [], none⟩

/-- The closing token that an opening one asks for. Braces count as brackets only in the value of
a custom property. -/
def closer? (custom colon : Bool) : TokenKind → Option TokenKind
  | .openParen => some .closeParen
  | .openSquare => some .closeSquare
  | .openCurly => if custom && colon then some .closeCurly else none
  | _ => none

/-- Reads a token that does not end the run. -/
def Nest.step (custom : Bool) (n : Nest) (t : Token) : Nest :=
  match closer? custom n.colon t.kind with
  | some closer => { n with awaited := closer :: n.awaited, opener := n.opener.or (some t) }
  | none =>
    match n.awaited with
    | [] => if t.kind = .colon then { n with colon := true } else n
    | a :: rest =>
      if t.kind = a then { n with awaited := rest, opener := if rest = [] then none else n.opener }
      else n

/-- What a token ends the run as, if it does. -/
def ending? (custom : Bool) (n : Nest) (t : Token) : Option Ending :=
  if (closer? custom n.colon t.kind).isSome || !n.awaited.isEmpty then none
  else match t.kind with
    | .semicolon => some (.semicolon t)
    | .openCurly => some (.openCurly t)
    | .closeCurly => some .closeCurly
    | _ => none

/-- The tokens of a run, what ends it, the brackets that are open there, and the tokens behind. A
closing brace that ends the run is the first of these. -/
structure Gathered where
  tokens : List Token
  ending : Ending
  nest : Nest
  rest : List Token
deriving Repr

/-- Collects the tokens of a run. -/
def gather (custom : Bool) : Nest → List Token → Gathered
  | n, [] => ⟨[], .endOfText, n, []⟩
  | n, t :: rest =>
    match ending? custom n t with
    | some .closeCurly => ⟨[], .closeCurly, n, t :: rest⟩
    | some e => ⟨[], e, n, rest⟩
    | none =>
      let g := gather custom (n.step custom t) rest
      { g with tokens := t :: g.tokens }

theorem length_gather (custom : Bool) (n : Nest) (ts : List Token) :
    (gather custom n ts).tokens.length + (gather custom n ts).rest.length ≤ ts.length := by
  induction ts generalizing n with
  | nil => simp [gather]
  | cons t rest ih =>
    rw [gather]
    split
    · simp
    · simp
    · have := ih (n.step custom t)
      simp only [List.length_cons]
      omega

end Phrase

/-! ## Parameters of at-rules -/

namespace Params

/-- What ends the parameters of an at-rule. -/
inductive Ending where
  | semicolon (t : Token)
  | openCurly
  | closeCurly (t : Token)
  /-- The text ends behind the parameters. -/
  | endOfParams
  /-- The text ends behind the name. -/
  | endOfName
deriving DecidableEq, Repr

/-- The awaited closing tokens behind a token. Braces count as brackets only inside brackets. -/
def step (awaited : List TokenKind) (t : Token) : List TokenKind :=
  match t.kind with
  | .openParen => .closeParen :: awaited
  | .openSquare => .closeSquare :: awaited
  | k =>
    if k = .openCurly && !awaited.isEmpty then .closeCurly :: awaited
    else if awaited.head? = some k then awaited.tail
    else awaited

/-- What a token ends the parameters as, if it does. -/
def ending? (t : Token) : Option Ending :=
  match t.kind with
  | .semicolon => some (.semicolon t)
  | .openCurly => some .openCurly
  | .closeCurly => some (.closeCurly t)
  | _ => none

/-- The tokens of parameters, what ends them, and the tokens behind. -/
structure Gathered where
  tokens : List Token
  ending : Ending
  rest : List Token
deriving Repr

/-- Collects the tokens of parameters; `ending` is how they end at the end of the text. -/
def gather : (awaited : List TokenKind) → (ending : Ending) → List Token → Gathered
  | _, e, [] => ⟨[], e, []⟩
  | awaited, _, t :: rest =>
    let awaited := step awaited t
    match if awaited.isEmpty then ending? t else none with
    | some e => ⟨[], e, rest⟩
    | none =>
      let g := gather awaited .endOfParams rest
      { g with tokens := t :: g.tokens }

theorem length_gather (awaited : List TokenKind) (e : Ending) (ts : List Token) :
    (gather awaited e ts).tokens.length + (gather awaited e ts).rest.length ≤ ts.length := by
  induction ts generalizing awaited e with
  | nil => simp [gather]
  | cons t rest ih =>
    rw [gather]
    simp only
    split
    · simp
    · have := ih (step awaited t) .endOfParams
      simp only [List.length_cons]
      omega

end Params

end Stylesheet
