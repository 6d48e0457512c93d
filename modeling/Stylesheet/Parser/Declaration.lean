import Stylesheet.Parser.Basic

/-!
# Declarations

`Declaration.parse` reads a declaration from its tokens. Its text is divided into what stands
before the property, the property, what stands between property and value, the value, and the mark
`!important`; the first four are cut off one after the other from the front, the mark from the end.
-/

set_option autoImplicit false

namespace Stylesheet.Declaration

/-- Adds the tokens before the first word to what stands before the declaration; there must be a
word. -/
def leading : String → List Token → Except ParseFault (String × List Token)
  | before, [] => .ok (before, [])
  | before, t :: rest =>
    if t.kind = .word then .ok (before, t :: rest)
    else if rest.isEmpty then .error (.unknownWord [t])
    else leading (before ++ t.text) rest

/-- Whether a token ends the property. -/
def endsProp (t : Token) : Bool := t.kind = .colon || t.isFiller

/-- Whether a word has a letter, a digit or an underscore. -/
def isWordLike (t : Token) : Bool :=
  t.kind = .word && t.text.toList.any fun c => c.isAlphanum || c = '_'

/-- Takes the tokens up to the first colon; words must not be among them. -/
def separator : String → List Token → Except ParseFault (String × List Token)
  | between, [] => .ok (between, [])
  | between, t :: rest =>
    if t.kind = .colon then .ok (between ++ ":", rest)
    else if isWordLike t then .error (.unknownWord [t])
    else separator (between ++ t.text) rest

/-- Splits the mark of a hack off a property. -/
def splitHack (prop : String) : String × String :=
  match prop.toList with
  | c :: rest =>
    if c = '_' || c = '*' then (String.singleton c, String.ofList rest) else ("", prop)
  | [] => ("", prop)

/-! ## The mark of importance -/

/-- ASCII letters in lower case. -/
def lower (s : String) : String := String.ofList (s.toList.map Char.toLower)

/-- Whether a text starts with an exclamation mark behind blanks. -/
def startsWithBang (s : String) : Bool := (Text.trimChars s.toList).head? = some '!'

/-- Takes tokens off the end, the last one first (`reversed` has them in that order), until they
start with an exclamation mark and a token other than a blank stands at `position`. At most
`position` tokens are taken. -/
def unwind : (position : Nat) → (mark : String) → (reversed : List Token) → String × List Token
  | 0, mark, reversed => (mark, reversed)
  | position + 1, mark, reversed =>
    let bound := match (reversed.reverse)[position + 1]? with
      | some t => !t.isSpace
      | none => false
    if startsWithBang mark && bound then (mark, reversed)
    else match reversed with
      | [] => (mark, [])
      | t :: rest => unwind position (t.text ++ mark) rest

/-- A value's tokens without the mark, and the mark's text if there is one. -/
structure Marked where
  tokens : List Token
  mark : Option String
deriving Repr

/-- Finds the mark at the end of a value: the word `!important`, or `important` behind a lone
exclamation mark. -/
def findMark (ts : List Token) : Marked :=
  let (body, filler) := Token.cutEnd Token.isFiller ts
  match body.getLast? with
  | none => ⟨ts, none⟩
  | some word =>
    if lower word.text = "!important" then
      let (value, spaces) := Token.cutEnd Token.isSpace body.dropLast
      ⟨value, some (Token.concat spaces ++ Token.concat (word :: filler))⟩
    else if lower word.text = "important" then
      let (mark, reversed) := unwind (body.length - 1) "" ts.reverse
      if startsWithBang mark then ⟨reversed.reverse, some mark⟩ else ⟨ts, none⟩
    else ⟨ts, none⟩

/-! ## Forgotten semicolons -/

/-- The tokens before the first colon outside of parentheses, with the last one first; `none` when
there is no such colon. A colon behind the word `progid` does not count, a colon at the front is a
fault. -/
def beforeColon : (depth : Int) → (seen : List Token) → (prev : Option Token) → List Token →
    Except ParseFault (Option (List Token))
  | _, _, _, [] => .ok none
  | depth, seen, prev, t :: rest =>
    if t.kind = .openParen then beforeColon (depth + 1) (t :: seen) (some t) rest
    else if t.kind = .closeParen then beforeColon (depth - 1) (t :: seen) (some t) rest
    else if t.kind = .colon && depth = 0 then
      match prev with
      | none => .error ⟨.doubleColon, t.first, some (t.first + 1)⟩
      | some p =>
        if p.kind = .word && p.text = "progid" then beforeColon depth (t :: seen) prev rest
        else .ok (some seen)
    else beforeColon depth (t :: seen) (some t) rest

/-- The second token that is no blank, of tokens from the last to the first; the last one looked
at when there are fewer. -/
def secondSolid : (found : Nat) → (target : Option Token) → List Token → Option Token
  | _, target, [] => target
  | found, _, t :: rest =>
    if t.isSpace then secondSolid found (some t) rest
    else if found = 1 then some t
    else secondSolid (found + 1) (some t) rest

/-- Refuses a value that holds another declaration. -/
def checkSemicolon (ts : List Token) : Except ParseFault Unit := do
  match ← beforeColon 0 [] none ts with
  | none => return ()
  | some seen =>
    match secondSolid 0 none seen with
    | none => return ()
    | some t =>
      throw ⟨.missedSemicolon, if t.kind = .word then t.last + 1 else t.first, none⟩

/-! ## The whole declaration -/

/-- The offset of the last character of a run of tokens. -/
def lastOffset (ts : List Token) : Option Nat := ts.getLast?.map Token.last

/-- Reads a declaration from its tokens, which the semicolon `closing` may follow. `spaces` stands
before it; `custom` says that it is a custom property, whose value is kept to the last blank. -/
def parse (spaces : String) (ts : List Token) (closing : Option Token) (custom : Bool) :
    Except ParseFault Parsed := do
  let (before, ts') ← leading spaces ts
  let (hack, prop) := splitHack (Token.concat (ts'.takeWhile fun t => !endsProp t))
  let (between, ts') ← separator "" (ts'.dropWhile fun t => !endsProp t)
  let filler := ts'.takeWhile Token.isFiller
  let ⟨value, mark⟩ := findMark (ts'.dropWhile Token.isFiller)
  let solid := value.any fun t => !t.isFiller
  let between := if solid then between ++ Token.concat filler else between
  let raws : Raws := Raws.empty.setText "before" (before ++ hack)
  let raws := match mark with
    | some m => if m = " !important" then raws else raws.setText "important" m
    | none => raws
  let raws := raws.setText "between" between
  let (text, raws) :=
    cleanInto raws "value" (!custom) (if solid then value else filler ++ value)
  if !custom && text.toList.contains ':' then checkSemicolon value
  let first := (ts.dropWhile fun t => t.kind ≠ .word).head?.map Token.first
  return {
    data := .declaration prop text mark.isSome
    raws
    start := first.getD 0
    last := lastOffset (ts ++ closing.toList) }

end Stylesheet.Declaration
