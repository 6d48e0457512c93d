import Stylesheet.Text.Bytes
import Stylesheet.Token

/-!
# Reading tokens

`Lexer.next` reads one token; `Lexer.back` returns a token, to be read again before the text goes
on. The text is cut by `cut`, whose law `cut_append` says that nothing is lost: what was cut off
and what is left make up the text, and what was cut off is not empty. `Lexer.tokens` reads on to
the end or to the first construct that is never closed.

A parenthesis is read in the light of the words before it: behind `url` it opens a text that is
kept whole. Each parenthesis uses up one word.
-/

set_option autoImplicit false

namespace Stylesheet

open Stylesheet.Text

namespace Lexer

/-! ## Character classes -/

/-- The blanks of a stylesheet. -/
def isSpace (c : Char) : Bool :=
  c = ' ' || c = '\n' || c = '\t' || c = '\r' || c = '\x0c'

/-- Blanks, quotes, brackets, braces, backslash, `#` and `;` end names and words alike. -/
def endsAnyWord (c : Char) : Bool :=
  isSpace c || c = '"' || c = '#' || c = '\'' || c = '(' || c = ')' || c = ';' || c = '[' ||
    c = '\\' || c = ']' || c = '\x7b' || c = '\x7d'

/-- The characters that end the name of an at-rule. -/
def endsAtWord (c : Char) : Bool := endsAnyWord c || c = '/'

/-- The characters that end a word. -/
def endsWord (c : Char) : Bool := endsAnyWord c || c = '!' || c = ':' || c = '@'

/-- The characters that keep a parenthesised text from being read as one token. -/
def spoilsBrackets (c : Char) : Bool :=
  c = '\r' || c = '\n' || c = '"' || c = '\'' || c = '(' || c = '/' || c = '\\'

/-- Hexadecimal digits in ASCII. -/
def isHexDigit (c : Char) : Bool :=
  c.isDigit || ('a' ≤ c && c ≤ 'f') || ('A' ≤ c && c ≤ 'F')

/-! ## Cutting a text in two -/

/-- Cuts before the first character that `stop` accepts. -/
def cutBefore (stop : Char → Bool) : List Char → List Char × List Char
  | [] => ([], [])
  | c :: rest =>
    if stop c then ([], c :: rest)
    else let (a, b) := cutBefore stop rest; (c :: a, b)

/-- Cuts behind the first `close` that no backslash escapes; `escaped` says whether the first
character is escaped. -/
def cutUnescaped (close : Char) : Bool → List Char → Option (List Char × List Char)
  | _, [] => none
  | escaped, c :: rest =>
    if c = close && !escaped then some ([c], rest)
    else (cutUnescaped close (c = '\\' && !escaped) rest).map fun (a, b) => (c :: a, b)

/-- Cuts behind the first end mark of a comment. -/
def cutComment : List Char → Option (List Char × List Char)
  | [] => none
  | c :: rest =>
    if c = '*' && rest.head? = some '/' then some ([c, '/'], rest.tail)
    else (cutComment rest).map fun (a, b) => (c :: a, b)

/-- Cuts before the first character that ends a word or before the start of a comment. -/
def cutWord : List Char → List Char × List Char
  | [] => ([], [])
  | c :: rest =>
    if endsWord c || (c = '/' && rest.head? = some '*') then ([], c :: rest)
    else let (a, b) := cutWord rest; (c :: a, b)

/-- Cuts behind a closing parenthesis that comes before anything that spoils the brackets. -/
def cutBrackets (cs : List Char) : Option (List Char × List Char) :=
  match cutBefore (fun c => spoilsBrackets c || c = ')') cs with
  | (a, ')' :: b) => some (a ++ [')'], b)
  | _ => none

/-- Cuts behind an escape, whose first backslash is already cut off. A run of backslashes that
leaves one over takes the character that follows, unless that is blank or a slash; a hexadecimal
number is taken whole, with one space behind it. -/
def cutEscape (cs : List Char) : List Char × List Char :=
  let (slashes, after) := cutBefore (· ≠ '\\') cs
  if slashes.length % 2 = 1 then (slashes, after)
  else match after with
    | [] => (slashes, [])
    | c :: rest =>
      if c = '/' || isSpace c then (slashes, c :: rest)
      else if isHexDigit c then
        match cutBefore (fun d => !isHexDigit d) rest with
        | (digits, ' ' :: tail) => (slashes ++ c :: digits ++ [' '], tail)
        | (digits, tail) => (slashes ++ c :: digits, tail)
      else (slashes ++ [c], rest)

/-- A construct that is opened and never closed. -/
inductive Unclosed where
  | string
  | comment
  | bracket
deriving DecidableEq, Repr, Inhabited

/-- The wording of the error. -/
def Unclosed.reason : Unclosed → String
  | string => "Unclosed string"
  | comment => "Unclosed comment"
  | bracket => "Unclosed bracket"

/-- A token's kind and characters, and the text behind it. -/
structure Cut where
  kind : TokenKind
  chars : List Char
  rest : List Char
deriving DecidableEq, Repr

/-- Puts `c` before what a cut took off. -/
def Cut.ofPair (kind : TokenKind) (c : Char) (p : List Char × List Char) : Cut :=
  ⟨kind, c :: p.1, p.2⟩

/-- The single characters that are tokens whatever stands behind them. -/
def punctuation (c : Char) : Option TokenKind :=
  if c = '[' then some .openSquare
  else if c = ']' then some .closeSquare
  else if c = '\x7b' then some .openCurly
  else if c = '\x7d' then some .closeCurly
  else if c = ':' then some .colon
  else if c = ';' then some .semicolon
  else if c = ')' then some .closeParen
  else none

/-- Whether a text behind `url(` is quoted or starts with a blank; if not, it is kept whole. -/
def startsQuoted (cs : List Char) : Bool :=
  match cs with
  | c :: _ => c = '\'' || c = '"' || isSpace c
  | [] => false

/-- Cuts the token that starts with `c` off the text `c :: rest`. `word` is the word that a
parenthesis refers to. -/
def cut (word : String) (c : Char) (rest : List Char) : Except Unclosed Cut :=
  if isSpace c then .ok (.ofPair .space c (cutBefore (fun d => !isSpace d) rest))
  else match punctuation c with
    | some kind => .ok ⟨kind, [c], rest⟩
    | none =>
      if c = '(' then
        if word = "url" && !startsQuoted rest then
          match cutUnescaped ')' false rest with
          | some p => .ok (.ofPair .brackets c p)
          | none => .error .bracket
        else match cutBrackets rest with
          | some p => .ok (.ofPair .brackets c p)
          | none => .ok ⟨.openParen, [c], rest⟩
      else if c = '\'' || c = '"' then
        match cutUnescaped c false rest with
        | some p => .ok (.ofPair .string c p)
        | none => .error .string
      else if c = '@' then .ok (.ofPair .atWord c (cutBefore endsAtWord rest))
      else if c = '\\' then .ok (.ofPair .word c (cutEscape rest))
      else if c = '/' && rest.head? = some '*' then
        match cutComment rest.tail with
        | some (a, b) => .ok ⟨.comment, c :: '*' :: a, b⟩
        | none => .error .comment
      else .ok (.ofPair .word c (cutWord rest))

/-! ## Nothing is lost -/

theorem cutBefore_append (stop : Char → Bool) (cs : List Char) :
    (cutBefore stop cs).1 ++ (cutBefore stop cs).2 = cs := by
  induction cs with
  | nil => rfl
  | cons c rest ih => by_cases h : stop c <;> simp [cutBefore, h, ih]

theorem cutUnescaped_append {close : Char} {escaped : Bool} {cs a b : List Char}
    (h : cutUnescaped close escaped cs = some (a, b)) : a ++ b = cs := by
  induction cs generalizing escaped a b with
  | nil => simp [cutUnescaped] at h
  | cons c rest ih =>
    rw [cutUnescaped] at h
    split at h
    · simp only [Option.some.injEq, Prod.mk.injEq] at h
      simp [← h.1, ← h.2]
    · obtain ⟨⟨a', b'⟩, hp, he⟩ := Option.map_eq_some_iff.1 h
      simp only [Prod.mk.injEq] at he
      simp [← he.1, ← he.2, ih hp]

theorem cutComment_append {cs a b : List Char} (h : cutComment cs = some (a, b)) :
    a ++ b = cs := by
  induction cs generalizing a b with
  | nil => simp [cutComment] at h
  | cons c rest ih =>
    rw [cutComment] at h
    split at h
    · next hc =>
      simp only [Bool.and_eq_true, decide_eq_true_eq] at hc
      obtain ⟨tail, rfl⟩ : ∃ tail, rest = '/' :: tail := by
        cases rest with
        | nil => simp at hc
        | cons d tail => exact ⟨tail, by simpa using hc.2⟩
      simp only [Option.some.injEq, Prod.mk.injEq, List.tail_cons] at h
      simp [← h.1, ← h.2]
    · obtain ⟨⟨a', b'⟩, hp, he⟩ := Option.map_eq_some_iff.1 h
      simp only [Prod.mk.injEq] at he
      simp [← he.1, ← he.2, ih hp]

theorem cutWord_append (cs : List Char) : (cutWord cs).1 ++ (cutWord cs).2 = cs := by
  induction cs with
  | nil => rfl
  | cons c rest ih =>
    rw [cutWord]
    split
    · rfl
    · simp [ih]

theorem cutBrackets_append {cs a b : List Char} (h : cutBrackets cs = some (a, b)) :
    a ++ b = cs := by
  have ha := cutBefore_append (fun c => spoilsBrackets c || c = ')') cs
  rw [cutBrackets] at h
  split at h
  · next heq =>
    rw [heq] at ha
    simp only [Option.some.injEq, Prod.mk.injEq] at h
    simp [← h.1, ← h.2, ← ha]
  · simp at h

theorem cutEscape_append (cs : List Char) : (cutEscape cs).1 ++ (cutEscape cs).2 = cs := by
  have ha := cutBefore_append (· ≠ '\\') cs
  simp only [cutEscape]
  generalize cutBefore (· ≠ '\\') cs = p at ha ⊢
  obtain ⟨slashes, after⟩ := p
  simp only at ha ⊢
  split
  · exact ha
  · split
    · exact ha
    · next c rest =>
      split
      · exact ha
      · split
        · have hd := cutBefore_append (fun d => !isHexDigit d) rest
          split
          · next heq => rw [heq] at hd; simp [← ha, ← hd]
          · next heq => rw [heq] at hd; simp [← ha, ← hd]
        · simpa using ha

/-- A cut takes the token off the front of the text, and takes at least one character. -/
theorem cut_append {word : String} {c : Char} {rest : List Char} {r : Cut}
    (h : cut word c rest = .ok r) : r.chars ++ r.rest = c :: rest ∧ r.chars ≠ [] := by
  unfold cut at h
  repeat' split at h
  all_goals first
    | (simp only [reduceCtorEq] at h)
    | skip
  all_goals (simp only [Except.ok.injEq] at h; subst h; refine ⟨?_, by simp [Cut.ofPair]⟩)
  all_goals simp only [Cut.ofPair, List.cons_append, List.nil_append, List.cons.injEq, true_and]
  · exact cutBefore_append _ _
  · next h => exact cutUnescaped_append h
  · next h => exact cutBrackets_append h
  · next h => exact cutUnescaped_append h
  · exact cutBefore_append _ _
  · exact cutEscape_append _
  · next hc _ _ _ hcut =>
    simp only [Bool.and_eq_true, decide_eq_true_eq] at hc
    cases rest with
    | nil => simp at hc
    | cons d tail =>
      have hd : d = '*' := by simpa using hc.2
      simpa [hd] using cutComment_append hcut
  · exact cutWord_append _

end Lexer

/-! ## The lexer -/

/-- A text that is being read: what is left of it and where that starts, the words that a
parenthesis may refer to (the latest first), and the tokens to be read again (the latest first). -/
structure Lexer where
  rest : List Char
  offset : Nat
  words : List String
  returned : List Token
deriving Repr

/-- A construct that is opened at `offset` and never closed. -/
structure LexError where
  what : Lexer.Unclosed
  offset : Nat
deriving DecidableEq, Repr

namespace Lexer

/-- The lexer at the start of a text. -/
def ofChars (text : List Char) : Lexer := ⟨text, 0, [], []⟩

/-- Gives a token back, to be read again. -/
def back (l : Lexer) (t : Token) : Lexer := { l with returned := t :: l.returned }

/-- Whether nothing is left to read. -/
def atEnd (l : Lexer) : Bool := l.returned.isEmpty && l.rest.isEmpty

/-- The token of characters that start at `offset`. -/
def tokenAt (offset : Nat) (kind : TokenKind) (chars : List Char) : Token :=
  ⟨kind, String.ofList chars, offset, offset + byteSize chars.dropLast⟩

/-- The words left for later parentheses when the token starts with `c`. -/
def usedWords (c : Char) (words : List String) : List String :=
  if c = '(' then words.tail else words

/-- A word is kept for later parentheses, unless it is an escape. -/
def keptWords (t : Cut) (words : List String) : List String :=
  if t.kind = .word && t.chars.head? ≠ some '\\' then String.ofList t.chars :: words else words

/-- Reads the next token; `none` at the end. -/
def next (l : Lexer) : Except LexError (Option Token) × Lexer :=
  match l.returned with
  | t :: returned => (.ok (some t), { l with returned })
  | [] =>
    match l.rest with
    | [] => (.ok none, l)
    | c :: rest =>
      let words := usedWords c l.words
      match cut (l.words.head?.getD "") c rest with
      | .error what => (.error ⟨what, l.offset⟩, { l with words })
      | .ok t =>
        (.ok (some (tokenAt l.offset t.kind t.chars)),
          ⟨t.rest, l.offset + byteSize t.chars, keptWords t words, []⟩)

/-- What is left to read: tokens to be read again and characters. -/
def remaining (l : Lexer) : Nat := l.returned.length + l.rest.length

theorem remaining_next {l l' : Lexer} {t : Token} (h : l.next = (.ok (some t), l')) :
    l'.remaining < l.remaining := by
  unfold next at h
  split at h
  · next heq =>
    simp only [Prod.mk.injEq] at h
    simp [← h.2, remaining, heq]
  · next heq =>
    split at h
    · simp at h
    · next c rest hr =>
      simp only at h
      split at h
      · simp at h
      · next r hc =>
        simp only [Prod.mk.injEq] at h
        have ⟨ha, hn⟩ := cut_append hc
        have hl := congrArg List.length ha
        have := List.length_pos_iff.2 hn
        simp only [List.length_append, List.length_cons] at hl
        simp only [← h.2, remaining, heq, hr, List.length_nil, List.length_cons]
        omega

/-- Reads all tokens, up to the end or to a construct that is never closed. -/
def tokens (l : Lexer) : List Token × Option LexError :=
  match h : l.next with
  | (.ok none, _) => ([], none)
  | (.error e, _) => ([], some e)
  | (.ok (some t), l') =>
    have := remaining_next h
    let (ts, e) := tokens l'
    (t :: ts, e)
termination_by l.remaining

end Lexer

end Stylesheet
