import Stylesheet.Parser.Declaration
import Stylesheet.Parser.Statement

/-!
# The parser

`Parser.parse` reads a text into a tree of `Parsed` nodes. It keeps the blocks that are open, the
innermost first, and adds each statement to the innermost one. Every byte of the text goes into
exactly one place of the tree: a name, a value, or the formatting of a node.
-/

set_option autoImplicit false

namespace Stylesheet

/-- A block that is open, with the statements in it, the latest first. -/
structure OpenBlock where
  node : Parsed
  reversed : List (Tree Parsed)

namespace OpenBlock

/-- Adds a statement at the end. -/
def push (b : OpenBlock) (t : Tree Parsed) : OpenBlock := { b with reversed := t :: b.reversed }

/-- The finished block. The blanks before its end belong to it, and the statements know whether
the last of them ends in a semicolon. -/
def close (b : OpenBlock) (spaces : String) (semicolon : Bool) (last : Option Nat) : Tree Parsed :=
  let raws := if b.reversed.isEmpty then b.node.raws
    else b.node.raws.set "semicolon" (.flag semicolon)
  .block { b.node with raws := raws.setText "after" spaces, last } b.reversed.reverse

end OpenBlock

/-- Where the parser stands: the open blocks (the innermost and those around it), the blanks since
the last statement, and whether that statement ended in a semicolon. -/
structure Parser where
  current : OpenBlock
  outer : List OpenBlock
  spaces : String
  semicolon : Bool

namespace Parser

/-- The start of a text: only the root is open. -/
def start : Parser := ⟨⟨⟨.root, Raws.empty, 0, none⟩, []⟩, [], "", false⟩

/-- Adds a statement to the innermost block; the blanks before it are used up. -/
def add (p : Parser) (t : Tree Parsed) (semicolon : Bool) : Parser :=
  { p with current := p.current.push t, spaces := "", semicolon }

/-- Opens a block inside the innermost one. -/
def enter (p : Parser) (node : Parsed) : Parser :=
  ⟨⟨node, []⟩, p.current :: p.outer, "", false⟩

/-- Closes the innermost block at the brace `t`. -/
def leave (p : Parser) (t : Token) : Except ParseFault Parser :=
  match p.outer with
  | [] => .error ⟨.unexpectedClose, t.first, some (t.first + 1)⟩
  | b :: outer =>
    .ok ⟨b.push (p.current.close p.spaces p.semicolon (some t.first)), outer, "", false⟩

/-- Closes the root at the end of the text. -/
def finish (p : Parser) : Except ParseFault (Tree Parsed) :=
  if p.outer.isEmpty then .ok (p.current.close p.spaces p.semicolon none)
  else .error ⟨.unclosedBlock, p.current.node.start, none⟩

/-! ## Statements -/

/-- A comment: its text without the blanks around it, which are kept as formatting. -/
def comment (p : Parser) (t : Token) : Parser :=
  let inner := (t.text.toList.drop 2).dropLast.dropLast
  let trimmed := Text.trimChars inner
  let (left, right) :=
    if trimmed.isEmpty then (inner, [])
    else (inner.takeWhile Text.isBlank, (inner.reverse.takeWhile Text.isBlank).reverse)
  let raws := ((Raws.empty.setText "before" p.spaces).setText "left" (String.ofList left)).setText
    "right" (String.ofList right)
  p.add (.leaf ⟨.comment (String.ofList trimmed), raws, t.first, some t.last⟩) p.semicolon

/-- A block without a selector. -/
def emptyRule (p : Parser) (t : Token) : Parser :=
  let raws := (Raws.empty.setText "before" p.spaces).setText "between" ""
  p.enter ⟨.rule "", raws, t.first, none⟩

/-- The start of a rule whose selector is `first :: more`. -/
def rule (p : Parser) (first : Token) (more : List Token) : Parser :=
  let (body, filler) := Token.cutEnd Token.isFiller (first :: more)
  let raws := (Raws.empty.setText "before" p.spaces).setText "between" (Token.concat filler)
  let (selector, raws) := cleanInto raws "selector" true body
  p.enter ⟨.rule selector, raws, first.first, none⟩

/-- A semicolon that ends no statement. One behind a rule belongs to that rule, together with the
blanks before it. -/
def freeSemicolon (p : Parser) (t : Token) : Parser :=
  let spaces := p.spaces ++ t.text
  match p.current.reversed with
  | .block node children :: earlier =>
    if node.data.kind = .rule && !node.raws.contains "ownSemicolon" then
      let node := { node with
        raws := node.raws.setText "ownSemicolon" spaces, last := some t.first }
      { p with
        current := { p.current with reversed := .block node children :: earlier }, spaces := "" }
    else { p with spaces }
  | _ => { p with spaces }

/-- A run of tokens that starts with `t` and is a declaration or the selector of a rule; the
tokens behind it are given back. -/
def run (p : Parser) (fault : Option LexError) (t : Token) (rest : List Token) :
    Except ParseFault (Parser × List Token) :=
  let custom := Text.startsWith t.text "--"
  let g := Phrase.gather custom (Phrase.Nest.start.step custom t) rest
  let declaration (ts : List Token) (closing : Option Token) : Except ParseFault Parser := do
    let d ← Declaration.parse p.spaces ts closing custom
    return p.add (.leaf d) closing.isSome
  -- blanks and comments at the end of a block belong to the block
  let last (rest : List Token) : Except ParseFault (Parser × List Token) :=
    if !g.nest.colon then .error (.unknownWord [t])
    else
      let (ts, filler) := if custom then (g.tokens, []) else Token.cutEnd Token.isFiller g.tokens
      (declaration (t :: ts) none).map (·, filler ++ rest)
  match g.ending with
  | .semicolon s =>
    if g.nest.colon then (declaration (t :: g.tokens) (some s)).map (·, g.rest)
    else .error (.unknownWord [t])
  | .openCurly _ => .ok (p.rule t g.tokens, g.rest)
  | .closeCurly => last g.rest
  | .endOfText =>
    match fault with
    | some e => .error (.ofLexError e)
    | none =>
      match g.nest.opener with
      | some b => .error ⟨.unclosedBracket, b.first, none⟩
      | none => last []

/-- An at-rule with the name in `t`; the tokens behind it are given back. -/
def atRule (p : Parser) (fault : Option LexError) (t : Token) (rest : List Token) :
    Except ParseFault (Parser × List Token) :=
  let name := t.text.toList.drop 1
  if name.isEmpty then .error ⟨.namelessAtRule, t.first, some (t.last + 1)⟩
  else
    let g := Params.gather [] .endOfName rest
    let atEnd := g.ending = .endOfName || g.ending = .endOfParams
    match if atEnd then fault else none with
    | some e => .error (.ofLexError e)
    | none =>
      let (params, filler) := Token.cutEnd Token.isFiller g.tokens
      let afterName := params.takeWhile Token.isFiller
      let params := params.dropWhile Token.isFiller
      let between := Token.concat filler
      let before := Raws.empty.setText "before" p.spaces
      -- at the end of the text what follows the parameters is left to the root
      let (text, raws, spaces) :=
        if params.isEmpty then
          ("", (before.setText "between" between).setText "afterName" "", "")
        else
          let (text, raws) :=
            cleanInto (before.setText "afterName" (Token.concat afterName)) "params" true params
          if g.ending = .endOfParams then (text, raws.setText "between" "", between)
          else (text, raws.setText "between" between, "")
      let last := match g.ending with
        | .semicolon s => some s.first
        | .closeCurly _ => (g.tokens.filter fun t => !t.isSpace).getLast?.map Token.last
        | .endOfParams => params.getLast?.map Token.last
        | _ => none
      let node : Parsed := ⟨.atRule (String.ofList name) text, raws, t.first, last⟩
      match g.ending with
      | .openCurly => .ok (p.enter node, g.rest)
      | .closeCurly c => ((p.add (.leaf node) false).leave c).map (·, g.rest)
      | .semicolon _ => .ok (p.add (.leaf node) true, g.rest)
      | _ => .ok ({ p.add (.leaf node) false with spaces }, g.rest)

/-! ## The whole text -/

theorem length_run {p p' : Parser} {fault : Option LexError} {t : Token} {rest rest' : List Token}
    (h : p.run fault t rest = .ok (p', rest')) : rest'.length ≤ rest.length := by
  unfold run at h
  simp only at h
  generalize hc : Text.startsWith t.text "--" = custom at h
  have hl := Phrase.length_gather custom (Phrase.Nest.start.step custom t) rest
  generalize Phrase.gather custom (Phrase.Nest.start.step custom t) rest = g at h hl
  have hf := Token.length_cutEnd Token.isFiller g.tokens
  have key : ∀ (rest'' : List Token), rest''.length ≤ g.rest.length →
      (∃ ts, (Except.map (fun x => (x, (if custom = true then (g.tokens, [])
        else Token.cutEnd Token.isFiller g.tokens).2 ++ rest''))
        (ts : Except ParseFault Parser)) = .ok (p', rest')) → rest'.length ≤ rest.length := by
    rintro rest'' hr ⟨ts, he⟩
    cases ts with
    | error e => simp [Except.map] at he
    | ok q =>
      simp only [Except.map, Except.ok.injEq, Prod.mk.injEq] at he
      rw [← he.2, List.length_append]
      split
      · simp only [List.length_nil]; omega
      · omega
  split at h
  · split at h
    · cases hd : Declaration.parse p.spaces (t :: g.tokens) (some ‹Token›) custom with
      | error e => simp [hd, bind, Except.bind, Except.map] at h
      | ok d =>
        simp only [hd, bind, Except.bind, Except.map, pure, Except.pure, Except.ok.injEq,
          Prod.mk.injEq] at h
        rw [← h.2]; omega
    · simp at h
  · simp only [Except.ok.injEq, Prod.mk.injEq] at h
    rw [← h.2]; omega
  · split at h
    · simp at h
    · exact key g.rest (Nat.le_refl _) ⟨_, h⟩
  · split at h
    · simp at h
    · split at h
      · simp at h
      · split at h
        · simp at h
        · exact key [] (Nat.zero_le _) ⟨_, h⟩

theorem length_atRule {p p' : Parser} {fault : Option LexError} {t : Token}
    {rest rest' : List Token} (h : p.atRule fault t rest = .ok (p', rest')) :
    rest'.length ≤ rest.length := by
  have hl := Params.length_gather [] .endOfName rest
  unfold atRule at h
  simp only at h
  generalize Params.gather [] .endOfName rest = g at h hl
  have fromMap : ∀ (x : Except ParseFault Parser),
      Except.map (·, g.rest) x = .ok (p', rest') → rest' = g.rest := by
    intro x hx
    cases x with
    | error e => simp [Except.map] at hx
    | ok q => simp only [Except.map, Except.ok.injEq, Prod.mk.injEq] at hx; exact hx.2.symm
  have hr : rest' = g.rest := by
    split at h
    · simp at h
    · split at h
      · simp at h
      · split at h
        · simp only [Except.ok.injEq, Prod.mk.injEq] at h; exact h.2.symm
        · exact fromMap _ h
        · simp only [Except.ok.injEq, Prod.mk.injEq] at h; exact h.2.symm
        · simp only [Except.ok.injEq, Prod.mk.injEq] at h; exact h.2.symm
  rw [hr]
  omega

/-- Reads the statements that tokens make up. `fault` is the error that the tokens end in. -/
def statements (fault : Option LexError) (p : Parser) (ts : List Token) :
    Except ParseFault Parser :=
  match ts with
  | [] =>
    match fault with
    | some e => .error (.ofLexError e)
    | none => .ok p
  | t :: rest =>
    match t.kind with
    | .space => statements fault { p with spaces := p.spaces ++ t.text } rest
    | .semicolon => statements fault (p.freeSemicolon t) rest
    | .closeCurly =>
      match p.leave t with
      | .error e => .error e
      | .ok p => statements fault p rest
    | .comment => statements fault (p.comment t) rest
    | .atWord =>
      match h : p.atRule fault t rest with
      | .error e => .error e
      | .ok (p, rest') =>
        have := length_atRule h
        statements fault p rest'
    | .openCurly => statements fault (p.emptyRule t) rest
    | _ =>
      match h : p.run fault t rest with
      | .error e => .error e
      | .ok (p, rest') =>
        have := length_run h
        statements fault p rest'
termination_by ts.length
decreasing_by all_goals simp only [List.length_cons]; omega

/-- Reads a text. -/
def parse (text : List Char) : Except ParseFault (Tree Parsed) := do
  let (ts, fault) := (Lexer.ofChars text).tokens
  let p ← statements fault start ts
  p.finish

end Parser

end Stylesheet
