import Stylesheet.Parser.Basic
import Stylesheet.Proofs.Token.Rules

/-!
# The tokens of a text tile it

`tokens_tiled`: every token starts where the one before it ends and has the shape of its kind
(`Token.Shaped`). `chars_tokens`: without a lexical fault the tokens make up the whole text. The
parser needs both: the text for what it prints, the offsets for where nodes stand.
-/

set_option autoImplicit false

namespace Stylesheet

open Stylesheet.Text

/-! ## The shape of a token -/

/-- The lexer's blanks are blank for the trimming of texts too. -/
theorem isBlank_of_isSpace {c : Char} (h : Lexer.isSpace c = true) : isBlank c = true := by
  simp only [Lexer.isSpace, Bool.or_eq_true, decide_eq_true_eq] at h
  rcases h with (((rfl | rfl) | rfl) | rfl) | rfl <;> decide

/-- The characters of a token. -/
def Token.chars (t : Token) : List Char := t.text.toList

/-- The character of the tokens that are single characters, whatever stands behind them. -/
def TokenKind.mark? : TokenKind → Option Char
  | .openSquare => some '['
  | .closeSquare => some ']'
  | .openCurly => some '\x7b'
  | .closeCurly => some '\x7d'
  | .colon => some ':'
  | .semicolon => some ';'
  | .closeParen => some ')'
  | _ => none

/-- What the kind of a token says about its characters. -/
structure Token.Shaped (t : Token) : Prop where
  solid : t.chars ≠ []
  space : t.kind = .space → ∀ c ∈ t.chars, Lexer.isSpace c = true
  comment : t.kind = .comment → ∃ inner, t.chars = '/' :: '*' :: (inner ++ ['*', '/'])
  atWord : t.kind = .atWord → ∃ name, t.chars = '@' :: name
  mark : ∀ c, t.kind.mark? = some c → t.chars = [c]
  /-- Only blanks end a line. -/
  line : t.kind ≠ .space → t.chars.getLast? ≠ some '\n'

/-- The token stands at a byte offset. -/
structure Token.At (offset : Nat) (t : Token) : Prop where
  first : t.first = offset
  last : t.last = offset + byteSize t.chars.dropLast
  shaped : t.Shaped

/-- The tokens follow one another from a byte offset on. -/
def Tiled : Nat → List Token → Prop
  | _, [] => True
  | offset, t :: ts => t.At offset ∧ Tiled (offset + byteSize t.chars) ts

/-- The characters of a run of tokens. -/
def tokenChars (ts : List Token) : List Char := ts.flatMap Token.chars

@[simp] theorem tokenChars_nil : tokenChars [] = [] := rfl

@[simp] theorem tokenChars_cons (t : Token) (ts : List Token) :
    tokenChars (t :: ts) = t.chars ++ tokenChars ts := rfl

@[simp] theorem tokenChars_append (ts us : List Token) :
    tokenChars (ts ++ us) = tokenChars ts ++ tokenChars us := List.flatMap_append

@[simp] theorem toList_concat (ts : List Token) : (Token.concat ts).toList = tokenChars ts := by
  induction ts with
  | nil => rfl
  | cons t ts ih =>
    rw [Token.concat] at ih ⊢
    simp [String.join_cons, ih, Token.chars]

theorem tiled_append {offset : Nat} {ts us : List Token} :
    Tiled offset (ts ++ us) ↔ Tiled offset ts ∧ Tiled (offset + byteSize (tokenChars ts)) us := by
  induction ts generalizing offset with
  | nil => simp [Tiled]
  | cons t ts ih => simp [Tiled, ih, and_assoc, Nat.add_assoc]

theorem Tiled.shaped {offset : Nat} {ts : List Token} (h : Tiled offset ts) {t : Token}
    (ht : t ∈ ts) : t.Shaped := by
  induction ts generalizing offset with
  | nil => simp at ht
  | cons u ts ih =>
    rcases List.mem_cons.1 ht with rfl | ht
    · exact h.1.shaped
    · exact ih h.2 ht

/-- The last token ends where the run ends. -/
theorem Tiled.last {offset : Nat} {ts : List Token} (h : Tiled offset ts) {t : Token}
    (ht : ts.getLast? = some t) : t.last = offset + byteSize (tokenChars ts).dropLast := by
  obtain ⟨us, rfl⟩ := List.getLast?_eq_some_iff.1 ht
  obtain ⟨-, hat, -⟩ := tiled_append.1 h
  have hne : t.chars ≠ [] := hat.shaped.solid
  rw [tokenChars_append, tokenChars_cons, tokenChars_nil, List.append_nil,
    List.dropLast_append_of_ne_nil hne, byteSize_append, hat.last, Nat.add_assoc]

/-- The run ends in what its last token ends in. -/
theorem Tiled.getLast? {offset : Nat} {ts : List Token} (h : Tiled offset ts) {t : Token}
    (ht : ts.getLast? = some t) : (tokenChars ts).getLast? = t.chars.getLast? := by
  obtain ⟨us, rfl⟩ := List.getLast?_eq_some_iff.1 ht
  obtain ⟨-, hat, -⟩ := tiled_append.1 h
  obtain ⟨c, hc⟩ := Option.ne_none_iff_exists'.1
    (mt List.getLast?_eq_none_iff.1 hat.shaped.solid)
  rw [tokenChars_append, tokenChars_cons, tokenChars_nil, List.append_nil, List.getLast?_append,
    hc, Option.some_or]

namespace Lexer

/-! ## The shape of a cut -/

theorem cutWord_not {cs : List Char} {c : Char} (h : c ∈ (cutWord cs).1) :
    endsWord c = false := by
  induction cs with
  | nil => simp [cutWord] at h
  | cons d rest ih =>
    rw [cutWord] at h
    split at h
    · simp at h
    · next hd =>
      rcases List.mem_cons.1 h with rfl | h
      · simp only [Bool.or_eq_true, not_or] at hd
        simpa using hd.1
      · exact ih h

/-- A cut that a line break would have stopped holds none. -/
theorem ne_newline {stop : Char → Bool} {d : Char} (hs : stop '\n' = true) (hd : stop d = false) :
    d ≠ '\n' := by
  rintro rfl
  simp [hs] at hd

/-- An escape does not reach beyond its line. -/
theorem IsEscape.ne_newline {a b : List Char} (h : IsEscape a b) {c : Char} (hc : c ∈ a) :
    c ≠ '\n' := by
  have hslash {d : Char} (hd : d = '\\') : d ≠ '\n' := by
    rintro rfl
    cases hd
  have hdigit {d : Char} (hd : isHexDigit d = true) : d ≠ '\n' := by
    rintro rfl
    cases hd
  cases h with
  | run ha => exact hslash (ha c hc)
  | char ha _ _ hsolid =>
    rcases List.mem_append.1 hc with hc | hc
    · exact hslash (ha c hc)
    · obtain rfl := List.mem_singleton.1 hc
      rintro rfl
      cases hsolid
  | number ha _ hfirst hdigits =>
    rw [List.mem_append, List.mem_cons] at hc
    rcases hc with hc | rfl | hc
    · exact hslash (ha c hc)
    · exact hdigit hfirst
    · exact hdigit (hdigits c hc)
  | spaced ha _ hfirst hdigits =>
    rw [List.mem_append, List.mem_cons, List.mem_append, List.mem_singleton] at hc
    rcases hc with hc | rfl | hc | rfl
    · exact hslash (ha c hc)
    · exact hdigit hfirst
    · exact hdigit (hdigits c hc)
    · decide

theorem mark?_punctuation {c : Char} {kind : TokenKind} (h : punctuation c = some kind) :
    kind.mark? = some c := by
  unfold punctuation at h
  repeat' split at h
  all_goals first
    | (obtain rfl := Option.some.inj h; subst c; rfl)
    | cases h

theorem getLast?_ne_newline {cs : List Char} (h : ∀ c ∈ cs, c ≠ '\n') :
    cs.getLast? ≠ some '\n' :=
  fun hc => h _ (List.mem_of_getLast? hc) rfl

@[simp] theorem chars_tokenAt (offset : Nat) (kind : TokenKind) (cs : List Char) :
    (tokenAt offset kind cs).chars = cs := by
  simp [tokenAt, Token.chars]

theorem tokenAt_shaped {offset : Nat} {kind : TokenKind} {c : Char} {cs : List Char}
    (hs : kind = .space → ∀ d ∈ c :: cs, isSpace d = true) (hc : kind ≠ .comment)
    (ha : kind = .atWord → c = '@') (hm : kind.mark? = none)
    (hl : kind ≠ .space → (c :: cs).getLast? ≠ some '\n') :
    (tokenAt offset kind (c :: cs)).Shaped where
  solid := by simp
  space h := by simpa using hs h
  comment h := absurd h hc
  atWord h := ⟨cs, by simp [ha h]⟩
  mark d h := by simp [tokenAt, hm] at h
  line h := by simpa using hl h

theorem punctuation_shaped {offset : Nat} {kind : TokenKind} {c : Char}
    (hp : punctuation c = some kind) : (tokenAt offset kind [c]).Shaped where
  solid := by simp
  space h := by
    obtain rfl : kind = .space := h
    cases mark?_punctuation hp
  comment h := by
    obtain rfl : kind = .comment := h
    cases mark?_punctuation hp
  atWord h := by
    obtain rfl : kind = .atWord := h
    cases mark?_punctuation hp
  mark d hd := by
    have hd : kind.mark? = some d := hd
    rw [mark?_punctuation hp] at hd
    cases hd
    simp
  line _ := by simpa using ne_newline (by decide) (isSpace_of_punctuation hp)

theorem comment_shaped {offset : Nat} {inner : List Char} :
    (tokenAt offset .comment ('/' :: '*' :: (inner ++ ['*', '/']))).Shaped where
  solid := by simp
  space h := by simp [tokenAt] at h
  comment _ := ⟨inner, by simp⟩
  atWord h := by simp [tokenAt] at h
  mark d h := by simp [tokenAt, TokenKind.mark?] at h
  line _ := by simp [List.getLast?_cons]

variable {word : String} {kind : TokenKind} {c : Char} {a b : List Char}

/-- A token has the shape of its kind. -/
theorem IsCut.shaped (h : IsCut word kind c a b) (offset : Nat) :
    (tokenAt offset kind (c :: a)).Shaped := by
  -- a token of which the last character is known, and one that stays on its line
  have hends {d : Char} (hd : d ≠ '\n') (hl : a.getLast? = some d) :
      (c :: a).getLast? ≠ some '\n' := by
    simpa [List.getLast?_cons, hl] using hd
  have hwithin (hc : c ≠ '\n') (ha : ∀ d ∈ a, d ≠ '\n') : (c :: a).getLast? ≠ some '\n' :=
    getLast?_ne_newline (List.forall_mem_cons.2 ⟨hc, ha⟩)
  cases h with
  | space hc hcut =>
    refine tokenAt_shaped (fun _ => List.forall_mem_cons.2 ⟨hc, ?_⟩) nofun nofun rfl (absurd rfl)
    simpa using (cutBefore_eq_iff.1 hcut).1
  | mark hp => exact punctuation_shaped hp
  | url _ _ hcut =>
    exact tokenAt_shaped nofun nofun nofun rfl fun _ =>
      hends (by decide) (cutUnescaped_getLast? hcut)
  | brackets _ hcut =>
    obtain ⟨inner, rfl, -⟩ := cutBrackets_eq_some_iff.1 hcut
    exact tokenAt_shaped nofun nofun nofun rfl fun _ => hends (by decide) List.getLast?_concat
  | openParen => exact tokenAt_shaped nofun nofun nofun rfl fun _ => by simp
  | string hquote hcut =>
    refine tokenAt_shaped nofun nofun nofun rfl fun _ => hends ?_ (cutUnescaped_getLast? hcut)
    rcases hquote with rfl | rfl <;> decide
  | atWord hcut =>
    refine tokenAt_shaped nofun nofun (fun _ => rfl) rfl fun _ => hwithin (by decide) fun d hd => ?_
    exact ne_newline (by decide) ((cutBefore_eq_iff.1 hcut).1 d hd)
  | escape hcut =>
    exact tokenAt_shaped nofun nofun nofun rfl fun _ =>
      hwithin (by decide) fun d hd => hcut.ne_newline hd
  | comment hcut =>
    obtain ⟨inner, rfl⟩ := cutComment_end hcut
    exact comment_shaped
  | word hother _ hcut =>
    refine tokenAt_shaped nofun nofun nofun rfl fun _ =>
      hwithin (ne_newline (by decide) hother) fun d hd => ?_
    exact ne_newline (by decide) (cutWord_not (by rw [hcut]; exact hd))

/-- Only blanks start with a blank. -/
theorem IsCut.kind_eq_space_iff (h : IsCut word kind c a b) :
    kind = .space ↔ isSpace c = true := by
  constructor
  · rintro rfl
    exact (h.shaped 0).space rfl c (by simp)
  · intro hc
    have hcut := h.cut_eq
    rw [cut, if_pos hc] at hcut
    exact (congrArg Cut.kind (Except.ok.inj hcut)).symm

/-- No blank stands behind blanks. -/
theorem IsCut.space_stops (h : IsCut word .space c a b) : ∀ d ∈ b.head?, isSpace d = false := by
  cases h with
  | space _ hcut => simpa using (cutBefore_eq_iff.1 hcut).2
  | mark hp => cases mark?_punctuation hp

/-- What was cut off has the shape of its kind. -/
theorem cut_shaped {rest : List Char} {r : Cut} (h : cut word c rest = .ok r) (offset : Nat) :
    (tokenAt offset r.kind r.chars).Shaped := by
  obtain ⟨_, _, _, -, rfl, hcut⟩ := exists_isCut h
  exact hcut.shaped offset

/-! ## All tokens -/

/-- The lexer behind a cut. -/
def behind (l : Lexer) (c : Char) (r : Cut) : Lexer :=
  ⟨r.rest, l.offset + byteSize r.chars, keptWords r (usedWords c l.words), []⟩

theorem next_of_cut {l : Lexer} {c : Char} {rest : List Char} {r : Cut} (hl : l.returned = [])
    (hr : l.rest = c :: rest)
    (hc : cut (l.words.head?.getD "") c rest = .ok r) :
    l.next = (.ok (some (tokenAt l.offset r.kind r.chars)), l.behind c r) := by
  unfold next
  rw [hl, hr]
  simp only [hc]
  rfl

/-- A lexer that hands out a token has cut it off. -/
theorem exists_cut {l l' : Lexer} {t : Token} (hl : l.returned = [])
    (h : l.next = (.ok (some t), l')) : ∃ c rest r, l.rest = c :: rest ∧
      cut (l.words.head?.getD "") c rest = .ok r ∧
      t = tokenAt l.offset r.kind r.chars ∧ l' = l.behind c r := by
  unfold next at h
  rw [hl] at h
  simp only at h
  split at h
  · cases h
  · next c rest hr =>
    split at h
    · cases h
    · next r hc =>
      cases h
      exact ⟨c, rest, r, hr, hc, rfl, rfl⟩

/-- One step of the lexer takes a token off the text. -/
theorem next_some {l l' : Lexer} {t : Token} (hl : l.returned = [])
    (h : l.next = (.ok (some t), l')) :
    t.At l.offset ∧ l'.returned = [] ∧ l'.offset = l.offset + byteSize t.chars ∧
      t.chars ++ l'.rest = l.rest := by
  obtain ⟨c, rest, r, hr, hc, rfl, rfl⟩ := exists_cut hl h
  refine ⟨⟨rfl, ?_, cut_shaped hc _⟩, rfl, ?_, ?_⟩
  · simp [tokenAt, Token.chars]
  · rw [chars_tokenAt]
    rfl
  · rw [chars_tokenAt, hr]
    exact (cut_append hc).1

theorem next_none {l l' : Lexer} (hl : l.returned = []) (h : l.next = (.ok none, l')) :
    l.rest = [] := by
  unfold next at h
  rw [hl] at h
  simp only at h
  split at h
  · assumption
  · split at h <;> cases h

theorem tokens_some {l l' : Lexer} {t : Token} (h : l.next = (.ok (some t), l')) :
    l.tokens = (t :: l'.tokens.1, l'.tokens.2) := by
  rw [tokens]
  split <;> simp_all

theorem tokens_none {l l' : Lexer} (h : l.next = (.ok none, l')) : l.tokens = ([], none) := by
  rw [tokens]
  split <;> simp_all

theorem tokens_of_rest_nil {l : Lexer} (hl : l.returned = []) (hr : l.rest = []) :
    l.tokens = ([], none) := by
  have hnext : l.next = (.ok none, l) := by
    unfold next
    rw [hl, hr]
  exact tokens_none hnext

theorem tokens_error {l l' : Lexer} {e : LexError} (h : l.next = (.error e, l')) :
    l.tokens = ([], some e) := by
  rw [tokens]
  split <;> simp_all

/-- The tokens follow one another from where the lexer stands. -/
theorem tokens_tiled (l : Lexer) (hl : l.returned = []) : Tiled l.offset l.tokens.1 := by
  induction l using tokens.induct with
  | case1 l l' h => rw [tokens_none h]; trivial
  | case2 l e l' h => rw [tokens_error h]; trivial
  | case3 l t l' h _ _ _ _ ih =>
    obtain ⟨hat, hl', ho, -⟩ := next_some hl h
    rw [tokens_some h]
    exact ⟨hat, ho ▸ ih hl'⟩

/-- Without a fault the tokens make up the text. -/
theorem chars_tokens (l : Lexer) (hl : l.returned = []) (h : l.tokens.2 = none) :
    tokenChars l.tokens.1 = l.rest := by
  induction l using tokens.induct with
  | case1 l l' hn => rw [tokens_none hn, next_none hl hn]; rfl
  | case2 l e l' hn => rw [tokens_error hn] at h; cases h
  | case3 l t l' hn _ _ _ _ ih =>
    obtain ⟨-, hl', -, hr⟩ := next_some hl hn
    rw [tokens_some hn] at h ⊢
    rw [tokenChars_cons, ih hl' h, hr]

end Lexer

end Stylesheet
