import Stylesheet.Proofs.Token.Tiling

/-!
# Texts that are spelled out

A text can be written down token by token: a `Spelling` is the kind of a token and its text.
`Lexer.tokens_of_cutOff`: if each of the pieces is cut off where it stands (`CutOff`), the lexer
finds these tokens in the text and no others; `Lexer.tokens_of_cutOff_append` reads pieces in front
of any text, so that a statement can be looked at wherever it stands. What words, blanks and marks
need behind them for that is said by the lemmas below.
-/

set_option autoImplicit false

namespace Stylesheet

/-! ## Words -/

/-- Whether a text is a word of lower-case letters. -/
def isWord (s : String) : Bool := !s.toList.isEmpty && s.toList.all Char.isLower

/-- A property of lower-case letters, shown letter by letter. -/
theorem of_isLower {q : Char → Bool} (hq : ∀ n < 26, q (Char.ofNat (97 + n)) = true) {c : Char}
    (h : c.isLower = true) : q c = true := by
  have hle : 97 ≤ c.toNat ∧ c.toNat ≤ 122 := by
    simpa [UInt32.le_iff_toNat_le, ← Char.toNat_val] using
      show (decide (c.val ≥ 'a'.val) && decide (c.val ≤ 'z'.val)) = true from h
  have := hq (c.toNat - 97) (by omega)
  rwa [show 97 + (c.toNat - 97) = c.toNat by omega, Char.ofNat_toNat] at this

theorem isWord_iff {s : String} :
    isWord s = true ↔ ∃ c cs, s.toList = c :: cs ∧ ∀ d ∈ c :: cs, d.isLower = true := by
  unfold isWord
  cases s.toList with
  | nil => simp
  | cons c cs =>
    constructor
    · exact fun h => ⟨c, cs, rfl, by simpa using h⟩
    · rintro ⟨d, ds, he, h⟩
      rw [← he] at h
      simpa using h

theorem not_mem_of_isWord {s : String} (hs : isWord s = true) {c : Char}
    (hc : c.isLower = false) : c ∉ s.toList := by
  obtain ⟨d, ds, hd, hall⟩ := isWord_iff.1 hs
  intro hmem
  rw [hall c (hd ▸ hmem)] at hc
  cases hc

/-! ## Tokens -/

/-- The kind of a token and its text. -/
abbrev Spelling := TokenKind × String

namespace Spelling

/-- The text of tokens. -/
def chars (ss : List Spelling) : List Char := ss.flatMap (·.2.toList)

@[simp] theorem chars_nil : chars [] = [] := rfl

@[simp] theorem chars_cons (s : Spelling) (ss : List Spelling) :
    chars (s :: ss) = s.2.toList ++ chars ss := rfl

@[simp] theorem chars_append (ss ts : List Spelling) : chars (ss ++ ts) = chars ss ++ chars ts :=
  List.flatMap_append

end Spelling

/-- The kind of a token and its text. -/
def Token.spelling (t : Token) : Spelling := (t.kind, t.text)

namespace Lexer

/-- Whatever stands before it, the lexer cuts this token off the text in front of `rest`. -/
def Cuts (s : Spelling) (rest : List Char) : Prop :=
  ∃ c cs, s.2.toList = c :: cs ∧ c ≠ '(' ∧
    ∀ word, cut word c (cs ++ rest) = .ok ⟨s.1, c :: cs, rest⟩

/-- Each of the tokens is cut off where it stands. -/
def CutOff : List Spelling → List Char → Prop
  | [], _ => True
  | s :: ss, rest => Cuts s (Spelling.chars ss ++ rest) ∧ CutOff ss rest

theorem cutOff_append {ss ts : List Spelling} {rest : List Char} :
    CutOff (ss ++ ts) rest ↔ CutOff ss (Spelling.chars ts ++ rest) ∧ CutOff ts rest := by
  induction ss with
  | nil => simp [CutOff]
  | cons s ss ih => simp [CutOff, ih, and_assoc]

theorem spelling_tokenAt {s : Spelling} {cs : List Char} (hs : s.2.toList = cs) (offset : Nat) :
    (tokenAt offset s.1 cs).spelling = s := by
  subst hs
  exact Prod.ext rfl String.ofList_toList

/-- **Pieces in front of any text** are read as the tokens that they are spelled with; then the text
is read on. -/
theorem tokens_of_cutOff_append {ss : List Spelling} {more : List Char} {l : Lexer}
    (hl : l.returned = []) (hr : l.rest = Spelling.chars ss ++ more) (h : CutOff ss more) :
    ∃ (ts : List Token) (l' : Lexer), ts.map Token.spelling = ss ∧
      l.tokens = (ts ++ l'.tokens.1, l'.tokens.2) ∧ l'.returned = [] ∧ l'.rest = more := by
  induction ss generalizing l with
  | nil => exact ⟨[], l, rfl, rfl, hl, hr⟩
  | cons s ss ih =>
    obtain ⟨⟨c, cs, hs, hc, hcut⟩, h⟩ := h
    rw [Spelling.chars_cons, hs, List.append_assoc, List.cons_append] at hr
    have hnext := next_of_cut hl hr (hcut _)
    obtain ⟨ts, l', hts, htokens, hl', hr'⟩ := @ih (l.behind c ⟨s.1, c :: cs, _⟩) rfl rfl h
    refine ⟨tokenAt l.offset s.1 (c :: cs) :: ts, l', ?_, ?_, hl', hr'⟩
    · rw [List.map_cons, hts, spelling_tokenAt hs]
    · rw [tokens_some hnext, htokens]
      rfl

/-- **The tokens of a text that is spelled out** are those it is spelled with. -/
theorem tokens_of_cutOff {ss : List Spelling} {l : Lexer} (hl : l.returned = [])
    (hr : l.rest = Spelling.chars ss) (h : CutOff ss []) :
    l.tokens.1.map Token.spelling = ss ∧ l.tokens.2 = none := by
  obtain ⟨ts, l', rfl, htokens, hl', hr'⟩ :=
    tokens_of_cutOff_append hl (hr.trans (List.append_nil _).symm) h
  rw [htokens, tokens_of_rest_nil hl' hr', List.append_nil]
  exact ⟨rfl, rfl⟩

/-! ## What is cut off where -/

/-- A character that ends words is not part of one. -/
theorem cutWord_of_endsWord {rest : List Char} (hrest : ∀ c ∈ rest.head?, endsWord c = true) :
    cutWord rest = ([], rest) := by
  cases rest with
  | nil => rfl
  | cons c rest => simp [cutWord, hrest c rfl]

theorem cutWord_append_of_cutWord {cs rest : List Char}
    (hcs : ∀ c ∈ cs, endsWord c = false ∧ c ≠ '/') (hrest : cutWord rest = ([], rest)) :
    cutWord (cs ++ rest) = (cs, rest) := by
  induction cs with
  | nil => exact hrest
  | cons c cs ih =>
    obtain ⟨⟨hc, hslash⟩, hcs⟩ := List.forall_mem_cons.1 hcs
    simp [cutWord, hc, hslash, ih hcs]

theorem cutComment_append_of_ne {cs rest : List Char} (hcs : ∀ c ∈ cs, c ≠ '*') :
    cutComment (cs ++ '*' :: '/' :: rest) = some (cs ++ ['*', '/'], rest) := by
  induction cs with
  | nil => simp [cutComment]
  | cons c cs ih =>
    obtain ⟨hc, hcs⟩ := List.forall_mem_cons.1 hcs
    simp [cutComment, hc, ih hcs]

variable {rest : List Char}

theorem cuts_space {s : String} (hne : s ≠ "") (hs : ∀ c ∈ s.toList, isSpace c = true)
    (hrest : ∀ c ∈ rest.head?, isSpace c = false) : Cuts (.space, s) rest := by
  cases h : s.toList with
  | nil => exact absurd (String.toList_eq_nil_iff.1 h) hne
  | cons c cs =>
    rw [h] at hs
    obtain ⟨hc, hcs⟩ := List.forall_mem_cons.1 hs
    refine ⟨c, cs, h, ?_, fun word => IsCut.cut_eq (.space hc (cutBefore_eq_iff.2 ⟨?_, ?_⟩))⟩
    · rintro rfl
      cases hc
    · simpa using hcs
    · simpa using hrest

theorem cuts_punctuation {c : Char} {kind : TokenKind} {s : String} (hs : s.toList = [c])
    (hk : punctuation c = some kind) : Cuts (kind, s) rest := by
  refine ⟨c, [], hs, ?_, fun word => IsCut.cut_eq (.mark hk)⟩
  rintro rfl
  cases hk

/-- The characters that a word can start with. -/
def startsWord (c : Char) : Bool :=
  !isSpace c && (punctuation c).isNone && c ≠ '(' && c ≠ '\'' && c ≠ '"' && c ≠ '@' && c ≠ '\\' &&
    c ≠ '/'

theorem startsWord_iff {c : Char} :
    startsWord c = true ↔ startsToken c = false ∧ c ≠ '/' := by
  simp [startsWord, startsToken, and_assoc]

/-- A word is cut off before anything that ends words, a comment too. -/
theorem cuts_plain {s : String} {c : Char} {cs : List Char} (hs : s.toList = c :: cs)
    (hc : startsWord c = true) (hcs : ∀ d ∈ cs, endsWord d = false ∧ d ≠ '/')
    (hrest : cutWord rest = ([], rest)) : Cuts (.word, s) rest := by
  obtain ⟨hother, hslash⟩ := startsWord_iff.1 hc
  refine ⟨c, cs, hs, ?_, fun word => IsCut.cut_eq
    (.word hother (absurd · hslash) (cutWord_append_of_cutWord hcs hrest))⟩
  rintro rfl
  cases hc

theorem cuts_word {s : String} {c : Char} {cs : List Char} (hs : s.toList = c :: cs)
    (hc : startsWord c = true) (hcs : ∀ d ∈ cs, d.isLower = true)
    (hrest : ∀ d ∈ rest.head?, endsWord d = true) : Cuts (.word, s) rest := by
  refine cuts_plain hs hc (fun d hd => ?_) (cutWord_of_endsWord hrest)
  simpa using @of_isLower (fun d => !endsWord d && d ≠ '/') (by decide) d (hcs d hd)

/-- A word of lower-case letters is cut off before any character that ends words. -/
theorem cuts_isWord {s : String} (hs : isWord s = true)
    (hrest : ∀ d ∈ rest.head?, endsWord d = true) : Cuts (.word, s) rest := by
  obtain ⟨c, cs, hs, hall⟩ := isWord_iff.1 hs
  obtain ⟨hc, hcs⟩ := List.forall_mem_cons.1 hall
  exact cuts_word hs (@of_isLower startsWord (by decide) c hc) hcs hrest

theorem cuts_atWord {s : String} (hs : isWord s = true)
    (hrest : ∀ d ∈ rest.head?, endsAtWord d = true) : Cuts (.atWord, "@" ++ s) rest := by
  obtain ⟨c, cs, hs, hall⟩ := isWord_iff.1 hs
  have hplain : ∀ d ∈ c :: cs, endsAtWord d = false := fun d hd => by
    simpa using @of_isLower (fun d => !endsAtWord d) (by decide) d (hall d hd)
  exact ⟨'@', c :: cs, by simp [hs], by decide, fun word =>
    IsCut.cut_eq (.atWord (cutBefore_eq_iff.2 ⟨hplain, hrest⟩))⟩

theorem cuts_commentText {s : String} {cs : List Char} (hs : s.toList = '/' :: '*' :: cs)
    (hcs : cutComment cs = some (cs, [])) : Cuts (.comment, s) rest :=
  ⟨'/', '*' :: cs, hs, by decide, fun word => IsCut.cut_eq (.comment (cutComment_more hcs rest))⟩

theorem cuts_comment {s : String} (hs : isWord s = true) :
    Cuts (.comment, "/* " ++ s ++ " */") rest := by
  obtain ⟨c, cs, hs, hall⟩ := isWord_iff.1 hs
  have hplain : ∀ d ∈ ' ' :: (c :: cs ++ [' ']), d ≠ '*' := by
    intro d hd
    rcases List.mem_cons.1 hd with rfl | hd
    · decide
    rcases List.mem_append.1 hd with hd | hd
    · simpa using @of_isLower (· ≠ '*') (by decide) d (hall d hd)
    · rw [List.mem_singleton.1 hd]
      decide
  exact cuts_commentText (by simp [hs]) (cutComment_append_of_ne hplain)

end Lexer

end Stylesheet
