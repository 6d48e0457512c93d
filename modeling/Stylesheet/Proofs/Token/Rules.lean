import Stylesheet.Token.Lexer

/-!
# The rules for tokens

`IsCut word kind c a b` says, by a rule for each kind of token, that `c :: a` is a token in front of
the text `b`; `word` is the word that a parenthesis refers to. `cut_eq_ok_iff`: this is what the
lexer cuts off. `IsEscape` has the rules for escapes, and `cutEscape_eq_iff` says the same of them.

`IsCut.congr` is what a token asks of the text behind it: how that text starts, and, for a
parenthesis, whether it closes a plain bracket.
-/

set_option autoImplicit false

namespace Stylesheet

namespace Lexer

variable {word : String} {kind : TokenKind} {c : Char} {cs a b b' : List Char}

/-! ## Cuts before a character -/

theorem cutBefore_eq_iff {stop : Char → Bool} : cutBefore stop (a ++ b) = (a, b) ↔
    (∀ d ∈ a, stop d = false) ∧ ∀ d ∈ b.head?, stop d = true := by
  induction a with
  | nil =>
    cases b with
    | nil => simp [cutBefore]
    | cons e b => by_cases he : stop e <;> simp [cutBefore, he]
  | cons d a ih =>
    by_cases hd : stop d
    · simp [cutBefore, hd]
    · rw [List.forall_mem_cons, and_assoc, ← ih]
      simp [cutBefore, hd, Prod.ext_iff]

theorem exists_cutBefore (stop : Char → Bool) (cs : List Char) :
    ∃ a b, cs = a ++ b ∧ cutBefore stop cs = (a, b) :=
  ⟨_, _, (cutBefore_append stop cs).symm, rfl⟩

/-! ## Escapes -/

/-- What follows the first backslash of an escape, in front of `b`. -/
inductive IsEscape : List Char → List Char → Prop
  /-- A run of backslashes that pair up, or that leave one over before a blank or a slash. -/
  | run {a b : List Char} (slashes : ∀ d ∈ a, d = '\\') (next : b.head? ≠ some '\\')
      (pairs : a.length % 2 = 1 ∨ ∀ d ∈ b.head?, (d = '/' || isSpace d) = true) : IsEscape a b
  /-- The backslash that is left over takes a character. -/
  | char {a b : List Char} {d : Char} (slashes : ∀ e ∈ a, e = '\\') (single : a.length % 2 = 0)
      (other : d ≠ '\\') (solid : (d = '/' || isSpace d) = false) (plain : isHexDigit d = false) :
      IsEscape (a ++ [d]) b
  /-- It takes a number whole. -/
  | number {a digits b : List Char} {d : Char} (slashes : ∀ e ∈ a, e = '\\')
      (single : a.length % 2 = 0) (first : isHexDigit d = true)
      (others : ∀ e ∈ digits, isHexDigit e = true)
      (next : ∀ e ∈ b.head?, isHexDigit e = false ∧ e ≠ ' ') : IsEscape (a ++ d :: digits) b
  /-- A space ends the number. -/
  | spaced {a digits b : List Char} {d : Char} (slashes : ∀ e ∈ a, e = '\\')
      (single : a.length % 2 = 0) (first : isHexDigit d = true)
      (others : ∀ e ∈ digits, isHexDigit e = true) : IsEscape (a ++ d :: (digits ++ [' '])) b

theorem isEscape_of_cutEscape (h : cutEscape cs = (a, b)) : IsEscape a b := by
  obtain ⟨slashes, after, rfl, hcut⟩ := exists_cutBefore (· ≠ '\\') cs
  obtain ⟨hall, hnext⟩ := cutBefore_eq_iff.1 hcut
  replace hall : ∀ d ∈ slashes, d = '\\' := by simpa using hall
  replace hnext : after.head? ≠ some '\\' := fun hd => by simpa using hnext _ hd
  unfold cutEscape at h
  rw [hcut] at h
  dsimp only at h
  split at h
  · next hodd =>
    cases h
    exact .run hall hnext (.inl hodd)
  next hodd =>
  have heven : slashes.length % 2 = 0 := by omega
  split at h
  · cases h
    exact .run hall hnext (.inr (by simp))
  next d rest =>
  have hd : d ≠ '\\' := by simpa using hnext
  split at h
  · next hstop =>
    cases h
    exact .run hall hnext (.inr (by simpa using hstop))
  next hsolid =>
  split at h
  · next hfirst =>
    obtain ⟨digits, tail, rfl, hdigits⟩ := exists_cutBefore (fun d => !isHexDigit d) rest
    obtain ⟨hdigits', hnext'⟩ := cutBefore_eq_iff.1 hdigits
    replace hdigits' : ∀ e ∈ digits, isHexDigit e = true := by simpa using hdigits'
    rw [hdigits] at h
    split at h
    · next heq =>
      cases heq
      cases h
      rw [List.append_assoc, List.cons_append]
      exact .spaced hall heven hfirst hdigits'
    · next hne heq =>
      cases heq
      cases h
      refine .number hall heven hfirst hdigits' fun e he => ⟨by simpa using hnext' e he, ?_⟩
      rintro rfl
      obtain ⟨tail', rfl⟩ := List.head?_eq_some_iff.1 he
      exact hne tail' rfl
  · next hplain =>
    cases h
    exact .char hall heven hd (by simpa using hsolid) (by simpa using hplain)

theorem solid_of_isHexDigit (h : isHexDigit c = true) :
    c ≠ '\\' ∧ (c = '/' || isSpace c) = false := by
  refine ⟨?_, Bool.eq_false_iff.2 fun hc => ?_⟩
  · rintro rfl
    cases h
  · simp only [isSpace, Bool.or_eq_true, decide_eq_true_eq] at hc
    rcases hc with rfl | (((rfl | rfl) | rfl) | rfl) | rfl <;> cases h

theorem IsEscape.cutEscape_eq (h : IsEscape a b) : cutEscape (a ++ b) = (a, b) := by
  have hslashes {a b : List Char} (ha : ∀ d ∈ a, d = '\\') (hb : b.head? ≠ some '\\') :
      cutBefore (· ≠ '\\') (a ++ b) = (a, b) := by
    refine cutBefore_eq_iff.2 ⟨by simpa using ha, fun d hd => ?_⟩
    rw [decide_eq_true_iff]
    rintro rfl
    exact hb hd
  unfold cutEscape
  cases h with
  | run ha hb hstop =>
    rw [hslashes ha hb]
    dsimp only
    split
    · rfl
    next hodd =>
    cases b with
    | nil => rfl
    | cons d b => simp [(hstop.resolve_left hodd) d rfl]
  | @char a _ d ha heven hd hsolid hplain =>
    rw [List.append_assoc, List.singleton_append, hslashes ha (by simpa using hd)]
    simp [heven, hsolid, hplain]
  | @number a digits _ d ha heven hfirst hdigits hnext =>
    obtain ⟨hd, hsolid⟩ := solid_of_isHexDigit hfirst
    have hcut : cutBefore (fun d => !isHexDigit d) (digits ++ b) = (digits, b) :=
      cutBefore_eq_iff.2 ⟨by simpa using hdigits, fun e he => by simp [(hnext e he).1]⟩
    rw [List.append_assoc, List.cons_append, hslashes ha (by simpa using hd)]
    simp only [heven, hsolid, hfirst, hcut]
    cases b with
    | nil => rfl
    | cons e b => simp [(hnext e rfl).2]
  | @spaced a digits _ d ha heven hfirst hdigits =>
    obtain ⟨hd, hsolid⟩ := solid_of_isHexDigit hfirst
    have hcut : cutBefore (fun d => !isHexDigit d) (digits ++ ' ' :: b) = (digits, ' ' :: b) :=
      cutBefore_eq_iff.2 ⟨by simpa using hdigits, by rintro _ ⟨⟩; rfl⟩
    rw [show a ++ d :: (digits ++ [' ']) ++ b = a ++ d :: (digits ++ ' ' :: b) by simp,
      hslashes ha (by simpa using hd)]
    simp [heven, hsolid, hfirst, hcut]

/-- **Escapes are cut off by their rules.** -/
theorem cutEscape_eq_iff : cutEscape (a ++ b) = (a, b) ↔ IsEscape a b :=
  ⟨isEscape_of_cutEscape, IsEscape.cutEscape_eq⟩

/-- An escape in front of another text. A run of backslashes asks for more than the others, as it
may have stopped before a blank or a slash. -/
theorem IsEscape.congr (h : IsEscape a b)
    (hstart : ∀ d ∈ b'.head?, b.head? = some d ∨ isHexDigit d = false ∧ d ≠ ' ')
    (hrun : (∀ d ∈ a, d = '\\') → ∀ d ∈ b'.head?, b.head? = some d ∨ isSpace d = true) :
    IsEscape a b' := by
  cases h with
  | run ha hnext hpairs =>
    refine .run ha (fun hd => ?_) (hpairs.imp_right fun hall d hd => ?_)
    · rcases hrun ha _ hd with hd | hd
      · exact hnext hd
      · cases hd
    · rcases hrun ha d hd with hd | hd
      · exact hall d hd
      · rw [hd, Bool.or_true]
  | char ha heven hd hsolid hplain => exact .char ha heven hd hsolid hplain
  | number ha heven hfirst hdigits hnext =>
    exact .number ha heven hfirst hdigits fun e he => (hstart e he).elim (hnext e) id
  | spaced ha heven hfirst hdigits => exact .spaced ha heven hfirst hdigits

/-! ## Constructs that are closed -/

theorem cutUnescaped_getLast? {close : Char} {escaped : Bool}
    (h : cutUnescaped close escaped cs = some (a, b)) : a.getLast? = some close := by
  induction cs generalizing escaped a b with
  | nil => simp [cutUnescaped] at h
  | cons c rest ih =>
    rw [cutUnescaped] at h
    split at h
    · next hc =>
      simp only [Bool.and_eq_true, decide_eq_true_eq] at hc
      simp only [Option.some.injEq, Prod.mk.injEq] at h
      simp [← h.1, hc.1]
    · obtain ⟨⟨a', b'⟩, hp, he⟩ := Option.map_eq_some_iff.1 h
      simp only [Prod.mk.injEq] at he
      rw [← he.1, List.getLast?_cons, ih hp, Option.getD_some]

theorem cutComment_end (h : cutComment cs = some (a, b)) : ∃ inner, a = inner ++ ['*', '/'] := by
  induction cs generalizing a b with
  | nil => simp [cutComment] at h
  | cons c rest ih =>
    rw [cutComment] at h
    split at h
    · next hc =>
      simp only [Bool.and_eq_true, decide_eq_true_eq] at hc
      simp only [Option.some.injEq, Prod.mk.injEq] at h
      exact ⟨[], by simp [← h.1, hc.1]⟩
    · obtain ⟨⟨a', b'⟩, hp, he⟩ := Option.map_eq_some_iff.1 h
      simp only [Prod.mk.injEq] at he
      obtain ⟨inner, rfl⟩ := ih hp
      exact ⟨c :: inner, by simp [← he.1]⟩

theorem cutUnescaped_replace {close : Char} {escaped : Bool}
    (h : cutUnescaped close escaped (a ++ b) = some (a, b)) (b' : List Char) :
    cutUnescaped close escaped (a ++ b') = some (a, b') := by
  induction a generalizing escaped with
  | nil => cases cutUnescaped_getLast? h
  | cons d a ih =>
    rw [List.cons_append, cutUnescaped] at h ⊢
    split at h
    · next hc =>
      rw [if_pos hc]
      cases a with
      | nil => rfl
      | cons e a => simp at h
    · next hc =>
      obtain ⟨⟨u, v⟩, hcut, he⟩ := Option.map_eq_some_iff.1 h
      simp only [Prod.mk.injEq, List.cons.injEq, true_and] at he
      obtain ⟨rfl, rfl⟩ := he
      rw [if_neg hc, ih hcut]
      rfl

theorem cutComment_replace (h : cutComment (a ++ b) = some (a, b)) (b' : List Char) :
    cutComment (a ++ b') = some (a, b') := by
  induction a with
  | nil =>
    obtain ⟨inner, hinner⟩ := cutComment_end h
    simp at hinner
  | cons d a ih =>
    rw [List.cons_append, cutComment] at h ⊢
    split at h
    · next hc =>
      simp only [Option.some.injEq, Prod.mk.injEq, List.cons.injEq, true_and] at h
      obtain ⟨rfl, -⟩ := h
      have hd : d = '*' := by simp only [Bool.and_eq_true, decide_eq_true_eq] at hc; exact hc.1
      simp [hd]
    · next hc =>
      obtain ⟨⟨u, v⟩, hcut, he⟩ := Option.map_eq_some_iff.1 h
      simp only [Prod.mk.injEq, List.cons.injEq, true_and] at he
      obtain ⟨rfl, rfl⟩ := he
      cases u with
      | nil =>
        obtain ⟨inner, hinner⟩ := cutComment_end hcut
        simp at hinner
      | cons e u =>
        rw [if_neg (by simpa using hc), ih hcut]
        rfl

theorem cutComment_more (h : cutComment cs = some (a, b)) (more : List Char) :
    cutComment (cs ++ more) = some (a, b ++ more) := by
  obtain rfl := cutComment_append h
  rw [List.append_assoc]
  exact cutComment_replace h _

/-- A plain bracket holds nothing that spoils it, and ends at the first `)`. -/
theorem cutBrackets_eq_some_iff : cutBrackets (a ++ b) = some (a, b) ↔
    ∃ inner, a = inner ++ [')'] ∧ ∀ d ∈ inner, (spoilsBrackets d || d = ')') = false := by
  constructor
  · intro h
    obtain ⟨inner, behind, htext, hcut⟩ :=
      exists_cutBefore (fun c => spoilsBrackets c || c = ')') (a ++ b)
    rw [cutBrackets, hcut] at h
    split at h
    · next heq =>
      cases heq
      cases h
      rw [htext] at hcut
      exact ⟨_, rfl, (cutBefore_eq_iff.1 hcut).1⟩
    · cases h
  · rintro ⟨inner, rfl, hinner⟩
    rw [cutBrackets, List.append_assoc, List.singleton_append,
      cutBefore_eq_iff.2 ⟨hinner, by simp⟩]
    rfl

theorem cutBrackets_ne_none_iff : cutBrackets cs ≠ none ↔
    ∃ a b, cs = a ++ ')' :: b ∧ ∀ d ∈ a, (spoilsBrackets d || d = ')') = false := by
  constructor
  · intro h
    obtain ⟨⟨a, b⟩, hcut⟩ := Option.ne_none_iff_exists'.1 h
    obtain rfl := cutBrackets_append hcut
    obtain ⟨inner, rfl, hinner⟩ := cutBrackets_eq_some_iff.1 hcut
    exact ⟨inner, b, by simp, hinner⟩
  · rintro ⟨a, b, rfl, ha⟩
    have hcut : cutBrackets (a ++ [')'] ++ b) = some (a ++ [')'], b) :=
      cutBrackets_eq_some_iff.2 ⟨a, rfl, ha⟩
    rw [List.append_assoc, List.singleton_append] at hcut
    rw [hcut]
    exact Option.some_ne_none _

theorem cutBrackets_eq_none_iff : cutBrackets cs = none ↔
    ¬∃ a b, cs = a ++ ')' :: b ∧ ∀ d ∈ a, (spoilsBrackets d || d = ')') = false := by
  rw [← cutBrackets_ne_none_iff, Ne, Decidable.not_not]

/-- A bracket that is not closed stays so in front of another text, if something spoils it before
the parenthesis of that text. -/
theorem cutBrackets_append_eq_none {more : List Char} (h : cutBrackets cs = none)
    (hspoiled : (∃ d ∈ cs, spoilsBrackets d = true) ∨ ∃ d ∈ more.head?, spoilsBrackets d = true) :
    cutBrackets (cs ++ more) = none := by
  rw [cutBrackets_eq_none_iff]
  rintro ⟨x, y, hsplit, hx⟩
  have hplain {d : Char} (hd : d ∈ x) : spoilsBrackets d ≠ true := by
    simpa using (Bool.or_eq_false_iff.1 (hx d hd)).1
  rcases List.append_eq_append_iff.1 hsplit with ⟨x', rfl, rfl⟩ | ⟨t, rfl, hy⟩
  · rcases hspoiled with ⟨d, hd, hspoils⟩ | ⟨d, hd, hspoils⟩
    · exact hplain (List.mem_append_left _ hd) hspoils
    · cases x' with
      | nil =>
        cases hd
        cases hspoils
      | cons e x' =>
        cases hd
        exact hplain (by simp) hspoils
  · cases t with
    | nil =>
      obtain rfl : ')' :: y = more := hy
      rcases hspoiled with ⟨d, hd, hspoils⟩ | ⟨d, hd, hspoils⟩
      · exact hplain (by simpa using hd) hspoils
      · cases hd
        cases hspoils
    | cons e t =>
      obtain ⟨rfl, -⟩ := List.cons.inj hy
      exact cutBrackets_ne_none_iff.2 ⟨x, t, rfl, hx⟩ h

/-! ## Words -/

theorem cutWord_eq_nil_iff : cutWord cs = ([], cs) ↔
    ∀ d ∈ cs.head?, endsWord d = true ∨ d = '/' ∧ cs.tail.head? = some '*' := by
  cases cs with
  | nil => simp [cutWord]
  | cons c cs =>
    rw [cutWord]
    split
    · next hc => simpa using hc
    · next hc => simpa using hc

/-- What ends words does so with more behind it. -/
theorem cutWord_nil_append {more : List Char} (h : cutWord cs = ([], cs))
    (hmore : cs = [] → cutWord more = ([], more)) :
    cutWord (cs ++ more) = ([], cs ++ more) := by
  cases cs with
  | nil => exact hmore rfl
  | cons c cs =>
    rw [cutWord_eq_nil_iff] at h ⊢
    rintro _ ⟨⟩
    refine (h c rfl).imp_right (And.imp_right fun hstar => ?_)
    obtain ⟨cs, rfl⟩ := List.head?_eq_some_iff.1 hstar
    rfl

theorem cutWord_rest (cs : List Char) : cutWord (cutWord cs).2 = ([], (cutWord cs).2) := by
  induction cs with
  | nil => rfl
  | cons d cs ih =>
    rw [cutWord]
    split
    · next hd => rw [cutWord, if_pos hd]
    · exact ih

/-- A text that ends words does not start with an asterisk. -/
theorem head?_ne_of_cutWord (h : cutWord b = ([], b)) : b.head? ≠ some '*' := by
  intro hhead
  rcases cutWord_eq_nil_iff.1 h '*' hhead with hends | ⟨hslash, -⟩
  · cases hends
  · cases hslash

/-- A word that ends before `b` ends before `b'` as well, if `b'` ends words. -/
theorem cutWord_replace (h : cutWord (a ++ b) = (a, b)) (hb : cutWord b' = ([], b')) :
    cutWord (a ++ b') = (a, b') := by
  induction a with
  | nil => exact hb
  | cons d a ih =>
    rw [List.cons_append, cutWord] at h ⊢
    split at h
    · cases h
    · next hc =>
      simp only [Prod.mk.injEq, List.cons.injEq, true_and] at h
      have hne : ¬(endsWord d || (d = '/' && (a ++ b').head? = some '*')) = true := by
        cases a with
        | cons e a => simpa using hc
        | nil =>
          simp only [Bool.or_eq_true, not_or] at hc ⊢
          exact ⟨hc.1, by simp [head?_ne_of_cutWord hb]⟩
      rw [if_neg hne, ih (Prod.ext h.1 h.2)]

/-! ## Tokens -/

/-- Whether a token that starts with the character is no word, or an escape. A slash may start a
comment, but need not. -/
def startsToken (c : Char) : Bool :=
  isSpace c || (punctuation c).isSome || c = '(' || c = '\'' || c = '"' || c = '@' || c = '\\'

theorem startsQuoted_eq (cs : List Char) :
    startsQuoted cs = cs.head?.any fun c => c = '\'' || c = '"' || isSpace c := by
  cases cs <;> rfl

/-- The rules for a token `c :: a` in front of a text `b`, behind the word `word`. -/
inductive IsCut (word : String) : TokenKind → Char → List Char → List Char → Prop
  | space {c : Char} {a b : List Char} (blank : isSpace c = true)
      (cut : cutBefore (fun d => !isSpace d) (a ++ b) = (a, b)) : IsCut word .space c a b
  | mark {kind : TokenKind} {c : Char} {b : List Char} (mark : punctuation c = some kind) :
      IsCut word kind c [] b
  /-- Behind `url`, a text that is not quoted is taken as it is. -/
  | url {a b : List Char} (url : word = "url") (unquoted : startsQuoted (a ++ b) = false)
      (cut : cutUnescaped ')' false (a ++ b) = some (a, b)) : IsCut word .brackets '(' a b
  | brackets {a b : List Char} (plain : word = "url" → startsQuoted (a ++ b) = true)
      (cut : cutBrackets (a ++ b) = some (a, b)) : IsCut word .brackets '(' a b
  | openParen {b : List Char} (plain : word = "url" → startsQuoted b = true)
      (cut : cutBrackets b = none) : IsCut word .openParen '(' [] b
  | string {c : Char} {a b : List Char} (quote : c = '\'' ∨ c = '"')
      (cut : cutUnescaped c false (a ++ b) = some (a, b)) : IsCut word .string c a b
  | atWord {a b : List Char} (cut : cutBefore endsAtWord (a ++ b) = (a, b)) :
      IsCut word .atWord '@' a b
  | escape {a b : List Char} (cut : IsEscape a b) : IsCut word .word '\\' a b
  | comment {a b : List Char} (cut : cutComment (a ++ b) = some (a, b)) :
      IsCut word .comment '/' ('*' :: a) b
  | word {c : Char} {a b : List Char} (other : startsToken c = false)
      (slash : c = '/' → (a ++ b).head? ≠ some '*') (cut : cutWord (a ++ b) = (a, b)) :
      IsCut word .word c a b

theorem isCut_of_cut (h : cut word c (a ++ b) = .ok ⟨kind, c :: a, b⟩) :
    IsCut word kind c a b := by
  have hpair {kind' : TokenKind} {p : List Char × List Char}
      (h : (Except.ok (.ofPair kind' c p) : Except Unclosed Cut) = .ok ⟨kind, c :: a, b⟩) :
      kind' = kind ∧ p = (a, b) := by
    simp only [Cut.ofPair, Except.ok.injEq, Cut.mk.injEq, List.cons.injEq, true_and] at h
    exact ⟨h.1, Prod.ext h.2.1 h.2.2⟩
  unfold cut at h
  split at h
  · next hc =>
    obtain ⟨rfl, hcut⟩ := hpair h
    exact .space hc hcut
  next hspace =>
  split at h
  · next hmark =>
    simp only [Except.ok.injEq, Cut.mk.injEq, List.cons.injEq, true_and] at h
    obtain ⟨rfl, rfl, -⟩ := h
    exact .mark hmark
  next hmark =>
  split at h
  · next hparen =>
    subst hparen
    split at h
    · next hurl =>
      simp only [Bool.and_eq_true, decide_eq_true_eq, Bool.not_eq_true'] at hurl
      split at h
      · next hcut =>
        obtain ⟨rfl, rfl⟩ := hpair h
        exact .url hurl.1 hurl.2 hcut
      · cases h
    · next hurl =>
      replace hurl : word = "url" → startsQuoted (a ++ b) = true := by simpa using hurl
      split at h
      · next hcut =>
        obtain ⟨rfl, rfl⟩ := hpair h
        exact .brackets hurl hcut
      · next hcut =>
        simp only [Except.ok.injEq, Cut.mk.injEq, List.cons.injEq, true_and] at h
        obtain ⟨rfl, rfl, -⟩ := h
        exact .openParen hurl hcut
  next hparen =>
  split at h
  · next hquote =>
    split at h
    · next hcut =>
      obtain ⟨rfl, rfl⟩ := hpair h
      exact .string (by simpa using hquote) hcut
    · cases h
  next hquote =>
  split at h
  · next hat =>
    subst hat
    obtain ⟨rfl, hcut⟩ := hpair h
    exact .atWord hcut
  next hat =>
  split at h
  · next hescape =>
    subst hescape
    obtain ⟨rfl, hcut⟩ := hpair h
    exact .escape (isEscape_of_cutEscape hcut)
  next hescape =>
  split at h
  · next hslash =>
    simp only [Bool.and_eq_true, decide_eq_true_eq] at hslash
    obtain ⟨rfl, -⟩ := hslash
    split at h
    · next hcut =>
      simp only [Except.ok.injEq, Cut.mk.injEq, List.cons.injEq, true_and] at h
      obtain ⟨rfl, rfl, rfl⟩ := h
      exact .comment hcut
    · cases h
  · next hslash =>
    obtain ⟨rfl, hcut⟩ := hpair h
    exact .word (by simpa [startsToken, hspace, hmark, hparen, hat, hescape] using hquote)
      (by simpa using hslash) hcut

theorem IsCut.kind_of_paren (h : IsCut word kind '(' a b) :
    kind = .openParen ∨ kind = .brackets := by
  cases h with
  | url | brackets => exact .inr rfl
  | openParen => exact .inl rfl
  | string hquote => exact absurd hquote (by decide)
  | space hspace => cases hspace
  | mark hmark => cases hmark
  | word hother => cases hother

theorem isSpace_of_punctuation (h : punctuation c = some kind) : isSpace c = false := by
  refine Bool.eq_false_iff.2 fun hc => ?_
  simp only [isSpace, Bool.or_eq_true, decide_eq_true_eq] at hc
  rcases hc with (((rfl | rfl) | rfl) | rfl) | rfl <;> cases h

theorem IsCut.cut_eq (h : IsCut word kind c a b) :
    cut word c (a ++ b) = .ok ⟨kind, c :: a, b⟩ := by
  have hurl {rest : List Char} (h : word = "url" → startsQuoted rest = true) :
      (decide (word = "url") && !startsQuoted rest) = false := by
    by_cases hw : word = "url" <;> simp [hw, h]
  cases h with
  | space hc hcut =>
    rw [cut, if_pos hc, hcut]
    rfl
  | mark hmark => simp [cut, isSpace_of_punctuation hmark, hmark]
  | url hurl hunquoted hcut => simp [cut, isSpace, punctuation, hurl, hunquoted, hcut, Cut.ofPair]
  | brackets hplain hcut => simp [cut, isSpace, punctuation, hurl hplain, hcut, Cut.ofPair]
  | openParen hplain hcut => simp [cut, isSpace, punctuation, hurl hplain, hcut]
  | string hquote hcut =>
    rcases hquote with rfl | rfl <;> simp [cut, isSpace, punctuation, hcut, Cut.ofPair]
  | atWord hcut => simp [cut, isSpace, punctuation, hcut, Cut.ofPair]
  | escape hcut => simp [cut, isSpace, punctuation, hcut.cutEscape_eq, Cut.ofPair]
  | comment hcut => simp [cut, isSpace, punctuation, hcut]
  | word hother hslash hcut =>
    simp only [startsToken, Bool.or_eq_false_iff, Option.isSome_eq_false_iff,
      Option.isNone_iff_eq_none, decide_eq_false_iff_not] at hother
    obtain ⟨⟨⟨⟨⟨⟨hspace, hmark⟩, hparen⟩, hquote⟩, hquotes⟩, hat⟩, hescape⟩ := hother
    have hcomment : (decide (c = '/') && decide ((a ++ b).head? = some '*')) = false := by
      simpa using hslash
    simp only [cut, hspace, hmark, hparen, hquote, hquotes, hat, hescape, hcomment, hcut,
      decide_false, Bool.or_self, Bool.false_eq_true, if_false, Cut.ofPair]

/-- **Tokens are cut off by their rules.** -/
theorem cut_eq_ok_iff :
    cut word c (a ++ b) = .ok ⟨kind, c :: a, b⟩ ↔ IsCut word kind c a b :=
  ⟨isCut_of_cut, IsCut.cut_eq⟩

/-- What is cut off is a token in front of the rest. -/
theorem exists_isCut {r : Cut} (h : cut word c cs = .ok r) :
    ∃ kind a b, cs = a ++ b ∧ r = ⟨kind, c :: a, b⟩ ∧ IsCut word kind c a b := by
  obtain ⟨kind, chars, b⟩ := r
  obtain ⟨happend, hne⟩ := cut_append h
  obtain ⟨d, a, rfl⟩ := List.exists_cons_of_ne_nil hne
  obtain ⟨rfl, rfl⟩ := List.cons.inj happend
  exact ⟨kind, a, b, rfl, rfl, isCut_of_cut h⟩

/-- **A token in front of another text.** What stands behind a token matters in how it starts and,
for a parenthesis, in what it closes. -/
theorem IsCut.congr (h : IsCut word kind c a b)
    (hstart : ∀ d ∈ b'.head?, b.head? = some d ∨ d = ';' ∨ d = '\n' ∨ d = '\r')
    (hspace : kind = .space → ∀ d ∈ b'.head?, b.head? = some d ∨ isSpace d = false)
    (hparen : kind = .openParen → cutBrackets b = none →
      (startsQuoted b = true → startsQuoted b' = true) ∧ cutBrackets b' = none)
    (hescape : (∀ d ∈ c :: a, d = '\\') → ∀ d ∈ b'.head?, b.head? = some d ∨ isSpace d = true)
    (hword : cutWord b = ([], b) → cutWord b' = ([], b')) : IsCut word kind c a b' := by
  cases h with
  | space hc hcut =>
    obtain ⟨ha, hb⟩ := cutBefore_eq_iff.1 hcut
    refine .space hc (cutBefore_eq_iff.2 ⟨ha, fun d hd => ?_⟩)
    exact (hspace rfl d hd).elim (hb d) fun hd => by rw [hd]; rfl
  | mark hmark => exact .mark hmark
  | url hurl hunquoted hcut =>
    cases a with
    | nil => cases cutUnescaped_getLast? hcut
    | cons d a => exact .url hurl hunquoted (cutUnescaped_replace hcut b')
  | brackets hplain hcut =>
    obtain ⟨inner, rfl, hinner⟩ := cutBrackets_eq_some_iff.1 hcut
    refine .brackets ?_ (cutBrackets_eq_some_iff.2 ⟨inner, rfl, hinner⟩)
    cases inner <;> exact hplain
  | openParen hplain hcut =>
    obtain ⟨hquoted, hopen⟩ := hparen rfl hcut
    exact .openParen (fun hw => hquoted (hplain hw)) hopen
  | string hquote hcut => exact .string hquote (cutUnescaped_replace hcut b')
  | atWord hcut =>
    obtain ⟨ha, hb⟩ := cutBefore_eq_iff.1 hcut
    refine .atWord (cutBefore_eq_iff.2 ⟨ha, fun d hd => ?_⟩)
    rcases hstart d hd with hd | rfl | rfl | rfl
    · exact hb d hd
    all_goals rfl
  | escape hcut =>
    refine .escape (hcut.congr (fun d hd => (hstart d hd).imp_right ?_) fun ha => hescape ?_)
    · rintro (rfl | rfl | rfl) <;> decide
    · exact List.forall_mem_cons.2 ⟨rfl, ha⟩
  | comment hcut => exact .comment (cutComment_replace hcut b')
  | word hother hslash hcut =>
    have hrest : (cutWord (a ++ b)).2 = b := congrArg Prod.snd hcut
    have hb := hword (hrest ▸ cutWord_rest (a ++ b))
    refine .word hother (fun hc => ?_) (cutWord_replace hcut hb)
    cases a with
    | nil => exact head?_ne_of_cutWord hb
    | cons d a => exact hslash hc

end Lexer

end Stylesheet
