import Stylesheet.Proofs.Token.Tiling
import Mathlib.Algebra.Group.Nat.Even
import Mathlib.Data.List.Induction

/-!
# Reading a text to its end

A lexer is `Reached` from the start of a text by reading tokens and giving tokens back, in any order.
Whatever was done, it stands at the start of a character or at the end of the text, the next token
is cut off there, and an error is raised only where a construct is opened and never closed
(`Unended`). `Lexer.tokens_spec` says what all tokens make up.
-/

set_option autoImplicit false

namespace Stylesheet

open Stylesheet.Text

namespace Lexer

/-! ## Constructs that are never closed -/

/-- The number of backslashes at the end of a text. -/
def trailingSlashes (cs : List Char) : Nat := (cs.reverse.takeWhile (· = '\\')).length

/-- The character stands in the text behind an even number of backslashes. -/
def HasUnescaped (close : Char) (cs : List Char) : Prop :=
  ∃ a b, cs = a ++ close :: b ∧ Even (trailingSlashes a)

/-- What is left of a text starts with a construct that is never closed. A parenthesis opens a
bracket only where a URL is expected (`url`), and no quote or blank follows it. -/
def Unended (url : Prop) (rest : List Char) : Unclosed → Prop
  | .string => ∃ q inner, rest = q :: inner ∧ (q = '\'' ∨ q = '"') ∧ ¬HasUnescaped q inner
  | .comment => ∃ inner, rest = '/' :: '*' :: inner ∧ ¬['*', '/'] <:+: inner
  | .bracket => ∃ inner, rest = '(' :: inner ∧ url ∧ startsQuoted inner = false ∧
      ¬HasUnescaped ')' inner

theorem Unended.imp {url url' : Prop} {rest : List Char} {what : Unclosed}
    (h : Unended url rest what) (hurl : url → url') : Unended url' rest what := by
  cases what with
  | string => exact h
  | comment => exact h
  | bracket =>
    obtain ⟨inner, hrest, hbehind, hclosed⟩ := h
    exact ⟨inner, hrest, hurl hbehind, hclosed⟩

theorem trailingSlashes_concat (cs : List Char) (c : Char) :
    trailingSlashes (cs ++ [c]) = if c = '\\' then trailingSlashes cs + 1 else 0 := by
  by_cases h : c = '\\' <;> simp [trailingSlashes, h]

/-- A cut fails only where nothing closes. `front` is what stands before, for its backslashes. -/
theorem cutUnescaped_eq_none {close : Char} {front cs : List Char} {escaped : Bool}
    (he : escaped = true ↔ ¬Even (trailingSlashes front))
    (h : cutUnescaped close escaped cs = none) :
    ∀ a b, cs = a ++ close :: b → ¬Even (trailingSlashes (front ++ a)) := by
  induction cs generalizing front escaped with
  | nil => simp
  | cons c cs ih =>
    rw [cutUnescaped] at h
    split at h
    · cases h
    next hc =>
    have hnext : (decide (c = '\\') && !escaped) = true ↔
        ¬Even (trailingSlashes (front ++ [c])) := by
      rw [trailingSlashes_concat]
      by_cases hs : c = '\\'
      · simp [hs, Nat.even_add_one, ← he]
      · simp [hs]
    intro a b hab
    cases a with
    | nil =>
      obtain ⟨rfl, -⟩ := List.cons.inj hab
      rw [List.append_nil, ← he]
      simpa using hc
    | cons d a =>
      rw [List.cons_append, List.cons.injEq] at hab
      obtain ⟨rfl, htail⟩ := hab
      have := ih hnext (Option.map_eq_none_iff.1 h) a b htail
      rwa [List.append_assoc] at this

theorem not_hasUnescaped {close : Char} {cs : List Char}
    (h : cutUnescaped close false cs = none) : ¬HasUnescaped close cs := by
  rintro ⟨a, b, hab, heven⟩
  refine @cutUnescaped_eq_none close [] cs false ?_ h a b hab heven
  simp [trailingSlashes]

theorem not_infix_of_cutComment {cs : List Char} (h : cutComment cs = none) :
    ¬['*', '/'] <:+: cs := by
  induction cs with
  | nil => simp
  | cons c cs ih =>
    rw [cutComment] at h
    split at h
    · cases h
    next hc =>
    rw [List.infix_cons_iff]
    rintro (⟨tail, htail⟩ | hinfix)
    · obtain ⟨rfl, rfl⟩ := List.cons.inj htail
      simp at hc
    · exact ih (Option.map_eq_none_iff.1 h) hinfix

/-- A cut fails only at a construct that is never closed. -/
theorem unended_of_cut {words : List String} {c : Char} {rest : List Char} {what : Unclosed}
    (h : cut (words.head?.getD "") c rest = .error what) :
    Unended (words.head? = some "url") (c :: rest) what := by
  unfold cut at h
  split at h
  · cases h
  split at h
  · cases h
  split at h
  · next hparen =>
    split at h
    · next hurl =>
      split at h
      · cases h
      · next hnone =>
        cases h
        simp only [Bool.and_eq_true, decide_eq_true_eq, Bool.not_eq_true'] at hurl
        refine ⟨rest, by rw [hparen], ?_, hurl.2, not_hasUnescaped hnone⟩
        cases hw : words.head? with
        | none =>
          rw [hw] at hurl
          exact absurd hurl.1 (by decide)
        | some w =>
          rw [hw] at hurl
          exact congrArg some hurl.1
    · split at h <;> cases h
  split at h
  · next hquote =>
    simp only [Bool.or_eq_true, decide_eq_true_eq] at hquote
    split at h
    · cases h
    · next hnone =>
      cases h
      exact ⟨c, rest, rfl, hquote, not_hasUnescaped hnone⟩
  split at h
  · cases h
  split at h
  · cases h
  split at h
  · next hslash =>
    simp only [Bool.and_eq_true, decide_eq_true_eq] at hslash
    obtain ⟨inner, rfl⟩ : ∃ inner, rest = '*' :: inner := by
      cases rest with
      | nil => simp at hslash
      | cons d inner => exact ⟨inner, by rw [Option.some.inj hslash.2]⟩
    split at h
    · cases h
    · next hnone =>
      cases h
      exact ⟨inner, by rw [hslash.1], not_infix_of_cutComment hnone⟩
  · cases h

/-! ## Reached lexers -/

/-- The lexer is reached from the start of the text by reading tokens and giving tokens back. -/
inductive Reached (css : List Char) : Lexer → Prop
  | start : Reached css (ofChars css)
  | next {l l' : Lexer} {r : Except LexError (Option Token)} :
      Reached css l → l.next = (r, l') → Reached css l'
  | back {l : Lexer} (t : Token) : Reached css l → Reached css (l.back t)

/-- The lexer stands in the text, behind the characters `done`. -/
structure Stands (css done : List Char) (l : Lexer) : Prop where
  text : css = done ++ l.rest
  offset : l.offset = byteSize done

/-- What a lexer without returned tokens reads, standing behind `done`. -/
theorem Stands.next {css done : List Char} {l l' : Lexer} {r : Except LexError (Option Token)}
    (h : Stands css done l) (hr : l.returned = []) (hn : l.next = (r, l')) :
    match r with
    | .ok none => done = css ∧ l' = l
    | .ok (some t) => t.At (byteSize done) ∧ Stands css (done ++ t.chars) l' ∧ l'.returned = []
    | .error e => e.offset = byteSize done ∧ Unended (l.words.head? = some "url") l.rest e.what ∧
        Stands css done l' := by
  unfold Lexer.next at hn
  rw [hr] at hn
  simp only at hn
  split at hn
  · next hnil =>
    cases hn
    refine ⟨?_, rfl⟩
    rw [h.text, hnil, List.append_nil]
  · next c rest hcons =>
    split at hn
    · next what hcut =>
      cases hn
      refine ⟨h.offset, ?_, ⟨h.text, h.offset⟩⟩
      rw [hcons]
      exact unended_of_cut hcut
    · next cut hcut =>
      cases hn
      obtain ⟨happend, -⟩ := cut_append hcut
      refine ⟨⟨h.offset, ?_, cut_shaped hcut _⟩, ⟨?_, ?_⟩, rfl⟩
      · rw [chars_tokenAt, ← h.offset]
        rfl
      · rw [chars_tokenAt, h.text, hcons, ← happend, List.append_assoc]
      · rw [chars_tokenAt, byteSize_append, ← h.offset]

theorem next_of_returned {l : Lexer} {t : Token} {ts : List Token} (h : l.returned = t :: ts) :
    l.next = (.ok (some t), { l with returned := ts }) := by
  unfold next
  rw [h]

/-- **A lexer always stands in its text**, at the start of a character or at the end. -/
theorem Reached.stands {css : List Char} {l : Lexer} (h : Reached css l) :
    ∃ done, Stands css done l := by
  induction h with
  | start => exact ⟨[], rfl, rfl⟩
  | back t _ ih =>
    obtain ⟨done, hs⟩ := ih
    exact ⟨done, hs.text, hs.offset⟩
  | @next l l' r _ hn ih =>
    obtain ⟨done, hs⟩ := ih
    cases hr : l.returned with
    | cons t ts =>
      rw [next_of_returned hr] at hn
      cases hn
      exact ⟨done, hs.text, hs.offset⟩
    | nil =>
      have := hs.next hr hn
      cases r with
      | error e => exact ⟨done, this.2.2⟩
      | ok t =>
        cases t with
        | none => exact ⟨done, this.2 ▸ hs⟩
        | some t => exact ⟨done ++ t.chars, this.2.1⟩

/-- Nothing is left to read exactly at the end of the text. -/
theorem Stands.atEnd_iff {css done : List Char} {l : Lexer} (h : Stands css done l) :
    l.atEnd = true ↔ l.returned = [] ∧ l.offset = byteSize css := by
  have hrest : l.rest = [] ↔ l.offset = byteSize css := by
    rw [h.text, h.offset, byteSize_append]
    cases hr : l.rest with
    | nil => simp
    | cons c cs =>
      have := c.utf8Size_pos
      rw [byteSize_cons]
      simp
      omega
  simp [atEnd, hrest]

/-! ## All tokens -/

/-- The words that no parenthesis has used, behind a token: a parenthesis uses one up, a word that
is no escape is added. -/
def wordsBehind (words : List String) (t : Token) : List String :=
  if t.chars.head? = some '(' then words.tail
  else if t.kind = .word && t.chars.head? ≠ some '\\' then t.text :: words else words

theorem kind_of_paren {word : String} {rest : List Char} {r : Cut}
    (h : cut word '(' rest = .ok r) : r.kind ≠ .word := by
  obtain ⟨_, _, _, -, rfl, hcut⟩ := exists_isCut h
  rcases hcut.kind_of_paren with rfl | rfl <;> exact nofun

theorem head?_of_cut {word : String} {c : Char} {rest : List Char} {r : Cut}
    (h : cut word c rest = .ok r) : r.chars.head? = some c := by
  obtain ⟨_, _, _, -, rfl, -⟩ := exists_isCut h
  rfl

theorem words_next {l l' : Lexer} {t : Token} (hr : l.returned = [])
    (h : l.next = (.ok (some t), l')) : l'.words = wordsBehind l.words t := by
  obtain ⟨c, rest, r, hcons, hcut, rfl, rfl⟩ := exists_cut hr h
  show keptWords r (usedWords c l.words) = _
  rw [wordsBehind, chars_tokenAt, keptWords, usedWords, head?_of_cut hcut]
  by_cases hparen : c = '('
  · subst hparen
    simp [kind_of_paren hcut]
  · rw [if_neg hparen, if_neg (fun h => hparen (Option.some.inj h))]
    rfl

/-- What the tokens of a lexer make up, that stands behind `done`. -/
theorem Stands.tokens {css done : List Char} {l : Lexer} (h : Stands css done l)
    (hr : l.returned = []) :
    match l.tokens.2 with
    | none => done ++ tokenChars l.tokens.1 = css
    | some e => ∃ rest, css = done ++ tokenChars l.tokens.1 ++ rest ∧
        e.offset = byteSize (done ++ tokenChars l.tokens.1) ∧
        Unended ((l.tokens.1.foldl wordsBehind l.words).head? = some "url") rest e.what := by
  induction l using tokens.induct generalizing done with
  | case1 l l' hn =>
    rw [tokens_none hn]
    simpa using (h.next hr hn).1
  | case2 l e l' hn =>
    rw [tokens_error hn]
    obtain ⟨hoffset, hunended, -⟩ := h.next hr hn
    exact ⟨l.rest, by simpa using h.text, by simpa using hoffset, hunended⟩
  | case3 l t l' hn _ _ _ _ ih =>
    obtain ⟨-, hs, hr'⟩ := h.next hr hn
    have := ih hs hr'
    rw [tokens_some hn]
    simp only [tokenChars_cons, List.foldl_cons, ← words_next hr hn]
    rwa [List.append_assoc] at this

/-- **What the tokens of a text make up**: they tile it from its start. Without a fault they are all
of it, otherwise what they leave starts with a construct that is never closed. -/
theorem tokens_spec (css : List Char) :
    Tiled 0 (ofChars css).tokens.1 ∧
      match (ofChars css).tokens.2 with
      | none => tokenChars (ofChars css).tokens.1 = css
      | some e => ∃ rest, css = tokenChars (ofChars css).tokens.1 ++ rest ∧
          e.offset = byteSize (tokenChars (ofChars css).tokens.1) ∧
          Unended (((ofChars css).tokens.1.foldl wordsBehind []).head? = some "url") rest e.what :=
  ⟨tokens_tiled (ofChars css) rfl, @Stands.tokens css [] _ ⟨rfl, rfl⟩ rfl⟩

/-! ## Where brackets are opened -/

/-- Every word `url` among the tokens stands directly before a parenthesis. -/
def UrlsOpen (css : List Char) (ts : List Token) : Prop :=
  ∀ us t vs, ts = us ++ t :: vs → t.kind = .word → t.text = "url" →
    ∃ behind, css = tokenChars us ++ t.chars ++ '(' :: behind

/-- The last token is the word `url`. -/
def EndsInUrl (ts : List Token) : Prop :=
  ∃ us t, ts = us ++ [t] ∧ t.kind = .word ∧ t.text = "url"

/-- If every word `url` stands before a parenthesis, the parenthesis uses it up. So it is never among
the words of a parenthesis further on. -/
theorem url_words {css rest : List Char} {ts : List Token} (hcss : css = tokenChars ts ++ rest)
    (hsolid : ∀ t ∈ ts, t.chars ≠ []) (hurls : UrlsOpen css ts) :
    "url" ∉ (ts.foldl wordsBehind []).tail ∧
      ("url" ∈ ts.foldl wordsBehind [] → EndsInUrl ts) := by
  induction ts using List.reverseRecOn generalizing rest with
  | nil => simp
  | append_singleton ts t ih =>
    have hfront : css = tokenChars ts ++ (t.chars ++ rest) := by
      rw [hcss, tokenChars_append, tokenChars_cons, tokenChars_nil, List.append_nil,
        List.append_assoc]
    obtain ⟨htail, hlast⟩ := ih hfront (fun u hu => hsolid u (by simp [hu]))
      (fun us u vs hus => hurls us u (vs ++ [t]) (by rw [hus]; simp))
    rw [List.foldl_append, List.foldl_cons, List.foldl_nil, wordsBehind]
    by_cases hparen : t.chars.head? = some '('
    · rw [if_pos hparen]
      exact ⟨fun h => htail (List.mem_of_mem_tail h), fun h => absurd h htail⟩
    have hnone : "url" ∉ ts.foldl wordsBehind [] := by
      intro hmem
      obtain ⟨us, u, rfl, hkind, htext⟩ := hlast hmem
      obtain ⟨behind, hbehind⟩ := hurls us u [t] (by simp) hkind htext
      have hopen : t.chars ++ rest = '(' :: behind := by
        rw [hfront, tokenChars_append, tokenChars_cons, tokenChars_nil, List.append_nil] at hbehind
        exact List.append_cancel_left hbehind
      obtain ⟨c, cs, hchars⟩ := List.exists_cons_of_ne_nil (hsolid t (by simp))
      rw [hchars, List.cons_append] at hopen
      exact hparen (by rw [hchars, (List.cons.inj hopen).1, List.head?_cons])
    rw [if_neg hparen]
    by_cases hword : (t.kind = .word && t.chars.head? ≠ some '\\') = true
    · rw [if_pos hword]
      simp only [Bool.and_eq_true, decide_eq_true_eq] at hword
      refine ⟨hnone, fun hmem => ?_⟩
      rcases List.mem_cons.1 hmem with htext | hmem
      · exact ⟨ts, t, rfl, hword.1, htext.symm⟩
      · exact absurd hmem hnone
    · rw [if_neg hword]
      exact ⟨fun h => hnone (List.mem_of_mem_tail h), fun h => absurd h hnone⟩

end Lexer

end Stylesheet
