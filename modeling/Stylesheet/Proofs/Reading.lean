import Stylesheet.Proofs.Token.Scan

/-!
# Reading a text

What is known of reading a text to its end or to an error, of any text: the tokens tile it
(`Tile`), and whatever is read or given back on the way, the lexer stays `Sound`: its bytes are
never cut inside a character, what was given back comes first, and errors and the end are where
they should be. `Lexer.reads_text` puts this together.
-/

set_option autoImplicit false

namespace Stylesheet

open Stylesheet.Text

/-- The token is the piece of the text that starts at a byte offset. -/
structure Token.IsPiece (css : List Char) (start : Nat) (t : Token) : Prop where
  nonempty : t.text ≠ ""
  first : t.first = start
  chars : slice? css start (start + byteSize t.chars) = some t.chars
  last : lastCharStart? css (start + byteSize t.chars) = some t.last

/-- Tokens are the pieces of the text from a byte offset on, each behind the one before. -/
def Tile (css : List Char) : Nat → List Token → Prop
  | _, [] => True
  | start, t :: ts => t.IsPiece css start ∧ Tile css (start + byteSize t.chars) ts

theorem Token.At.isPiece {t : Token} {front : List Char} (h : t.At (byteSize front))
    (behind : List Char) : t.IsPiece (front ++ (t.chars ++ behind)) (byteSize front) where
  nonempty := by
    intro hempty
    exact h.shaped.solid (by rw [Token.chars, hempty]; rfl)
  first := h.first
  chars := slice?_byteSize front t.chars behind
  last := by rw [lastCharStart?_byteSize h.shaped.solid, h.last]

/-- Tokens that follow one another are pieces of every text that they are a part of. -/
theorem Tiled.tile {front : List Char} {ts : List Token} (h : Tiled (byteSize front) ts)
    (behind : List Char) : Tile (front ++ (tokenChars ts ++ behind)) (byteSize front) ts := by
  induction ts generalizing front with
  | nil => trivial
  | cons t ts ih =>
    obtain ⟨hat, hrest⟩ := h
    rw [← byteSize_append] at hrest
    rw [tokenChars_cons, List.append_assoc]
    refine ⟨hat.isPiece (tokenChars ts ++ behind), ?_⟩
    have := ih hrest
    rwa [byteSize_append, List.append_assoc] at this

theorem Tiled.length_le {offset : Nat} {ts : List Token} (h : Tiled offset ts) :
    ts.length ≤ byteSize (tokenChars ts) := by
  induction ts generalizing offset with
  | nil => exact Nat.le_refl _
  | cons t ts ih =>
    obtain ⟨hat, hrest⟩ := h
    have hsolid : 0 < byteSize t.chars := by
      cases hchars : t.chars with
      | nil => exact absurd hchars hat.shaped.solid
      | cons c cs => exact Nat.add_pos_left c.utf8Size_pos _
    have := ih hrest
    rw [tokenChars_cons, byteSize_append, List.length_cons]
    omega

namespace Lexer

/-- Reading gives the tokens and leads from one lexer to the other. -/
inductive Yields : Lexer → List Token → Lexer → Prop
  | nil (l : Lexer) : Yields l [] l
  | cons {l l' l'' : Lexer} {t : Token} {ts : List Token} :
      l.next = (.ok (some t), l') → Yields l' ts l'' → Yields l (t :: ts) l''

/-- What holds of a lexer of the text, whatever was read and given back before. -/
structure Sound (css : List Char) (l : Lexer) : Prop where
  /-- The bytes are read without a cut that fails, with the same result. -/
  scan : (l.scanner css).next? = some (l.next.1, l.next.2.scanner css)
  /-- Unless a token was given back, the next one is the piece of the text that starts here. -/
  piece : ∀ t l', l.returned = [] → l.next = (.ok (some t), l') →
    t.IsPiece css l.offset ∧ l'.offset = l.offset + byteSize t.chars ∧ l'.returned = []
  /-- An error is raised where something is opened that is never closed. -/
  fault : ∀ e l', l.next = (.error e, l') → l.returned = [] ∧ l'.offset = l.offset ∧
    e.offset = l.offset ∧ ∃ front rest, splitAt? css l.offset = some (front, rest) ∧
      Unended (l.words.head? = some "url") rest e.what
  /-- No token is given only at the end. -/
  done : ∀ l', l.next = (.ok none, l') → l' = l ∧ l.atEnd = true
  atEnd : l.atEnd = true ↔ l.returned = [] ∧ l.offset = byteSize css
  /-- Tokens that are given back are read again, the latest first, and lead back here. -/
  back : ∀ ts : List Token, Yields (ts.foldl Lexer.back l) ts.reverse l

theorem Yields.append {l l' l'' : Lexer} {ts us : List Token} (h : Yields l ts l')
    (h' : Yields l' us l'') : Yields l (ts ++ us) l'' := by
  induction h with
  | nil => exact h'
  | cons hnext _ ih => exact .cons hnext (ih h')

theorem Yields.tokens {l l' l'' : Lexer} {ts : List Token} {e : LexError} (h : Yields l ts l')
    (he : l'.next = (.error e, l'')) : l.tokens = (ts, some e) := by
  induction h with
  | nil => exact tokens_error he
  | cons hnext _ ih => rw [tokens_some hnext, ih he]

theorem yields_backAll (l : Lexer) (ts : List Token) :
    Yields (ts.foldl Lexer.back l) ts.reverse l := by
  induction ts generalizing l with
  | nil => exact .nil l
  | cons t ts ih =>
    rw [List.foldl_cons, List.reverse_cons]
    exact (ih (l.back t)).append (.cons (next_of_returned rfl) (.nil l))

theorem Reached.sound {css : List Char} {l : Lexer} (h : Reached css l) : Sound css l := by
  obtain ⟨front, hs⟩ := h.stands
  have hreturned : ∀ {r l'}, l.next = (r, l') → (∀ t, r ≠ .ok (some t)) → l.returned = [] := by
    intro r l' hn hr
    cases hback : l.returned with
    | nil => rfl
    | cons t ts =>
      rw [next_of_returned hback] at hn
      cases hn
      exact absurd rfl (hr t)
  refine ⟨hs.scan, ?_, ?_, ?_, hs.atEnd_iff, yields_backAll l⟩
  · intro t l' hr hn
    obtain ⟨hat, hs', hr'⟩ := hs.next hr hn
    have hcss : css = front ++ (t.chars ++ l'.rest) := by rw [hs'.text, List.append_assoc]
    refine ⟨?_, ?_, hr'⟩
    · rw [hs.offset, hcss]
      exact hat.isPiece l'.rest
    · rw [hs'.offset, byteSize_append, hs.offset]
  · intro e l' hn
    have hr := hreturned hn (by simp)
    obtain ⟨hoffset, hunended, hs'⟩ := hs.next hr hn
    exact ⟨hr, by rw [hs'.offset, hs.offset], by rw [hoffset, hs.offset], front, l.rest,
      splitAt?_eq_some.2 ⟨hs.text, hs.offset⟩, hunended⟩
  · intro l' hn
    have hr := hreturned hn (by simp)
    obtain ⟨hfront, hl⟩ := hs.next hr hn
    exact ⟨hl, hs.atEnd_iff.2 ⟨hr, by rw [hs.offset, hfront]⟩⟩

/-- **Reading any text.** The tokens tile it, up to its end or to something that is opened and never
closed, and on the way, whatever was given back, the lexer is sound. A bracket that is never closed
stands directly behind the word `url`, if no other parenthesis can be taken for its own. -/
theorem reads_text (css : List Char) :
    Tile css 0 (ofChars css).tokens.1 ∧
      (ofChars css).tokens.1.length ≤ byteSize css ∧
      (match (ofChars css).tokens.2 with
        | none => tokenChars (ofChars css).tokens.1 = css
        | some e => ∃ rest, css = tokenChars (ofChars css).tokens.1 ++ rest ∧
            e.offset = byteSize (tokenChars (ofChars css).tokens.1) ∧
            Unended (((ofChars css).tokens.1.foldl wordsBehind []).head? = some "url") rest e.what ∧
            (UrlsOpen css (ofChars css).tokens.1 →
              Unended (EndsInUrl (ofChars css).tokens.1) rest e.what)) ∧
      ∀ l, Reached css l → Sound css l := by
  obtain ⟨htiled, hrest⟩ := tokens_spec css
  obtain ⟨rest, hcss⟩ : ∃ rest, css = tokenChars (ofChars css).tokens.1 ++ rest := by
    cases hfault : (ofChars css).tokens.2 with
    | none =>
      rw [hfault] at hrest
      exact ⟨[], by rw [List.append_nil, hrest]⟩
    | some e =>
      rw [hfault] at hrest
      obtain ⟨rest, hcss, -⟩ := hrest
      exact ⟨rest, hcss⟩
  refine ⟨?_, ?_, ?_, fun l => Reached.sound⟩
  · have := @Tiled.tile [] _ htiled rest
    rwa [List.nil_append, ← hcss] at this
  · have hle := htiled.length_le
    have hsize := congrArg byteSize hcss
    rw [byteSize_append] at hsize
    omega
  · cases hfault : (ofChars css).tokens.2 with
    | none =>
      rw [hfault] at hrest
      exact hrest
    | some e =>
      rw [hfault] at hrest
      obtain ⟨rest, hcss, hoffset, hunended⟩ := hrest
      refine ⟨rest, hcss, hoffset, hunended, fun hurls => hunended.imp fun hhead => ?_⟩
      have hsolid : ∀ t ∈ (ofChars css).tokens.1, t.chars ≠ [] := fun t ht =>
        (htiled.shaped ht).solid
      exact (url_words hcss hsolid hurls).2 (List.mem_of_mem_head? hhead)

/-- The word `é` is given back and read again; the bracket behind `url` is never closed. -/
theorem reads_text_unclosed :
    let css := "é url(a".toList
    UrlsOpen css (ofChars css).tokens.1 ∧ (ofChars css).tokens.2 = some ⟨.bracket, 6⟩ ∧
      (∃ rest, css = tokenChars (ofChars css).tokens.1 ++ rest ∧
        Unended (EndsInUrl (ofChars css).tokens.1) rest .bracket) ∧
      Sound css ((ofChars css).next.2.back ⟨.word, "é", 0, 0⟩) := by
  intro css
  have htokens : (ofChars css).tokens =
      ([⟨.word, "é", 0, 0⟩, ⟨.space, " ", 2, 2⟩, ⟨.word, "url", 3, 5⟩], some ⟨.bracket, 6⟩) :=
    Yields.tokens (.cons rfl (.cons rfl (.cons rfl (.nil _)))) rfl
  have hurls : UrlsOpen css (ofChars css).tokens.1 := by
    intro us t vs hus hkind htext
    rw [htokens] at hus
    rcases us with _ | ⟨t₁, _ | ⟨t₂, _ | ⟨t₃, us⟩⟩⟩
    · cases hus
      exact absurd htext (by decide)
    · cases hus
      cases hkind
    · cases hus
      exact ⟨['a'], by decide⟩
    · simp at hus
  obtain ⟨-, -, hfault, hsound⟩ := reads_text css
  rw [htokens] at hfault hurls ⊢
  obtain ⟨rest, hrest, -, -, hunended⟩ := hfault
  exact ⟨hurls, rfl, ⟨rest, hrest, hunended hurls⟩, hsound _ (.back _ (.next .start rfl))⟩

/-- A parenthesis may be taken for that of a `url` further up: in `url x(y) (z` the last one is said
to be a bracket that is never closed. -/
theorem not_unended_url_stale :
    ¬∀ (css : List Char) (e : LexError), (ofChars css).tokens.2 = some e →
      ∃ rest, css = tokenChars (ofChars css).tokens.1 ++ rest ∧
        Unended (EndsInUrl (ofChars css).tokens.1) rest e.what := by
  intro h
  have htokens : (ofChars "url x(y) (z".toList).tokens =
      ([⟨.word, "url", 0, 2⟩, ⟨.space, " ", 3, 3⟩, ⟨.word, "x", 4, 4⟩, ⟨.brackets, "(y)", 5, 7⟩,
        ⟨.space, " ", 8, 8⟩], some ⟨.bracket, 9⟩) :=
    Yields.tokens (.cons rfl (.cons rfl (.cons rfl (.cons rfl (.cons rfl (.nil _)))))) rfl
  obtain ⟨rest, -, hunended⟩ := h _ ⟨.bracket, 9⟩ (by rw [htokens])
  obtain ⟨inner, -, ⟨us, t, hlast, hkind, -⟩, -⟩ := hunended
  rw [htokens] at hlast
  have := congrArg List.getLast? hlast
  rw [List.getLast?_concat] at this
  cases this
  cases hkind

end Lexer

end Stylesheet
