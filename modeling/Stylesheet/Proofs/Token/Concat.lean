import Stylesheet.Proofs.Reading
import Stylesheet.Proofs.Token.Footer

/-!
# The tokens of a text behind a finished rule

Two texts are read one behind the other, and the first ends with a closing brace. Two things can
reach over the brace. A parenthesis looks for its closing one as far as the text goes, so a `)` in
the second text may close one of the first; something that rules out a plain bracket has to stand
in between (`Spoiled`). And the words that no parenthesis has used are kept.

`Lexer.tokens_append_iff`: if `url` is not among these words, the second text is read as it is by
itself, whatever it is, exactly if the parentheses of the first are `Spoiled`. A cut that ends before
the end of the text stays as it is (`cut_within`), and of the words before a text only `url` is ever
looked at (`tokens_shift`).
-/

set_option autoImplicit false

namespace Stylesheet

open Stylesheet.Text

/-- The token, read `n` bytes further on. -/
def Token.shift (n : Nat) (t : Token) : Token := { t with first := n + t.first, last := n + t.last }

namespace Lexer

variable {word : String} {c : Char} {rest cs : List Char} {r : Cut}

/-! ## Cuts that end within the text -/

/-- **A cut that ends before the end of the text stays as it is** with more behind the text. Only an
open parenthesis has looked further: for its closing one. -/
theorem cut_within (h : cut word c rest = .ok r) (hr : r.kind ≠ .closeCurly → r.rest ≠ [])
    (hparen : r.kind = .openParen → ∃ d ∈ r.rest, spoilsBrackets d = true) (more : List Char) :
    cut word c (rest ++ more) = .ok { r with rest := r.rest ++ more } := by
  obtain ⟨kind, a, b, rfl, rfl, hcut⟩ := exists_isCut h
  rw [List.append_assoc]
  refine IsCut.cut_eq ?_
  by_cases hk : kind = .closeCurly
  · subst hk
    cases hcut with
    | mark hmark => exact .mark hmark
  · -- what follows the cut starts as before
    obtain ⟨d, b, rfl⟩ := List.exists_cons_of_ne_nil (hr hk)
    exact hcut.congr (fun e he => .inl he) (fun _ e he => .inl he)
      (fun hk hnone => ⟨id, cutBrackets_append_eq_none hnone (.inl (hparen hk))⟩)
      (fun _ e he => .inl he) fun hb => cutWord_nil_append hb nofun

/-! ## The first text -/

/-- Behind each parenthesis that is a token of its own stands a character that rules out a plain
bracket. -/
def Spoiled (ts : List Token) : Prop :=
  ∀ us t vs, ts = us ++ t :: vs → t.kind = .openParen →
    ∃ d ∈ tokenChars vs, spoilsBrackets d = true

theorem spoiled_cons {t : Token} {ts : List Token} : Spoiled (t :: ts) ↔
    (t.kind = .openParen → ∃ d ∈ tokenChars ts, spoilsBrackets d = true) ∧ Spoiled ts := by
  constructor
  · intro h
    exact ⟨h [] t ts rfl, fun us u vs hts => h (t :: us) u vs (by rw [hts, List.cons_append])⟩
  · rintro ⟨ht, hts⟩ us u vs heq hu
    cases us with
    | nil =>
      obtain ⟨rfl, rfl⟩ := List.cons.inj heq
      exact ht hu
    | cons v us => exact hts us u vs (List.cons.inj heq).2 hu

/-- The lexer behind a text that was read without a fault. -/
def past (l : Lexer) (more : List Char) : Lexer :=
  ⟨more, l.offset + byteSize l.rest, l.tokens.1.foldl wordsBehind l.words, []⟩

/-- What stands behind a text that ends with a brace is read when all its tokens are. -/
theorem tokens_withMore {l : Lexer} (hl : l.returned = []) (h : l.tokens.2 = none)
    (hlast : ∀ t ∈ l.tokens.1.getLast?, t.kind = .closeCurly) (hspoiled : Spoiled l.tokens.1)
    (more : List Char) :
    (l.withMore more).tokens =
      (l.tokens.1 ++ (l.past more).tokens.1, (l.past more).tokens.2) := by
  induction l using tokens.induct with
  | case1 l l' hn =>
    have hrest := next_none hl hn
    have hpast : l.past more = l.withMore more := by
      rw [past, withMore, tokens_none hn, hrest, hl]
      rfl
    rw [hpast, tokens_none hn]
    rfl
  | case2 l e l' hn =>
    rw [tokens_error hn] at h
    cases h
  | case3 l t l' hn _ _ _ _ ih =>
    have hwords := words_next hl hn
    obtain ⟨c, rest, r, hrest, hc, rfl, rfl⟩ := exists_cut hl hn
    have htokens := tokens_some hn
    rw [htokens] at h hlast hspoiled ⊢
    rw [spoiled_cons] at hspoiled
    have hchars : tokenChars (l.behind c r).tokens.1 = r.rest := chars_tokens _ rfl h
    have hne : r.kind ≠ .closeCurly → r.rest ≠ [] := by
      intro hk hnil
      have hnone := tokens_of_rest_nil (l := l.behind c r) rfl hnil
      rw [hnone] at hlast
      exact hk (hlast _ rfl)
    have hcut := cut_within hc hne (hchars ▸ hspoiled.1) more
    have hnext := next_of_cut (l := l.withMore more) hl (by rw [withMore, hrest]; rfl) hcut
    have hlast' : ∀ t ∈ (l.behind c r).tokens.1.getLast?, t.kind = .closeCurly := by
      intro t ht
      refine hlast t ?_
      rw [List.getLast?_cons]
      rw [Option.mem_def] at ht ⊢
      rw [ht]
      rfl
    have hpast : (l.behind c r).past more = l.past more := by
      have hsize := congrArg byteSize (cut_append hc).1
      rw [byteSize_append, ← hrest] at hsize
      rw [past, past, htokens, List.foldl_cons, ← hwords, behind, ← hsize, Nat.add_assoc]
    rw [tokens_some hnext, show (l.withMore more).behind c { r with rest := r.rest ++ more } =
      (l.behind c r).withMore more from rfl, ih rfl h hlast' hspoiled.2, hpast]
    rfl

theorem next_of_tokens {l : Lexer} {t : Token} {ts : List Token} (h : t :: ts <+: l.tokens.1) :
    ∃ l', l.next = (.ok (some t), l') ∧ ts <+: l'.tokens.1 := by
  rcases hn : l.next with ⟨e | _ | u, l'⟩
  · rw [tokens_error hn] at h
    simp at h
  · rw [tokens_none hn] at h
    simp at h
  · rw [tokens_some hn, List.cons_prefix_cons] at h
    exact ⟨l', by rw [h.1], h.2⟩

/-- A plain bracket ends at the first `)` if nothing in between rules it out. -/
theorem cutBrackets_close (h : ¬∃ d ∈ cs, spoilsBrackets d = true) :
    cutBrackets (cs ++ [')']) ≠ none := by
  obtain ⟨a, b, hab, hfirst⟩ := List.eq_append_cons_of_mem (show ')' ∈ cs ++ [')'] by simp)
  refine cutBrackets_ne_none_iff.2 ⟨a, b, hab, fun d hd => ?_⟩
  have hne : d ≠ ')' := by
    rintro rfl
    exact hfirst hd
  have hmem : d ∈ cs ++ [')'] := hab ▸ List.mem_append_left _ hd
  have hcs : d ∈ cs := by simpa [hne] using hmem
  simpa [hne] using fun hspoils => h ⟨d, hcs, hspoils⟩

theorem cut_openParen (h : cut word c rest = .ok r) (hk : r.kind = .openParen) :
    r.rest = rest ∧ cutBrackets rest = none := by
  obtain ⟨kind, a, b, rfl, rfl, hcut⟩ := exists_isCut h
  obtain rfl : kind = .openParen := hk
  cases hcut with
  | openParen _ hnone => exact ⟨rfl, hnone⟩
  | mark hmark => cases mark?_punctuation hmark

/-- If a `)` behind the text does not change its tokens, its parentheses are spoiled. -/
theorem spoiled_of_tokens {l : Lexer} (hl : l.returned = []) (h : l.tokens.2 = none)
    (hmore : l.tokens.1 <+: (l.withMore [')']).tokens.1) : Spoiled l.tokens.1 := by
  induction l using tokens.induct with
  | case1 l l' hn =>
    rw [tokens_none hn]
    intro us t vs hts
    simp at hts
  | case2 l e l' hn =>
    rw [tokens_error hn] at h
    cases h
  | case3 l t l' hn _ _ _ _ ih =>
    obtain ⟨c, rest, r, hrest, hc, rfl, rfl⟩ := exists_cut hl hn
    have htokens := tokens_some hn
    rw [htokens] at h hmore ⊢
    obtain ⟨m, hm, hmore⟩ := next_of_tokens hmore
    obtain ⟨c', rest', r', hrest', hc', ht, rfl⟩ := exists_cut (l := l.withMore [')']) hl hm
    obtain ⟨rfl, rfl⟩ : c' = c ∧ rest' = rest ++ [')'] := by
      rw [withMore, hrest, List.cons_append] at hrest'
      exact ⟨(List.cons.inj hrest').1.symm, (List.cons.inj hrest').2.symm⟩
    have hkind : r.kind = r'.kind := congrArg Token.kind ht
    have hchars : r.chars = r'.chars := by simpa using congrArg Token.chars ht
    have hbehind : r'.rest = r.rest ++ [')'] := by
      have happend := (cut_append hc').1
      rw [← hchars, ← List.cons_append, ← (cut_append hc).1, List.append_assoc] at happend
      exact List.append_cancel_left happend
    have hlexer : (l.withMore [')']).behind c' r' = (l.behind c' r).withMore [')'] := by
      rw [behind, keptWords, ← hkind, ← hchars, hbehind]
      rfl
    rw [hlexer] at hmore
    refine spoiled_cons.2 ⟨fun hk => ?_, ih rfl h hmore⟩
    rw [chars_tokens _ rfl h]
    by_contra hnone
    obtain ⟨hall, -⟩ := cut_openParen hc hk
    exact cutBrackets_close (hall ▸ hnone) (cut_openParen hc' (hkind ▸ hk)).2

/-! ## The second text -/

/-- The words are the same, but for some below them, of which none is `url`. -/
def Above (words words' : List String) : Prop := ∃ old, words' = words ++ old ∧ "url" ∉ old

theorem Above.head? {words words' : List String} (h : Above words words') :
    words.head?.getD "" = "url" ↔ words'.head?.getD "" = "url" := by
  obtain ⟨old, rfl, hold⟩ := h
  cases words with
  | cons w words => rfl
  | nil =>
    cases old with
    | nil => rfl
    | cons w old =>
      simp only [List.mem_cons, not_or] at hold
      simpa using Ne.symm hold.1

theorem Above.behind {words words' : List String} (h : Above words words') (c : Char) (r : Cut) :
    Above (keptWords r (usedWords c words)) (keptWords r (usedWords c words')) := by
  have hused : Above (usedWords c words) (usedWords c words') := by
    obtain ⟨old, rfl, hold⟩ := h
    unfold usedWords
    split
    · cases words with
      | cons w words => exact ⟨old, rfl, hold⟩
      | nil => exact ⟨old.tail, rfl, fun hmem => hold (List.mem_of_mem_tail hmem)⟩
    · exact ⟨old, rfl, hold⟩
  unfold keptWords
  split
  · obtain ⟨old, heq, hold⟩ := hused
    exact ⟨old, by rw [heq, List.cons_append], hold⟩
  · exact hused

/-- A cut asks of the word before it only whether it is `url`. -/
theorem cut_congr {word' : String} (h : word = "url" ↔ word' = "url") (c : Char)
    (rest : List Char) : cut word c rest = cut word' c rest := by
  unfold cut
  simp only [h]

/-- **A text is read as it is by itself**, if `url` is not among the words before it. -/
theorem tokens_shift {l l' : Lexer} {n : Nat} (hl : l.returned = []) (hl' : l'.returned = [])
    (hrest : l'.rest = l.rest) (hoffset : l'.offset = n + l.offset)
    (hwords : Above l.words l'.words) (h : l.tokens.2 = none) :
    l'.tokens = (l.tokens.1.map (Token.shift n), none) := by
  induction l using tokens.induct generalizing l' with
  | case1 l _ hn =>
    rw [tokens_none hn, tokens_of_rest_nil hl' (hrest.trans (next_none hl hn))]
    rfl
  | case2 l e _ hn =>
    rw [tokens_error hn] at h
    cases h
  | case3 l t _ hn _ _ _ _ ih =>
    obtain ⟨c, rest, r, hcons, hc, rfl, rfl⟩ := exists_cut hl hn
    rw [tokens_some hn] at h ⊢
    have hnext := next_of_cut hl' (hrest.trans hcons) (cut_congr hwords.head? c rest ▸ hc)
    have hshift : tokenAt l'.offset r.kind r.chars =
        (tokenAt l.offset r.kind r.chars).shift n := by
      rw [hoffset]
      simp [tokenAt, Token.shift, Nat.add_assoc]
    have hoff : (l'.behind c r).offset = n + (l.behind c r).offset := by
      rw [behind, behind, hoffset, Nat.add_assoc]
    rw [tokens_some hnext, @ih (l'.behind c r) rfl rfl rfl hoff (hwords.behind c r) h, hshift]
    rfl

/-! ## Both texts -/

/-- The text is read without a fault and ends with a closing brace. -/
def EndsRule (css : List Char) : Prop :=
  (ofChars css).tokens.2 = none ∧ ∃ t ∈ (ofChars css).tokens.1.getLast?, t.kind = .closeCurly

/-- Whatever is read without a fault is read behind the text as it is by itself. -/
def ReadsApart (css : List Char) : Prop :=
  ∀ more, (ofChars more).tokens.2 = none → (ofChars (css ++ more)).tokens =
    ((ofChars css).tokens.1 ++ (ofChars more).tokens.1.map (Token.shift (byteSize css)), none)

/-- **Texts behind a finished rule.** If `url` is not among the words that no parenthesis of the text
has used, a text behind it is read as it is by itself, exactly if no parenthesis of the text is left
to look for a `)` behind it. -/
theorem readsApart_iff {css : List Char} (h : EndsRule css)
    (hwords : "url" ∉ (ofChars css).tokens.1.foldl wordsBehind []) :
    ReadsApart css ↔ Spoiled (ofChars css).tokens.1 := by
  obtain ⟨hfault, t, ht, hbrace⟩ := h
  constructor
  · intro happart
    refine spoiled_of_tokens rfl hfault ?_
    have hclose : (ofChars [')']).tokens.2 = none := by
      rw [tokens_some (show (ofChars [')']).next = _ from rfl), tokens_of_rest_nil rfl rfl]
    show _ <+: (ofChars (css ++ [')'])).tokens.1
    rw [happart _ hclose]
    exact List.prefix_append _ _
  · intro hspoiled more hmore
    have hlast : ∀ u ∈ (ofChars css).tokens.1.getLast?, u.kind = .closeCurly := by
      intro u hu
      rwa [← Option.some.inj (ht.symm.trans hu)]
    have hoffset : ((ofChars css).past more).offset = byteSize css + (ofChars more).offset := by
      rw [past, ofChars, Nat.zero_add]
      rfl
    have hafter : ((ofChars css).past more).tokens =
        ((ofChars more).tokens.1.map (Token.shift (byteSize css)), none) :=
      tokens_shift rfl rfl rfl hoffset ⟨_, rfl, hwords⟩ hmore
    have hboth := tokens_withMore rfl hfault hlast hspoiled more
    rwa [hafter] at hboth

theorem Yields.tokens_end {l l' : Lexer} {ts : List Token} (h : Yields l ts l')
    (hn : l'.next = (.ok none, l')) : l.tokens = (ts, none) := by
  induction h with
  | nil => exact tokens_none hn
  | cons hnext _ ih => rw [tokens_some hnext, ih hn]

/-- Here `(x)` uses up `url`, and behind the other parenthesis stands a quote. -/
theorem readsApart_url :
    let css := "a\x7bb:url(x)f('y')\x7d".toList
    EndsRule css ∧ "url" ∉ (ofChars css).tokens.1.foldl wordsBehind [] ∧ ReadsApart css := by
  intro css
  have htokens : (ofChars css).tokens =
      ([⟨.word, "a", 0, 0⟩, ⟨.openCurly, "\x7b", 1, 1⟩, ⟨.word, "b", 2, 2⟩, ⟨.colon, ":", 3, 3⟩,
        ⟨.word, "url", 4, 6⟩, ⟨.brackets, "(x)", 7, 9⟩, ⟨.word, "f", 10, 10⟩,
        ⟨.openParen, "(", 11, 11⟩, ⟨.string, "'y'", 12, 14⟩, ⟨.closeParen, ")", 15, 15⟩,
        ⟨.closeCurly, "\x7d", 16, 16⟩], none) :=
    Yields.tokens_end (.cons rfl (.cons rfl (.cons rfl (.cons rfl (.cons rfl (.cons rfl (.cons rfl
      (.cons rfl (.cons rfl (.cons rfl (.cons rfl (.nil _)))))))))))) rfl
  have hends : EndsRule css := ⟨by rw [htokens], _, by rw [htokens]; rfl, rfl⟩
  have hwords : "url" ∉ (ofChars css).tokens.1.foldl wordsBehind [] := by
    rw [htokens]
    decide
  have hspoiled : Spoiled (ofChars css).tokens.1 := by
    rw [htokens]
    simp only [spoiled_cons]
    refine ⟨by decide, by decide, by decide, by decide, by decide, by decide, by decide,
      fun _ => ⟨'\'', by decide, by decide⟩, by decide, by decide, by decide, ?_⟩
    intro us t vs hts
    simp at hts
  exact ⟨hends, hwords, (readsApart_iff hends hwords).2 hspoiled⟩

/-- Not every text that ends with a brace is finished: behind `(}` a `)` closes the bracket. -/
theorem not_readsApart_paren : ¬∀ css, EndsRule css → ReadsApart css := by
  intro h
  have htokens : (ofChars "(\x7d".toList).tokens =
      ([⟨.openParen, "(", 0, 0⟩, ⟨.closeCurly, "\x7d", 1, 1⟩], none) :=
    Yields.tokens_end (.cons rfl (.cons rfl (.nil _))) rfl
  have hmore : (ofChars ")".toList).tokens = ([⟨.closeParen, ")", 0, 0⟩], none) :=
    Yields.tokens_end (.cons rfl (.nil _)) rfl
  have hboth : (ofChars ("(\x7d".toList ++ ")".toList)).tokens =
      ([⟨.brackets, "(\x7d)", 0, 2⟩], none) :=
    Yields.tokens_end (.cons rfl (.nil _)) rfl
  have hends : EndsRule "(\x7d".toList := ⟨by rw [htokens], _, by rw [htokens]; rfl, rfl⟩
  have happart := h _ hends ")".toList (by rw [hmore])
  rw [htokens, hmore, hboth] at happart
  cases happart

end Lexer

end Stylesheet
