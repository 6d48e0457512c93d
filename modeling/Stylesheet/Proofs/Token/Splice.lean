import Stylesheet.Proofs.Token.Concat
import Stylesheet.Proofs.Token.Fillers

/-!
# Texts that something is put into

`Spells url ss rest`: the lexer cuts the tokens `ss` off in front of `rest`. `spells_tokens` says so
of the tokens of every text, `tokens_of_spells` leads back to them; between the two, tokens can be
put into a text (`Spells.splice`). What stands behind a token matters only in how it starts, and in
the parentheses that it closes (`cut_replace`). What stands before it matters only if it is the word
`url` before a parenthesis, so every such word is asked to stand directly before one (`UrlsUsed`).
-/

set_option autoImplicit false

namespace Stylesheet

open Stylesheet.Text

/-- The word `url`. -/
def Spelling.isUrl (s : Spelling) : Bool := s.1 = .word && s.2 = "url"

namespace Lexer

variable {word : String} {c : Char} {kind : TokenKind} {x y y' : List Char}

/-! ## What is cut off in front of another text -/

/-- The text `y'` ends what `y` ends, and closes no bracket that `y` leaves open. -/
structure Replaces (y y' : List Char) : Prop where
  ends : ∀ stop : Char → Bool, stop ';' = true → (∀ d ∈ y.head?, stop d = true) →
    ∀ d ∈ y'.head?, stop d = true
  word : cutWord y = ([], y) → cutWord y' = ([], y')
  brackets : ∀ cs, cutBrackets (cs ++ y) = none → cutBrackets (cs ++ y') = none

/-- **A token in front of another text** is cut off as it was. Where that text starts otherwise, an
escape must hold a character. -/
theorem cut_replace (h : cut word c (x ++ y) = .ok ⟨kind, c :: x, y⟩) (hy : Replaces y y')
    (hhead : y'.head? = y.head? ∨ kind ≠ .openParen ∧ (c :: x).getLast? ≠ some '\\') :
    cut word c (x ++ y') = .ok ⟨kind, c :: x, y'⟩ := by
  have hstart : ∀ d ∈ y'.head?, y.head? = some d ∨ d = ';' := by
    simpa using hy.ends (fun d => y.head? = some d || d = ';') (by simp)
      fun d hd => by simp [Option.mem_def.1 hd]
  refine ((isCut_of_cut h).congr (fun d hd => (hstart d hd).imp_right .inl) (fun _ d hd => ?_)
    (fun hk hnone => ⟨?_, hy.brackets [] hnone⟩) (fun hall => ?_) hy.word).cut_eq
  · refine (hstart d hd).imp_right ?_
    rintro rfl
    rfl
  · have hsame : y'.head? = y.head? := hhead.resolve_right fun hne => hne.1 hk
    rw [startsQuoted_eq, startsQuoted_eq, hsame]
    exact id
  · -- a run of backslashes holds no character
    have hlast : (c :: x).getLast? = some '\\' := by
      rw [List.getLast?_eq_some_getLast (List.cons_ne_nil c x), hall _ (List.getLast_mem _)]
    have hsame : y'.head? = y.head? := hhead.resolve_right fun hne => hne.2 hlast
    exact fun d hd => .inl (hsame ▸ hd)

/-! ## Texts that are spelled out, parentheses too -/

/-- The lexer cuts this token off the text in front of `rest`, behind the word `url` or not. -/
def CutsAfter (url : Bool) (s : Spelling) (rest : List Char) : Prop :=
  ∃ c cs, s.2.toList = c :: cs ∧
    cut (if url then "url" else "") c (cs ++ rest) = .ok ⟨s.1, c :: cs, rest⟩

/-- Each of the tokens is cut off where it stands; `url` says whether the word `url` stands before
the first one. -/
def Spells : Bool → List Spelling → List Char → Prop
  | _, [], _ => True
  | url, s :: ss, rest => CutsAfter url s (Spelling.chars ss ++ rest) ∧ Spells s.isUrl ss rest

/-- The first of the tokens is a parenthesis or starts with one. -/
def StartsParen (ss : List Spelling) : Prop := ∃ s ∈ ss.head?, s.2.toList.head? = some '('

/-- Every word `url` stands directly before a parenthesis. -/
def UrlsUsed : List Spelling → Prop
  | [] => True
  | s :: ss => (s.isUrl = true → StartsParen ss) ∧ UrlsUsed ss

section
variable {url : Bool} {s : Spelling} {ss ts : List Spelling} {rest : List Char}

theorem spells_append : Spells url (ss ++ ts) rest ↔
    Spells url ss (Spelling.chars ts ++ rest) ∧
      Spells ((ss.getLast?.map Spelling.isUrl).getD url) ts rest := by
  induction ss generalizing url with
  | nil => simp [Spells]
  | cons s ss ih =>
    have hlast : ((s :: ss).getLast?.map Spelling.isUrl).getD url =
        (ss.getLast?.map Spelling.isUrl).getD s.isUrl := by
      rw [List.getLast?_cons]
      cases ss.getLast? <;> rfl
    rw [List.cons_append, Spells, Spells, ih, hlast, Spelling.chars_append, List.append_assoc,
      and_assoc]

theorem Cuts.after (h : Cuts s rest) (url : Bool) : CutsAfter url s rest := by
  obtain ⟨c, cs, hs, -, hcut⟩ := h
  exact ⟨c, cs, hs, hcut _⟩

/-- A comment is cut off up to its end. -/
theorem cut_comment (word : String) (y : List Char) :
    cut word '/' ('*' :: y) = match cutComment y with
      | some (a, b) => .ok ⟨.comment, '/' :: '*' :: a, b⟩
      | none => .error .comment := rfl

/-- A text that starts with a token in front of other texts. -/
theorem CutsAfter.replaces {t : Spelling} {y y' : List Char}
    (ht : CutsAfter url t (Spelling.chars ss ++ y))
    (hbrackets : ∀ cs, cutBrackets (cs ++ y) = none → cutBrackets (cs ++ y') = none) :
    Replaces (t.2.toList ++ Spelling.chars ss ++ y) (t.2.toList ++ Spelling.chars ss ++ y') ∧
      (t.2.toList ++ Spelling.chars ss ++ y').head? =
        (t.2.toList ++ Spelling.chars ss ++ y).head? := by
  obtain ⟨c, cs, htext, hcut⟩ := ht
  rw [htext]
  refine ⟨⟨fun stop _ h => h, fun h => ?_, fun ds h => ?_⟩, rfl⟩
  · rw [cutWord_eq_nil_iff] at h ⊢
    rintro _ ⟨⟩
    refine (h c rfl).imp_right ?_
    rintro ⟨rfl, hstar⟩
    refine ⟨rfl, ?_⟩
    change (cs ++ Spelling.chars ss ++ y).head? = some '*' at hstar
    change (cs ++ Spelling.chars ss ++ y').head? = some '*'
    cases hcs : cs ++ Spelling.chars ss with
    | cons d ds => simpa [hcs] using hstar
    | nil =>
      -- a comment would not have ended here
      obtain ⟨rfl, hss⟩ := List.append_eq_nil_iff.1 hcs
      rw [hcs, List.nil_append] at hstar
      obtain ⟨y, rfl⟩ := List.head?_eq_some_iff.1 hstar
      rw [hss, List.nil_append, List.nil_append, cut_comment] at hcut
      split at hcut
      · simp at hcut
      · cases hcut
  · rw [← List.append_assoc] at h ⊢
    exact hbrackets _ h

/-- **Tokens in front of another text** are cut off as they were, if the last one is. -/
theorem Spells.replace {y y' : List Char} (h : Spells url ss y)
    (hbrackets : ∀ cs, cutBrackets (cs ++ y) = none → cutBrackets (cs ++ y') = none)
    (hlast : ∀ s ∈ ss.getLast?, ∀ url, CutsAfter url s y → CutsAfter url s y') :
    Spells url ss y' := by
  induction ss generalizing url with
  | nil => trivial
  | cons s ss ih =>
    obtain ⟨hs, hss⟩ := h
    cases ss with
    | nil => exact ⟨hlast s rfl url hs, trivial⟩
    | cons t ss =>
      refine ⟨?_, ih hss fun u hu => hlast u (by rw [List.getLast?_cons_cons]; exact hu)⟩
      obtain ⟨hreplaces, hhead⟩ := hss.1.replaces hbrackets
      obtain ⟨c, cs, htext, hcut⟩ := hs
      exact ⟨c, cs, htext, cut_replace hcut hreplaces (.inl hhead)⟩

/-- A token that holds no open escape ends before a semicolon. -/
theorem CutsAfter.semicolon {y : List Char} (h : CutsAfter url s y) (hk : s.1 ≠ .openParen)
    (hlast : s.2.toList.getLast? ≠ some '\\')
    (hbrackets : ∀ cs, cutBrackets (cs ++ y) = none → cutBrackets (cs ++ ';' :: y') = none) :
    CutsAfter url s (';' :: y') := by
  obtain ⟨c, cs, htext, hcut⟩ := h
  refine ⟨c, cs, htext, cut_replace hcut ⟨fun stop hstop _ => ?_, fun _ => rfl, hbrackets⟩
    (.inr ⟨hk, htext ▸ hlast⟩)⟩
  rintro _ ⟨⟩
  exact hstop

/-- Only a parenthesis asks for the word before it. -/
theorem Spells.behind (h : Spells url ss rest) (hparen : ¬ StartsParen ss) (url' : Bool) :
    Spells url' ss rest := by
  cases ss with
  | nil => trivial
  | cons s ss =>
    obtain ⟨⟨c, cs, htext, hcut⟩, hss⟩ := h
    refine ⟨⟨c, cs, htext, ?_⟩, hss⟩
    have hne : c ≠ '(' := by
      rintro rfl
      exact hparen ⟨s, rfl, by rw [htext]; rfl⟩
    rw [← hcut]
    unfold cut
    simp only [hne, if_false]

theorem urlsUsed_append (hparen : ¬ StartsParen ts) :
    UrlsUsed (ss ++ ts) ↔ UrlsUsed ss ∧ UrlsUsed ts := by
  induction ss with
  | nil => simp [UrlsUsed]
  | cons s ss ih =>
    have hstart : StartsParen (ss ++ ts) ↔ StartsParen ss := by
      cases ss with
      | nil => exact iff_of_false hparen (by rintro ⟨_, h, -⟩; cases h)
      | cons t ss => exact Iff.rfl
    rw [List.cons_append, UrlsUsed, UrlsUsed, ih, hstart, and_assoc]

/-! ## The lexer -/

/-- The words that no parenthesis has used: `url` is the latest, or is not among them. -/
def Fresh : Bool → List String → Prop
  | true, words => words.head? = some "url" ∧ "url" ∉ words.tail
  | false, words => "url" ∉ words

theorem Fresh.word_iff {words : List String} (h : Fresh url words) :
    words.head?.getD "" = "url" ↔ (if url then "url" else "") = "url" := by
  cases url with
  | true => simp [h.1]
  | false =>
    refine iff_of_false (fun he => ?_) (by decide)
    cases words with
    | nil => exact absurd he (by decide)
    | cons w words =>
      obtain rfl : w = "url" := he
      exact h (.head _)

/-- The words behind a token that is a parenthesis where one must stand. -/
theorem Fresh.behind {words : List String} {r : Cut} (h : Fresh url words)
    (hcut : cut (words.head?.getD "") c x = .ok r) (hparen : url = true → c = '(') :
    Fresh (Spelling.isUrl (r.kind, String.ofList r.chars)) (keptWords r (usedWords c words)) := by
  have hhead := head?_of_cut hcut
  by_cases hc : c = '('
  · subst hc
    have hk := kind_of_paren hcut
    have htail : "url" ∉ words.tail := by
      cases url with
      | true => exact h.2
      | false => exact fun hmem => h (List.mem_of_mem_tail hmem)
    simpa [Spelling.isUrl, keptWords, usedWords, hk, Fresh] using htail
  · obtain rfl : url = false := by simpa [hc] using hparen
    have hnot : "url" ∉ words := h
    rw [usedWords, if_neg hc]
    by_cases hk : r.kind = .word
    · by_cases hurl : String.ofList r.chars = "url"
      · have hchars : r.chars.head? ≠ some '\\' := by
          rw [← String.toList_ofList (l := r.chars), hurl]
          decide
        simp [Spelling.isUrl, hk, hurl, keptWords, hchars, Fresh, hnot]
      · have : Spelling.isUrl (r.kind, String.ofList r.chars) = false := by
          simp [Spelling.isUrl, hurl]
        rw [this]
        unfold keptWords
        split
        · simpa [Fresh, hnot] using Ne.symm hurl
        · exact hnot
    · simpa [Spelling.isUrl, hk, keptWords, Fresh] using hnot

end

/-- **The tokens of a text spell it out.** -/
theorem spells_tokens {url : Bool} {l : Lexer} (hl : l.returned = []) (h : l.tokens.2 = none)
    (hwords : Fresh url l.words) (hurl : url = true → StartsParen (l.tokens.1.map Token.spelling))
    (hurls : UrlsUsed (l.tokens.1.map Token.spelling)) :
    Spells url (l.tokens.1.map Token.spelling) [] := by
  induction l using tokens.induct generalizing url with
  | case1 l l' hn =>
    rw [tokens_none hn]
    trivial
  | case2 l e l' hn =>
    rw [tokens_error hn] at h
    cases h
  | case3 l t l' hn _ _ _ _ ih =>
    obtain ⟨c, rest, r, hcons, hcut, rfl, rfl⟩ := exists_cut hl hn
    rw [tokens_some hn] at h hurl hurls ⊢
    obtain ⟨happend, -⟩ := cut_append hcut
    obtain ⟨cs, hchars⟩ := List.head?_eq_some_iff.1 (head?_of_cut hcut)
    have hrest : Spelling.chars ((l.behind c r).tokens.1.map Token.spelling) = r.rest := by
      have := chars_tokens (l.behind c r) rfl h
      rw [← show (l.behind c r).rest = r.rest from rfl, ← this]
      simp only [Spelling.chars, tokenChars, List.flatMap_map]
      rfl
    have hspelling : (tokenAt l.offset r.kind r.chars).spelling =
        (r.kind, String.ofList r.chars) := rfl
    have hparen : url = true → c = '(' := fun hu => by
      obtain ⟨_, ⟨⟩, hs⟩ := hurl hu
      rw [hspelling, String.toList_ofList, hchars] at hs
      exact Option.some.inj hs
    refine ⟨⟨c, cs, by rw [hspelling, String.toList_ofList, hchars], ?_⟩,
      ih rfl h (hwords.behind hcut hparen) hurls.1 hurls.2⟩
    rw [hchars, List.cons_append, List.cons.injEq] at happend
    have hrest' : cs ++ (Spelling.chars ((l.behind c r).tokens.1.map Token.spelling) ++ []) =
        rest := by rw [List.append_nil, hrest, happend.2]
    rw [hrest', cut_congr hwords.word_iff.symm, hcut, List.append_nil, hrest, ← hchars]
    rfl

/-- **A text that is spelled out** is read as the tokens that it is spelled with. -/
theorem tokens_of_spells {url : Bool} {ss : List Spelling} {l : Lexer} (hl : l.returned = [])
    (hr : l.rest = Spelling.chars ss) (h : Spells url ss []) (hwords : Fresh url l.words)
    (hurl : url = true → StartsParen ss) (hurls : UrlsUsed ss) :
    l.tokens.1.map Token.spelling = ss ∧ l.tokens.2 = none := by
  induction ss generalizing url l with
  | nil =>
    rw [tokens_of_rest_nil hl hr]
    exact ⟨rfl, rfl⟩
  | cons s ss ih =>
    obtain ⟨⟨c, cs, htext, hcut⟩, hss⟩ := h
    rw [List.append_nil] at hcut
    rw [Spelling.chars_cons, htext, List.cons_append] at hr
    have hparen : url = true → c = '(' := fun hu => by
      obtain ⟨_, ⟨⟩, hs⟩ := hurl hu
      simpa [htext] using hs
    rw [← cut_congr hwords.word_iff] at hcut
    have hnext := next_of_cut hl hr hcut
    have hspelling := spelling_tokenAt htext l.offset
    have hfresh := hwords.behind hcut hparen
    rw [show (s.1, String.ofList (c :: cs)) = s from hspelling] at hfresh
    obtain ⟨htokens, hfault⟩ := @ih _ (l.behind c ⟨s.1, c :: cs, Spelling.chars ss⟩) rfl rfl hss
      hfresh hurls.1 hurls.2
    rw [tokens_some hnext]
    exact ⟨by rw [List.map_cons, htokens, hspelling], hfault⟩

/-! ## Putting tokens in -/

/-- Text without a closing parenthesis closes no bracket. -/
theorem cutBrackets_insert {ins : List Char} (hins : ')' ∉ ins) (cs : List Char)
    (h : cutBrackets (cs ++ y) = none) : cutBrackets (cs ++ (ins ++ y)) = none := by
  by_contra hne
  obtain ⟨a, b, hsplit, hall⟩ := cutBrackets_ne_none_iff.1 hne
  refine cutBrackets_ne_none_iff.2 ?_ h
  rcases List.append_eq_append_iff.1 hsplit with ⟨a', rfl, hbehind⟩ | ⟨b', rfl, hwithin⟩
  · -- the bracket is closed behind `cs`, so behind what is put in
    rcases List.append_eq_append_iff.1 hbehind with ⟨a'', rfl, rfl⟩ | ⟨b', rfl, hwithin⟩
    · refine ⟨cs ++ a'', b, by simp, fun d hd => hall d ?_⟩
      simp only [List.mem_append] at hd ⊢
      exact hd.imp_right .inr
    · cases b' with
      | nil =>
        exact ⟨cs, b, by rw [← List.nil_append y, ← hwithin], fun d hd => hall d (by simp [hd])⟩
      | cons d b' =>
        obtain ⟨rfl, -⟩ := List.cons.inj hwithin
        exact absurd (by simp) hins
  · cases b' with
    | nil =>
      rw [List.nil_append] at hwithin
      cases ins with
      | nil => exact ⟨a, b, by rw [List.append_nil, hwithin, List.nil_append], hall⟩
      | cons d ins =>
        obtain ⟨rfl, -⟩ := List.cons.inj hwithin
        exact absurd (.head _) hins
    | cons d b' =>
      obtain ⟨rfl, rfl⟩ := List.cons.inj hwithin
      exact ⟨a, b' ++ y, by simp, hall⟩

/-- **Tokens are put into a text**, behind a token that ends before them. -/
theorem Spells.splice {url : Bool} {front ins back : List Spelling} {rest : List Char}
    (h : Spells url (front ++ back) rest) (hback : ¬ StartsParen back)
    (hins : ∀ url, Spells url ins (Spelling.chars back ++ rest))
    (hclose : ')' ∉ Spelling.chars ins)
    (hlast : ∀ s ∈ front.getLast?, ∀ url, CutsAfter url s (Spelling.chars back ++ rest) →
      CutsAfter url s (Spelling.chars ins ++ (Spelling.chars back ++ rest))) :
    Spells url (front ++ (ins ++ back)) rest := by
  obtain ⟨hfront, hspells⟩ := spells_append.1 h
  refine spells_append.2 ⟨?_, spells_append.2 ⟨hins _, hspells.behind hback _⟩⟩
  rw [Spelling.chars_append, List.append_assoc]
  exact hfront.replace (cutBrackets_insert hclose) hlast

/-- Where tokens are put in, every `url` still stands before its parenthesis. -/
theorem UrlsUsed.splice {front ins back : List Spelling} (h : UrlsUsed (front ++ back))
    (hback : ¬ StartsParen back) (hins : UrlsUsed ins) (hparen : ¬ StartsParen ins) :
    UrlsUsed (front ++ (ins ++ back)) := by
  obtain ⟨hf, hb⟩ := (urlsUsed_append hback).1 h
  have hboth : ¬ StartsParen (ins ++ back) := by
    cases ins with
    | nil => exact hback
    | cons s ins => exact hparen
  exact (urlsUsed_append hboth).2 ⟨hf, (urlsUsed_append hback).2 ⟨hins, hb⟩⟩

end Lexer

end Stylesheet
