import Stylesheet.Proofs.Parse.Importance

/-!
# Declarations with a mark

A declaration is written as a word, a colon, a word and a mark of importance, with blanks and
comments around the parts of the mark (`spellMarked`). `readsMarked_iff` says when it is read as
important and with the word as its value.
-/

set_option autoImplicit false

namespace Stylesheet

open Stylesheet.Text

namespace Declaration

/-! ## Finding the mark -/

section
variable {v b w : Token} {front between behind : List Token}

theorem lower_append (s t : String) : lower (s ++ t) = lower s ++ lower t := by
  simp [lower]

/-- A word is found at the end of a value, whatever blanks and comments follow it. -/
theorem cutEnd_word (hw : w.kind = .word) (hbehind : Filling behind) (ts : List Token) :
    Token.cutEnd Token.isFiller (ts ++ w :: behind) = (ts ++ [w], behind) := by
  have hfiller : w.isFiller = false := by simp [Token.isFiller, hw]
  rw [← cutEnd_concat_filling hfiller hbehind, List.append_assoc, List.singleton_append]

/-- Only the last token of a mixture may be a blank at its end. -/
theorem cutEnd_blank (hv : v.kind = .word)
    (happart : front.IsChain fun s t => ¬(s.kind = .space ∧ t.kind = .space)) :
    (Token.cutEnd Token.isSpace (v :: front)).1 =
      v :: if (front.map Token.kind).getLast? = some .space then front.dropLast else front := by
  have hvs : v.isSpace = false := by simp [Token.isSpace, hv]
  rcases List.eq_nil_or_concat front with rfl | ⟨init, last, rfl⟩
  · simp [Token.cutEnd, hvs]
  have hlast : ((init ++ [last]).map Token.kind).getLast? = some last.kind := by simp
  rw [List.concat_eq_append] at happart ⊢
  rw [hlast, List.dropLast_concat]
  by_cases hk : last.kind = .space
  · have hhead : ∀ t ∈ (init.reverse ++ [v]).head?, t.isSpace = false := by
      rcases List.eq_nil_or_concat init with rfl | ⟨init, u, rfl⟩
      · simpa using hvs
      · rw [List.concat_eq_append, List.append_assoc] at happart
        have hu : u.kind ≠ .space := by simpa [hk] using (List.isChain_split.1 happart).2
        simp [Token.isSpace, hu]
    have hdrop : (init.reverse ++ [v]).dropWhile Token.isSpace = init.reverse ++ [v] := by
      cases hs : init.reverse ++ [v] with
      | nil => rfl
      | cons t ts =>
        rw [List.dropWhile_cons, hhead t (by rw [hs]; rfl)]
        rfl
    have hcut : (v :: (init ++ [last])).reverse = last :: (init.reverse ++ [v]) := by simp
    rw [Token.cutEnd, hcut, List.dropWhile_cons_of_pos (by simp [Token.isSpace, hk]), hdrop]
    simp [hk]
  · simp [Token.cutEnd, Token.isSpace, hk]

/-- **The mark in one piece** is found; a blank before it goes with it. -/
theorem findMark_joined (hv : v.kind = .word) (hw : w.kind = .word)
    (hmark : lower w.text = "!important")
    (happart : front.IsChain fun s t => ¬(s.kind = .space ∧ t.kind = .space))
    (hbehind : Filling behind) : ∃ mark, findMark (v :: front ++ w :: behind) =
      ⟨v :: if (front.map Token.kind).getLast? = some .space then front.dropLast else front,
        some mark⟩ := by
  unfold findMark
  simp only [cutEnd_word hw hbehind, List.getLast?_concat, hmark, if_true, List.dropLast_concat,
    cutEnd_blank hv happart]
  exact ⟨_, rfl⟩

/-- **The mark in two pieces** is found if the search reaches it. -/
theorem findMark_apart (hb : b.text = "!") (hw : w.kind = .word)
    (hmark : lower w.text = "important")
    (hfront : ∀ t ∈ front, t.spelling.IsFiller)
    (happart : front.IsChain fun s t => ¬(s.kind = .space ∧ t.kind = .space))
    (hbetween : ∀ t ∈ between, t.spelling.IsFiller)
    (hbehind : ∀ t ∈ behind, t.spelling.IsFiller) (hfill : Filling behind) :
    let ts := v :: front ++ b :: between ++ w :: behind
    let kinds := front.map Token.kind
    (Reaches kinds behind.length → ∃ mark, findMark ts =
      ⟨v :: if Overruns kinds behind.length then front.dropLast else front, some mark⟩) ∧
    (¬ Reaches kinds behind.length → findMark ts = ⟨ts, none⟩) := by
  intro ts kinds
  have hcut := cutEnd_word hw hfill (v :: front ++ b :: between)
  obtain ⟨hbang, htokens⟩ := unwind_iff (v := v) hb hmark hfront happart hbetween hbehind
  have hlength : (v :: front ++ b :: between ++ [w]).length - 1 =
      front.length + between.length + 2 := by
    simp
    omega
  have hfind : findMark ts = let found := unwind (front.length + between.length + 2) "" ts.reverse
      if startsWithBang found.1 then ⟨found.2.reverse, some found.1⟩ else ⟨ts, none⟩ := by
    unfold findMark
    simp only [ts, hcut, List.getLast?_concat, hmark, hlength, if_true]
    rfl
  rw [hfind]
  refine ⟨fun h => ?_, fun h => ?_⟩
  · rw [if_pos (hbang.2 h), htokens h]
    exact ⟨_, rfl⟩
  · rw [if_neg (mt hbang.1 h)]

end

/-! ## The declaration -/

section
variable {p c v : Token} {ts us : List Token} {mark : Option String}

/-- Without a colon and parentheses no other declaration is in a value. -/
theorem beforeColon_of_plain (hts : ∀ t ∈ ts, t.kind ≠ .colon ∧ t.kind ≠ .openParen ∧
    t.kind ≠ .closeParen) (depth : Int) (seen : List Token) (prev : Option Token) :
    beforeColon depth seen prev ts = .ok none := by
  induction ts generalizing seen prev with
  | nil => rfl
  | cons t ts ih =>
    obtain ⟨⟨hcolon, hopen, hclose⟩, hts⟩ := List.forall_mem_cons.1 hts
    simp only [beforeColon, hcolon, hopen, hclose, decide_false, Bool.false_and, if_false,
      Bool.false_eq_true]
    exact ih hts ..

theorem solid_of_plain (hts : ∀ t ∈ ts, t.Plain) (hcolon : ∀ t ∈ ts, t.kind ≠ .colon) :
    ∀ t ∈ ts, t.kind ≠ .colon ∧ t.kind ≠ .openParen ∧ t.kind ≠ .closeParen := by
  intro t ht
  refine ⟨hcolon t ht, ?_⟩
  rcases hts t ht with h | h | h | h <;> simp [h]

/-- A declaration whose value starts with a word directly behind the colon. -/
theorem parse_marked (hp : p.kind = .word) (hc : c.kind = .colon) (hv : v.kind = .word)
    (hfind : findMark (v :: ts) = ⟨v :: us, mark⟩) (hus : ∀ t ∈ us, t.Plain ∧ t.kind ≠ .colon)
    (spaces : String) (closing : Option Token) (custom : Bool) :
    ∃ d, parse spaces (p :: c :: v :: ts) closing custom = .ok d ∧ d.data =
      .declaration (splitHack p.text).2 (Cleaning.clean (!custom) none "" (v :: us)).1
        mark.isSome := by
  have hprops : (p :: c :: v :: ts).takeWhile (fun t => !endsProp t) = [p] := by
    simp [endsProp, Token.isFiller, hp, hc]
  have hrest : (p :: c :: v :: ts).dropWhile (fun t => !endsProp t) = c :: v :: ts := by
    simp [endsProp, Token.isFiller, hp, hc]
  have hvf : v.isFiller = false := by simp [Token.isFiller, hv]
  have hfiller : (v :: ts).takeWhile Token.isFiller = [] := by simp [hvf]
  have hvalue : (v :: ts).dropWhile Token.isFiller = v :: ts := by simp [hvf]
  have hsolid : (v :: us).any (fun t => !t.isFiller) = true := by simp [hvf]
  have hconcat : Token.concat [p] = p.text := by simp [Token.concat]
  have hcheck : checkSemicolon (v :: us) = .ok () := by
    unfold checkSemicolon
    rw [beforeColon_of_plain]
    · rfl
    · exact List.forall_mem_cons.2 ⟨by simp [hv],
        solid_of_plain (fun t ht => (hus t ht).1) fun t ht => (hus t ht).2⟩
  unfold parse
  simp only [leading, hp, if_true, bind, Except.bind, hprops, hrest, hconcat, separator, hc,
    hfiller, hvalue, hfind, hsolid, cleanInto, hcheck, pure, Except.pure]
  split <;> exact ⟨_, rfl, rfl⟩

end

/-! ## What is written -/

/-- The mark, with blanks and comments behind its exclamation mark. -/
def spellBang (imp : String) (between : List Spelling) : List Spelling :=
  if between = [] then [(.word, "!" ++ imp)] else (.word, "!") :: between ++ [(.word, imp)]

/-- Whether the mark is found: in one piece always, in two if the search reaches it. -/
def Counts (front between behind : List TokenKind) : Prop :=
  between = [] ∨ Reaches front behind.length

/-- What is left in the value of the blanks and comments before a mark that is found. -/
def leftOver (front between behind : List TokenKind) : List TokenKind :=
  if between = [] then if front.getLast? = some .space then front.dropLast else front
  else if Overruns front behind.length then front.dropLast else front

instance (front between behind : List TokenKind) : Decidable (Counts front between behind) :=
  inferInstanceAs (Decidable (_ ∨ _))

section
variable {imp : String} {v : Token} {front marks behind : List Token} {s1 s2 s3 : List Spelling}

theorem filling_of_mixture {ts : List Token} {ss : List Spelling} (h : ts.map Token.spelling = ss)
    (hss : Mixture ss) : (∀ t ∈ ts, t.spelling.IsFiller) ∧ Filling ts ∧
      ts.IsChain fun s t => ¬(s.kind = .space ∧ t.kind = .space) := by
  subst h
  have hfiller : ∀ t ∈ ts, t.spelling.IsFiller := fun t ht =>
    hss.isFiller _ (List.mem_map_of_mem ht)
  refine ⟨hfiller, fun t ht => ?_, (List.isChain_map _).1 hss.apart⟩
  cases hfiller t ht with
  | blanks hk _ _ => simp [Token.isFiller, show t.kind = _ from hk]
  | comment hk _ _ => simp [Token.isFiller, show t.kind = _ from hk]

theorem map_kind (ts : List Token) : ts.map Token.kind = (ts.map Token.spelling).map Prod.fst := by
  rw [List.map_map]
  rfl

/-- **Whether a written mark is found**, and what is left in front of it. -/
theorem findMark_spelled (hv : v.kind = .word) (himp : lower imp = "important")
    (hfront : front.map Token.spelling = s1) (hmarks : marks.map Token.spelling = spellBang imp s2)
    (hbehind : behind.map Token.spelling = s3) (h1 : Mixture s1) (h2 : Mixture s2)
    (h3 : Mixture s3) :
    let counts := Counts (s1.map Prod.fst) (s2.map Prod.fst) (s3.map Prod.fst)
    (counts → ∃ mark us, findMark (v :: (front ++ marks ++ behind)) = ⟨v :: us, some mark⟩ ∧
      us ⊆ front ∧
      us.map Token.kind = leftOver (s1.map Prod.fst) (s2.map Prod.fst) (s3.map Prod.fst)) ∧
    (¬ counts → findMark (v :: (front ++ marks ++ behind)) =
      ⟨v :: (front ++ marks ++ behind), none⟩) := by
  obtain ⟨hfill1, -, happart⟩ := filling_of_mixture hfront h1
  obtain ⟨hfill3, hfilling, -⟩ := filling_of_mixture hbehind h3
  have hkinds1 : front.map Token.kind = s1.map Prod.fst := by rw [map_kind, hfront]
  have hlength : behind.length = (s3.map Prod.fst).length := by simp [← hbehind]
  have hempty : s2.map Prod.fst = [] ↔ s2 = [] := List.map_eq_nil_iff
  have hleft : ∀ (b : Prop) [Decidable b], (if b then front.dropLast else front) ⊆ front ∧
      (if b then front.dropLast else front).map Token.kind =
        if b then (s1.map Prod.fst).dropLast else s1.map Prod.fst := by
    intro b _
    split
    · exact ⟨(List.dropLast_sublist front).subset, by rw [List.map_dropLast, hkinds1]⟩
    · exact ⟨List.Subset.refl _, hkinds1⟩
  unfold spellBang at hmarks
  by_cases hs2 : s2 = []
  · rw [if_pos hs2] at hmarks
    obtain ⟨w, rfl, hw⟩ := List.map_eq_singleton_iff.1 hmarks
    have hlower : lower w.text = "!important" := by
      rw [Token.text_of_spelling hw, lower_append, himp]
      rfl
    obtain ⟨mark, hfind⟩ :=
      findMark_joined hv (Token.kind_of_spelling hw) hlower happart hfilling
    rw [hkinds1] at hfind
    refine ⟨fun _ => ⟨mark, _, by simpa using hfind, (hleft _).1, ?_⟩,
      fun h => absurd (.inl (hempty.2 hs2)) h⟩
    rw [(hleft _).2, leftOver, if_pos (hempty.2 hs2)]
  · rw [if_neg hs2] at hmarks
    obtain ⟨bs, ws, rfl, hbs, hws⟩ := List.map_eq_append_iff.1 hmarks
    obtain ⟨b, between, rfl, hb, hbetween⟩ := List.map_eq_cons_iff.1 hbs
    obtain ⟨w, rfl, hw⟩ := List.map_eq_singleton_iff.1 hws
    have hlower : lower w.text = "important" := by rw [Token.text_of_spelling hw, himp]
    obtain ⟨hfill2, -, -⟩ := filling_of_mixture hbetween h2
    obtain ⟨hfound, hnone⟩ := findMark_apart (v := v) (Token.text_of_spelling hb)
      (Token.kind_of_spelling hw) hlower hfill1 happart hfill2 hfill3 hfilling
    rw [hkinds1, hlength] at hfound hnone
    have hcounts : Counts (s1.map Prod.fst) (s2.map Prod.fst) (s3.map Prod.fst) ↔
        Reaches (s1.map Prod.fst) (s3.map Prod.fst).length := by
      rw [Counts, hempty]
      exact or_iff_right hs2
    rw [hcounts]
    refine ⟨fun h => ?_, fun h => by simpa using hnone h⟩
    obtain ⟨mark, hfind⟩ := hfound h
    refine ⟨mark, _, by simpa using hfind, (hleft _).1, ?_⟩
    rw [(hleft _).2, leftOver, if_neg (mt hempty.1 hs2), List.length_map]

end

/-- A declaration with a mark, as it is written. -/
def spellMarked (p v imp : String) (s1 s2 s3 : List Spelling) : List Spelling :=
  (.word, p) :: (.colon, ":") :: (.word, v) :: (s1 ++ spellBang imp s2 ++ s3 ++ [(.semicolon, ";")])

/-- The parts of a declaration with a mark that stands in front of `more`: `p` and `v` are words
there. -/
structure Written (p v imp : String) (s1 s2 s3 : List Spelling) (more : List Char) : Prop where
  front : Mixture s1
  between : Mixture s2
  behind : Mixture s3
  mark : lower imp = "important"
  prop : Lexer.Cuts (.word, p)
    (Spelling.chars ((.colon, ":") :: (.word, v) :: (s1 ++ spellBang imp s2 ++ s3 ++
      [(.semicolon, ";")])) ++ more)
  value : Lexer.Cuts (.word, v)
    (Spelling.chars (s1 ++ spellBang imp s2 ++ s3 ++ [(.semicolon, ";")]) ++ more)

namespace Written

open Lexer

variable {p v imp : String} {s1 s2 s3 : List Spelling} {more : List Char}

theorem cutOff_spellBang (h : Written p v imp s1 s2 s3 more) :
    CutOff (spellBang imp s2) (Spelling.chars (s3 ++ [(.semicolon, ";")]) ++ more) := by
  obtain ⟨c, cs, himp, hall⟩ := letters_of_lower h.mark
  obtain ⟨hc, hcs⟩ := List.forall_mem_cons.1 hall
  have hend : Lexer.cutWord (Spelling.chars (s3 ++ [(.semicolon, ";")]) ++ more) =
      ([], Spelling.chars (s3 ++ [(.semicolon, ";")]) ++ more) := by
    rw [Spelling.chars_append, List.append_assoc]
    exact h.behind.cutWord fun _ => rfl
  unfold spellBang
  split
  · have hs : ("!" ++ imp).toList = '!' :: imp.toList := by simp
    exact ⟨cuts_letters hs (by decide) (himp ▸ hall) hend, trivial⟩
  · next hs2 =>
    have hletter : isSpace c = false ∧ startsWord c = true := by
      simpa using @of_isLower_toLower (fun c => !isSpace c && startsWord c) (by decide) c hc
    have hs : "!".toList = ['!'] := rfl
    refine ⟨cuts_letters hs (by decide) nofun ?_, cutOff_append.2 ⟨?_, ?_⟩⟩
    · rw [show Spelling.chars (List.append s2 _) = _ from Spelling.chars_append ..,
        List.append_assoc]
      exact h.between.cutWord fun h => absurd h hs2
    · exact h.between.cutOff (by simp [himp, hletter.1])
    · exact ⟨cuts_letters himp hletter.2 hcs hend, trivial⟩

theorem cutOff (h : Written p v imp s1 s2 s3 more) :
    CutOff (spellMarked p v imp s1 s2 s3) more := by
  refine ⟨h.prop, cuts_punctuation (c := ':') rfl rfl, h.value, ?_⟩
  rw [List.append_assoc, cutOff_append, cutOff_append, cutOff_append]
  refine ⟨⟨h.front.cutOff ?_, h.cutOff_spellBang⟩, h.behind.cutOff ?_, ?_, trivial⟩
  · obtain ⟨cs, hcs⟩ : ∃ cs, Spelling.chars (spellBang imp s2) = '!' :: cs := by
      unfold spellBang
      split
      · exact ⟨imp.toList, by simp⟩
      · exact ⟨_, rfl⟩
    rw [hcs]
    rintro _ ⟨⟩
    rfl
  · rintro _ ⟨⟩
    rfl
  · exact cuts_punctuation (c := ';') rfl rfl

end Written

end Declaration

namespace Parser

open Declaration

/-- A declaration that a semicolon ends, whatever its tokens are. -/
theorem statements_declaration {t c s : Token} {ts : List Token} (ht : t.kind = .word)
    (hc : c.kind = .colon) (hts : ∀ u ∈ ts, u.Plain) (hs : s.kind = .semicolon)
    (fault : Option LexError) (p : Parser) (rest : List Token) {d : Parsed}
    (hd : Declaration.parse p.spaces (t :: c :: ts) (some s) (startsWith t.text "--") = .ok d) :
    statements fault p (t :: c :: (ts ++ s :: rest)) =
      statements fault (p.add (.leaf d) true) rest := by
  refine statements_step ?_
  rw [step_of_startsRun (by rw [ht]; rfl)]
  have hstart : ∀ custom, Phrase.Nest.start.step custom t = ⟨false, [], none⟩ := fun custom => by
    simp [Phrase.Nest.step, Phrase.Nest.start, Phrase.closer?, ht]
  have hplain : ∀ u ∈ c :: ts, u.Plain := List.forall_mem_cons.2 ⟨.inr (.inr (.inr hc)), hts⟩
  have hgather : ∀ custom, Phrase.gather custom (Phrase.Nest.start.step custom t)
      (c :: (ts ++ s :: rest)) = ⟨c :: ts, .semicolon s, ⟨true, [], none⟩, rest⟩ := fun custom => by
    rw [hstart, ← List.cons_append, Phrase.gather_plain false hplain]
    simp [Phrase.gather, Phrase.ending?, Phrase.closer?, hc, hs]
  unfold run
  simp only [hgather, hd, if_true]
  rfl

end Parser

namespace Declaration

namespace Written

open Lexer

variable {p v imp : String} {s1 s2 s3 : List Spelling} {more : List Char}

theorem plain_spellBang {marks : List Token} (h2 : Mixture s2)
    (hmarks : marks.map Token.spelling = spellBang imp s2) :
    ∀ t ∈ marks, t.Plain ∧ t.kind ≠ .colon := by
  intro t ht
  have hmem : t.spelling ∈ spellBang imp s2 := hmarks ▸ List.mem_map_of_mem ht
  have hkind : t.kind = .word ∨ t.kind = .space ∨ t.kind = .comment := by
    unfold spellBang at hmem
    split at hmem
    · exact .inl (Token.kind_of_spelling (List.mem_singleton.1 hmem))
    · rw [List.cons_append, List.mem_cons, List.mem_append, List.mem_singleton] at hmem
      rcases hmem with hmem | hmem | hmem
      · exact .inl (Token.kind_of_spelling hmem)
      · cases h2.isFiller _ hmem with
        | blanks hk _ _ => exact .inr (.inl hk)
        | comment hk _ _ => exact .inr (.inr hk)
      · exact .inl (Token.kind_of_spelling hmem)
  rcases hkind with hk | hk | hk <;> simp [Token.Plain, hk]

/-- The tokens of the declaration. -/
theorem tokens (h : Written p v imp s1 s2 s3 more) {l : Lexer} (hl : l.returned = [])
    (hr : l.rest = Spelling.chars (spellMarked p v imp s1 s2 s3) ++ more) :
    ∃ (l' : Lexer) (t c w s : Token) (front marks behind : List Token),
      l.tokens = (t :: c :: (w :: (front ++ marks ++ behind) ++ s :: l'.tokens.1), l'.tokens.2) ∧
      l'.returned = [] ∧ l'.rest = more ∧
      t.spelling = (.word, p) ∧ c.spelling = (.colon, ":") ∧ w.spelling = (.word, v) ∧
      s.spelling = (.semicolon, ";") ∧ front.map Token.spelling = s1 ∧
      marks.map Token.spelling = spellBang imp s2 ∧ behind.map Token.spelling = s3 := by
  obtain ⟨ts, l', hts, htokens, hl', hr'⟩ := Lexer.tokens_of_cutOff_append hl hr h.cutOff
  obtain ⟨t, us, rfl, ht, hus⟩ := List.map_eq_cons_iff.1 hts
  obtain ⟨c, us, rfl, hc, hus⟩ := List.map_eq_cons_iff.1 hus
  obtain ⟨w, us, rfl, hw, hus⟩ := List.map_eq_cons_iff.1 hus
  obtain ⟨inner, ss, rfl, hinner, hss⟩ := List.map_eq_append_iff.1 hus
  obtain ⟨s, rfl, hs⟩ := List.map_eq_singleton_iff.1 hss
  obtain ⟨inner, behind, rfl, hinner, hbehind⟩ := List.map_eq_append_iff.1 hinner
  obtain ⟨front, marks, rfl, hfront, hmarks⟩ := List.map_eq_append_iff.1 hinner
  exact ⟨l', t, c, w, s, front, marks, behind, by simpa using htokens, hl', hr', ht, hc, hw, hs,
    hfront, hmarks, hbehind⟩

/-- **Which written marks are read.** Wherever the declaration stands, it is read as one; it is
important if the search finds its mark, and has the written value if cleaning leaves nothing of the
blanks and comments before the mark. -/
theorem reads_iff (h : Written p v imp s1 s2 s3 more) {l : Lexer} (hl : l.returned = [])
    (hr : l.rest = Spelling.chars (spellMarked p v imp s1 s2 s3) ++ more) :
    let k1 := s1.map Prod.fst
    let k2 := s2.map Prod.fst
    let k3 := s3.map Prod.fst
    ∃ (l' : Lexer) (value : String) (important : Bool), l'.returned = [] ∧ l'.rest = more ∧
      (∀ q : Parser, ∃ d : Parsed,
        Parser.statements l.tokens.2 q l.tokens.1 =
          Parser.statements l'.tokens.2 (q.add (.leaf d) true) l'.tokens.1 ∧
        d.data = .declaration (splitHack p).2 value important) ∧
      (important = true ↔ Counts k1 k2 k3) ∧
      (important = true ∧ value = v ↔ Counts k1 k2 k3 ∧
        Cleaning.Leaves (!startsWith p "--") v (leftOver k1 k2 k3)) := by
  intro k1 k2 k3
  obtain ⟨l', t, c, w, s, front, marks, behind, htokens, hl', hr', ht, hc, hw, hs, hfront, hmarks,
    hbehind⟩ := h.tokens hl hr
  obtain ⟨hfill1, hfilling1, -⟩ := filling_of_mixture hfront h.front
  obtain ⟨-, hfilling3, -⟩ := filling_of_mixture hbehind h.behind
  have hfiller : ∀ {u : Token}, u.isFiller = true → u.Plain ∧ u.kind ≠ .colon := fun {u} hu => by
    refine ⟨.of_isFiller hu, fun hk => ?_⟩
    simp [Token.isFiller, hk] at hu
  have hplain : ∀ u ∈ front ++ marks ++ behind, u.Plain ∧ u.kind ≠ .colon := by
    intro u hu
    rw [List.mem_append, List.mem_append] at hu
    rcases hu with (hu | hu) | hu
    · exact hfiller (hfilling1 u hu)
    · exact plain_spellBang h.between hmarks u hu
    · exact hfiller (hfilling3 u hu)
  have hwk := Token.kind_of_spelling hw
  obtain ⟨hfound, hnone⟩ :=
    findMark_spelled hwk h.mark hfront hmarks hbehind h.front h.between h.behind
  obtain ⟨us, mark, hfind, hus⟩ : ∃ us mark, findMark (w :: (front ++ marks ++ behind)) =
      ⟨w :: us, mark⟩ ∧ us ⊆ front ++ marks ++ behind ∧ (mark.isSome = true ↔ Counts k1 k2 k3) ∧
      (Counts k1 k2 k3 → us ⊆ front ∧ us.map Token.kind = leftOver k1 k2 k3) := by
    by_cases hcounts : Counts k1 k2 k3
    · obtain ⟨mark, us, hfind, hsub, hkinds⟩ := hfound hcounts
      exact ⟨us, some mark, hfind, fun u hu => by simp [hsub hu], iff_of_true rfl hcounts,
        fun _ => ⟨hsub, hkinds⟩⟩
    · exact ⟨_, none, hnone hcounts, List.Subset.refl _, iff_of_false Bool.false_ne_true hcounts,
        fun h => absurd h hcounts⟩
  obtain ⟨hsub, hmark, hleft⟩ := hus
  have hparse := parse_marked (Token.kind_of_spelling ht) (Token.kind_of_spelling hc) hwk hfind
    fun u hu => hplain u (hsub hu)
  refine ⟨l', (Cleaning.clean (!startsWith p "--") none "" (w :: us)).1, mark.isSome, hl', hr',
    fun q => ?_, hmark, ?_⟩
  · obtain ⟨d, hd, hdata⟩ := hparse q.spaces (some s) (startsWith t.text "--")
    rw [Token.text_of_spelling ht] at hdata
    refine ⟨d, ?_, hdata⟩
    rw [htokens]
    exact Parser.statements_declaration (Token.kind_of_spelling ht) (Token.kind_of_spelling hc)
      (List.forall_mem_cons.2 ⟨.inr (.inr (.inl hwk)), fun u hu => (hplain u hu).1⟩)
      (Token.kind_of_spelling hs) _ q _ hd
  · rw [hmark, and_congr_right_iff]
    intro hcounts
    obtain ⟨hsub, hkinds⟩ := hleft hcounts
    have hfirst : Cleaning.clean (!startsWith p "--") none "" (w :: us) =
        Cleaning.clean (!startsWith p "--") (some w) v us := by
      rw [Cleaning.clean, if_neg (by simp [hwk]), if_neg (by simp [hwk]),
        Token.text_of_spelling hw, String.empty_append]
    rw [hfirst, Cleaning.clean_eq_iff (fun u hu => ?_) (by simp [Token.isSpace, hwk]), hkinds]
    refine ⟨hfilling1 u (hsub hu), ?_⟩
    cases hfill1 u (hsub hu) with
    | blanks _ hne _ => exact hne
    | comment _ htext _ =>
      intro he
      rw [show u.spelling.2 = u.text from rfl, he] at htext
      cases htext

/-- A comment inside of the mark, and a blank behind it that is outweighed by the one before. -/
theorem reads_iff_comment :
    let s1 : List Spelling := [(.space, " ")]
    let s2 : List Spelling := [(.comment, "/*x*/")]
    let s3 : List Spelling := [(.space, "\n")]
    Written "p" "v" "IMPORTANT" s1 s2 s3 ['}'] ∧
      ∃ l' : Lexer, l'.rest = ['}'] ∧ ∀ q : Parser, ∃ d : Parsed,
        let l := Lexer.ofChars (Spelling.chars (spellMarked "p" "v" "IMPORTANT" s1 s2 s3) ++ ['}'])
        Parser.statements l.tokens.2 q l.tokens.1 =
          Parser.statements l'.tokens.2 (q.add (.leaf d) true) l'.tokens.1 ∧
        d.data = .declaration "p" "v" true := by
  intro s1 s2 s3
  have hwritten : Written "p" "v" "IMPORTANT" s1 s2 s3 ['}'] := by
    refine ⟨⟨?_, by decide⟩, ⟨?_, by decide⟩, ⟨?_, by decide⟩, by decide, ?_, ?_⟩
    · exact List.forall_mem_singleton.2 (.blanks rfl (by decide) (List.all_eq_true.1 rfl))
    · exact List.forall_mem_singleton.2
        (@Spelling.IsFiller.comment _ "x*/".toList rfl rfl (by decide))
    · exact List.forall_mem_singleton.2 (.blanks rfl (by decide) (List.all_eq_true.1 rfl))
    · exact cuts_isWord (by decide) (by rintro _ ⟨⟩; rfl)
    · exact cuts_isWord (by decide) (by rintro _ ⟨⟩; rfl)
  refine ⟨hwritten, ?_⟩
  obtain ⟨l', value, important, -, hr', hstep, -, hiff⟩ := hwritten.reads_iff (l := Lexer.ofChars
    (Spelling.chars (spellMarked "p" "v" "IMPORTANT" s1 s2 s3) ++ ['}'])) rfl rfl
  have hleaves : Cleaning.Leaves (!startsWith "p" "--") "v" [.space] :=
    ⟨0, [.space], rfl, .inl (Nat.zero_le 1), .inr ⟨by decide, rfl⟩⟩
  obtain ⟨rfl, rfl⟩ := hiff.2 ⟨by decide, hleaves⟩
  exact ⟨l', hr', hstep⟩

/-- Without a blank before it, a mark in two pieces is not read if a blank stands behind it. -/
theorem not_read_blank : ¬ ∀ (p v imp : String) (s1 s2 s3 : List Spelling),
    Written p v imp s1 s2 s3 ['}'] → '!' ∉ v.toList →
      let text := 'a' :: '{' :: (Spelling.chars (spellMarked p v imp s1 s2 s3) ++ ['}'])
      (Parser.parse text).toOption.map (·.preorder.map Parsed.data) =
        some [.root, .rule "a", .declaration (splitHack p).2 v true] := by
  intro hall
  have hblank : Mixture [(.space, " ")] :=
    ⟨List.forall_mem_singleton.2 (.blanks rfl (by decide) (List.all_eq_true.1 rfl)), by decide⟩
  have hwritten : Written "p" "v" "important" [] [(.space, " ")] [(.space, " ")] ['}'] :=
    ⟨⟨nofun, by decide⟩, hblank, hblank, by decide, cuts_isWord (by decide) (by rintro _ ⟨⟩; rfl),
      cuts_isWord (by decide) (by rintro _ ⟨⟩; rfl)⟩
  have hread : (Parser.parse "a\x7bp:v! important ;\x7d".toList).toOption.map
      (·.preorder.map Parsed.data) =
        some [.root, .rule "a", .declaration "p" "v! important" false] := by decide +kernel
  have hclaim := hall "p" "v" "important" [] [(.space, " ")] [(.space, " ")] hwritten (by decide)
  exact absurd (hclaim.symm.trans hread) (by decide)

end Written

end Declaration

end Stylesheet
