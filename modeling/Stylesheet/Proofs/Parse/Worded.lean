import Stylesheet.Proofs.Parse.Grown
import Stylesheet.Proofs.Parse.Standing

/-!
# A declaration in words behind the others

`Part.worded` is a declaration whose property and value are words, with blanks before it and around
its colon. `addable_worded`: such a declaration can be put behind the children of every block, with
a semicolon of its own or without one. Without one, the blanks behind it and a stray semicolon
there may become a part of it.
-/

set_option autoImplicit false

namespace Stylesheet

open Stylesheet.Spelling

/-! ## Reading it -/

/-- The token of a spelling, wherever it stands. -/
def Spelling.token (s : Spelling) : Token := ⟨s.1, s.2, 0, 0⟩

theorem Spelling.map_token (ss : List Spelling) :
    (ss.map Spelling.token).map Token.spelling = ss := by
  rw [List.map_map]
  exact List.map_id' ss

namespace Declaration

variable {prop value : String} {p c v : Token} {ls rs xs : List Token}

theorem separator_spaces (hl : ∀ t ∈ ls, t.kind = .space) (hc : c.kind = .colon)
    (between : String) (rest : List Token) : ∃ between',
      separator between (ls ++ c :: rest) = .ok (between', rest) := by
  induction ls generalizing between with
  | nil => exact ⟨between ++ ":", by simp [separator, hc]⟩
  | cons l ls ih =>
    obtain ⟨hl, hls⟩ := List.forall_mem_cons.1 hl
    obtain ⟨between', h⟩ := ih hls (between ++ l.text)
    refine ⟨between', ?_⟩
    rw [List.cons_append, separator, if_neg (by simp [hl]), if_neg (by simp [isWordLike, hl]), h]

/-- A single word is a value without a mark, with blanks behind it too. -/
theorem findMark_spaced (hv : v.kind = .word) (hvalue : isWord v.text = true)
    (hx : ∀ t ∈ xs, t.kind = .space) : findMark (v :: xs) = ⟨v :: xs, none⟩ := by
  have hfill : Filling xs := fun t ht => by simp [Token.isFiller, hx t ht]
  have hcut : Token.cutEnd Token.isFiller (v :: xs) = ([v], xs) :=
    @cutEnd_concat_filling [] xs v (by simp [Token.isFiller, hv]) hfill
  simp only [findMark, hcut, List.getLast?_singleton, lower_ne_of_isWord hvalue, if_false]
  split <;> rfl

/-- A blank behind a word is no part of the value. -/
theorem clean_spaced (hv : v.kind = .word) (hx : xs = [] ∨ ∃ x, xs = [x] ∧ x.kind = .space) :
    (Cleaning.clean true none "" (v :: xs)).1 = v.text := by
  rcases hx with rfl | ⟨x, rfl, hx⟩
  · simp [Cleaning.clean, hv]
  · simp [Cleaning.clean, hv, hx]

/-- **A declaration in words** is read as it is spelled, with any blanks around its colon and a
blank behind it. -/
theorem parse_spaced (hp : p.spelling = (.word, prop)) (hprop : isWord prop = true)
    (hl : ∀ t ∈ ls, t.kind = .space) (hc : c.kind = .colon) (hr : ∀ t ∈ rs, t.kind = .space)
    (hv : v.spelling = (.word, value)) (hvalue : isWord value = true)
    (hx : xs = [] ∨ ∃ x, xs = [x] ∧ x.kind = .space) (spaces : String) (closing : Option Token) :
    ∃ d, parse spaces (p :: (ls ++ c :: (rs ++ v :: xs))) closing false = .ok d ∧
      d.data = .declaration prop value false := by
  have hpk := Token.kind_of_spelling hp
  have hvk := Token.kind_of_spelling hv
  have hvt := Token.text_of_spelling hv
  have hxs : ∀ t ∈ xs, t.kind = .space := by
    rcases hx with rfl | ⟨x, rfl, hx⟩
    · nofun
    · exact List.forall_mem_singleton.2 hx
  have hcolon : value.toList.contains ':' = false := by
    rw [← Bool.not_eq_true, List.contains_iff_mem]
    exact not_mem_of_isWord hvalue (by decide)
  have hends : ∀ ts : List Token, (ls ++ c :: ts).takeWhile (fun t => !endsProp t) = [] ∧
      (ls ++ c :: ts).dropWhile (fun t => !endsProp t) = ls ++ c :: ts := by
    intro ts
    cases ls with
    | nil => simp [endsProp, hc]
    | cons l ls => simp [endsProp, Token.isFiller, hl l (.head _)]
  have hprops : (p :: (ls ++ c :: (rs ++ v :: xs))).takeWhile (fun t => !endsProp t) = [p] := by
    rw [List.takeWhile_cons_of_pos (by simp [endsProp, Token.isFiller, hpk]), (hends _).1]
  have hrest : (p :: (ls ++ c :: (rs ++ v :: xs))).dropWhile (fun t => !endsProp t) =
      ls ++ c :: (rs ++ v :: xs) := by
    rw [List.dropWhile_cons_of_pos (by simp [endsProp, Token.isFiller, hpk]), (hends _).2]
  obtain ⟨between, hbetween⟩ := separator_spaces hl hc "" (rs ++ v :: xs)
  have hfiller : ∀ t ∈ rs, t.isFiller = true := fun t ht => by simp [Token.isFiller, hr t ht]
  have hsolid : v.isFiller = false := by simp [Token.isFiller, hvk]
  have htake : (rs ++ v :: xs).takeWhile Token.isFiller = rs := by
    rw [List.takeWhile_append_of_pos hfiller]
    simp [hsolid]
  have hdrop : (rs ++ v :: xs).dropWhile Token.isFiller = v :: xs := by
    rw [List.dropWhile_append_of_pos hfiller]
    simp [hsolid]
  have hfind := @findMark_spaced v xs hvk (by rw [hvt]; exact hvalue) hxs
  have hany : (v :: xs).any (fun t => !t.isFiller) = true := by simp [hsolid]
  have hhack : splitHack (Token.concat [p]) = ("", prop) := by
    rw [show Token.concat [p] = prop by simp [Token.concat, Token.text_of_spelling hp]]
    exact splitHack_of_isWord hprop
  have hclean := clean_spaced hvk hx
  rw [hvt] at hclean
  unfold parse
  simp only [leading, hpk, if_true, bind, Except.bind, hprops, hrest, hhack, hbetween, htake, hdrop,
    hfind, hany, cleanInto, Bool.not_false, hclean, hcolon, Bool.and_false, Bool.false_eq_true,
    if_false, pure, Except.pure]
  exact ⟨_, rfl, rfl⟩

end Declaration

/-! ## Its tokens -/

namespace Spelling

/-- Blanks, if there are any. -/
def blank (s : String) : List Spelling := if s = "" then [] else [(.space, s)]

theorem kind_blank {s : String} : ∀ t ∈ blank s, t.1 = .space := by
  intro t ht
  unfold blank at ht
  split at ht
  · cases ht
  · rw [List.mem_singleton.1 ht]

theorem gap_blank (s : String) : Gap (blank s) := fun t ht => .inl (kind_blank t ht)

@[simp] theorem chars_blank (s : String) : chars (blank s) = s.toList := by
  unfold blank
  split
  · next hs => simp [hs]
  · simp

/-- A property and a value, with blanks around the colon. -/
def worded (left right prop value : String) : List Spelling :=
  (.word, prop) :: (blank left ++ (.colon, ":") :: (blank right ++ [(.word, value)]))

theorem chars_worded (left right prop value : String) : chars (worded left right prop value) =
    prop.toList ++ (left.toList ++ ':' :: (right.toList ++ value.toList)) := by
  simp [worded]

/-- What stands behind the contents of a block: blanks, or a stray semicolon behind one piece of
them at most. -/
theorem Gap.spaces_or {url : Bool} {ss : List Spelling} {rest : List Char} (h : Gap ss)
    (hs : Lexer.Spells url ss rest) : (∀ s ∈ ss, s.1 = .space) ∨
      ∃ xs more, ss = xs ++ [semicolon] ++ more ∧ (xs = [] ∨ ∃ x, xs = [x] ∧ x.1 = .space) ∧
        Gap more := by
  have hmark : ∀ {url s rest}, Lexer.CutsAfter url s rest → s.1 = .semicolon → s = semicolon := by
    intro url s rest hcut hk
    exact Prod.ext hk (String.toList_inj.1 (hcut.mark (by rw [hk]; rfl)))
  rcases ss with _ | ⟨s, ss⟩
  · exact .inl nofun
  obtain ⟨hk, hss⟩ := List.forall_mem_cons.1 h
  rcases hk with hk | hk
  · rcases ss with _ | ⟨t, ss⟩
    · exact .inl (List.forall_mem_singleton.2 hk)
    obtain ⟨hkt, hmore⟩ := List.forall_mem_cons.1 hss
    rcases hkt with hkt | hkt
    · -- two runs of blanks are one
      have hstops := hs.1.space_stops hk
      obtain ⟨c, cs, htext, hshaped⟩ := hs.2.1.shaped
      have hspace := hshaped.space hkt c (by simp)
      rw [chars_cons, htext] at hstops
      rw [hstops c rfl] at hspace
      cases hspace
    · obtain rfl := hmark hs.2.1 hkt
      exact .inr ⟨[s], ss, by simp, .inr ⟨s, rfl, hk⟩, hmore⟩
  · obtain rfl := hmark hs.1 hk
    exact .inr ⟨[], ss, by simp, .inl rfl, hss⟩

end Spelling

namespace Lexer

variable {url : Bool} {s : String} {ss : List Spelling} {rest : List Char}

theorem spells_of_cutOff (h : CutOff ss rest) : Spells url ss rest := by
  induction ss generalizing url with
  | nil => trivial
  | cons s ss ih => exact ⟨h.1.after url, ih h.2⟩

theorem urlsUsed_of_isUrl (h : ∀ s ∈ ss, s.isUrl = false) : UrlsUsed ss := by
  induction ss with
  | nil => trivial
  | cons s ss ih =>
    obtain ⟨hs, hss⟩ := List.forall_mem_cons.1 h
    exact ⟨fun hurl => by simp [hs] at hurl, ih hss⟩

theorem cutOff_blank (hs : ∀ c ∈ s.toList, isSpace c = true)
    (hrest : ∀ c ∈ rest.head?, isSpace c = false) : CutOff (blank s) rest := by
  unfold blank
  split
  · trivial
  · next hne => exact ⟨cuts_space hne hs (by simpa using hrest), trivial⟩

theorem endsWord_of_isSpace {c : Char} (h : isSpace c = true) : endsWord c = true := by
  simp [endsWord, endsAnyWord, h]

theorem endsWord_of_endsStatement {c : Char} (h : endsStatement c = true) : endsWord c = true := by
  simp only [endsStatement, Bool.or_eq_true, decide_eq_true_eq] at h
  rcases h with (h | rfl) | rfl
  · exact endsWord_of_isSpace h
  · rfl
  · rfl

variable {before left right prop value : String}

theorem cutOff_worded (hleft : ∀ c ∈ left.toList, isSpace c = true)
    (hright : ∀ c ∈ right.toList, isSpace c = true) (hprop : isWord prop = true)
    (hvalue : isWord value = true) (hrest : ∀ c ∈ rest.head?, endsWord c = true) :
    CutOff (worded left right prop value) rest := by
  obtain ⟨v, vs, hv, hall⟩ := isWord_iff.1 hvalue
  have hletter : isSpace v = false := by
    simpa using @of_isLower (fun c => !isSpace c) (by decide) v (hall v (.head _))
  refine ⟨cuts_isWord hprop ?_, cutOff_append.2 ⟨cutOff_blank hleft ?_, ?_, cutOff_append.2
    ⟨cutOff_blank hright ?_, cuts_isWord hvalue (by simpa using hrest), trivial⟩⟩⟩
  · -- blanks or the colon end the property
    rw [chars_append, chars_blank]
    cases hl : left.toList with
    | nil => rintro _ ⟨⟩; rfl
    | cons l ls =>
      rintro _ ⟨⟩
      exact endsWord_of_isSpace (hleft l (hl ▸ .head _))
  · rintro _ ⟨⟩
    rfl
  · exact cuts_punctuation (c := ':') rfl rfl
  · rw [chars_cons, hv]
    rintro _ ⟨⟩
    exact hletter

end Lexer

/-! ## Wherever it stands -/

namespace Parser

variable {left right prop value : String} {xs : List Spelling}

/-- A word and tokens without brackets are a run. -/
theorem runs_plain {t : Token} {ts : List Token} (ht : t.kind = .word)
    (hword : isWord t.text = true)
    (hts : ∀ u ∈ ts, u.Plain) (hcolon : ts.any (·.kind = .colon) = true) :
    isCustom t = false ∧ Runs t ts ∧ (nest t ts).colon = true := by
  have hcustom : isCustom t = false := startsWith_of_isWord hword
  have hstart : Phrase.Nest.start.step false t = ⟨false, [], none⟩ := by
    simp [Phrase.Nest.step, Phrase.Nest.start, Phrase.closer?, ht]
  have hgather := @Phrase.gather_plain false false ts hts []
  rw [hcolon, List.append_nil] at hgather
  obtain ⟨hpasses, hnest⟩ := Phrase.passes_gather false ⟨false, [], none⟩ ts
  rw [hgather] at hpasses hnest
  simp only [Phrase.gather, List.append_nil, Bool.or_true] at hpasses hnest
  have hn : nest t ts = ⟨true, [], none⟩ := by rw [nest, hcustom, hstart, ← hnest]
  refine ⟨hcustom, ⟨by rw [ht]; rfl, ?_, by rw [hn]⟩, by rw [hn]⟩
  rw [hcustom, hstart]
  exact hpasses

/-- The tokens of a declaration in words, with a blank behind it at most. -/
theorem exists_worded (hprop : isWord prop = true) (hvalue : isWord value = true)
    (hx : xs = [] ∨ ∃ x, xs = [x] ∧ x.1 = .space) :
    ∃ t ts front v d, (t :: ts).map Token.spelling = worded left right prop value ++ xs ∧
      ts = front ++ [v] ++ xs.map Spelling.token ∧ v.isFiller = false ∧
      isCustom t = false ∧ Runs t ts ∧ (nest t ts).colon = true ∧
      Declaration.parse "" (t :: ts) none (isCustom t) = .ok d ∧
      d.data = .declaration prop value false := by
  have hblank : ∀ s, ∀ t ∈ (blank s).map Spelling.token, t.kind = .space := by
    intro s t ht
    obtain ⟨u, hu, rfl⟩ := List.mem_map.1 ht
    exact kind_blank u hu
  have hxs : xs.map Spelling.token = [] ∨ ∃ x, xs.map Spelling.token = [x] ∧ x.kind = .space := by
    rcases hx with rfl | ⟨x, rfl, hx⟩
    · exact .inl rfl
    · exact .inr ⟨x.token, rfl, hx⟩
  let t : Token := Spelling.token (.word, prop)
  let c : Token := Spelling.token (.colon, ":")
  let v : Token := Spelling.token (.word, value)
  let front := (blank left).map Spelling.token ++ c :: (blank right).map Spelling.token
  obtain ⟨d, hd, hdata⟩ := Declaration.parse_spaced (p := t) (c := c) (v := v) rfl hprop
    (hblank left) rfl (hblank right) rfl hvalue hxs "" none
  have htokens : (blank left).map Spelling.token ++ c :: ((blank right).map Spelling.token ++
      v :: xs.map Spelling.token) = front ++ [v] ++ xs.map Spelling.token := by
    simp [front]
  rw [htokens] at hd
  have hplain : ∀ u ∈ front ++ [v] ++ xs.map Spelling.token, u.Plain := by
    intro u hu
    simp only [front, List.mem_append, List.mem_cons, List.not_mem_nil, or_false] at hu
    rcases hu with ((hu | rfl | hu) | rfl) | hu
    · exact .inl (hblank left u hu)
    · exact .inr (.inr (.inr rfl))
    · exact .inl (hblank right u hu)
    · exact .inr (.inr (.inl rfl))
    · rcases hxs with hnil | ⟨x, hone, hx⟩
      · rw [hnil] at hu
        cases hu
      · rw [hone, List.mem_singleton] at hu
        exact .inl (hu ▸ hx)
  have hcolon : (front ++ [v] ++ xs.map Spelling.token).any (·.kind = .colon) = true := by
    simp [front, c, Spelling.token]
  obtain ⟨hcustom, hruns, hnest⟩ := @runs_plain t _ rfl hprop hplain hcolon
  refine ⟨t, _, front, v, d, ?_, rfl, rfl, hcustom, hruns, hnest, by rw [hcustom]; exact hd, hdata⟩
  rw [← htokens]
  have hmap := Spelling.map_token (worded left right prop value ++ xs)
  simpa [worded, t, c, v] using hmap

/-- With a semicolon, and with a blank before that at most. -/
theorem yields_worded (hprop : isWord prop = true) (hvalue : isWord value = true)
    (hx : xs = [] ∨ ∃ x, xs = [x] ∧ x.1 = .space) :
    Yields (worded left right prop value ++ xs ++ [Spelling.semicolon])
      [.leaf (.declaration prop value false)] := by
  obtain ⟨t, ts, front, v, d, hts, -, -, -, hruns, hcolon, hd, hdata⟩ :=
    @exists_worded left right prop value xs hprop hvalue hx
  have := yields_declaration hruns hcolon hd
  rwa [hts, hdata] at this

/-- Without a semicolon, with blanks behind it. -/
theorem yieldsLast_worded (hprop : isWord prop = true) (hvalue : isWord value = true)
    (hx : ∀ x ∈ xs, x.1 = .space) (inner : Bool) :
    YieldsLast inner (worded left right prop value ++ xs)
      [.leaf (.declaration prop value false)] := by
  obtain ⟨t, ts, front, v, d, hts, hsplit, hv, hcustom, hruns, hcolon, hd, hdata⟩ :=
    @exists_worded left right prop value [] hprop hvalue (.inl rfl)
  rw [List.map_nil, List.append_nil] at hsplit
  rw [List.append_nil] at hts
  have hfill : Filling (xs.map Spelling.token) := by
    intro x hmem
    obtain ⟨s, hs, rfl⟩ := List.mem_map.1 hmem
    simp [Token.isFiller, Spelling.token, hx s hs]
  have hcut : runEnd (isCustom t) (ts ++ xs.map Spelling.token) =
      (ts, xs.map Spelling.token) := by
    rw [hcustom, hsplit]
    exact cutEnd_concat_filling hv hfill
  have hnone : remarks xs = [] := by
    clear hfill hcut
    induction xs with
    | nil => rfl
    | cons x xs ih =>
      obtain ⟨hx, hxs⟩ := List.forall_mem_cons.1 hx
      rw [remarks, if_neg (by rw [hx]; decide), ih hxs]
  have := yieldsLast_declaration hruns hcolon hd hfill hcut inner
  rwa [hts, hdata, Spelling.map_token, hnone] at this

end Parser

/-- A declaration in words with its tokens. -/
def Part.worded (n : Parsed) (before left right prop value : String) (closed : Bool) : Part :=
  ⟨n, blank before, Spelling.worded left right prop value, closed, [], []⟩

namespace Tree

section
variable {before left right prop value : String} (n : Parsed) (closed : Bool)
  (hprop : isWord prop = true) (hvalue : isWord value = true)
include hprop hvalue

theorem not_mem_worded (hbefore : ∀ c ∈ before.toList, Lexer.isSpace c = true)
    (hleft : ∀ c ∈ left.toList, Lexer.isSpace c = true)
    (hright : ∀ c ∈ right.toList, Lexer.isSpace c = true) {c : Char} (hlower : c.isLower = false)
    (hspace : Lexer.isSpace c = false) (hcolon : c ≠ ':') (hsemicolon : c ≠ ';') :
    c ∉ chars (Tree.leaf (.worded n before left right prop value closed)).source := by
  have hblank {s : String} (hs : ∀ c ∈ s.toList, Lexer.isSpace c = true) : c ∉ s.toList := by
    intro hmem
    rw [hs c hmem] at hspace
    cases hspace
  rw [show (Tree.leaf (.worded n before left right prop value closed)).source = blank before ++
    (Spelling.worded left right prop value ++ if closed then [semicolon] else []) from rfl,
    chars_append, chars_append, chars_blank, chars_worded]
  simp only [List.mem_append, List.mem_cons, not_or]
  refine ⟨hblank hbefore, ⟨not_mem_of_isWord hprop hlower, hblank hleft, hcolon, hblank hright,
    not_mem_of_isWord hvalue hlower⟩, ?_⟩
  cases closed with
  | false => exact List.not_mem_nil
  | true => exact fun hmem => hsemicolon (List.mem_singleton.1 hmem)

/-- **Its tokens can be put between others.** -/
theorem plain_worded (hbefore : ∀ c ∈ before.toList, Lexer.isSpace c = true)
    (hleft : ∀ c ∈ left.toList, Lexer.isSpace c = true)
    (hright : ∀ c ∈ right.toList, Lexer.isSpace c = true) (hurl : prop ≠ "url" ∧ value ≠ "url") :
    Lexer.Plain (Tree.leaf (.worded n before left right prop value closed)).source := by
  have hsource : (Tree.leaf (.worded n before left right prop value closed)).source =
      blank before ++ (Spelling.worded left right prop value ++
        if closed then [semicolon] else []) := rfl
  obtain ⟨p, ps, hp, hps⟩ := isWord_iff.1 hprop
  refine ⟨fun url rest hrest => ?_, not_mem_worded n closed hprop hvalue hbefore hleft hright
    (by decide) (by decide) (by decide) (by decide), ?_, ?_⟩
  · rw [hsource]
    refine Lexer.spells_of_cutOff (Lexer.cutOff_append.2 ⟨Lexer.cutOff_blank hbefore ?_,
      Lexer.cutOff_append.2 ⟨Lexer.cutOff_worded hleft hright hprop hvalue ?_, ?_⟩⟩)
    · rw [chars_append, chars_worded, hp]
      rintro _ ⟨⟩
      simpa using @of_isLower (fun c => !Lexer.isSpace c) (by decide) p (hps p (.head _))
    · cases closed with
      | false => exact fun c hc => Lexer.endsWord_of_endsStatement (hrest c hc)
      | true => rintro _ ⟨⟩; rfl
    · cases closed with
      | false => trivial
      | true => exact ⟨Lexer.cuts_punctuation (c := ';') rfl rfl, trivial⟩
  · refine Lexer.urlsUsed_of_isUrl fun s hs => ?_
    rw [hsource, Spelling.worded] at hs
    simp only [List.mem_append, List.mem_cons, List.not_mem_nil, or_false] at hs
    rcases hs with hs | (rfl | hs | rfl | hs | rfl) | hs
    · simp [Spelling.isUrl, kind_blank s hs]
    · simp [Spelling.isUrl, hurl.1]
    · simp [Spelling.isUrl, kind_blank s hs]
    · rfl
    · simp [Spelling.isUrl, kind_blank s hs]
    · simp [Spelling.isUrl, hurl.2]
    · cases closed with
      | false => cases hs
      | true =>
        rw [List.mem_singleton.1 hs]
        rfl
  · rintro ⟨s, hs, hopen⟩
    obtain ⟨ss, hss⟩ := List.head?_eq_some_iff.1 hs
    refine not_mem_worded n closed hprop hvalue hbefore hleft hright (c := '(') (by decide)
      (by decide) (by decide) (by decide) ?_
    rw [hss, chars_cons]
    exact List.mem_append_left _ (List.mem_of_mem_head? hopen)

/-- **It can stand last in a block.** -/
theorem contents_worded {n : Parsed} (hn : n.data = .declaration prop value false) {safe : Prop}
    {inner url : Bool} {tail : List Spelling} {rest : List Char} (htail : Gap tail)
    (hspells : Lexer.Spells url tail rest) :
    Contents safe inner tail [.leaf (.worded n before left right prop value closed)] := by
  have hdata : (Part.worded n before left right prop value closed).data =
      .declaration prop value false := hn
  have hkind : (Part.worded n before left right prop value closed).data.kind ≠ .comment := by
    rw [hdata]
    exact nofun
  have hyields := @Parser.yields_worded left right prop value [] hprop hvalue (.inl rfl)
  rw [List.append_nil] at hyields
  cases closed with
  | true =>
    refine .inl ⟨⟨gap_blank before, iff_of_true rfl hkind, ?_, semicolon, List.getLast?_concat,
      .inl rfl⟩, htail⟩
    rw [hdata]
    exact hyields
  | false =>
    refine .inr ⟨_, rfl, gap_blank before, rfl, hkind, nofun, ?_, fun _ => ⟨?_, (.word, value), ?_,
      nofun⟩, htail.loose, fun _ => htail⟩
    · rw [hdata]
      show Parser.YieldsLast inner (Spelling.worded left right prop value ++ [] ++ [] ++ tail) _
      rw [List.append_nil, List.append_nil]
      rcases htail.spaces_or hspells with hspaces | ⟨xs, more, rfl, hx, hmore⟩
      · exact Parser.yieldsLast_worded hprop hvalue hspaces inner
      · have hclosed := @Parser.yields_worded left right prop value xs hprop hvalue hx
        have := (hclosed.append (Parser.yields_gap hmore)).last inner
        rwa [List.append_assoc, List.append_assoc, ← List.append_assoc xs] at this
    · rw [hdata]
      exact hyields
    · show (Spelling.worded left right prop value).getLast? = _
      rw [Spelling.worded, List.getLast?_cons, List.getLast?_append, List.getLast?_cons,
        List.getLast?_concat]
      rfl

/-- **A declaration in words can be put behind the children of every block.** -/
theorem addable_worded {n : Parsed} (hn : n.data = .declaration prop value false)
    (hbefore : ∀ c ∈ before.toList, Lexer.isSpace c = true)
    (hleft : ∀ c ∈ left.toList, Lexer.isSpace c = true)
    (hright : ∀ c ∈ right.toList, Lexer.isSpace c = true) (hurl : prop ≠ "url" ∧ value ≠ "url")
    (safe : Prop) : Addable safe (.leaf (.worded n before left right prop value closed)) where
  plain := plain_worded n closed hprop hvalue hbefore hleft hright hurl
  last _ _ _ _ htail hspells := contents_worded closed hprop hvalue hn htail hspells

end

end Tree

end Stylesheet
