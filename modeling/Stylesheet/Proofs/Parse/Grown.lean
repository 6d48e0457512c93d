import Stylesheet.Proofs.Parse.Parts
import Stylesheet.Proofs.Token.Splice

/-!
# One more tree in a block

`Tree.Grown d t t'`: the tree `t'` of parts is `t` with the tree `d` behind the children of some
blocks, and a semicolon behind the statement before it. Where `d` can stand last in a block,
`t'` is read as well wherever its tokens stand, and if the tokens of `t` can be read again from
their text, so can those of `t'` (`Settled.grown`, `Contents.grown`).
-/

set_option autoImplicit false

namespace Stylesheet

open Stylesheet.Spelling

namespace Lexer

variable {url : Bool} {s t : Spelling} {ss : List Spelling} {rest : List Char}

/-! ## What a token starts with -/

theorem CutsAfter.shaped (h : CutsAfter url s rest) :
    ∃ c cs, s.2.toList = c :: cs ∧ (tokenAt 0 s.1 (c :: cs)).Shaped := by
  obtain ⟨c, cs, hs, hcut⟩ := h
  exact ⟨c, cs, hs, cut_shaped hcut 0⟩

/-- The text of a mark. -/
theorem CutsAfter.mark (h : CutsAfter url s rest) {c : Char} (hk : s.1.mark? = some c) :
    s.2.toList = [c] := by
  obtain ⟨d, cs, hs, hshaped⟩ := h.shaped
  rw [hs, ← hshaped.mark c hk, chars_tokenAt]

theorem CutsAfter.paren (h : CutsAfter url s rest) (hs : s.2.toList.head? = some '(') :
    s.1 = .openParen ∨ s.1 = .brackets := by
  obtain ⟨c, cs, htext, hcut⟩ := h
  obtain rfl : c = '(' := by simpa [htext] using hs
  exact (isCut_of_cut hcut).kind_of_paren

/-- No blank stands behind blanks. -/
theorem CutsAfter.space_stops (h : CutsAfter url s rest) (hk : s.1 = .space) :
    ∀ c ∈ rest.head?, isSpace c = false := by
  obtain ⟨kind, text⟩ := s
  obtain rfl : kind = .space := hk
  obtain ⟨c, cs, -, hcut⟩ := h
  exact (isCut_of_cut hcut).space_stops

/-- A token that ends what stands behind it is cut off in front of any text. -/
theorem CutsAfter.cuts (h : CutsAfter url s rest) (hs : s.Ends) (rest' : List Char) :
    Cuts s rest' := by
  obtain ⟨kind, text⟩ := s
  have hmark {c : Char} (hc : punctuation c = some kind) : Cuts (kind, text) rest' :=
    cuts_punctuation (h.mark (mark?_punctuation hc)) hc
  rcases hs with hs | hs | hs | hs <;> obtain rfl := show kind = _ from hs
  · exact hmark (c := ';') rfl
  · obtain ⟨c, cs, htext, hcut⟩ := h
    cases isCut_of_cut hcut with
    | comment hcut =>
      exact cuts_commentText htext (by simpa using cutComment_replace hcut [])
    | mark hc => exact hmark hc
  · exact hmark (c := '\x7b') rfl
  · exact hmark (c := '\x7d') rfl

/-- The characters that may stand behind a statement without a semicolon. -/
def endsStatement (c : Char) : Bool := isSpace c || c = ';' || c = '\x7d'

/-- Tokens that can be put between others: whatever stands before them, they are read in front of
what ends a statement. -/
structure Plain (ins : List Spelling) : Prop where
  spells : ∀ url rest, (∀ c ∈ rest.head?, endsStatement c = true) → Spells url ins rest
  close : ')' ∉ chars ins
  urls : UrlsUsed ins
  paren : ¬ StartsParen ins

end Lexer

namespace Spelling

variable {s : Spelling} {front ins back ss ts : List Spelling}

/-- The tokens can be read again from their text. -/
structure Lexed (ss : List Spelling) : Prop where
  spells : Lexer.Spells false ss []
  urls : Lexer.UrlsUsed ss

/-- What stands first ends a statement. -/
def Ending (ss : List Spelling) : Prop :=
  ∀ s ∈ ss.head?, s.1 = .space ∨ s.1 = .semicolon ∨ s.1 = .closeCurly

theorem Gap.ending (h : Gap ss) (ht : Ending ts) : Ending (ss ++ ts) := by
  cases ss with
  | nil => exact ht
  | cons s ss =>
    rintro _ ⟨⟩
    exact (h s (.head _)).imp_right .inl

theorem ending_brace : Ending (brace :: ss) := by
  rintro _ ⟨⟩
  exact .inr (.inr rfl)

/-- The tokens from some place on. -/
theorem Lexed.behind (h : Lexed (front ++ ss)) : ∃ url, Lexer.Spells url ss [] :=
  ⟨_, (Lexer.spells_append.1 h.spells).2⟩

theorem Lexed.ending (h : Lexed (front ++ ss)) (hs : Ending ss) :
    ∀ c ∈ (chars ss).head?, Lexer.endsStatement c = true := by
  obtain ⟨url, hspells⟩ := h.behind
  cases ss with
  | nil => nofun
  | cons s ss =>
    obtain ⟨c, cs, htext, hshaped⟩ := hspells.1.shaped
    rw [chars_cons, htext]
    rintro _ ⟨⟩
    rcases hs s rfl with hk | hk | hk
    · simp [Lexer.endsStatement, hshaped.space hk c (by simp)]
    all_goals
      have hmark := hspells.1.mark (by rw [hk]; rfl)
      rw [htext, List.cons.injEq] at hmark
      simp [Lexer.endsStatement, hmark.1]

/-- No parenthesis stands first. -/
theorem Lexed.not_startsParen (h : Lexed (front ++ ss))
    (hs : ∀ s ∈ ss.head?, s.1 ≠ .openParen ∧ s.1 ≠ .brackets) : ¬ Lexer.StartsParen ss := by
  obtain ⟨url, hspells⟩ := h.behind
  rintro ⟨s, hhead, hparen⟩
  obtain ⟨ss, rfl⟩ := List.head?_eq_some_iff.1 hhead
  rcases hspells.1.paren hparen with hk | hk
  · exact (hs s rfl).1 hk
  · exact (hs s rfl).2 hk

theorem Ending.ne_paren (h : Ending ss) : ∀ s ∈ ss.head?, s.1 ≠ .openParen ∧ s.1 ≠ .brackets := by
  intro s hs
  rcases h s hs with hk | hk | hk <;> simp [hk]

/-- **Tokens are put behind one that ends what stands behind it**, in front of what ends a
statement. -/
theorem Lexed.insert (h : Lexed (front ++ back)) (hins : Lexer.Plain ins) (hback : Ending back)
    (hlast : ∀ s ∈ front.getLast?, s.Ends) : Lexed (front ++ (ins ++ back)) := by
  have hparen := h.not_startsParen hback.ne_paren
  have hends := h.ending hback
  refine ⟨h.spells.splice hparen (fun url => hins.spells url _ (by simpa using hends)) hins.close
    fun s hs url hcut => ?_, h.urls.splice hparen hins.urls hins.paren⟩
  exact (hcut.cuts (hlast s hs) _).after url

/-- **A semicolon is put behind a token** that leaves nothing open. -/
theorem Lexed.insert_semicolon (h : Lexed (front ++ back))
    (hback : ∀ s ∈ back.head?, s.1 ≠ .openParen ∧ s.1 ≠ .brackets) (hs : front.getLast? = some s)
    (hk : s.1 ≠ .openParen) (hlast : s.2.toList.getLast? ≠ some '\\') :
    Lexed (front ++ (semicolon :: back)) := by
  have hparen := h.not_startsParen hback
  have hclose : ')' ∉ chars [semicolon] := by decide
  have hsemicolon : ¬ Lexer.StartsParen [semicolon] := by
    rintro ⟨_, ⟨⟩, hne⟩
    cases hne
  have hinsert := Lexer.cutBrackets_insert (y := chars back ++ []) hclose
  refine ⟨@Lexer.Spells.splice _ _ [semicolon] _ _ h.spells hparen (fun url => ⟨?_, trivial⟩) hclose
    fun t ht url hcut => ?_,
    @Lexer.UrlsUsed.splice _ [semicolon] _ h.urls hparen ⟨nofun, trivial⟩ hsemicolon⟩
  · exact (Lexer.cuts_punctuation (c := ';') rfl rfl).after url
  · obtain rfl : s = t := Option.some.inj (hs.symm.trans ht)
    exact hcut.semicolon hk hlast hinsert

end Spelling

namespace Tree

/-! ## Behind the children of a block -/

/-- No statement without a semicolon ends in a backslash, which would take a semicolon. -/
def Unescaped (ts : List (Tree Part)) : Prop :=
  ∀ a, .leaf a ∈ ts → a.closed = false →
    ∀ s ∈ a.body.getLast?, s.2.toList.getLast? ≠ some '\\'

variable {safe : Prop} {inner : Bool} {tail front back : List Spelling} {d t t' : Tree Part}
  {ts ts' : List (Tree Part)}

/-- The last token of a settled tree ends what stands behind it. -/
theorem Settled.ends (h : t.Settled safe) : ∃ s, t.source.getLast? = some s ∧ s.Ends := by
  cases t with
  | leaf a =>
    have ha : a.Settled := h
    obtain ⟨s, hs, hends⟩ := ha.ends
    exact ⟨s, by rw [source, List.getLast?_append, hs]; rfl, hends⟩
  | block a ts =>
    have hframed := h.1
    refine ⟨a.own.getLast?.getD brace, ?_, ?_⟩
    · rw [source, List.getLast?_append, List.getLast?_cons]
      rfl
    · cases hown : a.own.getLast? with
      | none => exact .inr (.inr (.inr rfl))
      | some s => exact hframed.ownEnds s hown

/-- Settled trees with `d` behind them. -/
theorem lexed_settled (hd : Lexer.Plain d.source) (hts : ∀ t ∈ ts, t.Settled safe)
    (hfront : ∀ s ∈ front.getLast?, s.Ends) (hback : Ending back)
    (h : Lexed (front ++ (sourceAll ts ++ back))) :
    Lexed (front ++ (sourceAll (ts ++ [d]) ++ back)) := by
  induction ts generalizing front with
  | nil => simpa [sourceAll] using h.insert hd hback hfront
  | cons t ts ih =>
    obtain ⟨ht, hts⟩ := List.forall_mem_cons.1 hts
    obtain ⟨s, hs, hends⟩ := ht.ends
    have hlast : ∀ u ∈ (front ++ t.source).getLast?, u.Ends := by
      rw [List.getLast?_append, hs]
      rintro _ ⟨⟩
      exact hends
    have := ih hts hlast (by simpa [sourceAll] using h)
    simpa [sourceAll] using this

/-- A comment starts with a blank or with its own token. -/
theorem Remark.head (h : t.Remark) :
    ∀ s ∈ (t.source ++ back).head?, s.1 ≠ .openParen ∧ s.1 ≠ .brackets := by
  obtain ⟨c, rfl, hk, hsettled, hkinds⟩ := h
  have hopen : c.closed = false := by
    rw [← Bool.not_eq_true, hsettled.closed]
    exact not_not.2 hk
  obtain ⟨v, hv, -⟩ := hsettled.ends
  have hleaf : c.leaf = c.body := by simp [Part.leaf, hopen]
  have hne : c.gap ++ c.body ≠ [] := by
    rw [← hleaf]
    exact List.append_ne_nil_of_right_ne_nil _ fun hnil => by simp [hnil] at hv
  obtain ⟨u, us, hus⟩ := List.exists_cons_of_ne_nil hne
  rw [source, hleaf, hus]
  rintro _ ⟨⟩
  rcases hkinds u (hus ▸ .head _) with hu | hu <;> simp [hu]

/-- Behind a statement without a semicolon, a semicolon is put in first; `d` comes behind the
comments. -/
theorem Pending.lexed_concat {a : Part} (h : Pending inner safe tail a ts) (hc : a.Closable)
    (hd : Lexer.Plain d.source) (hu : Unescaped (.leaf a :: ts)) (hback : Ending back)
    (hl : Lexed (front ++ (sourceAll (.leaf a :: ts) ++ back))) :
    Lexed (front ++ (sourceAll ((.leaf a :: ts).map close ++ [d]) ++ back)) := by
  obtain ⟨s, hs, hk⟩ := hc.last
  have hleaf : a.leaf = a.body := by simp [Part.leaf, h.closed]
  have hclose : a.close = { a with closed := true } := if_neg h.kind
  have hsettled : ∀ t ∈ ts, t.Settled safe := by
    intro t ht
    obtain ⟨c, rfl, -, hc, -⟩ := h.comments t ht
    exact hc
  have hall : ts.map close = ts := by
    conv_rhs => rw [← List.map_id' ts]
    exact List.map_congr_left fun t ht => close_eq_self (hsettled t ht)
  have hstart : ∀ u ∈ (sourceAll ts ++ back).head?, u.1 ≠ .openParen ∧ u.1 ≠ .brackets := by
    cases ts with
    | nil => exact hback.ne_paren
    | cons t ts =>
      rw [sourceAll, List.append_assoc]
      exact (h.comments t (.head _)).head
  have hlast : (front ++ (a.gap ++ a.body)).getLast? = some s := by
    rw [← List.append_assoc, List.getLast?_append, hs]
    rfl
  have hsemicolon := Lexed.insert_semicolon (by simpa [sourceAll, source, hleaf] using hl) hstart
    hlast hk (hu a (.head _) h.closed s hs)
  have hfront : ∀ u ∈ (front ++ (a.gap ++ a.body) ++ [semicolon]).getLast?, u.Ends := by
    rw [List.getLast?_concat]
    rintro _ ⟨⟩
    exact .inl rfl
  have hboth := lexed_settled hd hsettled hfront hback (by simpa using hsemicolon)
  rw [List.map_cons, hall, show (leaf a).close = leaf a.close from rfl, hclose]
  simpa [sourceAll, source, Part.leaf] using hboth

/-- **The tokens with `d` behind the children of a block** can be read again. -/
theorem Contents.lexed_concat (hd : Lexer.Plain d.source) (hsafe : inner = true ∨ safe)
    (hts : Contents safe inner tail ts) (hu : Unescaped ts) (hfront : ∀ s ∈ front.getLast?, s.Ends)
    (hback : Ending back) (h : Lexed (front ++ (sourceAll ts ++ back))) :
    Lexed (front ++ (sourceAll (ts.map close ++ [d]) ++ back)) := by
  induction ts generalizing front with
  | nil =>
    have hnone : ∀ t ∈ ([] : List (Tree Part)), t.Settled safe := nofun
    exact lexed_settled hd hnone hfront hback h
  | cons t ts ih =>
    rcases hts with ⟨ht, hts⟩ | ⟨a, rfl, hpending⟩
    · obtain ⟨s, hs, hends⟩ := ht.ends
      have hlast : ∀ u ∈ (front ++ t.source).getLast?, u.Ends := by
        rw [List.getLast?_append, hs]
        rintro _ ⟨⟩
        exact hends
      have := ih hts (fun a ha => hu a (.tail _ ha)) hlast (by simpa [sourceAll] using h)
      rw [List.map_cons, close_eq_self ht]
      simpa [sourceAll] using this
    · exact hpending.lexed_concat (hpending.closable hsafe) hd hu hback h

/-! ## In any of the blocks -/

mutual

/-- The tree `t'` is `t` with `d` behind the children of some blocks, and a semicolon behind the
statement before it. -/
def Grown (d : Tree Part) : Tree Part → Tree Part → Prop
  | .leaf a, t' => t' = .leaf a
  | .block a ts, t' => ∃ ts', GrownAll d ts ts' ∧
      (t' = .block a ts' ∨ Unescaped ts' ∧ t' = .block a (ts'.map close ++ [d]))

/-- The trees `ts'` are `ts` with `d` behind the children of some blocks in them. -/
def GrownAll (d : Tree Part) : List (Tree Part) → List (Tree Part) → Prop
  | [], ts' => ts' = []
  | t :: ts, ts' => ∃ u us, ts' = u :: us ∧ Grown d t u ∧ GrownAll d ts us

end

theorem GrownAll.eq_of_leaves (hts : ∀ t ∈ ts, ∃ a, t = .leaf a) (h : GrownAll d ts ts') :
    ts' = ts := by
  induction ts generalizing ts' with
  | nil => exact h
  | cons t ts ih =>
    obtain ⟨u, us, rfl, hu, hus⟩ := h
    obtain ⟨⟨a, rfl⟩, hleaves⟩ := List.forall_mem_cons.1 hts
    obtain rfl : u = .leaf a := hu
    rw [ih hleaves hus]

theorem Contents.gap : {ts : List (Tree Part)} → Contents safe true tail ts → Gap tail
  | [], h => h
  | _ :: _, .inl h => Contents.gap h.2
  | _ :: _, .inr ⟨_, _, h⟩ => h.blanks rfl

/-- The tree can be put behind the children of every block. -/
structure Addable (safe : Prop) (d : Tree Part) : Prop where
  plain : Lexer.Plain d.source
  last : ∀ inner url tail rest, Gap tail → Lexer.Spells url tail rest →
    Contents safe inner tail [d]

/-- **`d` is put behind the contents of a block**, which are read where the block ends at `back`. -/
theorem Contents.push (hd : d.Addable safe) (hsafe : inner = true ∨ safe) (htail : Gap tail)
    (hts : Contents safe inner tail ts) (hu : Unescaped ts) (hfront : ∀ s ∈ front.getLast?, s.Ends)
    (hback : Ending back) (h : Lexed (front ++ (sourceAll ts ++ (tail ++ back)))) :
    Contents safe inner tail (ts.map close ++ [d]) ∧
      Lexed (front ++ (sourceAll (ts.map close ++ [d]) ++ (tail ++ back))) := by
  obtain ⟨url, hspells⟩ : ∃ url, Lexer.Spells url (tail ++ back) [] := by
    rw [← List.append_assoc] at h
    exact h.behind
  refine ⟨hts.concat hsafe (hd.last inner url tail _ htail (Lexer.spells_append.1 hspells).1), ?_⟩
  exact hts.lexed_concat hd.plain hsafe hu hfront (htail.ending hback) h

mutual

/-- **A settled tree that has grown** is settled, and its tokens can be read again. -/
theorem Settled.grown (hd : d.Addable safe) : {t t' : Tree Part} → {front back : List Spelling} →
    t.Settled safe → Grown d t t' → Lexed (front ++ (t.source ++ back)) →
    t'.Settled safe ∧ Lexed (front ++ (t'.source ++ back))
  | .leaf a, t', front, back, h, hg, hl => by
    obtain rfl : t' = .leaf a := hg
    exact ⟨h, hl⟩
  | .block a ts, t', front, back, h, hg, hl => by
    obtain ⟨hframed, hcontents⟩ := h
    obtain ⟨ts', hts', hg⟩ := hg
    have hsource : ∀ us, front ++ ((block a us).source ++ back) =
        (front ++ (a.gap ++ a.body)) ++ (sourceAll us ++ (a.tail ++ brace :: (a.own ++ back))) := by
      intro us
      simp [source]
    rw [hsource] at hl
    obtain ⟨hcontents', hl'⟩ := Contents.grown hd hcontents hts' hl
    rcases hg with rfl | ⟨hu, rfl⟩
    · exact ⟨⟨hframed, hcontents'⟩, by rwa [hsource]⟩
    have hlast : ∀ s ∈ (front ++ (a.gap ++ a.body)).getLast?, s.Ends := by
      obtain ⟨s, hs, hends⟩ := hframed.ends
      rw [← List.append_assoc, List.getLast?_append, hs]
      rintro _ ⟨⟩
      exact hends
    obtain ⟨hall, hl⟩ := Contents.push hd (.inl rfl) hcontents.gap hcontents' hu
      hlast ending_brace hl'
    exact ⟨⟨hframed, hall⟩, by rwa [hsource]⟩

/-- **The contents of a block that have grown** are contents of the block, and the tokens can be
read again. -/
theorem Contents.grown (hd : d.Addable safe) : {inner : Bool} → {tail : List Spelling} →
    {ts ts' : List (Tree Part)} → {front back : List Spelling} → Contents safe inner tail ts →
    GrownAll d ts ts' → Lexed (front ++ (sourceAll ts ++ back)) →
    Contents safe inner tail ts' ∧ Lexed (front ++ (sourceAll ts' ++ back))
  | _, _, [], ts', _, _, h, hg, hl => by
    obtain rfl : ts' = [] := hg
    exact ⟨h, hl⟩
  | _, _, t :: ts, ts', front, back, h, hg, hl => by
    obtain ⟨u, us, rfl, hu, hus⟩ := hg
    rcases h with ⟨ht, hts⟩ | ⟨a, rfl, hpending⟩
    · obtain ⟨hu', hl⟩ := Settled.grown hd ht hu
        (show Lexed (front ++ (t.source ++ (sourceAll ts ++ back))) by
          simpa [sourceAll] using hl)
      obtain ⟨hus', hl⟩ := Contents.grown hd hts hus
        (show Lexed (front ++ u.source ++ (sourceAll ts ++ back)) by simpa using hl)
      exact ⟨.inl ⟨hu', hus'⟩, by simpa [sourceAll] using hl⟩
    · obtain rfl : u = .leaf a := hu
      obtain rfl : us = ts := hus.eq_of_leaves fun t ht => by
        obtain ⟨c, rfl, -⟩ := hpending.comments t ht
        exact ⟨c, rfl⟩
      exact ⟨.inr ⟨a, rfl, hpending⟩, hl⟩

end

end Tree

end Stylesheet
