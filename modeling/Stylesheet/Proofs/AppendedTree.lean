import Stylesheet.Proofs.BuiltTree
import Stylesheet.Proofs.Parse.Divided
import Stylesheet.Proofs.Parse.Worded
import Stylesheet.Proofs.Print.Grown

/-!
# A declaration put into a tree that was read

A declaration in words can be put behind the children of every block of a tree that was read. Its
formatting is taken by example from the rest of the tree, and not every example is safe to follow:
`Suits` says which are. Printed and read again, the tree then has the declaration where it was put,
and is otherwise the one it was (`shape_parse_appended`).
-/

set_option autoImplicit false

namespace Stylesheet

open Relation Stylesheet.Tree Stylesheet.Spelling

/-! ## Reading a tree of parts -/

section
variable {safe : Prop} {inner url : Bool} {tail ss : List Spelling} {ts : List (Tree Part)}
  {rest : List Char}

theorem Tree.Contents.loose : {ts : List (Tree Part)} → Contents safe inner tail ts → Loose tail
  | [], h => Gap.loose h
  | _ :: _, .inl h => Tree.Contents.loose h.2
  | _ :: _, .inr ⟨_, _, h⟩ => h.loose

/-- Without a slash, there is no comment. -/
theorem Spelling.Loose.gap (h : Loose ss) (hs : Lexer.Spells url ss rest)
    (hslash : '/' ∉ chars ss) : Gap ss := by
  induction ss generalizing url with
  | nil => exact gap_nil
  | cons s ss ih =>
    obtain ⟨hk, hss⟩ := List.forall_mem_cons.1 h
    rw [chars_cons, List.mem_append, not_or] at hslash
    refine List.forall_mem_cons.2 ⟨?_, ih hss hs.2 hslash.2⟩
    rcases hk with hk | hk | hk
    · exact .inl hk
    · exact .inr hk
    · obtain ⟨c, cs, htext, hshaped⟩ := hs.1.shaped
      obtain ⟨inner, hinner⟩ := hshaped.comment hk
      rw [Lexer.chars_tokenAt] at hinner
      refine absurd ?_ hslash.1
      rw [htext, hinner]
      exact .head _

/-- **The contents of a root are read** from their text. -/
theorem Tree.Contents.parse (h : Contents safe false tail ts) (hl : Lexed (sourceAll ts ++ tail)) :
    ∃ t, Parser.parse (chars (sourceAll ts ++ tail)) = .ok t ∧
      t.map Parsed.data = .block .root (mapAll Part.data ts) := by
  obtain ⟨htokens, hfault⟩ := @Lexer.tokens_of_spells false (sourceAll ts ++ tail)
    (.ofChars (chars (sourceAll ts ++ tail))) rfl rfl hl.spells List.not_mem_nil nofun hl.urls
  exact Parser.parse_of_adds hfault (h.yields _ [] htokens rfl)

end

namespace Forest

variable {f g : Forest} {root P : NodeId} {input : InputId} {i : Input} {a : Parsed}
  {ts : List (Tree Parsed)} {us : List (Tree Part)} {prop value : String}

/-! ## The parts of a tree that was read -/

/-- The tree below the root has the numbers of the parts. -/
theorem Keeps.outline (h : f.Keeps root input i a ts) (hus : us.map (Tree.map Part.node) = ts) :
    f.outline root = .block root (mapAll Prod.fst (numberedAll (root + 1) us)) := by
  have hout := outline_of_hangs h.hangs h.size_numbered_le
  rw [label] at hout
  rw [hout, ← hus, ← mapAll_eq, numberedAll_mapAll, map, mapAll_mapAll, mapAll_mapAll]
  rfl

theorem Keeps.knows (h : f.Keeps root input i a ts) (hf : f.WellFormed) (hroot : root < f.size)
    (hus : us.map (Tree.map Part.node) = ts) :
    f.Knows (preorderAll (numberedAll (root + 1) us)) := by
  intro b hb
  have hmem : (b.1, b.2.node) ∈ preorderAll (numberedAll (root + 1) ts) := by
    rw [← hus, ← mapAll_eq, numberedAll_mapAll, preorderAll_mapAll]
    exact List.mem_map_of_mem hb
  have hshows := hf.shows_outline hroot
  refine ⟨?_, h.data hmem, h.raws hmem⟩
  refine hf.lt_size_of_mem_preorder hshows (by rwa [label_outline]) ?_
  rw [h.outline hus, preorder, preorderAll_mapAll]
  exact .tail _ (List.mem_map_of_mem hb)

theorem Keeps.showsAll (h : f.Keeps root input i a ts) (hf : f.WellFormed) (hroot : root < f.size)
    (hus : us.map (Tree.map Part.node) = ts) :
    f.ShowsAll (mapAll Prod.fst (numberedAll (root + 1) us)) := by
  have hshows := hf.shows_outline hroot
  rw [h.outline hus] at hshows
  exact hshows.2

/-! ## The tree with the declaration -/

/-- **The parts of a tree with a new node**: it is printed as their tokens, which can be read. -/
theorem Appends.exists_parts {data : NodeData} {D : Part} {tail ss : List Spelling}
    (hg : Appends f g P data) (hd : Places f g P D) (hf : f.WellFormed) (hroot : root < f.size)
    (hk : f.Keeps root input i a ts) (hs : Parser.Spelt (P = root) a ts us tail ss)
    (hadd : Addable (P = root) (.leaf D)) (hl : Lexed ss) (hgap : P = root → Gap tail) :
    ∃ vs : List (Tree (NodeId × Part)), g.PrintsAll vs ∧
      Flagged (g.resolve root "semicolon" .semicolon).isTruthy (mapAll Prod.snd vs) ∧
      push (· = P) (.leaf f.size) (f.outline root) = .block root (mapAll Prod.fst vs) ∧
      Contents (P = root) false tail (mapAll Prod.snd vs) ∧
      Lexed (sourceAll (mapAll Prod.snd vs) ++ tail) := by
  have hformatted : FormattedAll (·.node.wording) us := by
    have := hk.formatted.children
    rwa [← hs.children, ← mapAll_eq, formattedAll_map] at this
  obtain ⟨vs, hvs, hlabels, hfst, hgrown⟩ := hg.exists_grownAll hd
    (hk.showsAll hf hroot hs.children) (hk.knows hf hroot hs.children)
    (by rwa [mapAll_snd_numberedAll]) (by rw [mapAll_snd_numberedAll]; exact hs.printed)
  rw [mapAll_snd_numberedAll] at hgrown
  have hflagged := hgrown.flagged hs.flagged
  obtain ⟨hcontents, hlexed⟩ := @Contents.grown _ _ hadd _ _ _ _ [] tail hs.contents hgrown
    (by rwa [List.nil_append, hs.source])
  rw [List.nil_append] at hlexed
  rw [hk.outline hs.children, push, ← hfst]
  by_cases hP : P = root
  · obtain ⟨vs', hvs', hflag, hfst', hsnd⟩ := exists_pushed hd hvs hflagged
    have hchildren : ∀ v ∈ vs, v.label.1 ∈ f.children P := by
      have hshows := hf.shows_outline hroot
      rw [hk.outline hs.children] at hshows
      have hlabel : vs.map (·.label.1) = f.children P := by
        rw [hlabels, hP, children_of_block hshows.1, map_label_fst]
      exact fun v hv => hlabel ▸ List.mem_map_of_mem hv
    have hunescaped := unescaped hd hvs hchildren
    obtain ⟨hcontents', hlexed'⟩ := @Contents.push _ _ _ [] [] _ _ hadd (.inr hP) (hgap hP)
      hcontents hunescaped nofun nofun (by simpa using hlexed)
    refine ⟨vs', hvs', hP ▸ hflag, ?_, ?_, ?_⟩
    · rw [if_pos (by simpa using hP.symm), hfst']
    · rwa [hsnd]
    · rw [hsnd]
      simpa using hlexed'
  · refine ⟨vs, hvs, ?_, ?_, hcontents, hlexed⟩
    · have hraws : g.raws root = a.raws := (hg.raws_eq hroot).trans (raws_of_hangs hk.hangs)
      refine flagged_of_read (w := a.wording) hraws (fun hne => hk.formatted.semicolon ?_) hflagged
      rintro rfl
      obtain rfl : us = [] := List.map_eq_nil_iff.1 hs.children
      obtain rfl : vs = [] := by simpa [numberedAll] using hlabels
      exact hne rfl
    · rw [if_neg (by simpa using fun h => hP h.symm)]

/-! ## The declaration -/

/-- What is printed of a new declaration has the colon alone by example. -/
theorem Appends.stem (hg : Appends f g P (.declaration prop value false)) :
    g.stem f.size = prop ++ (g.resolve f.size "between" .colon).toText ++ value := by
  have hraw : (g.raws f.size).get? "value" = none := by
    rw [hg.raws]
    cases f.sampleBefore P .stop with
    | none => rfl
    | some s => rfl
  have hvalue : g.valueText f.size "value" = value := by
    simp [valueText, Raws.lexemeFor, hraw, hg.fresh, NodeData.cleaned]
  simp [Forest.stem, hg.fresh, hvalue]

/-- The formatting that the new node of `g` gets by example suits a declaration behind the children
of `P`, and the text of the tree below `root` leaves it alone. -/
structure Suits (f g : Forest) (root P : NodeId) (text : List Char) : Prop where
  /-- Only blanks stand before it. -/
  before : ∀ c ∈ (g.resolve f.size "before" .before).toText.toList, Lexer.isSpace c = true
  /-- Its colon is one, between blanks. -/
  colon : ∃ left right, (g.resolve f.size "between" .colon).toText = left ++ ":" ++ right ∧
    ∀ c ∈ left.toList ++ right.toList, Lexer.isSpace c = true
  /-- No child before it ends in a backslash, which would take the semicolon. -/
  unescaped : ∀ x ∈ f.children P, (g.node x).hasBlock = false →
    ((g.resolve x "before" .before).toText ++ g.stem x).toList.getLast? ≠ some '\\'
  /-- Every word `url` stands before its parenthesis. -/
  urls : Lexer.UrlsUsed ((Lexer.ofChars text).tokens.1.map Token.spelling)
  /-- At the end of the text no bracket is open, and no comment is left over there. -/
  atEnd : P = root → Parser.Tidy (Lexer.ofChars text).tokens.1 ∧
    '/' ∉ ((f.rawText? root "after").getD "").toList

/-- The part that the new declaration is printed as. -/
def wordedPart (f g : Forest) (P : NodeId) (left right prop value : String) : Part :=
  .worded ⟨.declaration prop value false, Raws.empty, 0, none⟩
    (g.resolve f.size "before" .before).toText left right prop value
    (g.resolve P "semicolon" .semicolon).isTruthy

theorem Suits.places {text : List Char} {left right : String} (h : Suits f g root P text)
    (hg : Appends f g P (.declaration prop value false)) (hP : (f.node P).hasBlock = true)
    (hcolon : (g.resolve f.size "between" .colon).toText = left ++ ":" ++ right) :
    Places f g P (f.wordedPart g P left right prop value) where
  block := hP
  kind := by rintro ⟨⟩
  closed := rfl
  unescaped := h.unescaped
  prints := by
    refine ⟨hg.fresh, ⟨by rintro ⟨⟩, by rintro ⟨⟩⟩, ?_, ?_⟩
    · rw [Node.hasBlock, hg.block]
      rfl
    · rw [hg.stem, hcolon]
      simp [wordedPart, Part.worded, chars_worded]

/-- **A declaration put into a tree that was read.** It can be put behind the children of every
block, and where its formatting by example suits it, the tree that is printed can be read again
and comes back with the declaration. -/
theorem shape_parse_appended {f₀ : Forest} {files : Files} {text : String} {file : Option String}
    {setting : MapSetting} (h₀ : f₀.WellFormed)
    (hf : f₀.parse files text file setting = .ok (root, f))
    (hP : (f.kind P).isContainer = true) (hblock : (f.node P).hasBlock = true)
    (hprop : isWord prop = true) (hvalue : isWord value = true)
    (hurl : prop ≠ "url" ∧ value ≠ "url") :
    ∃ g, (f.add (Node.new (.declaration prop value false))).2.insert P .stop [f.size] = .ok g ∧
      g.data f.size = .declaration prop value false ∧ (∀ x < f.size, g.data x = f.data x) ∧
      g.children P = f.children P ++ [f.size] ∧
      g.outline root = push (· = P) (.leaf f.size) (f.outline root) ∧
      (Suits f g root P (Input.dropBom text).1.toList →
        ∀ (k : Forest) (files : Files) (file : Option String) (s : MapSetting) (i : Input),
          Input.make files (g.css root) file s = .ok i → i.text = g.css root →
          ∃ root' k', k.parse files (g.css root) file s = .ok (root', k') ∧
            k'.shape root' = g.shape root) := by
  have hwf := h₀.grown (grown_parse hf)
  obtain ⟨i, a, ts, hi, rfl, -, -, hreads⟩ := parse_spec hf
  have hkeeps := hreads.keeps
  have hroot : f₀.size < f.size := (grown_parse hf).size
  obtain ⟨g, hinsert, hg⟩ := @WellFormed.exists_appends f P (.declaration prop value false) hwf hP
    (by rintro ⟨⟩)
  have houtline := hg.outline hwf hblock rfl hroot
  refine ⟨g, hinsert, hg.fresh, fun x hx => hg.data_eq hx, children_of_block hg.children, houtline,
    fun hs k files file s i' hi' htext' => ?_⟩
  rw [← (Input.make_ok hi).1] at hs
  -- the tokens of the tree that was read
  have hlexed : Lexed ((Lexer.ofChars i.text.toList).tokens.1.map Token.spelling) :=
    ⟨@Lexer.spells_tokens false (.ofChars i.text.toList) rfl (Parser.parse_ok hreads.parsed).1
      List.not_mem_nil (fun h => absurd h Bool.false_ne_true) hs.urls, hs.urls⟩
  obtain ⟨us, tail, hspelt⟩ := @Parser.exists_spelt (P = f₀.size) _ _ _ hreads.parsed
    fun he => (hs.atEnd he).1
  have hafter : chars tail = ((f.rawText? f₀.size "after").getD "").toList := by
    have hraws : f.raws f₀.size = a.raws := raws_of_hangs hkeeps.hangs
    rw [hspelt.after, rawText?, hraws]
    rfl
  have hgap : P = f₀.size → Gap tail := by
    intro he
    have hsource := hlexed
    rw [← hspelt.source] at hsource
    obtain ⟨url, hspells⟩ := hsource.behind
    exact hspelt.contents.loose.gap hspells (by rw [hafter]; exact (hs.atEnd he).2)
  -- the tokens with the declaration
  obtain ⟨left, right, hcolon, hblanks⟩ := hs.colon
  obtain ⟨hleft, hright⟩ := List.forall_mem_append.1 hblanks
  obtain ⟨vs, hvs, hflag, hout, hcontents, hlexed'⟩ := hg.exists_parts
    (hs.places hg hblock hcolon) hwf hroot hkeeps hspelt
    (addable_worded _ hprop hvalue rfl hs.before hleft hright hurl _) hlexed hgap
  rw [← houtline] at hout
  obtain ⟨t, hparse, hdata⟩ := hcontents.parse hlexed'
  have hgroot : g.data f₀.size = .root :=
    (hg.data_eq hroot).trans (hkeeps.hangs.1.data.trans hkeeps.formatted.data)
  have hcss : (g.css f₀.size).toList = chars (sourceAll (mapAll Prod.snd vs) ++ tail) := by
    rw [hg.wellFormed.toList_css hgroot hout hvs hflag, chars_append, hafter, rawText?,
      hg.raws_eq hroot, rawText?]
  obtain ⟨root', k', hk⟩ := @parse_of_statements k files (g.css f₀.size) file s i' t hi'
    (by rw [htext', hcss]; exact hparse)
  refine ⟨root', k', hk, ?_⟩
  obtain ⟨i'', b, ws, hi'', -, -, -, hreads'⟩ := parse_spec hk
  cases hi'.symm.trans hi''
  have heq := hreads'.parsed
  rw [htext', hcss, hparse, Except.ok.injEq] at heq
  rw [hreads'.keeps.shape, ← heq, hdata, shape, hout, map, hgroot, hvs.mapAll_data]

/-- The declaration gets the blanks and the colon of the one before it, and that a semicolon. -/
theorem shape_parse_appended_spaced : ∃ f g,
    Forest.empty.parse .empty "a\x7b b : c \x7d" none .auto = .ok (0, f) ∧
    (f.add (Node.new (.declaration "p" "v" false))).2.insert 1 .stop [f.size] = .ok g ∧
    Suits f g 0 1 (Input.dropBom "a\x7b b : c \x7d").1.toList ∧
    g.css 0 = "a\x7b b : c; p : v \x7d" ∧
    ∃ root' k, Forest.empty.parse .empty (g.css 0) none .auto = .ok (root', k) ∧
      k.shape root' = g.shape 0 := by
  obtain ⟨_, f, hf, rfl, hP, hblock, g, hg, hcss, hbefore, hcolon, hunescaped⟩ : ∃ root f,
      Forest.empty.parse .empty "a\x7b b : c \x7d" none .auto = .ok (root, f) ∧
      root = 0 ∧ (f.kind 1).isContainer = true ∧ (f.node 1).hasBlock = true ∧ ∃ g,
        (f.add (Node.new (.declaration "p" "v" false))).2.insert 1 .stop [f.size] = .ok g ∧
        g.css 0 = "a\x7b b : c; p : v \x7d" ∧
        (g.resolve f.size "before" .before).toText.toList.all Lexer.isSpace = true ∧
        (g.resolve f.size "between" .colon).toText = " " ++ ":" ++ " " ∧
        ∀ x ∈ f.children 1, (g.node x).hasBlock = false →
          ((g.resolve x "before" .before).toText ++ g.stem x).toList.getLast? ≠ some '\\' := by
    decide +kernel
  obtain ⟨i, hi, hmake⟩ : ∃ i, Input.make .empty "a\x7b b : c; p : v \x7d" none .auto = .ok i ∧
      i.text = "a\x7b b : c; p : v \x7d" := by
    decide +kernel
  obtain ⟨g', hg', -, -, -, -, hread⟩ := @shape_parse_appended f 0 1 "p" "v"
    .empty .empty _ none .auto wellFormed_empty hf hP hblock rfl rfl ⟨by decide, by decide⟩
  obtain rfl := Except.ok.inj (hg.symm.trans hg')
  have hsuits : Suits f g 0 1 (Input.dropBom "a\x7b b : c \x7d").1.toList :=
    { before := List.all_eq_true.1 hbefore
      colon := ⟨" ", " ", hcolon, List.all_eq_true.1 (by decide)⟩
      unescaped := hunescaped
      urls := Lexer.urlsUsed_of_isUrl (by decide +kernel)
      atEnd := fun h => absurd h (by decide) }
  rw [← hcss] at hi hmake
  exact ⟨f, g, hf, hg, hsuits, hcss, hread hsuits .empty .empty none .auto i hi hmake⟩

/-- The colon of a comment in an example is taken over, and the two colons cannot be read. -/
theorem not_shape_parse_appended : ¬ ∀ (text : String) (f : Forest) (root P : NodeId)
    (prop value : String), Forest.empty.parse .empty text none .auto = .ok (root, f) →
      ReflTransGen f.Child root P → (f.kind P).isContainer = true →
      (f.node P).hasBlock = true → isWord prop = true → isWord value = true →
      ∃ g, (f.add (Node.new (.declaration prop value false))).2.insert P .stop [f.size] = .ok g ∧
        ∃ root' k, Forest.empty.parse .empty (g.css root) none .auto = .ok (root', k) ∧
          k.shape root' = g.shape root := by
  intro hall
  obtain ⟨root, f, hf, hchild, hP, hblock, g, hg, herror⟩ : ∃ root f,
      Forest.empty.parse .empty "a\x7bb/*:*/:c\x7d" none .auto = .ok (root, f) ∧
      1 ∈ f.children root ∧ (f.kind 1).isContainer = true ∧ (f.node 1).hasBlock = true ∧ ∃ g,
        (f.add (Node.new (.declaration "p" "v" false))).2.insert 1 .stop [f.size] = .ok g ∧
        (Forest.empty.parse .empty (g.css root) none .auto).isOk = false := by
    decide +kernel
  obtain ⟨g', hg', root', k, hk, -⟩ :=
    hall _ f root 1 "p" "v" hf (.single hchild) hP hblock rfl rfl
  obtain rfl := Except.ok.inj (hg.symm.trans hg')
  rw [hk] at herror
  cases herror

end Forest

end Stylesheet
