import Stylesheet.Proofs.Cursor.Open
import Stylesheet.Proofs.Forest.Edits
import Stylesheet.Proofs.Run.Order
import Stylesheet.Proofs.SourceMap.Footer
import Stylesheet.Proofs.SourceMap.Lookup
import Stylesheet.Run.Process
import Mathlib

/-!
# A run on the output of a run

`Run.process_chain`: a run without plugins that is given the output of another one, with its map,
makes the same map. Each node of the second text is looked up in the first map where it starts and
where it ends, and there are tokens there, unless a declaration starts with the mark of a hack.
-/

set_option autoImplicit false

namespace Stylesheet

open Stylesheet.Text Stylesheet.Tree

/-! ## Writing -/

namespace Forest

/-- The output with a map of its own file, and a comment that the settings leave open. -/
theorem output_external (f : Forest) (root : NodeId) {o : RunOptions}
    {previous : Option PreviousSetting} (ho : o.map = .enabled { inline := some false, previous }) :
    let g := f.clearLinks root
    let p := MapPlan.make f root o
    let m := SourceMap.build g.input? ⟨o.source, o.target, .auto, false⟩ p.hasContents
      (g.mappings .skip .start (g.print root))
    (f.output root o).1.map = some m ∧
      (f.output root o).1.css = g.css root ++
        (if p.hasLink then p.comment (g.css root) m else "") := by
  obtain ⟨source, target, setting⟩ := o
  subst ho
  intro g p m
  refine ⟨rfl, ?_⟩
  show (if p.hasLink then g.css root ++ p.comment (g.css root) m else g.css root) = _
  split
  · rfl
  · rw [String.append_empty]

/-- The map of an output with its tokens in the order in which they are made. -/
def draft (f : Forest) (root : NodeId) (o : RunOptions) : SourceMap :=
  let g := f.clearLinks root
  let p := MapPlan.make f root o
  let b := (g.mappings .skip .start (g.print root)).foldl
    (SourceMap.Builder.addMapping g.input? p.naming) (.start p.hasContents)
  ⟨some p.naming.outputFile, b.sources, b.contents, b.names, b.tokens⟩

/-- Tokens that are made in order stay so. -/
theorem output_draft {f : Forest} {root : NodeId} {o : RunOptions}
    {previous : Option PreviousSetting} {m : SourceMap}
    (ho : o.map = .enabled { inline := some false, previous }) (h : f.draft root o = m)
    (ht : m.tokens.Pairwise fun s t => s.le t = true) : (f.output root o).1.map = some m := by
  have hsort : SourceMap.sortTokens m.tokens = m.tokens := List.mergeSort_of_pairwise ht
  rw [(output_external f root ho).1]
  conv => rhs; rw [show m = { m with tokens := SourceMap.sortTokens m.tokens } by rw [hsort], ← h]
  obtain ⟨source, target, setting⟩ := o
  subst ho
  rfl

/-- A map that is the first one is named by a comment. -/
theorem hasLink_of_own {f : Forest} {root : NodeId} {o : RunOptions}
    (hf : ∀ input, (f.input? input).bind Input.map = none)
    (hlink : (o.map.options?.getD {}).link = .auto) : (MapPlan.make f root o).hasLink = true := by
  have hprevious : (MapPlan.make f root o).previous = [] := by
    simp [MapPlan.make, hf]
  unfold MapPlan.hasLink
  rw [show (MapPlan.make f root o).options.link = .auto from hlink, hprevious]
  simp

end Forest

/-- The comment behind a text whose map is in the file `b.css.map`. -/
def linkNote : List Char := "/*# sourceMappingURL=b.css.map */".toList

/-- The comment is a footer on a line of its own. -/
theorem MapPlan.comment_footer {p : MapPlan} {m : SourceMap} (hurl : p.url m = "b.css.map")
    (css : String) : ∃ eol, (p.comment css m).toList = eol ++ linkNote ∧
      Lexer.Footer eol linkNote := by
  have hnote : ∃ body, linkNote = '/' :: '*' :: body ∧ Lexer.cutComment body = some (body, []) :=
    ⟨"# sourceMappingURL=b.css.map */".toList, by decide, by decide⟩
  have hnote' : ("/*# sourceMappingURL=" ++ ("b.css.map" ++ " */")).toList = linkNote := by
    decide
  unfold comment
  rw [hurl, String.append_assoc, String.append_assoc, String.toList_append, hnote']
  split
  · exact ⟨_, rfl, ⟨'\r', ['\n'], by decide, .inr rfl⟩, by simp [Lexer.isSpace], hnote⟩
  · exact ⟨_, rfl, ⟨'\n', [], by decide, .inl rfl⟩, by simp [Lexer.isSpace], hnote⟩

theorem Parser.isLink_linkNote (spaces : String) {t : Token} (h : t.chars = linkNote) :
    (commentNode spaces t).data.isLink = true := by
  have htext : t.text.toList = linkNote := h
  simp only [commentNode, htext]
  decide

/-- A map is read from the members of its document. -/
theorem SourceMap.parse?_of_members {text : String} {m : SourceMap} (members : List (String × Json))
    (h : (Reader.dropJunk text.toList).bind Json.parseChars? = some (.obj members))
    (hdepth : (Json.obj members).readable 0 = true) (hm : Reader.ofMembers? members = some m) :
    parse? text = some m := by
  obtain ⟨cs, hcs, hparse⟩ := Option.bind_eq_some_iff.1 h
  unfold parse?
  rw [hcs]
  simp only [Option.bind_eq_bind, Option.bind_some, hparse, hdepth, if_true, hm]

/-- The map that a text is given in its settings. -/
theorem PreviousMap.discover_text (files : Files) (text : String) (file : Option String)
    {json : String} {m : SourceMap} {o : MapOptions} (ho : o.previous = some (.text json))
    (hm : SourceMap.parse? json = some m) :
    discover files text file (.enabled o) = .ok (some ⟨json, file, file.bind Path.parent?,
      MapLink.find text, (MapLink.find text).any (startsWith · "data:"), m⟩) := by
  unfold discover locate
  simp only [MapSetting.isDisabled, MapSetting.options?, Option.bind_some, ho, bind, Except.bind, hm]
  rfl

namespace Run

variable {σ : Type} {files : Files} {text : String} {o : RunOptions} {root : NodeId} {f : Forest}

/-- A run without plugins leaves the tree that was read. -/
theorem process_alike {mode : RunMode} {fuel : Nat} {user : σ} {e : RunEnd} {s : RunState σ}
    (h : process mode [] fuel files text o .empty user = .ok (e, s)) :
    ∃ f, Forest.empty.parse files text o.source o.map = .ok (s.session.root, f) ∧
      f.Alike s.forest ∧ s.session.options = o := by
  unfold process Session.load at h
  cases hp : Forest.empty.parse files text o.source o.map with
  | error e => simp [hp] at h
  | ok r =>
    simp only [hp, Except.ok.injEq] at h
    have halike := (callsOf_leads mode [] fuel ⟨r.2, .start r.1 o, user⟩).alike_of_nil
    rw [h] at halike
    have hroot : s.session.root = r.1 := congrArg Session.root halike.session
    exact ⟨r.2, by rw [hroot], halike.forest, congrArg Session.options halike.session⟩

/-- **A run without plugins ends.** -/
theorem process_finished (h : Forest.empty.parse files text o.source o.map = .ok (root, f))
    (mode : RunMode) {fuel : Nat} (hfuel : 2 * f.size ≤ fuel) (user : σ) :
    ∃ s, process mode [] fuel files text o .empty user = .ok (.finished, s) ∧
      f.Alike s.forest ∧ s.session.root = root ∧ s.session.options = o := by
  obtain ⟨i, a, ts, -, -, -, -, hreads⟩ := Forest.parse_spec h
  have hw : f.WellFormed := Forest.wellFormed_empty.grown (Forest.grown_parse h)
  have hs : f.Numbered := by
    have hadjusts := Edit.adjusts_run .empty (.read files text o.source o.map)
    rw [Edit.run, h] at hadjusts
    refine hadjusts.numbered fun id => ?_
    rw [Forest.cursors, Forest.node_of_le (Nat.zero_le id)]
    exact Cursors.numbered_empty
  have hroot : f.kind root = .root := by
    rw [hreads.keeps.hangs.1.kind]
    exact congrArg NodeData.kind hreads.formatted.data
  have hnone : ∀ p ∈ ([] : List (Plugin σ)), p.Watches := by simp
  have hend := (traverse_watched mode hnone (s := ⟨f, .start root o, user⟩) hw hs hroot hfuel).1
  have hrun : process mode [] fuel files text o .empty user =
      .ok (.finished, (traverse mode [] fuel ⟨f, .start root o, user⟩).2) := by
    unfold process Session.load
    rw [h, ← hend]
  obtain ⟨g, hg, halike, ho⟩ := process_alike hrun
  rw [h, Except.ok.injEq, Prod.mk.injEq] at hg
  exact ⟨_, hrun, hg.2 ▸ halike, hg.1.symm, ho⟩

/-- A text is read with the comment that names its map, and with this map. -/
theorem parse_again (files : Files) (options : MapOptions) {i : Input} {a : Parsed}
    {ts : List (Tree Parsed)} {eol : List Char} {css json : String} {m : SourceMap}
    {input : InputId} (h : f.Reads root input i a ts)
    (hbom : i.text.toList.head?.any Input.isBom = false)
    (hf : Lexer.Footer eol linkNote) (hcss : css.toList = i.text.toList ++ (eol ++ linkNote))
    (ho : options.previous = some (.text json)) (hm : SourceMap.parse? json = some m)
    (file : Option String) :
    ∃ root' g i' b us previous,
      Forest.empty.parse files css file (.enabled options) = .ok (root', g) ∧
      g.Reads root' 0 i' b us ∧ i'.text = css ∧ i'.map = some previous ∧ previous.map = m ∧
      previous.root = file.bind Path.parent? ∧
      Parser.Footed linkNote (.block a ts) (.block b us) := by
  have hcss' : (Input.dropBom css).1 = css := by
    refine Input.dropBom_eq ?_
    rw [hcss, List.head?_append]
    cases hhead : i.text.toList.head? with
    | some c => rwa [hhead] at hbom
    | none =>
      obtain ⟨c, rest, rfl, rfl | rfl⟩ := hf.line <;> rfl
  have hmake := Input.make_of_discover
    (PreviousMap.discover_text files (Input.dropBom css).1 file ho hm)
  rw [hcss'] at hmake
  obtain ⟨t, hparse, hfooted⟩ := Parser.parse_footer hf h.parsed
  rw [← hcss] at hparse
  obtain ⟨root', g, hg⟩ := Forest.parse_of_statements (f := .empty) hmake hparse
  obtain ⟨i', b, us, hmake', -, -, -, hreads⟩ := Forest.parse_spec hg
  obtain rfl := Except.ok.inj (hmake.symm.trans hmake')
  obtain rfl : t = .block b us := Except.ok.inj (hparse.symm.trans hreads.parsed)
  exact ⟨root', g, _, b, us, _, hg, hreads, rfl, rfl, rfl, rfl, hfooted⟩

/-- The options of a first run, from `a.css` to `b.css`, with a map in a file of its own. -/
def firstOptions : RunOptions :=
  { source := some "a.css", target := some "b.css", map := .enabled { inline := some false } }

/-- The options of a run on its output, from `b.css` to `c.css`, which is given the first map. -/
def nextOptions (m : SourceMap) : RunOptions :=
  { source := some "b.css", target := some "c.css",
    map := .enabled { inline := some false, previous := some (.text m.write) } }

/-- The name of the source is the same in the maps of both runs. -/
theorem source_names :
    Naming.sourceName ⟨some "a.css", some "b.css", .auto, false⟩ "a.css" = "a.css" ∧
      Naming.previousSourceName ⟨some "b.css", some "c.css", .auto, false⟩
        ((some "b.css").bind Path.parent?) "a.css" = "a.css" := by
  decide +kernel

/-- The output of a run without plugins on a text that comes without a map. -/
theorem output_first {i : Input} {a : Parsed} {ts : List (Tree Parsed)} {g : Forest}
    (h : f.Reads root 0 i a ts) (hs : Stands i.text.toList (a.body ts)) (hg : f.Alike g)
    (hinputs : f.inputs = #[i]) (hname : i.name = "a.css") (hmap : i.map = none)
    (hlinks : ∀ t ∈ ts, t.label.data.isLink = false) :
    ∃ m eol, (g.output root firstOptions).1.map = some m ∧
      m.tokens.map MapToken.places =
        (Piece.marksAll 0 (a.body ts)).map (Mark.places i.text.toList) ∧
      (∀ t ∈ m.tokens, t.range = false) ∧ (∀ t ∈ m.tokens, m.sourceOf t = some "a.css") ∧
      Lexer.Footer eol linkNote ∧
      (g.output root firstOptions).1.css.toList = i.text.toList ++ (eol ++ linkNote) := by
  have hkeeps := hg.keeps h.keeps
  have hclear : g.clearLinks root = g :=
    Forest.clearLinks_eq fun id hid => hkeeps.namesMap_eq_false hid hlinks
  have hown : ∀ j, (g.input? j).bind Input.map = none := by
    intro j
    rw [Forest.input?, hg.inputs, hinputs]
    cases j <;> simp [hmap]
  obtain ⟨hm, hcss⟩ := Forest.output_external g root (o := firstOptions) rfl
  rw [hclear] at hm hcss
  rw [if_pos (Forest.hasLink_of_own hown rfl),
    show g.css root = i.text from String.ext (hkeeps.css.trans h.text)] at hcss
  have hsource : Naming.sourceName ⟨some "a.css", some "b.css", .auto, false⟩ i.name = "a.css" := by
    rw [hname]
    exact source_names.1
  obtain ⟨hplaces, hrange, hsources⟩ := hkeeps.build_own
    ⟨some "a.css", some "b.css", .auto, false⟩ (MapPlan.make g root firstOptions).hasContents hs hmap
  rw [hsource] at hsources
  have hurl (m : SourceMap) : (MapPlan.make g root firstOptions).url m = "b.css.map" := by
    show Naming.outputFile ⟨some "a.css", some "b.css", .auto, false⟩ ++ ".map" = "b.css.map"
    decide
  obtain ⟨eol, hcomment, hfooter⟩ := MapPlan.comment_footer (hurl _) i.text
  refine ⟨_, eol, hm, hplaces, hrange, hsources, hfooter, ?_⟩
  rw [← hcomment, ← String.toList_append]
  exact congrArg String.toList hcss

/-- **A run on the output of a run.** -/
theorem process_chain (user : σ)
    (h : Forest.empty.parse files text firstOptions.source firstOptions.map = .ok (root, f))
    (hlink : MapLink.lastOpening? (Input.dropBom text).1.toList = none)
    (hbom : (Input.dropBom text).1.toList.head?.any Input.isBom = false)
    (hhack : ∀ id ∈ f.descendants root,
      f.startsWithHack (Input.dropBom text).1.toList id = false)
    (mode : RunMode) {fuel : Nat} (hfuel : 2 * f.size ≤ fuel) :
    ∃ s m,
      process mode [] fuel files text firstOptions .empty user = .ok (.finished, s) ∧
      (s.session.output s.forest).1.map = some m ∧
      (∀ t ∈ m.tokens, m.sourceOf t = some "a.css") ∧
      ∀ read, SourceMap.parse? m.write = some read → read.tokens = m.tokens →
        read.sources = m.sources → ∃ n', ∀ mode' fuel', n' ≤ fuel' → ∃ s' m',
          process mode' [] fuel' files (s.session.output s.forest).1.css (nextOptions m) .empty
            user = .ok (.finished, s') ∧
          (s'.session.output s'.forest).1.map = some m' ∧
          m'.tokens.map MapToken.places = m.tokens.map MapToken.places ∧
          ∀ t ∈ m'.tokens, m'.sourceOf t = some "a.css" := by
  obtain ⟨i, a, ts, hmake, -, hinputs, -, hreads⟩ := Forest.parse_spec h
  obtain ⟨htext, hdiscover⟩ := Input.make_ok hmake
  have hname : i.name = "a.css" := by rw [Input.name, Input.file_of_make hmake]; rfl
  rw [← htext] at hlink hbom hhack
  rw [firstOptions, PreviousMap.discover_none files _ rfl hlink, Except.ok.injEq, eq_comm] at hdiscover
  have hs := hreads.stands hhack
  have hlinks := hreads.isLink_top hlink
  obtain ⟨s, hrun, halike, hroot, ho⟩ := process_finished h mode hfuel user
  obtain ⟨m, eol, hm, hplaces, hrange, hsources, hfooter, hcss⟩ :=
    output_first hreads hs halike hinputs hname hdiscover hlinks
  have hout : s.session.output s.forest = s.forest.output root firstOptions := by
    rw [Session.output, hroot, ho]
  rw [← hout] at hm hcss
  refine ⟨s, m, hrun, hm, hsources, fun read hread htokens hsrcs => ?_⟩
  obtain ⟨root', g, i', b, us, previous, hg, hreads', htext', hmap', rfl, hpath, hfooted⟩ :=
    parse_again files { inline := some false, previous := some (.text m.write) } hreads hbom hfooter hcss rfl hread (some "b.css")
  refine ⟨2 * g.size, fun mode' fuel' hfuel' => ?_⟩
  obtain ⟨s', hrun', halike', hroot', ho'⟩ := process_finished (o := nextOptions m) hg mode' hfuel' user
  have hi' : i'.text.toList = i.text.toList ++ (eol ++ linkNote) := by rw [htext', hcss]
  obtain ⟨us', hkeeps', hs', hmarks⟩ := (halike'.keeps hreads'.keeps).clearLinks_footer hfooted hi'
    (fun spaces t ht => Parser.isLink_linkNote spaces ht) hlinks hs hreads'.body_spec.1
    hreads'.body_spec.2
  -- the marks of both texts are the same, and so are the places of the first one in the second
  have hsame : (Piece.marksAll 0 (b.body us')).map (Mark.places i'.text.toList) =
      (Piece.marksAll 0 (a.body ts)).map (Mark.places i.text.toList) := by
    rw [hmarks, hi', hs.reflects.places_append]
  obtain ⟨hplaces', hsources'⟩ := hkeeps'.build_traced
    ⟨some "b.css", some "c.css", .auto, false⟩
    (MapPlan.make s'.forest root' (nextOptions m)).hasContents hs' hmap'
    (by rw [htokens, hplaces, hsame]) (by rwa [htokens])
    (by
      rw [htokens]
      intro t ht
      rw [SourceMap.sourceOf, hsrcs]
      exact hsources t ht)
  have hsource : Naming.previousSourceName ⟨some "b.css", some "c.css", .auto, false⟩ previous.root
      "a.css" = "a.css" := by
    rw [hpath]
    exact source_names.2
  rw [hsource] at hsources'
  have hout' : s'.session.output s'.forest = s'.forest.output root' (nextOptions m) := by
    rw [Session.output, hroot', ho']
  refine ⟨s', _, hrun', ?_, hplaces'.trans (hsame.trans hplaces.symm), hsources'⟩
  rw [hout']
  exact (Forest.output_external _ _ rfl).1

/-- The map of a run without plugins on an input, if its tokens are made in order. -/
theorem process_draft (mode : RunMode) (fuel : Nat) (user : σ) {previous : Option PreviousSetting}
    {i : Input} {e : RunEnd} {m : SourceMap}
    (ho : o.map = .enabled { inline := some false, previous })
    (hi : Input.make files text o.source o.map = .ok i)
    (h : ((Forest.empty.addInput i).2.parseInput 0 i).toOption.map (fun r =>
      let (e, s) := traverse mode [] fuel ⟨r.2, .start r.1 o, user⟩
      (e, s.forest.draft s.session.root o)) = some (e, m))
    (ht : m.tokens.Pairwise fun s t => s.le t = true) :
    ∃ s, process mode [] fuel files text o .empty user = .ok (e, s) ∧
      (s.session.output s.forest).1.map = some m := by
  cases hp : (Forest.empty.addInput i).2.parseInput 0 i with
  | error => simp [hp, Except.toOption] at h
  | ok r =>
    simp only [hp, Except.toOption, Option.map_some, Option.some.injEq, Prod.mk.injEq] at h
    obtain ⟨rfl, hm⟩ := h
    have hrun : process mode [] fuel files text o .empty user =
        .ok (traverse mode [] fuel ⟨r.2, .start r.1 o, user⟩) := by
      unfold process Session.load Forest.parse
      simp only [hi]
      rw [show (Forest.empty.addInput i).1 = 0 from rfl, hp]
    obtain ⟨-, -, -, ho'⟩ := process_alike hrun
    refine ⟨_, hrun, ?_⟩
    rw [Session.output, ho']
    exact Forest.output_draft ho hm ht

set_option maxRecDepth 4000 in
theorem process_chain_comment :
    let text := "\ufeffa\x7bb:c\x7d\n/*d*/"
    ∃ (s : RunState Unit) (m : SourceMap),
      process .waiting [] 8 .empty text firstOptions .empty () = .ok (.finished, s) ∧
      (s.session.output s.forest).1.map = some m ∧ SourceMap.parse? m.write = some m ∧
      m.tokens.map MapToken.places = [(⟨0, 0⟩, ⟨0, 0⟩), (⟨0, 2⟩, ⟨0, 2⟩), (⟨0, 5⟩, ⟨0, 5⟩),
        (⟨1, 0⟩, ⟨1, 0⟩), (⟨1, 4⟩, ⟨1, 4⟩)] ∧
      ∃ n, ∀ fuel, n ≤ fuel → ∃ s' m',
        process .waiting [] fuel .empty (s.session.output s.forest).1.css (nextOptions m) .empty () =
          .ok (.finished, s') ∧
        (s'.session.output s'.forest).1.map = some m' ∧
        m'.tokens.map MapToken.places = m.tokens.map MapToken.places := by
  intro text
  let map : SourceMap := ⟨some "b.css", ["a.css"], [some "a\x7bb:c\x7d\n/*d*/"], [],
    [⟨0, 0, some 0, 0, 0, none, false⟩, ⟨0, 2, some 0, 0, 2, none, false⟩,
      ⟨0, 5, some 0, 0, 5, none, false⟩, ⟨1, 0, some 0, 1, 0, none, false⟩,
      ⟨1, 4, some 0, 1, 4, none, false⟩]⟩
  have hlink : MapLink.lastOpening? (Input.dropBom text).1.toList = none := by decide +kernel
  have hmake := Input.make_of_discover (PreviousMap.discover_none .empty (some "a.css")
    (s := .enabled { inline := some false }) rfl hlink)
  obtain ⟨s, hrun, hmap⟩ := process_draft .waiting 8 () (o := firstOptions)
    (e := .finished) (m := map) rfl hmake (by decide +kernel) (by decide)
  obtain ⟨root, f, hparse, hfuel, hhack⟩ : ∃ root f,
      Forest.empty.parse .empty text firstOptions.source firstOptions.map = .ok (root, f) ∧
      2 * f.size ≤ 8 ∧ ∀ id ∈ f.descendants root,
        f.startsWithHack (Input.dropBom text).1.toList id = false := by
    decide +kernel
  obtain ⟨s₁, m, hrun', hmap', -, hnext⟩ := process_chain () hparse hlink
    (by decide +kernel) hhack .waiting hfuel
  rw [hrun, Except.ok.injEq, Prod.mk.injEq] at hrun'
  obtain rfl := hrun'.2
  rw [hmap, Option.some.injEq] at hmap'
  subst hmap'
  have hread : SourceMap.parse? map.write = some map := by
    have hmappings : map.mappings = "AAAA,EAAE,GAAG;AACL,IAAI" := by cbv
    rw [SourceMap.write, SourceMap.toJson, hmappings]
    exact SourceMap.parse?_of_members [("version", .int 3), ("file", .str "b.css"),
      ("sources", .arr [.str "a.css"]), ("sourcesContent", .arr [.str "a\x7bb:c\x7d\n/*d*/"]),
      ("names", .arr []), ("mappings", .str "AAAA,EAAE,GAAG;AACL,IAAI")] (by cbv) (by decide +kernel)
      (by cbv)
  obtain ⟨n, hn⟩ := hnext map hread rfl rfl
  refine ⟨s, map, hrun, hmap, hread, rfl, n, fun fuel hfuel => ?_⟩
  obtain ⟨s', m', hrun', hmap', hplaces, -⟩ := hn .waiting fuel hfuel
  exact ⟨s', m', hrun', hmap', hplaces⟩

set_option maxRecDepth 4000 in
/-- A declaration with a hack is looked up where it starts, and found at the start of its rule. -/
theorem process_chain_hack :
    ∃ (s s' : RunState Unit) (m m' : SourceMap),
      process .waiting [] 6 .empty "a\x7b*color:red\x7d" firstOptions .empty () =
        .ok (.finished, s) ∧
      (s.session.output s.forest).1.map = some m ∧ SourceMap.parse? m.write = some m ∧
      process .waiting [] 8 .empty (s.session.output s.forest).1.css (nextOptions m) .empty () =
        .ok (.finished, s') ∧
      (s'.session.output s'.forest).1.map = some m' ∧
      (⟨0, 3⟩, ⟨0, 2⟩) ∈ m.tokens.map MapToken.places ∧
      (⟨0, 3⟩, ⟨0, 2⟩) ∉ m'.tokens.map MapToken.places ∧
      (⟨0, 3⟩, ⟨0, 0⟩) ∈ m'.tokens.map MapToken.places := by
  let map : SourceMap := ⟨some "b.css", ["a.css"], [some "a\x7b*color:red\x7d"], [],
    [⟨0, 0, some 0, 0, 0, none, false⟩, ⟨0, 3, some 0, 0, 2, none, false⟩,
      ⟨0, 12, some 0, 0, 12, none, false⟩]⟩
  let map' : SourceMap := ⟨some "c.css", ["a.css"], [some "a\x7b*color:red\x7d"], [],
    [⟨0, 0, some 0, 0, 0, none, false⟩, ⟨0, 3, some 0, 0, 0, none, false⟩,
      ⟨0, 12, some 0, 0, 12, none, false⟩]⟩
  have hmake := Input.make_of_discover (PreviousMap.discover_none .empty (some "a.css")
    (s := .enabled { inline := some false }) rfl (show MapLink.lastOpening?
      (Input.dropBom "a\x7b*color:red\x7d").1.toList = none by decide +kernel))
  obtain ⟨s, hrun, hmap⟩ := process_draft .waiting 6 () (o := firstOptions) (e := .finished)
    (m := map) rfl hmake (by decide +kernel) (by decide)
  have hcss : (s.session.output s.forest).1.css =
      "a\x7b*color:red\x7d\n/*# sourceMappingURL=b.css.map */" := by
    obtain ⟨e, s', hrun', hcss⟩ : ∃ e s',
        process .waiting [] 6 .empty "a\x7b*color:red\x7d" firstOptions .empty () = .ok (e, s') ∧
        (s'.session.output s'.forest).1.css =
          "a\x7b*color:red\x7d\n/*# sourceMappingURL=b.css.map */" := by decide +kernel
    rw [hrun, Except.ok.injEq, Prod.mk.injEq] at hrun'
    exact hrun'.2 ▸ hcss
  have hread : SourceMap.parse? map.write = some map := by
    have hmappings : map.mappings = "AAAA,GAAE,SAAU" := by cbv
    rw [SourceMap.write, SourceMap.toJson, hmappings]
    exact SourceMap.parse?_of_members [("version", .int 3), ("file", .str "b.css"),
      ("sources", .arr [.str "a.css"]), ("sourcesContent", .arr [.str "a\x7b*color:red\x7d"]),
      ("names", .arr []), ("mappings", .str "AAAA,GAAE,SAAU")] (by cbv) (by decide +kernel)
      (by cbv)
  have hmake' := Input.make_of_discover (PreviousMap.discover_text .empty
    (Input.dropBom "a\x7b*color:red\x7d\n/*# sourceMappingURL=b.css.map */").1 (some "b.css")
    (o := { inline := some false, previous := some (.text map.write) }) rfl hread)
  obtain ⟨s', hrun', hmap'⟩ := process_draft .waiting 8 () (o := nextOptions map) (e := .finished)
    (m := map') rfl hmake' (by decide +kernel) (by decide)
  exact ⟨s, s', map, map', hrun, hmap, hread, hcss ▸ hrun', hmap', by decide, by decide, by decide⟩

end Run

end Stylesheet
