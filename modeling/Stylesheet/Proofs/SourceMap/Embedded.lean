import Stylesheet.Proofs.Forest.Edits
import Stylesheet.Proofs.SourceMap.Codec
import Stylesheet.Proofs.SourceMap.OneLink
import Stylesheet.Proofs.SourceMap.Tokens

/-!
# Maps that are put into the text

`Forest.discover_output`: a map that is put into the output is found there again. The link comment
behind the text is the last one, whatever stands before it, and its URL ends where it was written to
end, since no digit of base 64 is a star or a blank (`MapLink.find_inline`). What it holds is the
text of the map (`PreviousMap.decodeInline_url`), and that is read back (`SourceMap.parse?_write`).

Every number of a map has 32 bits where it is built; here that is an assumption (`SourceMap.Small`).
-/

set_option autoImplicit false

namespace Stylesheet

open Stylesheet.Text

/-! ## The link -/

namespace MapLink

/-- There is no opening in a text if there is none at any place of it. -/
theorem lastOpening?_none_of {cs : List Char}
    (h : ∀ before behind, cs = before ++ behind → opening? behind = none) :
    lastOpening? cs = none := by
  induction cs with
  | nil => rfl
  | cons c cs ih =>
    rw [lastOpening?, ih fun before behind hcs => h (c :: before) behind (by rw [hcs]; rfl)]
    exact h [] (c :: cs) rfl

/-- The last opening is one behind which there is none. -/
theorem lastOpening?_last {c : Char} {cs url : List Char} (h : opening? (c :: cs) = some url)
    (hcs : lastOpening? cs = none) (before : List Char) :
    lastOpening? (before ++ c :: cs) = some url := by
  induction before with
  | nil => rw [List.nil_append, lastOpening?, hcs, h]
  | cons d before ih => rw [List.cons_append, lastOpening?, ih]

theorem commentText?_star {url : List Char} (h : '*' ∉ url) (rest : List Char) :
    commentText? (url ++ " */".toList ++ rest) = some (url ++ [' ']) := by
  induction url with
  | nil => rfl
  | cons c url ih =>
    rw [List.mem_cons, not_or] at h
    rw [List.cons_append, List.cons_append, commentText?, if_neg (by simp [Ne.symm h.1]), ih h.2]
    rfl

theorem trimChars_of_not_blank {cs : List Char} (h : ∀ c ∈ cs, isBlank c = false) :
    trimChars cs = cs ∧ trimChars (cs ++ [' ']) = cs := by
  have hdrop {ds : List Char} (hds : ∀ c ∈ ds, isBlank c = false) : ds.dropWhile isBlank = ds := by
    cases ds with
    | nil => rfl
    | cons d ds => rw [List.dropWhile_cons, hds d (.head _)]; rfl
  have hright : trimRight cs = cs := by
    rw [trimRight, hdrop fun c hc => h c (List.mem_reverse.1 hc), List.reverse_reverse]
  have hblank : trimRight (cs ++ [' ']) = cs := by
    rw [trimRight, List.reverse_append, List.reverse_singleton, List.singleton_append,
      List.dropWhile_cons, if_pos (by decide)]
    exact hright
  constructor
  · rw [trimChars, hdrop h, hright]
  · rw [trimChars]
    cases cs with
    | nil => rfl
    | cons c cs =>
      rw [List.cons_append, List.dropWhile_cons, h c (.head _)]
      exact hblank

/-- **The link at the end of a text is found**, whatever stands before it. -/
theorem find_comment {text url : String} {before : List Char} (hstar : '*' ∉ url.toList)
    (hblank : ∀ c ∈ url.toList, isBlank c = false) (htext : text.toList =
      before ++ ("/*# sourceMappingURL=".toList ++ (url.toList ++ " */".toList))) :
    find text = some url := by
  have hurl : lastOpening? url.toList = none :=
    lastOpening?_of_not_mem (fun _ => IsOpening.star_mem) hstar
  have hopen : opening? ('/' :: ("*# sourceMappingURL=".toList ++ (url.toList ++ " */".toList))) =
      some (url.toList ++ " */".toList) := rfl
  have hlast := lastOpening?_last hopen (lastOpening?_none_of fun front behind h => by
    rw [← Option.not_isSome_iff_eq_none]
    intro hsome
    have hwhole : "/*# sourceMappingURL=".toList ++ (url.toList ++ " */".toList) =
        '/' :: front ++ behind := by
      rw [List.cons_append, ← h]
      rfl
    cases (opening?_comment_iff hurl hwhole).1 hsome) before
  have hcomment := commentText?_star hstar []
  rw [List.append_nil] at hcomment
  unfold find
  rw [htext, show lastOpening? (before ++ ("/*# sourceMappingURL=".toList ++
    (url.toList ++ " */".toList))) = _ from hlast]
  simp only [Option.bind_eq_bind, Option.bind_some]
  rw [hcomment]
  simp [(trimChars_of_not_blank hblank).2]

end MapLink

/-! ## The data URL -/

namespace MapPlan

variable {p : MapPlan} (m : SourceMap)

/-- The digits that a map is put into the text with. -/
theorem url_inline (h : p.isInline = true) : (p.url m).toList =
    "data:application/json;base64,".toList ++ Base64.encode (toBytes m.write) := by
  rw [url, if_pos h, String.toList_append]
  exact congrArg _ String.toList_ofList

theorem mem_url (h : p.isInline = true) {c : Char} (hc : c ∈ (p.url m).toList) :
    c ≠ '*' ∧ isBlank c = false := by
  rw [url_inline m h, List.mem_append] at hc
  rcases hc with hc | hc
  · have hall : ("data:application/json;base64,".toList.all fun d =>
        d != '*' && !isBlank d) = true := by decide +kernel
    simpa using List.all_eq_true.1 hall c hc
  · exact ⟨fun h => Base64.star_not_mem_encode _ (h ▸ hc), Base64.isBlank_encode hc⟩

end MapPlan

namespace PreviousMap

/-- **A data URL holds the text of the map.** -/
theorem decodeInline_url {p : MapPlan} (h : p.isInline = true) (m : SourceMap) :
    decodeInline (p.url m) = .ok m.write := by
  have hpayload (data : List Char) :
      payload? ("data:application/json;base64,".toList ++ data) = some (true, data) := rfl
  have hdata := (MapLink.trimChars_of_not_blank
    fun c (hc : c ∈ Base64.encode (toBytes m.write)) => Base64.isBlank_encode hc).1
  unfold decodeInline
  rw [p.url_inline m h, hpayload]
  simp only [hdata, Base64.decode?_encode, Option.bind_some, ofBytes?_toBytes]

/-- **An inlined map is discovered** behind any text. -/
theorem discover_inline {p : MapPlan} (h : p.isInline = true) {m : SourceMap} (hm : m.Writable)
    (css : String) (files : Files) (source : Option String) :
    discover files (css ++ p.comment css m) source .auto = .ok (some
      { text := m.write, file := source, root := source.bind Path.parent?,
        link := some (p.url m), inline := true, map := m.reread }) := by
  obtain ⟨eol, -, -, hcomment⟩ := p.comment_eq css m
  have htext : (css ++ p.comment css m).toList = css.toList ++ eol ++
      ("/*# sourceMappingURL=".toList ++ ((p.url m).toList ++ " */".toList)) := by
    rw [String.toList_append, hcomment, List.append_assoc]
  have hfind : MapLink.find (css ++ p.comment css m) = some (p.url m) :=
    MapLink.find_comment (fun hc => (p.mem_url m h hc).1 rfl)
      (fun c hc => (p.mem_url m h hc).2) htext
  have hdata : startsWith (p.url m) "data:" = true := by
    unfold startsWith
    rw [p.url_inline m h]
    rfl
  have hlinked : locate files (some (p.url m)) source .auto = .ok (some (m.write, none)) := by
    show linked files source (p.url m) = _
    rw [linked, if_pos hdata, decodeInline_url h]
    rfl
  unfold discover
  simp only [hfind, hlinked, MapSetting.isDisabled, bind, Except.bind, SourceMap.parse?_write hm,
    Option.any_some, hdata]
  rfl

end PreviousMap

/-! ## Maps that are built -/

namespace SourceMap

/-- The numbers of the map have 32 bits. -/
structure Small (m : SourceMap) : Prop where
  tokens : ∀ t ∈ m.tokens,
    t.dstCol < UInt32.size ∧ t.srcLine < UInt32.size ∧ t.srcCol < UInt32.size
  sources : m.sources.length ≤ UInt32.size
  names : m.names.length ≤ UInt32.size

namespace Builder

/-- Every token leads to a listed source, and its name is listed if it has one. -/
structure Indexed (b : Builder) : Prop where
  plain : ∀ t ∈ b.tokens, t.range = false
  source : ∀ t ∈ b.tokens, ∃ i, t.source = some i ∧ i < b.sources.length
  name : ∀ t ∈ b.tokens, ∀ i ∈ t.name, i < b.names.length

variable {b b' : Builder}

/-- Lists may grow, and a token may be added that is indexed itself. -/
theorem Indexed.addToken (h : b.Indexed) (hs : b.sources <+: b'.sources) (hn : b.names <+: b'.names)
    (ht : b'.tokens = b.tokens) {t : MapToken} (hplain : t.range = false)
    (hsource : ∃ i, t.source = some i ∧ i < b'.sources.length)
    (hname : ∀ i ∈ t.name, i < b'.names.length) : (b'.addToken t).Indexed := by
  have hmem : ∀ u ∈ (b'.addToken t).tokens, u ∈ b.tokens ∨ u = t := by
    intro u hu
    rw [Builder.addToken, ht, List.mem_append, List.mem_singleton] at hu
    exact hu
  constructor
  · intro u hu
    rcases hmem u hu with hu | rfl
    · exact h.plain u hu
    · exact hplain
  · intro u hu
    rcases hmem u hu with hu | rfl
    · obtain ⟨i, hi, hlt⟩ := h.source u hu
      exact ⟨i, hi, Nat.lt_of_lt_of_le hlt hs.length_le⟩
    · exact hsource
  · intro u hu i hi
    rcases hmem u hu with hu | rfl
    · exact Nat.lt_of_lt_of_le (h.name u hu i hi) hn.length_le
    · exact hname i hi

theorem lt_of_indexes {list : List String} {k : Nat} {name : String}
    (h : Indexes list (some k) (some name)) : k < list.length := by
  cases h with
  | some h => exact (List.getElem?_eq_some_iff.1 h).1

theorem Indexed.addOwn (h : b.Indexed) (naming : Naming) (input : Input) (m : Mapping) :
    (b.addOwn naming input m).Indexed := by
  obtain ⟨hindex, hs, hn, ht⟩ := b.addSource_spec (naming.sourceName input.name) (some input.text)
  exact h.addToken hs (hn ▸ List.prefix_rfl) ht rfl ⟨_, rfl, lt_of_indexes hindex⟩ nofun

theorem Indexed.addTraced (h : b.Indexed) (naming : Naming) (previous : PreviousMap) (m : Mapping) :
    (b.addTraced naming previous m).Indexed := by
  unfold Builder.addTraced
  split
  · exact h
  next t _ =>
  split
  · exact h
  next name _ =>
  obtain ⟨hindex, hs, hn, ht⟩ := b.addSource_spec (naming.previousSourceName previous.root name)
    (t.source.bind previous.map.contentOf)
  have hlt := lt_of_indexes hindex
  generalize b.addSource _ _ = r at hs hn ht hlt
  obtain ⟨source, b₁⟩ := r
  simp only at hs hn ht hlt ⊢
  split
  · exact h.addToken hs (hn ▸ List.prefix_rfl) ht rfl ⟨_, rfl, hlt⟩ nofun
  next name' _ =>
  obtain ⟨hindex', hn', hs', ht'⟩ := b₁.addName_spec name'
  have hlt' := lt_of_indexes hindex'
  generalize b₁.addName name' = r at hs' hn' ht' hlt'
  obtain ⟨index, b₂⟩ := r
  simp only at hs' hn' ht' hlt' ⊢
  refine h.addToken (hs' ▸ hs) (hn ▸ hn') (ht'.trans ht) rfl ⟨_, rfl, hs' ▸ hlt⟩ ?_
  rintro i ⟨⟩
  exact hlt'

theorem Indexed.addMappings (h : b.Indexed) (inputs : InputId → Option Input) (naming : Naming)
    (ms : List Mapping) : (ms.foldl (addMapping inputs naming) b).Indexed := by
  induction ms generalizing b with
  | nil => exact h
  | cons m ms ih =>
    refine ih ?_
    unfold addMapping
    split
    · exact h
    split
    · exact h.addOwn naming _ m
    · exact h.addTraced naming _ m

end Builder

/-- **A map that is built can be written.** -/
theorem writable_build {inputs : InputId → Option Input} {naming : Naming} {withContents : Bool}
    {ms : List Mapping} (h : (build inputs naming withContents ms).Small) :
    (build inputs naming withContents ms).Writable := by
  have hstart : (Builder.start withContents).Indexed := ⟨nofun, nofun, nofun⟩
  have hindexed := hstart.addMappings inputs naming ms
  have hmem {t : MapToken} (ht : t ∈ (build inputs naming withContents ms).tokens) :
      t ∈ (ms.foldl (Builder.addMapping inputs naming) (Builder.start withContents)).tokens :=
    List.mem_mergeSort.1 ht
  refine ⟨fun t ht => ?_, ?_⟩
  · obtain ⟨i, hi, hlt⟩ := hindexed.source t (hmem ht)
    obtain ⟨hcol, hline, hsrc⟩ := h.tokens t ht
    refine ⟨hindexed.plain t (hmem ht), hcol, hline, hsrc, ?_, fun j hj => ?_, ?_⟩
    · rw [hi]
      rintro j ⟨⟩
      exact ⟨hlt, Nat.lt_of_lt_of_le hlt h.sources⟩
    · have hj := hindexed.name t (hmem ht) j hj
      exact ⟨hj, Nat.lt_of_lt_of_le hj h.names⟩
    · intro hnone
      rw [hi] at hnone
      cases hnone
  · have hle (s t : MapToken) : s.le t = true ↔
        s.dstLine < t.dstLine ∨ s.dstLine = t.dstLine ∧ s.dstCol ≤ t.dstCol := by
      simp [MapToken.le, MapToken.atOrBefore]
    refine List.pairwise_mergeSort (fun s t u => ?_) (fun s t => ?_) _
    · rw [hle, hle, hle]
      omega
    · rw [Bool.or_eq_true, hle, hle]
      omega

end SourceMap

/-! ## The output -/

namespace Forest

/-- What is printed of a tree: all of it, or without the comments that name earlier maps. -/
def printed (f : Forest) (root : NodeId) (o : RunOptions) : Forest :=
  if (MapPlan.make f root o).options.link = .disabled then f else f.clearLinks root

/-- The map that the output of a tree is written with. -/
def outputMap (f : Forest) (root : NodeId) (o : RunOptions) : SourceMap :=
  ((f.printed root o).printMapped root (MapPlan.make f root o)).2

/-- **A map that is put into the output is found there again**, behind any tree: the text is that of
the map, and it is read as the map. A token that repeats the one before it is written once, and
every place is looked up as before. -/
theorem discover_output {f : Forest} {root : NodeId} {o : RunOptions}
    (hmap : (MapPlan.make f root o).hasMap = true)
    (hinline : (MapPlan.make f root o).isInline = true) (hsmall : (f.outputMap root o).Small)
    (files : Files) (source : Option String) :
    let p := MapPlan.make f root o
    let m := f.outputMap root o
    let css := (f.printed root o).css root
    (f.output root o).1.css = css ++ p.comment css m ∧
      ∃ found, PreviousMap.discover files (f.output root o).1.css source .auto = .ok (some found) ∧
        found.inline = true ∧ found.text = m.write ∧ SourceMap.parse? m.write = some found.map ∧
        found.map.tokens = m.tokens.destutter (· ≠ ·) ∧
        (m.tokens.IsChain (· ≠ ·) → found.map.tokens = m.tokens) ∧
        (∀ line col, found.map.lookup line col = m.lookup line col) ∧
        found.map.sources = m.sources ∧ found.map.names = m.names ∧ found.map.file = m.file ∧
        ∀ i, found.map.contentOf i = m.contentOf i := by
  intro p m css
  have hwritable : m.Writable := SourceMap.writable_build hsmall
  have hcss : (f.output root o).1.css = css ++ p.comment css m := by
    unfold output
    have hlink : p.hasLink = true := by rw [MapPlan.hasLink, hinline, Bool.true_or]
    simp only [hmap, show (MapPlan.make f root o).hasLink = true from hlink, Bool.not_true,
      Bool.false_eq_true, if_false, if_true]
    rfl
  refine ⟨hcss, _, hcss ▸ PreviousMap.discover_inline hinline hwritable css files source, rfl, rfl,
    SourceMap.parse?_write hwritable, rfl, List.destutter_of_isChain _ _, m.lookup_reread, rfl, rfl,
    rfl, m.contentOf_reread⟩

/-- An older link stands in a string, and another one in a comment inside a rule. -/
theorem discover_output_older :
    let f := (Edit.read .empty
      "a\x7b/*# sourceMappingURL=y */b:'/*# sourceMappingURL=x */'\x7d" (some "a.css") .auto).run .empty
    let o : RunOptions := { map := .enabled {} }
    (MapPlan.make f 0 o).hasMap = true ∧ (MapPlan.make f 0 o).isInline = true ∧
      (f.outputMap 0 o).Small ∧ (f.outputMap 0 o).tokens.length = 5 ∧
      ∃ found, PreviousMap.discover .empty (f.output 0 o).1.css none .auto = .ok (some found) ∧
        found.inline = true ∧ found.text = (f.outputMap 0 o).write ∧
        found.map.tokens = (f.outputMap 0 o).tokens := by
  intro f o
  obtain ⟨hmap, hinline⟩ : (MapPlan.make f 0 o).hasMap = true ∧
      (MapPlan.make f 0 o).isInline = true := by decide +kernel
  have htokens : (f.outputMap 0 o).tokens = [0, 2, 26, 27, 56].map fun col =>
      ⟨0, col, some 0, 0, col, none, false⟩ := by
    have hbuilt : (((f.printed 0 o).mappings .skip .start ((f.printed 0 o).print 0)).foldl
        (SourceMap.Builder.addMapping (f.printed 0 o).input? (MapPlan.make f 0 o).naming)
        (.start true)).tokens = [0, 2, 26, 27, 56].map fun col =>
          ⟨0, col, some 0, 0, col, none, false⟩ := by decide +kernel
    have hcontents : (MapPlan.make f 0 o).hasContents = true := by decide +kernel
    show SourceMap.sortTokens (List.foldl _ (SourceMap.Builder.start
      (MapPlan.make f 0 o).hasContents) _).tokens = _
    rw [hcontents]
    exact (congrArg _ hbuilt).trans (List.mergeSort_of_pairwise (by decide))
  have hsmall : (f.outputMap 0 o).Small := by
    refine ⟨?_, ?_, ?_⟩
    · rw [htokens]
      decide
    all_goals decide +kernel
  obtain ⟨-, found, hfound, hin, htext, -, -, hsame, -⟩ :=
    discover_output hmap hinline hsmall .empty none
  refine ⟨hmap, hinline, hsmall, ?_, found, hfound, hin, htext, hsame ?_⟩
  · rw [htokens]
    rfl
  · rw [htokens]
    decide

end Forest

end Stylesheet
