import Stylesheet.Output
import Stylesheet.Proofs.RoundTrip
import Stylesheet.Proofs.SourceMap.Marks

/-!
# The map of a text that was not changed

`Forest.output_parse`: a tree that was read and not changed is written with a map that leads every
place to itself, and in which every node can be found where it starts. A declaration with a hack
starts at its mark, which is printed before it, and a rule with a semicolon of its own ends there:
these are left out.
-/

set_option autoImplicit false

namespace Stylesheet

open Stylesheet.Text Stylesheet.Tree

namespace MapLink

theorem lastOpening?_append {rest : List Char} (cs : List Char) (h : (opening? rest).isSome) :
    (lastOpening? (cs ++ rest)).isSome := by
  induction cs with
  | nil =>
    cases rest with
    | nil => simp [opening?, after?] at h
    | cons c rest =>
      rw [List.nil_append, lastOpening?]
      split
      · rfl
      · exact h
  | cons c cs ih =>
    rw [List.cons_append, lastOpening?]
    split
    · rfl
    · next hn =>
      rw [hn] at ih
      cases ih

/-- A comment that names a map starts a link comment. -/
theorem opening?_comment {left : List Char} {text : String}
    (hl : ∀ c ∈ left, isBlank c = true) (ht : startsWith text "# sourceMappingURL=" = true)
    (rest : List Char) :
    (opening? ("/*".toList ++ left ++ text.toList ++ rest)).isSome := by
  obtain ⟨behind, hb⟩ := Option.isSome_iff_exists.1 ht
  rw [after?_eq_some_iff] at hb
  have hopen : after? "/*".toList ("/*".toList ++ left ++ text.toList ++ rest) =
      some (left ++ text.toList ++ rest) := by
    rw [after?_eq_some_iff]
    simp
  have hhash : (left ++ text.toList ++ rest).dropWhile isBlank =
      '#' :: ' ' :: ("sourceMappingURL=".toList ++ behind ++ rest) := by
    rw [List.append_assoc, List.dropWhile_append_of_pos hl, hb]
    rfl
  have hblank : (' ' :: ("sourceMappingURL=".toList ++ behind ++ rest)).dropWhile isBlank =
      "sourceMappingURL=".toList ++ (behind ++ rest) := by
    rw [List.append_assoc]
    rfl
  have hurl := after?_eq_some_iff.2
    (rfl : "sourceMappingURL=".toList ++ (behind ++ rest) = _ ++ (behind ++ rest))
  unfold opening?
  simp only [hopen, Option.bind_eq_bind, Option.bind_some, hhash, after?, if_true]
  rw [hblank, hurl]
  rfl

end MapLink

namespace Forest

section
variable {f : Forest} {root : NodeId} {input : InputId} {i : Input} {a : Parsed}
  {ts : List (Tree Parsed)} {b : NodeId × Parsed}

/-! ## Mappings -/

/-- An input without a map is a source itself. -/
theorem Reads.mappings (h : f.Reads root input i a ts) (hi : i.map = none)
    (hs : Stands i.text.toList (a.body ts)) :
    f.mappings .skip .start (f.print root) =
      (Piece.marksAll 0 (a.body ts)).map (Mark.mapping i.text.toList input) :=
  h.keeps.mappings hs fun _ _ _ _ => by simp [resolves, h.input, hi]

/-- Without semicolons behind the blocks of rules, every mark leads to itself. -/
theorem Reads.marks_fixed (h : f.Reads root input i a ts) (hs : Stands i.text.toList (a.body ts))
    (hown : ∀ id ∈ f.descendants root, f.kind id = .rule →
      (f.raws id).contains "ownSemicolon" = false) :
    ∀ m ∈ Piece.marksAll 0 (a.body ts), m.src = m.dst := by
  intro m hm
  obtain ⟨before, x, behind, hx, hm⟩ := Piece.mem_marksAll.1 hm
  rw [Nat.zero_add] at hm
  refine (hs.mark_cases hx hm).2.2.resolve_right ?_
  rintro ⟨-, n, hn, hne⟩
  have hmem : x ∈ (body root a ts).map (Piece.map Prod.snd) := by
    rw [map_body, hx]
    simp
  obtain ⟨y, hy, rfl⟩ := List.mem_map.1 hmem
  obtain ⟨b, hb, rfl⟩ := Option.map_eq_some_iff.1 hn
  have hb := mem_of_body hy hb
  have hkind : b.2.data.kind = .rule ∧ b.2.raws.contains "ownSemicolon" := by
    unfold Wording.own Wording.slot at hne
    split at hne
    · next hdata =>
      refine ⟨by rw [show b.2.data = _ from hdata]; rfl, ?_⟩
      rw [Raws.contains, ← Bool.not_eq_false, Option.isSome_eq_false_iff, Option.isNone_iff_eq_none]
      intro hnone
      simp [Raws.text?, Parsed.wording, hnone] at hne
    · exact absurd rfl hne
  have := hown b.1 (by rw [h.keeps.descendants]; exact List.mem_map_of_mem hb)
    (by show (f.data b.1).kind = _; rw [h.keeps.data hb, hkind.1])
  rw [h.keeps.raws hb, hkind.2] at this
  cases this

/-- A token of the map stands where the first fragment of a node starts. -/
def Marks (f : Forest) (root : NodeId) (m : SourceMap) (id : NodeId) : Prop :=
  ∃ before x behind, f.print root = before ++ x :: behind ∧ x.node = some id ∧ x.text ≠ "" ∧
    (∀ y ∈ before, y.node ≠ some id) ∧
    ∃ t ∈ m.tokens, (⟨t.dstLine, t.dstCol⟩ : OutputPlace) =
      OutputPlace.start.after (Fragment.concat before)

/-- Every node below the root has a first piece. -/
theorem Keeps.hasFirst (h : f.Keeps root input i a ts)
    (hb : b ∈ preorderAll (numberedAll (root + 1) ts)) : HasFirst Prod.fst b (body root a ts) :=
  exists_first_pieceAll Prod.fst (h.formattedAll.data_ne_root hb) _
    (numbers_numberedAll (root + 1) ts ▸ List.nodup_range') hb

/-- The first fragment of a node has text, and a mark. -/
theorem Keeps.first_fragment (h : f.Keeps root input i a ts)
    (hs : Stands i.text.toList (a.body ts)) (hb : b ∈ preorderAll (numberedAll (root + 1) ts)) :
    ∃ before x behind, f.print root = before ++ x :: behind ∧ x.node = some b.1 ∧ x.text ≠ "" ∧
      (∀ y ∈ before, y.node ≠ some b.1) ∧
      ∃ m ∈ Piece.marksAll 0 (a.body ts), placeAt i.text.toList m.dst =
        OutputPlace.start.after (Fragment.concat before) := by
  obtain ⟨before, x, behind, hx, hn, hr, hfirst⟩ := h.hasFirst hb
  have hx' := body_split hx
  have hn' : (x.map Prod.snd).node = some b.2 := by simp [Piece.map, hn]
  refine ⟨before.map Piece.fragment, x.fragment,
    (behind ++ Piece.gap (a.wording.slot "after")).map Piece.fragment, ?_, ?_, ?_, ?_, ?_⟩
  · rw [h.print, h.pieces, hx]
    simp
  · simp [Piece.fragment, hn]
  · simpa using (hs.start hx' hn' hr).2
  · intro y hy hnode
    obtain ⟨z, hz, rfl⟩ := List.mem_map.1 hy
    obtain ⟨c, hc, hid⟩ := Option.map_eq_some_iff.1 hnode
    exact hfirst z hz c hc hid
  · obtain ⟨rest, htext⟩ := (hs.split hx').2
    refine ⟨⟨_, _⟩, Piece.mem_marksAll.2 ⟨_, _, _, hx', Piece.mem_marks.2
      ⟨b.2, hn', .inl ⟨hr, rfl⟩⟩⟩, ?_⟩
    rw [Nat.zero_add, htext, List.append_assoc, placeAt_append, OutputPlace.after_eq,
      Fragment.toList_concat_map, Piece.chars_map]

/-- The map of a tree that was read and not changed. -/
theorem Reads.printMapped (h : f.Reads root input i a ts) (hi : i.map = none)
    (hhack : ∀ id ∈ f.descendants root, f.startsWithHack i.text.toList id = false)
    (hown : ∀ id ∈ f.descendants root, f.kind id = .rule →
      (f.raws id).contains "ownSemicolon" = false)
    {p : MapPlan} (hskip : p.options.unmapped = .skip) :
    (f.printMapped root p).1 = i.text ∧
      (∀ t ∈ (f.printMapped root p).2.tokens, t.dstLine = t.srcLine ∧ t.dstCol = t.srcCol) ∧
      ∀ id ∈ f.descendants root, f.Marks root (f.printMapped root p).2 id := by
  have hs := h.stands hhack
  have hmappings := h.mappings hi hs
  have hinputs : ∀ m ∈ f.mappings .skip .start (f.print root),
      ∃ i, f.input? m.input = some i ∧ i.map = none := by
    intro m hm
    rw [hmappings] at hm
    obtain ⟨k, -, rfl⟩ := List.mem_map.1 hm
    exact ⟨i, h.input, hi⟩
  have hspell := SourceMap.build_tokens hinputs p.naming p.hasContents
  have hmap : (f.printMapped root p).2 = .build f.input? p.naming p.hasContents
      (f.mappings .skip .start (f.print root)) := by
    rw [← hskip]
    rfl
  rw [hmap]
  rw [hmappings] at hspell ⊢
  refine ⟨h.css, fun t ht => ?_, fun id hid => ?_⟩
  · obtain ⟨m, hm, hs'⟩ := hspell.1 t ht
    obtain ⟨k, hk, rfl⟩ := List.mem_map.1 hm
    have hfixed := h.marks_fixed hs hown k hk
    exact ⟨by rw [hs'.1, hs'.2.2.1, Mark.mapping, hfixed],
      by rw [hs'.2.1, hs'.2.2.2, Mark.mapping, hfixed]⟩
  · rw [h.keeps.descendants] at hid
    obtain ⟨b, hb, rfl⟩ := List.mem_map.1 hid
    obtain ⟨before, x, behind, hprint, hn, hne, hfirst, k, hk, hplace⟩ :=
      h.keeps.first_fragment hs hb
    obtain ⟨t, ht, hs'⟩ := hspell.2 _ (List.mem_map_of_mem hk)
    refine ⟨before, x, behind, hprint, hn, hne, hfirst, t, ht, ?_⟩
    rw [← hplace, hs'.1, hs'.2.1]
    rfl

end

/-! ## Link comments -/

end Forest

/-- Whether a node is a comment that names a map. -/
def NodeData.isLink : NodeData → Bool
  | .comment text => startsWith text "# sourceMappingURL="
  | _ => false

namespace Forest

section
variable {f : Forest} {root id : NodeId} {input : InputId} {i : Input} {a : Parsed}
  {ts : List (Tree Parsed)}

theorem namesMap_eq (f : Forest) (id : NodeId) : f.namesMap id = (f.data id).isLink := by
  unfold namesMap NodeData.isLink
  cases f.data id <;> rfl

/-- A numbered tree is one of the trees with numbers. -/
theorem map_snd_mem {α : Type} {n : Nat} {ts : List (Tree α)} {u : Tree (Nat × α)}
    (h : u ∈ numberedAll n ts) : u.map Prod.snd ∈ ts := by
  have hmem : u.map Prod.snd ∈ mapAll Prod.snd (numberedAll n ts) := by
    rw [mapAll_eq]
    exact List.mem_map_of_mem h
  rwa [mapAll_snd_numberedAll] at hmem

/-- Without link comments at the top, the children of the root name no map. -/
theorem Keeps.namesMap_eq_false (h : f.Keeps root input i a ts) (hid : id ∈ f.children root)
    (hts : ∀ t ∈ ts, t.label.data.isLink = false) : f.namesMap id = false := by
  rw [h.children_eq] at hid
  obtain ⟨u, hu, rfl⟩ := List.mem_map.1 hid
  have := hts _ (map_snd_mem hu)
  rw [label_map] at this
  rwa [namesMap_eq, h.data (label_mem_preorderAll hu)]

/-- A text without the opening of a link comment has no comment that names a map. -/
theorem Reads.isLink_eq_false (h : f.Reads root input i a ts)
    (hl : MapLink.lastOpening? i.text.toList = none) {b : NodeId × Parsed}
    (hb : b ∈ preorderAll (numberedAll (root + 1) ts)) : b.2.data.isLink = false := by
  unfold NodeData.isLink
  split
  · next text hdata =>
    rw [← Bool.not_eq_true]
    intro hs
    obtain ⟨before, x, behind, hx, hn, -, -⟩ := h.keeps.hasFirst hb
    have hmem : x ∈ body root a ts := by
      rw [hx]
      simp
    obtain ⟨hfits, htext⟩ := h.fits (show _ = before ++ x :: (behind ++
      Piece.gap (a.wording.slot "after")) by rw [h.keeps.pieces, hx]; simp)
    have hkind : b.2.data.kind = .comment := by rw [hdata]; rfl
    have hleaf : x.text = (readWording b).leaf false :=
      text_of_isCommentAll hn hkind _ h.keeps.formattedAll hmem
    have hshape : (readWording b).leaf false = "/*" ++ (readWording b).slot "left" ++ text ++
        (readWording b).slot "right" ++ "*/" := by
      simp [Wording.leaf, Parsed.wording, hdata]
    have hopening := MapLink.opening?_comment
      ((hfits b.2 (by simp [Piece.map, hn])).left hkind) hs
      (((readWording b).slot "right" ++ "*/").toList ++
        Piece.chars (behind ++ Piece.gap (a.wording.slot "after")))
    have := MapLink.lastOpening?_append (Piece.chars before) hopening
    rw [htext, hleaf, hshape] at hl
    simp only [Function.comp_apply, String.toList_append, List.append_assoc] at hl this
    rw [hl] at this
    cases this
  · rfl

theorem Reads.isLink_top (h : f.Reads root input i a ts)
    (hl : MapLink.lastOpening? i.text.toList = none) : ∀ t ∈ ts, t.label.data.isLink = false := by
  intro t ht
  rw [← mapAll_snd_numberedAll (root + 1) ts, mapAll_eq] at ht
  obtain ⟨u, hu, rfl⟩ := List.mem_map.1 ht
  rw [label_map]
  exact h.isLink_eq_false hl (label_mem_preorderAll hu)

end

/-- **A text that opens no link comment** is read as a tree without comments that name a map. -/
theorem namesMap_parse {f g : Forest} {files : Files} {text : String} {file : Option String}
    {setting : MapSetting} {root : NodeId} (h : f.parse files text file setting = .ok (root, g))
    (hl : MapLink.lastOpening? (Input.dropBom text).1.toList = none) :
    ∀ id ∈ g.children root, g.namesMap id = false := by
  obtain ⟨i, a, ts, hmake, -, -, -, hreads⟩ := parse_spec h
  rw [← (Input.make_ok hmake).1] at hl
  exact fun id hid => hreads.keeps.namesMap_eq_false hid (hreads.isLink_top hl)

/-! ## The output -/

/-- Nothing is removed from a tree without comments that name a map. -/
theorem clearLinks_eq {f : Forest} {root : NodeId}
    (h : ∀ id ∈ f.children root, f.namesMap id = false) : f.clearLinks root = f := by
  unfold clearLinks
  generalize (List.range (f.children root).length).reverse = indices
  induction indices with
  | nil => rfl
  | cons index indices ih =>
    have hno : ((f.children root)[index]?).any f.namesMap = false := by
      cases hc : (f.children root)[index]? with
      | none => rfl
      | some id => exact h id (List.mem_of_getElem? hc)
    rw [List.foldl_cons, if_neg (by simp [hno])]
    exact ih

/-- **The map of a text that was read and not changed.** `namesMap_parse` tells of which texts
`hlink` holds. -/
theorem output_parse {f g : Forest} {files : Files} {text : String} {file : Option String}
    {setting : MapSetting} {root : NodeId} {o : RunOptions} {options : MapOptions}
    (h : f.parse files text file setting = .ok (root, g))
    (hprevious : PreviousMap.discover files (Input.dropBom text).1 file setting = .ok none)
    (hlink : ∀ id ∈ g.children root, g.namesMap id = false)
    (hhack : ∀ id ∈ g.descendants root,
      g.startsWithHack (Input.dropBom text).1.toList id = false)
    (hown : ∀ id ∈ g.descendants root, g.kind id = .rule →
      (g.raws id).contains "ownSemicolon" = false)
    (ho : o.map = .enabled options) (hskip : options.unmapped = .skip)
    (hext : (MapPlan.make g root o).isInline = false) :
    ∃ m, (g.output root o).1.map = some m ∧
      (g.output root o).1.css = (Input.dropBom text).1 ++
        (if (MapPlan.make g root o).hasLink
          then (MapPlan.make g root o).comment (Input.dropBom text).1 m else "") ∧
      (∀ t ∈ m.tokens, t.dstLine = t.srcLine ∧ t.dstCol = t.srcCol) ∧
      ∀ id ∈ g.descendants root, g.Marks root m id := by
  obtain ⟨i, a, ts, hmake, -, -, -, hreads⟩ := parse_spec h
  obtain ⟨htext, hmap⟩ := Input.make_ok hmake
  rw [← htext] at hprevious hhack ⊢
  rw [hprevious, Except.ok.injEq, eq_comm] at hmap
  have hclear : (if (MapPlan.make g root o).options.link = .disabled then g
      else g.clearLinks root) = g := by
    rw [clearLinks_eq hlink, ite_self]
  have hplan : (MapPlan.make g root o).options.unmapped = .skip := by
    simp [MapPlan.make, ho, MapSetting.options?, hskip]
  have hhas : (MapPlan.make g root o).hasMap = true := by
    simp [MapPlan.make, MapPlan.hasMap, ho]
  obtain ⟨hcss, htokens, hmarks⟩ := hreads.printMapped hmap hhack hown hplan
  unfold output
  simp only [hclear, hhas, hext, Bool.not_true, Bool.false_eq_true, if_false, hcss]
  refine ⟨_, rfl, ?_, htokens, hmarks⟩
  split
  · rfl
  · rw [String.append_empty]

theorem output_parse_comment : ∃ root g m,
    Forest.empty.parse .empty "\ufeffa \x7b é : b\n\x7d/*c*/" none .auto = .ok (root, g) ∧
    g.descendants root = [1, 2, 3] ∧
    (g.output root { map := .enabled { inline := some false } }).1.map = some m ∧
    (∀ t ∈ m.tokens, t.dstLine = t.srcLine ∧ t.dstCol = t.srcCol) ∧
    ∀ id ∈ [1, 2, 3], g.Marks root m id := by
  obtain ⟨root, g, h, hids, hlink, hhack, hown, hext⟩ : ∃ root g,
      Forest.empty.parse .empty "\ufeffa \x7b é : b\n\x7d/*c*/" none .auto = .ok (root, g) ∧
      g.descendants root = [1, 2, 3] ∧ (∀ id ∈ g.children root, g.namesMap id = false) ∧
      (∀ id ∈ g.descendants root, g.startsWithHack "a \x7b é : b\n\x7d/*c*/".toList id = false) ∧
      (∀ id ∈ g.descendants root, g.kind id = .rule →
        (g.raws id).contains "ownSemicolon" = false) ∧
      (MapPlan.make g root { map := .enabled { inline := some false } }).isInline = false := by
    decide +kernel
  obtain ⟨m, hm, -, htokens, hmarks⟩ := output_parse h rfl hlink hhack hown
    (o := { map := .enabled { inline := some false } }) rfl rfl hext
  exact ⟨root, g, m, h, hids, hm, htokens, fun id hid => hmarks id (hids ▸ hid)⟩

end Forest

end Stylesheet
