import Stylesheet.Proofs.Parse.Ranges
import Stylesheet.Proofs.RoundTrip

/-!
# The ranges of the nodes of a text

`Forest.rangesFit_parse`: what stands in a text from the start of a node to its stop is what the node
is printed as, up to the mark of a hack before it, a semicolon behind it, and blanks at the end of
an at-rule that the brace of the block around it closes. The ranges of the children of a node lie
inside its own, one behind the other. Only an at-rule without a block and without a semicolon may
have no stop.
-/

set_option autoImplicit false

namespace Stylesheet

open Stylesheet.Text Stylesheet.Tree

/-! ## Ranges -/

/-- The one range lies inside the other, as far as it is known. -/
def Source.Encloses (outer inner : Source) : Prop :=
  ∃ p q, outer.start = some p ∧ outer.stop = some q ∧
    (∀ p', inner.start = some p' → p.offset ≤ p'.offset) ∧
    ∀ q', inner.stop = some q' → q'.offset ≤ q.offset

/-- The one range ends before the other one starts. -/
def Source.EndsBefore (a b : Source) : Prop :=
  ∀ q p, a.stop = some q → b.start = some p → q.offset ≤ p.offset

namespace Forest

/-- Whether a node is an at-rule without a block. -/
def isBareAtRule (f : Forest) (id : NodeId) : Bool :=
  f.kind id = .atRule && !(f.node id).hasBlock

/-- The characters `part` of a text, before the characters `behind`, are what the node is printed
as, up to its ends. -/
def WrittenAs (f : Forest) (id : NodeId) (part behind : List Char) : Prop :=
  ∃ hack semicolon blanks, hack ++ (f.css id).toList ++ semicolon = part ++ blanks ∧
    (hack = [] ∨ f.kind id = .declaration ∧ ∃ c, (c = '*' ∨ c = '_') ∧ hack = [c] ∧
      ∃ before, f.rawText? id "before" = some before ∧ before.toList.getLast? = some c) ∧
    (semicolon = [] ∨ semicolon = [';'] ∧ (f.kind id = .declaration ∨ f.isBareAtRule id)) ∧
    (blanks = [] ∨ f.isBareAtRule id ∧ semicolon = [] ∧
      (∀ c ∈ blanks, Lexer.isSpace c = true) ∧ ∃ rest, behind = blanks ++ '}' :: rest)

/-- The nodes below a root stand in a text where they say they do. -/
structure RangesFit (f : Forest) (root : NodeId) (css : List Char) : Prop where
  written : ∀ id ∈ f.descendants root, ∀ p q, (f.source id).start = some p →
    (f.source id).stop = some q → ∃ before part behind, css = before ++ part ++ behind ∧
      byteSize before = p.offset ∧ byteSize (before ++ part) = q.offset ∧
      f.WrittenAs id part behind
  nested : ∀ id ∈ root :: f.descendants root, ∀ child ∈ f.children id,
    (f.source id).Encloses (f.source child)
  ordered : ∀ id ∈ root :: f.descendants root,
    (f.children id).Pairwise fun a b => (f.source a).EndsBefore (f.source b)
  starts : ∀ id ∈ f.descendants root, (f.source id).start.isSome
  /-- Only what a brace or the end of the text closes may have no stop. -/
  stops : ∀ id ∈ f.descendants root, (f.source id).stop = none → f.isBareAtRule id ∧
    ∃ p before rest, (f.source id).start = some p ∧ p.offset = byteSize before ∧
      css = before ++ (f.css id).toList ++ rest ∧ (rest = [] ∨ rest.head? = some '}')

end Forest

/-! ## The printed text of a node -/

theorem eq_of_byteSize_eq {as bs cs ds : List Char} (h : as ++ bs = cs ++ ds)
    (hs : byteSize as = byteSize cs) : as = cs ∧ bs = ds := by
  have hnil : ∀ {xs : List Char}, byteSize xs = 0 → xs = [] := by
    intro xs hx
    cases xs with
    | nil => rfl
    | cons x xs =>
      have := x.utf8Size_pos
      rw [byteSize_cons] at hx
      omega
  rcases List.append_eq_append_iff.1 h with ⟨es, rfl, rfl⟩ | ⟨es, rfl, rfl⟩
  · rw [byteSize_append] at hs
    rw [hnil (by omega : byteSize es = 0)]
    simp
  · rw [byteSize_append] at hs
    rw [hnil (by omega : byteSize es = 0)]
    simp

namespace Tree

variable {α : Type}

mutual

theorem size_subtrees_le {u : Tree α} : {t : Tree α} → u ∈ t.subtrees → u.size ≤ t.size
  | .leaf a, h => by
    rw [subtrees, List.mem_singleton] at h
    exact h ▸ Nat.le_refl _
  | .block a ts, h => by
    rw [subtrees, List.mem_cons] at h
    rcases h with rfl | h
    · exact Nat.le_refl _
    · rw [size_block]
      exact Nat.le_succ_of_le (size_subtreesAll_le h)

theorem size_subtreesAll_le {u : Tree α} : {ts : List (Tree α)} → u ∈ subtreesAll ts →
    u.size ≤ sizeAll ts
  | [], h => by cases h
  | t :: ts, h => by
    rw [subtreesAll, List.mem_append] at h
    rw [sizeAll_cons]
    rcases h with h | h
    · have := size_subtrees_le h
      omega
    · have := size_subtreesAll_le h
      omega

end

/-- A semicolon is all that a statement without a block can get behind it. -/
theorem chars_pieces {t : Tree Parsed} (hf : t.Formatted Parsed.wording) (s v : Bool) :
    ∃ semicolon, Piece.chars (t.pieces Parsed.wording s v) =
        Piece.chars (t.pieces Parsed.wording false false) ++ semicolon ∧
      (semicolon = [] ∧ (s = false ∨ t.hasBlock = true ∨ t.label.data.kind = .comment) ∨
        semicolon = [';'] ∧ t.hasBlock = false ∧ t.label.data.kind ≠ .comment) := by
  cases t with
  | block n ts =>
    refine ⟨[], ?_, .inl ⟨rfl, .inr (.inl rfl)⟩⟩
    rw [pieces_of_blockFormatted hf.1, pieces_of_blockFormatted hf.1, List.append_nil]
  | leaf n =>
    have htext : ∀ s v, Piece.chars ((Tree.leaf n).pieces Parsed.wording s v) =
        (n.wording.leaf s).toList := fun s v => by simp [pieces]
    rw [htext, htext]
    by_cases hc : n.data.kind = .comment
    · refine ⟨[], ?_, .inl ⟨rfl, .inr (.inr hc)⟩⟩
      have := pieces_of_isComment hf (decide_eq_true hc) s v false false
      rw [List.append_nil, ← htext s v, this, htext]
    · cases s with
      | false => exact ⟨[], by simp, .inl ⟨rfl, .inl rfl⟩⟩
      | true => exact ⟨[';'], Parser.leaf_true hc, .inr ⟨rfl, rfl, hc⟩⟩

end Tree

namespace Forest

section
variable {f : Forest}

mutual

theorem Hangs.subtrees {u : Tree (NodeId × Element)} : {parent : Option NodeId} →
    {t : Tree (NodeId × Element)} → f.Hangs parent t → u ∈ t.subtrees → ∃ p, f.Hangs p u
  | parent, .leaf a, h, hu => by
    rw [Tree.subtrees, List.mem_singleton] at hu
    exact ⟨parent, hu ▸ h⟩
  | parent, .block a ts, h, hu => by
    rw [Tree.subtrees, List.mem_cons] at hu
    rcases hu with rfl | hu
    · exact ⟨parent, h⟩
    · exact HangsAll.subtrees h.2 hu

theorem HangsAll.subtrees {u : Tree (NodeId × Element)} : {parent : NodeId} →
    {ts : List (Tree (NodeId × Element))} → f.HangsAll parent ts → u ∈ subtreesAll ts →
    ∃ p, f.Hangs p u
  | _, [], _, hu => by cases hu
  | _, t :: ts, h, hu => by
    rw [subtreesAll, List.mem_append] at hu
    rcases hu with hu | hu
    · exact h.1.subtrees hu
    · exact h.2.subtrees hu

end

/-- A node with all its formatting is printed as its pieces. -/
theorem Hangs.css {parent : Option NodeId} {u : Tree (NodeId × Element)} (h : f.Hangs parent u)
    (hf : u.Formatted numberedWording) (hs : u.size ≤ f.size) :
    (f.css u.label.1).toList = Piece.chars (u.pieces numberedWording false false) := by
  rw [Forest.css, Forest.print, outline_of_hangs h hs, writes_tree u h hf false false,
    Fragment.toList_concat_map]

end

/-! ## The nodes of a tree that was read -/

section
variable {f : Forest} {root : NodeId} {input : InputId} {i : Input} {a : Parsed}
  {ts : List (Tree Parsed)} {u : Tree (NodeId × Parsed)}

theorem Keeps.subtree (h : f.Keeps root input i a ts)
    (hu : u ∈ subtreesAll (numberedAll (root + 1) ts)) :
    ∃ p, f.Hangs p (u.map (Prod.map id (i.element input))) := by
  refine h.hangs.2.subtrees ?_
  rw [subtreesAll_map]
  exact List.mem_map_of_mem hu

/-- The tree of a node, as the parser made it. -/
theorem snd_mem_subtrees (hu : u ∈ subtreesAll (numberedAll (root + 1) ts)) :
    u.map Prod.snd ∈ subtreesAll ts := by
  have := List.mem_map_of_mem (f := Tree.map Prod.snd) hu
  rwa [← subtreesAll_map, mapAll_snd_numberedAll] at this

theorem Keeps.css_subtree (h : f.Keeps root input i a ts)
    (hu : u ∈ subtreesAll (numberedAll (root + 1) ts)) :
    (f.css u.label.1).toList =
      Piece.chars ((u.map Prod.snd).pieces Parsed.wording false false) := by
  obtain ⟨p, hp⟩ := h.subtree hu
  have hmem : u.map (Prod.map id (i.element input)) ∈ subtreesAll
      (mapAll (Prod.map id (i.element input)) (numberedAll (root + 1) ts)) := by
    rw [subtreesAll_map]
    exact List.mem_map_of_mem hu
  have hsize := Nat.le_trans (size_subtreesAll_le hmem)
    (Nat.le_of_succ_le h.size_numbered_le)
  have hcss := hp.css (h.formattedAll_elements.subtrees hmem) hsize
  rw [label_map, pieces_map, Piece.chars_map] at hcss
  rw [pieces_map, Piece.chars_map]
  exact hcss

/-- The node of the forest at the top of a tree that was read from the text. -/
structure Reads.Top (f : Forest) (i : Input) (id : NodeId) (t : Tree Parsed) : Prop where
  start : (f.source id).start = some (i.position t.label.start)
  stop : (f.source id).stop = t.label.last.map i.endPosition
  kind : f.kind id = t.label.data.kind
  hasBlock : (f.node id).hasBlock = t.hasBlock
  before : f.rawText? id "before" = t.label.raws.text? "before"
  css : (f.css id).toList = Piece.chars (t.pieces Parsed.wording false false)
  formatted : t.Formatted Parsed.wording
  placed : ∃ before behind s v, Placed before (t.pieces Parsed.wording s v) ∧
    i.text.toList = before ++ Piece.chars (t.pieces Parsed.wording s v) ++ behind
  closed : ∀ n, t = .leaf n → n.data.kind = .atRule → n.ClosedIn i.text.toList

theorem Reads.top (h : f.Reads root input i a ts)
    (hu : u ∈ subtreesAll (numberedAll (root + 1) ts)) :
    Reads.Top f i u.label.1 (u.map Prod.snd) := by
  have hk := h.keeps
  have hlabel : u.label ∈ preorderAll (numberedAll (root + 1) ts) := by
    rw [← map_label_subtreesAll]
    exact List.mem_map_of_mem hu
  have helement := hk.element hlabel
  have hsource := congrArg Element.source helement
  have hdata : f.data u.label.1 = u.label.2.data := congrArg Element.data helement
  have hraws : f.raws u.label.1 = u.label.2.raws := congrArg Element.raws helement
  have hmem := snd_mem_subtrees hu
  obtain ⟨⟨rest, htext⟩, hplaced⟩ := h.body_spec
  refine ⟨?_, ?_, ?_, ?_, ?_, hk.css_subtree hu, h.formatted.children.subtrees hmem, ?_, ?_⟩
  · rw [label_map]
    exact congrArg Source.start hsource
  · rw [label_map]
    exact congrArg Source.stop hsource
  · rw [label_map]
    exact congrArg NodeData.kind hdata
  · obtain ⟨p, hp⟩ := hk.subtree hu
    cases u with
    | leaf b => exact Sits.hasBlock hp
    | block b us => exact hp.1.hasBlock
  · rw [rawText?, hraws, label_map]
  · obtain ⟨before, behind, s, v, hp, hchars⟩ :=
      exists_placedAll h.formatted.children hplaced hmem
    rw [List.nil_append] at hp
    refine ⟨before, behind ++ rest, s, v, hp, ?_⟩
    rw [htext, Parsed.body, hchars]
    simp
  · intro n hn hat
    rw [hn] at hmem
    exact Parser.closedIn_parse h.parsed n (mem_leavesAll_of_subtrees hmem) hat

end

/-! ## What stands in the range of a node -/

namespace Reads.Top

variable {f : Forest} {i : Input} {id : NodeId} {t : Tree Parsed} {before behind : List Char}
  {s v : Bool}

/-- What follows an at-rule without a block that a semicolon does not end. -/
theorem closed_of_bare (h : Reads.Top f i id t)
    (hp : Placed before (t.pieces Parsed.wording s v))
    (ht : i.text.toList = before ++ Piece.chars (t.pieces Parsed.wording s v) ++ behind)
    (hk : t.label.data.kind = .atRule) (hb : t.hasBlock = false) :
    byteSize before = t.label.start ∧
    ∃ rest, i.text.toList = before ++ (f.css id).toList ++ rest ∧
      (rest.head? = some ';' ∧
          t.label.last = some (byteSize (before ++ (f.css id).toList)) ∨
        rest.head? = some '}' ∨
        (t.label.last = none → rest = []) ∧ ∀ last, t.label.last = some last → ∃ front c,
          before ++ (f.css id).toList = front ++ [c] ∧ last = byteSize front) := by
  cases t with
  | block n ts => cases hb
  | leaf n =>
    have hcss : (f.css id).toList = (n.wording.leaf false).toList := by
      rw [h.css]
      simp [pieces]
    obtain ⟨before', rest, htext, hstart, hclosed⟩ := h.closed n rfl hk
    have hstart' : n.start = byteSize before := by
      rcases (occupies h.formatted hp).starts with ⟨hs, -⟩ | ⟨hd, -⟩
      · exact hs
      · exact absurd (hk.symm.trans hd) (by decide)
    have hsplit : before' ++ ((n.wording.leaf false).toList ++ rest) =
        before ++ (Piece.chars ((Tree.leaf n).pieces Parsed.wording s v) ++ behind) := by
      rw [← List.append_assoc, ← htext, ht, List.append_assoc]
    obtain ⟨rfl, -⟩ := eq_of_byteSize_eq hsplit (hstart.symm.trans hstart')
    rw [← hcss] at htext hclosed
    exact ⟨hstart.symm, rest, htext, hclosed⟩

/-- An at-rule that stops before the blanks at its end is closed by a brace. -/
theorem closed_of_blanks (h : Reads.Top f i id t)
    (hp : Placed before (t.pieces Parsed.wording s v))
    (ht : i.text.toList = before ++ Piece.chars (t.pieces Parsed.wording s v) ++ behind)
    {kept blanks : List Char} {last : Nat}
    (hkept : Piece.chars (t.pieces Parsed.wording s v) = kept ++ blanks)
    (hblank : ∀ c ∈ blanks, Lexer.isSpace c = true) (hne : blanks ≠ [])
    (hk : t.label.data.kind = .atRule) (hlast : t.label.last = some last)
    (hends : ∃ front c, before ++ kept = front ++ [c] ∧ last = byteSize front) :
    t.hasBlock = false ∧ (f.css id).toList = kept ++ blanks ∧ behind.head? = some '}' := by
  obtain ⟨front, c, hfront, rfl⟩ := hends
  -- the stop is not behind the blanks
  have hstops : ∀ front' c', before ++ (kept ++ blanks) = front' ++ [c'] →
      byteSize front ≠ byteSize front' := by
    intro front' c' hfront' hsize
    rw [← List.append_assoc, hfront, List.append_assoc] at hfront'
    obtain ⟨-, hblanks⟩ := eq_of_byteSize_eq hfront' hsize
    rw [List.singleton_append, List.cons.injEq] at hblanks
    exact hne hblanks.2
  have hb : t.hasBlock = false := by
    cases t with
    | leaf n => rfl
    | block n ts =>
      obtain ⟨-, front', c', hfront', -, hlast'⟩ := occupies_block h.formatted hp
      rw [hkept] at hfront'
      have hlast'' : some (byteSize front) = some (byteSize front') := hlast.symm.trans hlast'
      exact absurd (Option.some.inj hlast'') (hstops _ _ hfront')
  obtain ⟨semicolon, hsemicolon, hcases⟩ := chars_pieces h.formatted s v
  have hnil : semicolon = [] := by
    rcases hcases with ⟨hnil, -⟩ | ⟨hsemi, -, -⟩
    · exact hnil
    · rw [hkept, hsemi] at hsemicolon
      have hlast := congrArg List.getLast? hsemicolon
      rw [List.getLast?_append, List.getLast?_append,
        List.getLast?_eq_some_getLast hne] at hlast
      have hspace := hblank _ (List.getLast_mem hne)
      rw [Option.some.inj hlast] at hspace
      exact absurd hspace (by decide)
  rw [hnil, List.append_nil, ← h.css, hkept] at hsemicolon
  refine ⟨hb, hsemicolon.symm, ?_⟩
  obtain ⟨-, rest, htext, hclosed⟩ := h.closed_of_bare hp ht hk hb
  rw [← hsemicolon] at htext hclosed
  rw [ht, hkept, List.append_cancel_left_eq] at htext
  rw [htext]
  rcases hclosed with ⟨-, hsemi⟩ | hbrace | ⟨-, hend⟩
  · rw [hlast, Option.some.injEq, ← List.append_assoc, hfront] at hsemi
    simp at hsemi
    have := c.utf8Size_pos
    omega
  · exact hbrace
  · obtain ⟨front', c', hfront', hsize⟩ := hend _ hlast
    exact absurd hsize (hstops _ _ hfront')

theorem offset_stop (h : Reads.Top f i id t) {q : Position} (hq : (f.source id).stop = some q) :
    t.label.stop? i.text.toList = some q.offset := by
  rw [h.stop] at hq
  obtain ⟨last, hl, rfl⟩ := Option.map_eq_some_iff.1 hq
  rw [Parsed.stop?, hl]
  rfl

/-- What stands before a node that starts with a hack, and the mark of the hack. -/
theorem exists_hack (h : Reads.Top f i id t)
    (hp : Placed before (t.pieces Parsed.wording s v)) :
    ∃ front hack, before = front ++ hack ∧ t.label.start = byteSize front ∧
      (hack = [] ∨ f.kind id = .declaration ∧ ∃ c, (c = '*' ∨ c = '_') ∧ hack = [c] ∧
        ∃ b, f.rawText? id "before" = some b ∧ b.toList.getLast? = some c) := by
  rcases (occupies h.formatted hp).starts with ⟨hs, -⟩ | ⟨hd, front, c, hb, hc, hs, hslot⟩
  · exact ⟨before, [], (List.append_nil _).symm, hs, .inl rfl⟩
  · refine ⟨front, [c], hb, hs, .inr ⟨h.kind.trans hd, c, hc, rfl, ?_⟩⟩
    rw [h.before]
    cases hraw : t.label.raws.text? "before" with
    | none =>
      rw [Wording.slot, show t.label.wording.raws = t.label.raws from rfl, hraw] at hslot
      cases hslot
    | some b =>
      rw [Wording.slot, show t.label.wording.raws = t.label.raws from rfl, hraw] at hslot
      exact ⟨b, rfl, hslot⟩

theorem offset_start (h : Reads.Top f i id t) {p : Position}
    (hp : (f.source id).start = some p) : p.offset = t.label.start := by
  obtain ⟨before, behind, s, v, hplaced, htext⟩ := h.placed
  obtain ⟨front, hack, rfl, hstart, -⟩ := h.exists_hack hplaced
  rw [h.start, Option.some.injEq] at hp
  rw [List.append_assoc, List.append_assoc] at htext
  rw [← hp, hstart, Input.position, htext]
  exact (Position.ofOffset_append front _).2

/-- **What stands in the range of a node** is what the node is printed as, up to its ends. -/
theorem writtenAs (h : Reads.Top f i id t) {p q : Position}
    (hp : (f.source id).start = some p) (hq : (f.source id).stop = some q) :
    ∃ before part behind, i.text.toList = before ++ part ++ behind ∧
      byteSize before = p.offset ∧ byteSize (before ++ part) = q.offset ∧
      f.WrittenAs id part behind := by
  obtain ⟨before, behind, s, v, hplaced, htext⟩ := h.placed
  obtain ⟨front, hack, rfl, hstart, hhack⟩ := h.exists_hack hplaced
  obtain ⟨kept, blanks, hkept, hblank, hkind, hlast⟩ := (occupies h.formatted hplaced).stops
  obtain ⟨semicolon, hsemicolon, hcases⟩ := chars_pieces h.formatted s v
  have hstops : ∃ last, t.label.last = some last := by
    rw [h.stop] at hq
    obtain ⟨last, hl, -⟩ := Option.map_eq_some_iff.1 hq
    exact ⟨last, hl⟩
  obtain ⟨last, hl⟩ := hstops
  have hqo : byteSize (front ++ (hack ++ kept)) = q.offset := by
    obtain ⟨before, c, hfront, rfl⟩ := hlast last hl
    have hstop := h.offset_stop hq
    have hsplit : i.text.toList = before ++ c :: (blanks ++ behind) := by
      rw [htext, hkept, ← List.append_assoc, hfront]
      simp
    rw [Parsed.stop?, hl, hsplit, Option.map_some, Position.offset_ofLast_append,
      Option.some.injEq] at hstop
    rw [← hstop, ← hfront, List.append_assoc]
  refine ⟨front, hack ++ kept, blanks ++ behind, ?_, ((h.offset_start hp).trans hstart).symm, hqo,
    hack, semicolon, blanks, ?_, hhack, ?_, ?_⟩
  · rw [htext, hkept]
    simp
  · rw [h.css, List.append_assoc, ← hsemicolon, hkept, List.append_assoc]
  · rcases hcases with ⟨hnil, -⟩ | ⟨hsemi, hb, hk⟩
    · exact .inl hnil
    · refine .inr ⟨hsemi, ?_⟩
      cases t with
      | block n ts => cases hb
      | leaf n =>
        rw [isBareAtRule, h.hasBlock, h.kind]
        have hf : n.wording.LeafFormatted := h.formatted
        cases hd : n.data with
        | declaration => exact .inl (by simp [label, hd, NodeData.kind])
        | atRule => exact .inr (by simp [label, hd, NodeData.kind, Tree.hasBlock])
        | comment => exact absurd (by simp [label, hd, NodeData.kind]) hk
        | root => simp [Wording.LeafFormatted, Parsed.wording, hd] at hf
        | rule => simp [Wording.LeafFormatted, Parsed.wording, hd] at hf
  · by_cases hne : blanks = []
    · exact .inl hne
    · have hat : t.label.data.kind = .atRule := hkind.resolve_left fun hnil => hne hnil.1
      obtain ⟨hb, hcss, hbrace⟩ := h.closed_of_blanks hplaced htext hkept hblank hne hat hl
        (hlast last hl)
      refine .inr ⟨?_, ?_, hblank, ?_⟩
      · simp [isBareAtRule, h.kind, hat, h.hasBlock, hb]
      · rw [hkept, ← h.css, hcss] at hsemicolon
        exact List.append_right_eq_self.1 hsemicolon.symm
      · obtain ⟨rest, rfl⟩ : ∃ rest, behind = '}' :: rest := by
          cases behind with
          | nil => cases hbrace
          | cons c rest => exact ⟨rest, by rw [Option.some.inj hbrace]⟩
        exact ⟨rest, rfl⟩

/-- **A node without a stop** is an at-rule that a brace or the end of the text closes. -/
theorem closed_of_stop_eq_none (h : Reads.Top f i id t) (hq : (f.source id).stop = none) :
    f.isBareAtRule id = true ∧ ∃ p before rest, (f.source id).start = some p ∧
      p.offset = byteSize before ∧ i.text.toList = before ++ (f.css id).toList ++ rest ∧
      (rest = [] ∨ rest.head? = some '}') := by
  have hlast : t.label.last = none := by
    rw [h.stop] at hq
    exact Option.map_eq_none_iff.1 hq
  obtain ⟨before, behind, s, v, hplaced, htext⟩ := h.placed
  obtain ⟨_, _, -, -, hkind, -⟩ := (occupies h.formatted hplaced).stops
  have hat : t.label.data.kind = .atRule := hkind.resolve_left fun hne => hne.2 hlast
  have hb : t.hasBlock = false := by
    cases t with
    | leaf n => rfl
    | block n ts =>
      obtain ⟨-, front, c, -, -, hl⟩ := occupies_block h.formatted hplaced
      exact absurd (hlast.symm.trans hl) (by simp)
  obtain ⟨hstart, rest, hrest, hclosed⟩ := h.closed_of_bare hplaced htext hat hb
  refine ⟨by simp [isBareAtRule, h.kind, hat, h.hasBlock, hb], _, before, rest, h.start, ?_, hrest,
    ?_⟩
  · exact (h.offset_start h.start).trans hstart.symm
  · rcases hclosed with ⟨-, hsemi⟩ | hbrace | ⟨hnone, -⟩
    · rw [hlast] at hsemi
      cases hsemi
    · exact .inr hbrace
    · exact .inl (hnone hlast)

end Reads.Top

/-! ## The ranges of siblings -/

section
variable {f : Forest} {i : Input} {us : List (Tree (NodeId × Parsed))} {done rest : List Char}
  {s v : Bool}

/-- The ranges of the nodes at the top of trees that are printed behind one another. -/
theorem ranges_tops {ws : List (Tree Parsed)} (hus : mapAll Prod.snd us = ws)
    (htop : ∀ u ∈ us, Reads.Top f i u.label.1 (u.map Prod.snd))
    (hf : FormattedAll Parsed.wording ws) (hp : Placed done (piecesAll Parsed.wording s v ws))
    (ht : i.text.toList = done ++ Piece.chars (piecesAll Parsed.wording s v ws) ++ rest) :
    (∀ id ∈ us.map (·.label.1),
      (∀ p, (f.source id).start = some p → byteSize done ≤ p.offset) ∧
      ∀ q, (f.source id).stop = some q →
        q.offset ≤ byteSize (done ++ Piece.chars (piecesAll Parsed.wording s v ws))) ∧
    (us.map (·.label.1)).Pairwise fun a b => (f.source a).EndsBefore (f.source b) := by
  subst hus
  obtain ⟨hall, hpairs⟩ := ranges_all hf hp ht
  refine ⟨fun id hid => ?_, ?_⟩
  · obtain ⟨u, hu, rfl⟩ := List.mem_map.1 hid
    have hmem : u.map Prod.snd ∈ mapAll Prod.snd us := by
      rw [mapAll_eq]
      exact List.mem_map_of_mem hu
    obtain ⟨hstart, hstop⟩ := hall _ hmem
    refine ⟨fun p hp => ?_, fun q hq => hstop _ ((htop u hu).offset_stop hq)⟩
    rw [(htop u hu).offset_start hp]
    exact hstart
  · rw [mapAll_eq, List.pairwise_map] at hpairs
    refine List.pairwise_map.2 (hpairs.imp_of_mem fun {a b} ha hb hab q p hq hp => ?_)
    rw [(htop b hb).offset_start hp]
    exact hab _ ((htop a ha).offset_stop hq)

end

section
variable {f : Forest} {root : NodeId} {input : InputId} {i : Input} {a : Parsed}
  {ts : List (Tree Parsed)} {id : NodeId}

theorem Reads.exists_subtree (h : f.Reads root input i a ts) (hid : id ∈ f.descendants root) :
    ∃ u ∈ subtreesAll (numberedAll (root + 1) ts), u.label.1 = id := by
  rw [h.keeps.descendants, ← map_label_subtreesAll, List.map_map] at hid
  exact List.mem_map.1 hid

/-- The ranges of the children of the root. -/
theorem Reads.ranges_root (h : f.Reads root input i a ts) :
    (∀ child ∈ f.children root, (f.source root).Encloses (f.source child)) ∧
      (f.children root).Pairwise fun a b => (f.source a).EndsBefore (f.source b) := by
  have hsource : f.source root =
      ⟨some input, some (i.position a.start), some (i.position (byteSize i.text.toList))⟩ :=
    congrArg Element.source h.keeps.hangs.1.element
  obtain ⟨⟨rest, htext⟩, hplaced⟩ := h.body_spec
  have hfirst : (i.position a.start).offset = 0 := by
    rw [Parser.start_parse h.parsed]
    exact (Position.ofOffset_append [] i.text.toList).2
  have hlast : (i.position (byteSize i.text.toList)).offset = byteSize i.text.toList := by
    have := (Position.ofOffset_append i.text.toList []).2
    rwa [List.append_nil] at this
  obtain ⟨hall, hpairs⟩ := ranges_tops (mapAll_snd_numberedAll (root + 1) ts)
    (fun u hu => h.top (mem_subtreesAll hu)) h.formatted.children hplaced htext
  rw [h.keeps.children_eq]
  refine ⟨fun child hc => ?_, hpairs⟩
  obtain ⟨-, hstop⟩ := hall child hc
  rw [hsource]
  refine ⟨_, _, rfl, rfl, fun p _ => by rw [hfirst]; exact Nat.zero_le _, fun q hq => ?_⟩
  refine Nat.le_trans (hstop q hq) ?_
  rw [hlast, htext, List.nil_append, Parsed.body, byteSize_append]
  exact Nat.le_add_right _ _

/-- The ranges of the children of a node below the root. -/
theorem Reads.ranges_below (h : f.Reads root input i a ts) (hid : id ∈ f.descendants root) :
    (∀ child ∈ f.children id, (f.source id).Encloses (f.source child)) ∧
      (f.children id).Pairwise fun a b => (f.source a).EndsBefore (f.source b) := by
  obtain ⟨u, hu, rfl⟩ := h.exists_subtree hid
  obtain ⟨p, hhangs⟩ := h.keeps.subtree hu
  have htop := h.top hu
  cases u with
  | leaf b =>
    have hchildren : f.children b.1 = [] := Sits.nodes hhangs
    rw [label, hchildren]
    simp
  | block b us =>
    have hchildren : f.children b.1 = us.map (·.label.1) := by
      refine hhangs.1.nodes.trans ?_
      rw [mapAll_eq, Option.getD_some, List.map_map]
      exact List.map_congr_left fun t _ => by simp [label_map]
    have hmap : (Tree.block b us).map Prod.snd = .block b.2 (mapAll Prod.snd us) := rfl
    rw [hmap] at htop
    generalize hws : mapAll Prod.snd us = ws at htop
    have hpieces := pieces_of_blockFormatted htop.formatted.1 ws
    obtain ⟨before, behind, s, v, hplaced, htext⟩ := htop.placed
    obtain ⟨hstart, hend⟩ := occupies_block htop.formatted hplaced
    have hstop := hend.stop? behind
    rw [← htext] at hstop
    rw [hpieces] at hplaced htext hstop
    have hinner : i.text.toList = before ++ (opening Parsed.wording b.2).text.toList ++
        Piece.chars (piecesAll Parsed.wording b.2.wording.closed b.2.wording.closed ws) ++
          (Piece.chars (ending Parsed.wording b.2) ++ behind) := by
      rw [htext]
      simp
    obtain ⟨hall, hpairs⟩ := ranges_tops hws
      (fun w hw => h.top (subtreesAll_trans hu (List.mem_cons_of_mem _ (mem_subtreesAll hw))))
      htop.formatted.2.2 (placed_append.1 hplaced.2).1 hinner
    rw [label] at htop ⊢
    rw [hchildren]
    refine ⟨fun child hc => ?_, hpairs⟩
    obtain ⟨hstart', hstop'⟩ := hall child hc
    obtain ⟨last, hlast, hsize⟩ := Option.map_eq_some_iff.1 hstop
    refine ⟨_, i.endPosition last, htop.start, ?_, fun p hp => ?_, fun q hq => ?_⟩
    · rw [htop.stop, Tree.label, hlast]
      rfl
    · refine Nat.le_trans ?_ (hstart' p hp)
      rw [htop.offset_start htop.start, Tree.label, hstart, byteSize_append]
      exact Nat.le_add_right _ _
    · refine Nat.le_trans (hstop' q hq) ?_
      rw [Input.endPosition, hsize, Piece.chars_append, Piece.chars_cons]
      simp only [byteSize_append]
      omega

end

/-- **The nodes of a text that can be read stand where they say**, in the text without the byte
order mark before it. -/
theorem rangesFit_parse {f g : Forest} {files : Files} {text : String} {file : Option String}
    {setting : MapSetting} {root : NodeId} (h : f.parse files text file setting = .ok (root, g)) :
    g.RangesFit root (text.toList.drop (if text.toList.head?.any Input.isBom then 1 else 0)) := by
  obtain ⟨i, a, ts, hi, -, -, -, hreads⟩ := parse_spec h
  rw [← Input.dropBom_toList, ← (Input.make_ok hi).1]
  have hranges : ∀ id ∈ root :: g.descendants root,
      (∀ child ∈ g.children id, (g.source id).Encloses (g.source child)) ∧
        (g.children id).Pairwise fun a b => (g.source a).EndsBefore (g.source b) := by
    intro id hid
    rcases List.mem_cons.1 hid with rfl | hid
    · exact hreads.ranges_root
    · exact hreads.ranges_below hid
  refine ⟨fun id hid p q hp hq => ?_, fun id hid => (hranges id hid).1,
    fun id hid => (hranges id hid).2, fun id hid => ?_, fun id hid => ?_⟩
  · obtain ⟨u, hu, rfl⟩ := hreads.exists_subtree hid
    exact (hreads.top hu).writtenAs hp hq
  · obtain ⟨u, hu, rfl⟩ := hreads.exists_subtree hid
    rw [(hreads.top hu).start]
    rfl
  · obtain ⟨u, hu, rfl⟩ := hreads.exists_subtree hid
    exact (hreads.top hu).closed_of_stop_eq_none

theorem rangesFit_parse_mixed : ∃ root g,
    Forest.empty.parse .empty "@a b;c \x7b *dé:\"ü\"; @e f \x7d ; @g \x7b @h \x7d /*ö*/"
      (some "x.css") .auto = .ok (root, g) ∧
    g.RangesFit root "@a b;c \x7b *dé:\"ü\"; @e f \x7d ; @g \x7b @h \x7d /*ö*/".toList ∧
    (g.descendants root).map (fun id =>
      ((g.source id).start.map (·.offset), (g.source id).stop.map (·.offset))) =
      [(some 0, some 5), (some 5, some 28), (some 9, some 19), (some 20, some 24),
        (some 29, some 38), (some 34, none), (some 39, some 45)] := by
  obtain ⟨root, g, h, hranges⟩ : ∃ root g, Forest.empty.parse .empty
      "@a b;c \x7b *dé:\"ü\"; @e f \x7d ; @g \x7b @h \x7d /*ö*/" (some "x.css") .auto =
        .ok (root, g) ∧
      (g.descendants root).map (fun id =>
        ((g.source id).start.map (·.offset), (g.source id).stop.map (·.offset))) =
        [(some 0, some 5), (some 5, some 28), (some 9, some 19), (some 20, some 24),
          (some 29, some 38), (some 34, none), (some 39, some 45)] := by decide +kernel
  exact ⟨root, g, h, rangesFit_parse h, hranges⟩

end Forest

end Stylesheet
