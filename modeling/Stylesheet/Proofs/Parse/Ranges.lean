import Stylesheet.Proofs.Parse.Closing
import Stylesheet.Proofs.SourceMap.Places

/-!
# The ranges of parsed nodes

A node that was read starts at `Parsed.start` and stops behind the character `Parsed.last`. Printed
behind `done`, it `Occupies` what is printed of it (`Tree.occupies`), up to the mark of a hack before
it and the blanks at the end of an at-rule. `Tree.ranges_all`: the ranges of siblings lie behind one
another, inside what is printed of all of them. `Tree.exists_placed` finds what is printed of a node
anywhere below.
-/

set_option autoImplicit false

namespace Stylesheet

open Stylesheet.Text Stylesheet.Tree

/-! ## The range of a node -/

/-- The byte offset behind the last character of a node. -/
def Parsed.stop? (n : Parsed) (text : List Char) : Option Nat :=
  n.last.map fun last => (Position.ofLast text last).offset

/-- The node, printed as `text` behind `done`, starts and stops there. -/
structure Parsed.Occupies (n : Parsed) (done text : List Char) : Prop where
  starts : n.StartsBehind done text
  stops : n.Stops done text

namespace Parsed

variable {n : Parsed} {base done text rest : List Char} {stop : Nat}

/-- The mark of a hack stands behind `base`, in what is printed before the node. -/
theorem StartsBehind.le
    (h : n.StartsBehind (base ++ (n.wording.slot "before").toList) text) :
    byteSize base ≤ n.start := by
  rcases h with ⟨hstart, -⟩ | ⟨-, front, c, hdone, -, hstart, hslot⟩
  · rw [hstart, byteSize_append]
    exact Nat.le_add_right _ _
  · obtain ⟨slot, hslot⟩ := List.getLast?_eq_some_iff.1 hslot
    rw [hslot, ← List.append_assoc] at hdone
    obtain ⟨rfl, -⟩ := List.append_inj' hdone rfl
    rw [hstart, byteSize_append]
    exact Nat.le_add_right _ _

/-- What a node keeps of its text. -/
theorem Stops.stop? (h : n.Stops done text) (rest : List Char) :
    ∃ kept blanks, text = kept ++ blanks ∧ (∀ c ∈ blanks, Lexer.isSpace c = true) ∧
      (blanks = [] ∧ n.last ≠ none ∨ n.data.kind = .atRule) ∧
      ∀ stop, n.stop? (done ++ text ++ rest) = some stop → stop = byteSize (done ++ kept) := by
  obtain ⟨kept, blanks, rfl, hblanks, hkind, hlast⟩ := h
  refine ⟨kept, blanks, rfl, hblanks, hkind, fun stop hstop => ?_⟩
  obtain ⟨last, hl, rfl⟩ := Option.map_eq_some_iff.1 hstop
  obtain ⟨front, c, hfront, rfl⟩ := hlast last hl
  have htext : done ++ (kept ++ blanks) ++ rest = front ++ c :: (blanks ++ rest) := by
    rw [← List.append_assoc, hfront]
    simp
  rw [htext, Position.offset_ofLast_append, hfront]

/-- A node stops within what is printed of it. -/
theorem Stops.le (h : n.Stops done text) (hs : n.stop? (done ++ text ++ rest) = some stop) :
    stop ≤ byteSize (done ++ text) := by
  obtain ⟨kept, blanks, rfl, -, -, hstop⟩ := h.stop? rest
  rw [hstop stop hs, byteSize_append, byteSize_append, byteSize_append]
  omega

/-- A node whose end can be seen stops with what is printed of it. -/
theorem EndsWith.stop? (h : n.EndsWith done) (rest : List Char) :
    n.stop? (done ++ rest) = some (byteSize done) := by
  obtain ⟨front, c, rfl, -, hlast⟩ := h
  rw [Parsed.stop?, hlast, Option.map_some, List.append_assoc, List.singleton_append,
    Position.offset_ofLast_append]

end Parsed

/-! ## Placed trees -/

namespace Tree

variable {α β : Type}

/-- The last piece of a block is the end of its node. -/
theorem ending_eq_concat (w : α → Wording) (a : α) :
    ∃ front x, ending w a = front ++ [x] ∧ x.node = some a ∧ x.role = some .stop ∧
      x.visible = true ∧ ((w a).own ≠ "" → x.text = (w a).own) := by
  by_cases h : (w a).own = ""
  · exact ⟨_, _, by rw [ending, if_pos h], rfl, rfl, rfl, fun hne => absurd h hne⟩
  · exact ⟨Piece.gap ((w a).slot "after") ++ [⟨"\x7d", some a, some .stop, true⟩],
      ⟨(w a).own, some a, some .stop, true⟩, by rw [ending, if_neg h]; simp, rfl, rfl, rfl,
      fun _ => rfl⟩

section
variable {done rest : List Char} {t u : Tree Parsed} {ts : List (Tree Parsed)} {n : Parsed}
  {s v : Bool}

/-- A block starts where its opening is printed and ends where its last piece does. -/
theorem occupies_block (hf : (Tree.block n ts).Formatted Parsed.wording)
    (h : Placed done ((Tree.block n ts).pieces Parsed.wording s v)) :
    n.start = byteSize done ∧
      n.EndsWith (done ++ Piece.chars ((Tree.block n ts).pieces Parsed.wording s v)) := by
  rw [pieces_of_blockFormatted hf.1] at h ⊢
  obtain ⟨front, x, he, hn, hr, hv, hown⟩ := ending_eq_concat Parsed.wording n
  rw [he, ← List.append_assoc] at h ⊢
  obtain ⟨hfront, hlast, -⟩ := placed_append.1 h
  refine ⟨?_, ?_⟩
  · rcases (hfront.1 n rfl).start (by simp [Tree.opening]) with ⟨hs, -⟩ | ⟨hd, -⟩
    · exact hs
    · rcases hf.1.data with hk | hk <;> exact absurd (hk.symm.trans hd) (by decide)
  · have := (hlast n hn).stop (by simp [hr]) hv hown
    rw [Piece.chars_append, Piece.chars_cons, Piece.chars_nil, List.append_nil,
      ← List.append_assoc]
    exact this

theorem occupies (hf : t.Formatted Parsed.wording)
    (h : Placed done (t.pieces Parsed.wording s v)) :
    t.label.Occupies done (Piece.chars (t.pieces Parsed.wording s v)) := by
  cases t with
  | leaf n =>
    have hfits := h.1 n rfl
    have hown : n.wording.own ≠ "" → n.wording.leaf s = n.wording.own :=
      fun hne => absurd (Wording.LeafFormatted.own_eq hf) hne
    rw [pieces, Piece.chars_cons, Piece.chars_nil, List.append_nil]
    exact ⟨hfits.start (by simp), hfits.stops (by simp) hown⟩
  | block n ts =>
    obtain ⟨hstart, hend⟩ := occupies_block hf h
    refine ⟨.inl ⟨hstart, ?_⟩, hend.stops⟩
    rw [pieces_of_blockFormatted hf.1]
    simp [Tree.opening]

/-- **The ranges of siblings** lie behind one another, inside what is printed of them. -/
theorem ranges_all {ts : List (Tree Parsed)} (hf : FormattedAll Parsed.wording ts)
    (h : Placed done (piecesAll Parsed.wording s v ts)) {text : List Char}
    (ht : text = done ++ Piece.chars (piecesAll Parsed.wording s v ts) ++ rest) :
    (∀ t ∈ ts, byteSize done ≤ t.label.start ∧ ∀ stop, t.label.stop? text = some stop →
        stop ≤ byteSize (done ++ Piece.chars (piecesAll Parsed.wording s v ts))) ∧
      ts.Pairwise fun t u => ∀ stop, t.label.stop? text = some stop → stop ≤ u.label.start := by
  induction ts generalizing done with
  | nil => simp
  | cons t ts ih =>
    rw [piecesAll, placed_append, placed_append, Piece.chars_gap] at h
    obtain ⟨⟨-, hplaced⟩, hrest⟩ := h
    have hfirst := occupies hf.1 hplaced
    simp only [piecesAll, Piece.chars_append, Piece.chars_gap, ← List.append_assoc] at hrest ht ⊢
    obtain ⟨hall, hpairs⟩ := ih hf.2 hrest ht
    have hstop : ∀ stop, t.label.stop? text = some stop → stop ≤ byteSize (done ++
        (t.label.wording.slot "before").toList ++ Piece.chars (t.pieces Parsed.wording
          (s || ts.any (!·.isComment Parsed.wording)) (v || !ts.isEmpty))) := by
      intro stop hs
      rw [ht, List.append_assoc _ _ rest] at hs
      exact hfirst.stops.le hs
    refine ⟨?_, List.pairwise_cons.2 ⟨fun u hu stop hs => ?_, hpairs⟩⟩
    · intro u hu
      rcases List.mem_cons.1 hu with rfl | hu
      · refine ⟨hfirst.starts.le, fun stop hs => Nat.le_trans (hstop stop hs) ?_⟩
        rw [byteSize_append _ (Piece.chars (piecesAll _ _ _ _))]
        exact Nat.le_add_right _ _
      · obtain ⟨hstart, hle⟩ := hall u hu
        refine ⟨Nat.le_trans ?_ hstart, hle⟩
        rw [List.append_assoc, byteSize_append done]
        exact Nat.le_add_right _ _
    · exact Nat.le_trans (hstop stop hs) (hall u hu).1

end

/-! ## Subtrees -/

mutual

/-- The tree and all trees below it. -/
def subtrees : Tree α → List (Tree α)
  | leaf a => [leaf a]
  | block a ts => block a ts :: subtreesAll ts

/-- The trees and all trees below them. -/
def subtreesAll : List (Tree α) → List (Tree α)
  | [] => []
  | t :: ts => subtrees t ++ subtreesAll ts

end

theorem self_mem_subtrees (t : Tree α) : t ∈ t.subtrees := by
  cases t <;> simp [subtrees]

theorem mem_subtreesAll {t : Tree α} {ts : List (Tree α)} (h : t ∈ ts) : t ∈ subtreesAll ts := by
  induction ts with
  | nil => cases h
  | cons u ts ih =>
    rw [subtreesAll, List.mem_append]
    rcases List.mem_cons.1 h with rfl | h
    · exact .inl t.self_mem_subtrees
    · exact .inr (ih h)

mutual

/-- What is below a tree is below all that it is below. -/
theorem subtrees_trans {u v : Tree α} : {t : Tree α} → u ∈ t.subtrees → v ∈ u.subtrees →
    v ∈ t.subtrees
  | .leaf a, hu, hv => by
    rw [subtrees, List.mem_singleton] at hu
    exact hu ▸ hv
  | .block a ts, hu, hv => by
    rw [subtrees, List.mem_cons] at hu
    rcases hu with rfl | hu
    · exact hv
    · exact List.mem_cons_of_mem _ (subtreesAll_trans hu hv)

theorem subtreesAll_trans {u v : Tree α} : {ts : List (Tree α)} → u ∈ subtreesAll ts →
    v ∈ u.subtrees → v ∈ subtreesAll ts
  | [], hu, _ => by cases hu
  | t :: ts, hu, hv => by
    rw [subtreesAll, List.mem_append] at hu ⊢
    exact hu.imp (fun hu => subtrees_trans hu hv) fun hu => subtreesAll_trans hu hv

end

mutual

theorem map_label_subtrees : (t : Tree α) → t.subtrees.map label = t.preorder
  | .leaf a => rfl
  | .block a ts => by simp [subtrees, preorder, label, map_label_subtreesAll ts]

theorem map_label_subtreesAll : (ts : List (Tree α)) →
    (subtreesAll ts).map label = preorderAll ts
  | [] => rfl
  | t :: ts => by
    simp [subtreesAll, preorderAll, map_label_subtrees t, map_label_subtreesAll ts]

end

mutual

theorem subtrees_map (g : α → β) : (t : Tree α) → (t.map g).subtrees = t.subtrees.map (map g)
  | .leaf a => rfl
  | .block a ts => by simp [subtrees, map, subtreesAll_map g ts]

theorem subtreesAll_map (g : α → β) : (ts : List (Tree α)) →
    subtreesAll (mapAll g ts) = (subtreesAll ts).map (map g)
  | [] => rfl
  | t :: ts => by simp [subtreesAll, mapAll, subtrees_map g t, subtreesAll_map g ts]

end

mutual

theorem mem_leaves_of_subtrees {a : α} : {t : Tree α} → Tree.leaf a ∈ t.subtrees → a ∈ t.leaves
  | .leaf b, h => by simpa [subtrees, leaves] using h
  | .block b ts, h => by
    rw [subtrees, List.mem_cons] at h
    rcases h with h | h
    · cases h
    · exact mem_leavesAll_of_subtrees h

theorem mem_leavesAll_of_subtrees {a : α} : {ts : List (Tree α)} →
    Tree.leaf a ∈ subtreesAll ts → a ∈ leavesAll ts
  | [], h => by cases h
  | t :: ts, h => by
    rw [subtreesAll, List.mem_append] at h
    rw [leavesAll, List.mem_append]
    exact h.imp mem_leaves_of_subtrees mem_leavesAll_of_subtrees

end

mutual

theorem Formatted.subtrees {w : α → Wording} {u : Tree α} : {t : Tree α} → t.Formatted w →
    u ∈ t.subtrees → u.Formatted w
  | .leaf a, h, hu => by
    rw [Tree.subtrees, List.mem_singleton] at hu
    exact hu ▸ h
  | .block a ts, h, hu => by
    rw [Tree.subtrees, List.mem_cons] at hu
    rcases hu with rfl | hu
    · exact h
    · exact FormattedAll.subtrees h.2.2 hu

theorem FormattedAll.subtrees {w : α → Wording} {u : Tree α} : {ts : List (Tree α)} →
    FormattedAll w ts → u ∈ subtreesAll ts → u.Formatted w
  | [], _, hu => by cases hu
  | t :: ts, h, hu => by
    rw [subtreesAll, List.mem_append] at hu
    rcases hu with hu | hu
    · exact h.1.subtrees hu
    · exact FormattedAll.subtrees h.2 hu

end

mutual

/-- What is printed of a tree somewhere below. -/
theorem exists_placed {u : Tree Parsed} : {t : Tree Parsed} → {done : List Char} → {s v : Bool} →
    t.Formatted Parsed.wording → Placed done (t.pieces Parsed.wording s v) → u ∈ t.subtrees →
    ∃ before behind s' v', Placed (done ++ before) (u.pieces Parsed.wording s' v') ∧
      Piece.chars (t.pieces Parsed.wording s v) =
        before ++ Piece.chars (u.pieces Parsed.wording s' v') ++ behind
  | .leaf n, done, s, v, _, hp, hu => by
    rw [Tree.subtrees, List.mem_singleton] at hu
    subst hu
    exact ⟨[], [], s, v, by rwa [List.append_nil], by simp⟩
  | .block n ts, done, s, v, hf, hp, hu => by
    rw [Tree.subtrees, List.mem_cons] at hu
    rcases hu with rfl | hu
    · exact ⟨[], [], s, v, by rwa [List.append_nil], by simp⟩
    rw [pieces_of_blockFormatted hf.1] at hp ⊢
    obtain ⟨before, behind, s', v', hplaced, hchars⟩ :=
      exists_placedAll hf.2.2 (placed_append.1 hp.2).1 hu
    refine ⟨(opening Parsed.wording n).text.toList ++ before,
      behind ++ Piece.chars (ending Parsed.wording n), s', v', ?_, ?_⟩
    · rwa [← List.append_assoc]
    · simp [hchars]

theorem exists_placedAll {u : Tree Parsed} : {ts : List (Tree Parsed)} → {done : List Char} →
    {s v : Bool} → FormattedAll Parsed.wording ts →
    Placed done (piecesAll Parsed.wording s v ts) → u ∈ subtreesAll ts →
    ∃ before behind s' v', Placed (done ++ before) (u.pieces Parsed.wording s' v') ∧
      Piece.chars (piecesAll Parsed.wording s v ts) =
        before ++ Piece.chars (u.pieces Parsed.wording s' v') ++ behind
  | [], _, _, _, _, _, hu => by cases hu
  | t :: ts, done, s, v, hf, hp, hu => by
    rw [piecesAll, placed_append, placed_append, Piece.chars_gap] at hp
    rw [subtreesAll, List.mem_append] at hu
    rcases hu with hu | hu
    · obtain ⟨before, behind, s', v', hplaced, hchars⟩ := exists_placed hf.1 hp.1.2 hu
      refine ⟨((Parsed.wording t.label).slot "before").toList ++ before,
        behind ++ Piece.chars (piecesAll Parsed.wording s v ts), s', v', ?_, ?_⟩
      · rwa [← List.append_assoc]
      · simp [piecesAll, hchars]
    · obtain ⟨before, behind, s', v', hplaced, hchars⟩ := exists_placedAll hf.2 hp.2 hu
      refine ⟨Piece.chars (Piece.gap ((Parsed.wording t.label).slot "before") ++
        t.pieces Parsed.wording (s || ts.any (!·.isComment Parsed.wording)) (v || !ts.isEmpty)) ++
          before, behind, s', v', ?_, ?_⟩
      · rwa [← List.append_assoc]
      · simp [piecesAll, hchars]

end

end Tree

/-! ## The root -/

/-- The root starts at the start of the text. -/
theorem Parser.start_parse {text : List Char} {a : Parsed} {ts : List (Tree Parsed)}
    (h : parse text = .ok (.block a ts)) : a.start = 0 := by
  unfold parse at h
  obtain ⟨q, hs, hfinish⟩ := Except.bind_ok h
  obtain ⟨-, hi⟩ := statements_inv hs (start_inv (Lexer.tokens_tiled (.ofChars text) rfl))
  unfold finish at hfinish
  split at hfinish
  · next ho =>
    have hroot := hi.built.stacked
    rw [List.isEmpty_iff.1 ho] at hroot
    have hnode : q.current.node = ⟨.root, Raws.empty, 0, none⟩ := hroot
    rw [OpenBlock.close_eq, Except.ok.injEq, Tree.block.injEq] at hfinish
    rw [← hfinish.1, OpenBlock.closeNode, hnode]
  · cases hfinish

end Stylesheet
