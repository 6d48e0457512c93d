import Stylesheet.Proofs.Forest.Read
import Stylesheet.Proofs.SourceMap.Tokens

/-!
# The marks of a text that was read

A tree that was read and not changed is mapped by its `Mark`s: where its pieces start and end in the
text, and where its nodes say that they do. `Keeps.mappings` says that the mappings of the printed
tree are its marks, if each of them leads to a source. Without hacks the marks stand in the order of
the text, and where one leads to there is a mark that leads to itself (`reflects_marksAll`): all but
one kind lead to themselves. The brace of a rule with a semicolon of its own leads to that semicolon.
-/

set_option autoImplicit false

namespace Stylesheet

open Stylesheet.Text Stylesheet.Tree

variable {α : Type}

/-! ## Kinds of pieces -/

namespace Tree

theorem label_mem_preorder (t : Tree α) : t.label ∈ t.preorder := by
  cases t <;> simp [label, preorder]

theorem label_mem_preorderAll {t : Tree α} {ts : List (Tree α)} (h : t ∈ ts) :
    t.label ∈ preorderAll ts := by
  rw [preorderAll_eq, List.mem_flatMap]
  exact ⟨t, h, t.label_mem_preorder⟩

/-- A piece with text of the node `b`: all there is of a node without a block, the opening of a
block, or a part of its end. -/
inductive IsPieceOf (w : α → Wording) (b : α) (xs : List (Piece α)) (x : Piece α) : Prop
  | leaf : (w b).LeafFormatted → x.role = none → IsPieceOf w b xs x
  | opening : (w b).BlockFormatted → x = Tree.opening w b → IsPieceOf w b xs x
  | ending : (w b).BlockFormatted → x ∈ Tree.ending w b → (∀ y ∈ Tree.ending w b, y ∈ xs) →
      IsPieceOf w b xs x

theorem IsPieceOf.mono {w : α → Wording} {b : α} {xs ys : List (Piece α)} {x : Piece α}
    (h : IsPieceOf w b xs x) (hs : ∀ y ∈ xs, y ∈ ys) : IsPieceOf w b ys x := by
  cases h with
  | leaf hf hr => exact .leaf hf hr
  | opening hf hx => exact .opening hf hx
  | ending hf hx hall => exact .ending hf hx fun y hy => hs y (hall y hy)

mutual

theorem isPieceOf_of_mem {w : α → Wording} {x : Piece α} {b : α} (hb : x.node = some b) :
    {s v : Bool} → (t : Tree α) → t.Formatted w → x ∈ t.pieces w s v →
    IsPieceOf w b (t.pieces w s v) x
  | s, v, .leaf a, hf, hx => by
    rw [pieces, List.mem_singleton] at hx
    rw [hx] at hb
    cases hb
    exact .leaf hf (by rw [hx])
  | s, v, .block a ts, hf, hx => by
    rw [pieces_of_blockFormatted hf.1] at hx ⊢
    rcases List.mem_append.1 hx with hx | hx
    · rcases List.mem_cons.1 hx with rfl | hx
      · cases hb
        exact .opening hf.1 rfl
      · exact (isPieceOf_of_memAll hb ts hf.2.2 hx).mono fun y hy => by simp [hy]
    · rcases node_of_mem_ending hx with he | he
      · rw [he] at hb
        cases hb
      · rw [he] at hb
        cases hb
        exact .ending hf.1 hx fun y hy => by simp [hy]

theorem isPieceOf_of_memAll {w : α → Wording} {x : Piece α} {b : α} (hb : x.node = some b) :
    {s v : Bool} → (ts : List (Tree α)) → FormattedAll w ts → x ∈ piecesAll w s v ts →
    IsPieceOf w b (piecesAll w s v ts) x
  | _, _, [], _, hx => by cases hx
  | s, v, t :: ts, hf, hx => by
    rw [piecesAll, List.mem_append, List.mem_append] at hx
    rcases hx with (hx | hx) | hx
    · rw [node_of_mem_gap hx] at hb
      cases hb
    · exact (isPieceOf_of_mem hb t hf.1 hx).mono fun y hy => by simp [piecesAll, hy]
    · exact (isPieceOf_of_memAll hb ts hf.2 hx).mono fun y hy => by simp [piecesAll, hy]

end

end Tree

/-! ## Marks -/

/-- A place of the output and the place of the input that it is mapped to, as byte offsets. -/
structure Mark where
  dst : Nat
  src : Nat

/-- The mapping of a mark. -/
def Mark.mapping (text : List Char) (input : InputId) (m : Mark) : Mapping :=
  ⟨(placeAt text m.dst).line, (placeAt text m.dst).col, input, (placeAt text m.src).line,
    (placeAt text m.src).col⟩

namespace Piece

/-- The marks of a piece that is printed behind so many bytes: its start and its visible end. -/
def marks (offset : Nat) (x : Piece Parsed) : List Mark :=
  match x.node with
  | none => []
  | some n =>
    let start := if x.role = some .stop then none else some ⟨offset, n.start⟩
    let stop := if x.role = some .start || !x.visible then none
      else n.last.map (⟨offset + byteSize x.text.toList.dropLast, ·⟩)
    start.toList ++ stop.toList

theorem mem_marks {offset : Nat} {x : Piece Parsed} {m : Mark} : m ∈ x.marks offset ↔
    ∃ n, x.node = some n ∧ ((x.role ≠ some .stop ∧ m = ⟨offset, n.start⟩) ∨
      (x.role ≠ some .start ∧ x.visible = true ∧ ∃ last, n.last = some last ∧
        m = ⟨offset + byteSize x.text.toList.dropLast, last⟩)) := by
  unfold marks
  cases x.node with
  | none => simp
  | some n =>
    cases x.visible <;> by_cases h : x.role = some .stop <;>
      by_cases h' : x.role = some .start <;> simp [h, h', eq_comm (a := m)]

/-- The marks of pieces that are printed behind so many bytes. -/
def marksAll : Nat → List (Piece Parsed) → List Mark
  | _, [] => []
  | offset, x :: xs => x.marks offset ++ marksAll (offset + byteSize x.text.toList) xs

theorem marksAll_append (offset : Nat) (xs ys : List (Piece Parsed)) :
    marksAll offset (xs ++ ys) =
      marksAll offset xs ++ marksAll (offset + byteSize (chars xs)) ys := by
  induction xs generalizing offset with
  | nil => simp [marksAll]
  | cons x xs ih => simp [marksAll, ih, byteSize_append, Nat.add_assoc]

@[simp] theorem marksAll_gap (offset : Nat) (text : String) : marksAll offset (gap text) = [] := by
  by_cases h : text = "" <;> simp [gap, h, marksAll, marks]

theorem mem_marksAll {offset : Nat} {xs : List (Piece Parsed)} {m : Mark} :
    m ∈ marksAll offset xs ↔ ∃ before x behind, xs = before ++ x :: behind ∧
      m ∈ x.marks (offset + byteSize (chars before)) := by
  constructor
  · intro h
    induction xs generalizing offset with
    | nil => cases h
    | cons x xs ih =>
      rw [marksAll, List.mem_append] at h
      rcases h with h | h
      · exact ⟨[], x, xs, rfl, h⟩
      · obtain ⟨before, y, behind, rfl, hm⟩ := ih h
        refine ⟨x :: before, y, behind, rfl, ?_⟩
        rwa [chars_cons, byteSize_append, ← Nat.add_assoc]
  · rintro ⟨before, x, behind, rfl, hm⟩
    rw [marksAll_append, marksAll]
    exact List.mem_append_right _ (List.mem_append_left _ hm)

theorem le_dst {offset : Nat} {xs : List (Piece Parsed)} {m : Mark} (h : m ∈ marksAll offset xs) :
    offset ≤ m.dst := by
  obtain ⟨before, x, -, -, hm⟩ := mem_marksAll.1 h
  obtain ⟨n, -, ⟨-, rfl⟩ | ⟨-, -, last, -, rfl⟩⟩ := mem_marks.1 hm <;> simp only <;> omega

end Piece

/-! ## Pieces that stand in a text -/

/-- The pieces of nodes without hacks stand at the start of a text, where their nodes say. -/
structure Stands (text : List Char) (xs : List (Piece Parsed)) : Prop where
  text : ∃ rest, text = Piece.chars xs ++ rest
  placed : Placed [] xs
  isPieceOf : ∀ x ∈ xs, ∀ n, x.node = some n → IsPieceOf Parsed.wording n xs x
  noHack : ∀ before x behind n, xs = before ++ x :: behind → x.node = some n →
    ¬n.BehindHack (Piece.chars before)

namespace Stands

variable {text : List Char} {xs before behind : List (Piece Parsed)} {x : Piece Parsed}
  {n : Parsed}

theorem split (h : Stands text xs) (hx : xs = before ++ x :: behind) :
    x.Fits (Piece.chars before) ∧
      ∃ rest, text = Piece.chars before ++ x.text.toList ++ rest := by
  obtain ⟨rest, htext⟩ := h.text
  have hplaced := h.placed
  rw [hx] at hplaced htext
  exact ⟨hplaced.fits, Piece.chars behind ++ rest, by simp [htext]⟩

theorem mem (hx : xs = before ++ x :: behind) : x ∈ xs := by
  rw [hx]
  simp

/-- A node starts with its first piece, which has text. -/
theorem start (h : Stands text xs) (hx : xs = before ++ x :: behind) (hn : x.node = some n)
    (hr : x.role ≠ some .stop) :
    n.start = byteSize (Piece.chars before) ∧ x.text.toList ≠ [] :=
  (((h.split hx).1 n hn).start hr).resolve_right (h.noHack _ _ _ _ hx hn)

theorem text_ne (h : Stands text xs) (hx : xs = before ++ x :: behind) (hn : x.node = some n) :
    x.text.toList ≠ [] := by
  cases h.isPieceOf x (mem hx) n hn with
  | leaf _ hr => exact (h.start hx hn (by rw [hr]; simp)).2
  | opening _ he => exact (h.start hx hn (by rw [he]; simp [opening])).2
  | ending _ he =>
    rcases List.mem_append.1 he with he | he
    · rw [node_of_mem_gap he] at hn
      cases hn
    · rcases List.mem_cons.1 he with rfl | he
      · simp
      · split at he
        · cases he
        · next hown =>
          rw [List.mem_singleton.1 he]
          simpa using hown

/-- An end where its node says. -/
theorem stop_of_endsWith (h : Stands text xs) (hx : xs = before ++ x :: behind)
    (hn : x.node = some n) (hr : x.role ≠ some .start) (hv : x.visible = true)
    (he : n.EndsWith (Piece.chars before ++ x.text.toList)) :
    ∃ front c, x.text.toList = front ++ [c] ∧ c ≠ '\n' ∧
      n.last = some (byteSize (Piece.chars before) + byteSize front) ∧
      ∀ last, n.last = some last → IsStart text last ∧ ⟨last, last⟩ ∈ Piece.marksAll 0 xs := by
  obtain ⟨all, c, hall, hc, hlast⟩ := he
  obtain ⟨front, d, htext⟩ := (List.eq_nil_or_concat x.text.toList).resolve_left (h.text_ne hx hn)
  rw [List.concat_eq_append] at htext
  rw [htext, ← List.append_assoc] at hall
  obtain ⟨rfl, hd⟩ := List.append_inj' hall rfl
  obtain rfl : d = c := List.singleton_inj.1 hd
  rw [byteSize_append] at hlast
  refine ⟨front, d, htext, hc, hlast, fun last hl => ?_⟩
  rw [hlast, Option.some.injEq] at hl
  subst hl
  obtain ⟨rest, hrest⟩ := (h.split hx).2
  refine ⟨⟨Piece.chars before ++ front, d, rest, ?_, (byteSize_append ..).symm⟩, ?_⟩
  · rw [hrest, htext]
    simp
  · refine Piece.mem_marksAll.2 ⟨before, x, behind, hx, Piece.mem_marks.2 ⟨n, hn, .inr ?_⟩⟩
    refine ⟨hr, hv, _, hlast, ?_⟩
    rw [htext, List.dropLast_concat, Nat.zero_add]

/-- **The visible end of a piece**: the end of its node. Only the brace of a rule with a semicolon of
its own is not, but there is a mark at this semicolon. -/
theorem stop (h : Stands text xs) (hx : xs = before ++ x :: behind) (hn : x.node = some n)
    (hr : x.role ≠ some .start) (hv : x.visible = true) :
    ∃ front c last, x.text.toList = front ++ [c] ∧ c ≠ '\n' ∧ n.last = some last ∧
      IsStart text last ∧ ⟨last, last⟩ ∈ Piece.marksAll 0 xs ∧
      (last = byteSize (Piece.chars before) + byteSize front ∨
        x.role = some .stop ∧ n.wording.own ≠ "") := by
  by_cases hown : n.wording.own ≠ "" → x.text = n.wording.own
  · obtain ⟨front, c, htext, hc, hlast, hall⟩ :=
      h.stop_of_endsWith hx hn hr hv (((h.split hx).1 n hn).stop hr hv hown)
    obtain ⟨hstart, hmark⟩ := hall _ hlast
    exact ⟨front, c, _, htext, hc, hlast, hstart, hmark, .inl rfl⟩
  · obtain ⟨hown, htext⟩ := Classical.not_imp.1 hown
    cases h.isPieceOf x (mem hx) n hn with
    | leaf hf _ => exact absurd hf.own_eq hown
    | opening _ he => exact absurd (by rw [he]; rfl) hr
    | ending hf he hall =>
      have hbrace : x = ⟨"\x7d", some n, some .stop, true⟩ := by
        rcases List.mem_append.1 he with he | he
        · rw [node_of_mem_gap he] at hn
          cases hn
        · rcases List.mem_cons.1 he with he | he
          · exact he
          · rw [if_neg hown, List.mem_singleton] at he
            exact absurd (by rw [he]) htext
      -- the node ends with the piece behind the brace
      have hy : (⟨n.wording.own, some n, some .stop, true⟩ : Piece Parsed) ∈ xs :=
        hall _ (by simp [Tree.ending, hown])
      obtain ⟨before', behind', hsplit⟩ := List.append_of_mem hy
      obtain ⟨front, c, -, -, hlast, hall⟩ := h.stop_of_endsWith hsplit rfl (by simp) rfl
        (((h.split hsplit).1 n rfl).stop (by simp) rfl fun _ => rfl)
      obtain ⟨hstart, hmark⟩ := hall _ hlast
      exact ⟨[], '\x7d', _, by rw [hbrace]; simp, by decide, hlast, hstart, hmark,
        .inr ⟨by rw [hbrace], hown⟩⟩

end Stands

/-! ## Marks of a text -/

/-- The marks stand in the order of the text, at characters of it. Where one leads to there is a mark
that leads to itself. -/
structure Reflects (text : List Char) (ms : List Mark) : Prop where
  isStart : ∀ m ∈ ms, IsStart text m.dst
  sorted : ms.Pairwise fun m n => m.dst < n.dst ∨ m = n
  reflects : ∀ m ∈ ms, ⟨m.src, m.src⟩ ∈ ms

/-- The marks of a piece. -/
theorem Stands.mark_cases {text : List Char} {xs before behind : List (Piece Parsed)}
    {x : Piece Parsed} {m : Mark} (h : Stands text xs) (hx : xs = before ++ x :: behind)
    (hm : m ∈ x.marks (byteSize (Piece.chars before))) :
    (∃ front c rest, x.text.toList = front ++ c :: rest ∧
        m.dst = byteSize (Piece.chars before) + byteSize front) ∧
      ⟨m.src, m.src⟩ ∈ Piece.marksAll 0 xs ∧
      (m.src = m.dst ∨ x.role = some .stop ∧ ∃ n, x.node = some n ∧ n.wording.own ≠ "") := by
  obtain ⟨n, hn, ⟨hr, rfl⟩ | ⟨hr, hv, last, hl, rfl⟩⟩ := Piece.mem_marks.1 hm
  · obtain ⟨hstart, hne⟩ := h.start hx hn hr
    obtain ⟨c, rest, htext⟩ := List.exists_cons_of_ne_nil hne
    refine ⟨⟨[], c, rest, htext, rfl⟩, ?_, .inl hstart⟩
    refine Piece.mem_marksAll.2 ⟨before, x, behind, hx, ?_⟩
    rw [Nat.zero_add]
    simp only [hstart] at hm ⊢
    exact hm
  · obtain ⟨front, c, last', htext, -, hl', -, hmark, hlast⟩ := h.stop hx hn hr hv
    rw [hl, Option.some.injEq] at hl'
    subst hl'
    simp only [htext, List.dropLast_concat]
    refine ⟨⟨front, c, [], rfl, rfl⟩, hmark, hlast.imp_right fun ⟨hr, hown⟩ => ⟨hr, n, hn, hown⟩⟩

/-- A piece starts before it ends, unless it is a single character. -/
theorem Stands.sorted_marks {text : List Char} {xs before behind : List (Piece Parsed)}
    {x : Piece Parsed} (h : Stands text xs) (hx : xs = before ++ x :: behind) :
    (x.marks (byteSize (Piece.chars before))).Pairwise fun m n => m.dst < n.dst ∨ m = n := by
  unfold Piece.marks
  cases hn : x.node with
  | none => exact .nil
  | some n =>
    by_cases hr : x.role = some .stop
    · cases x.visible <;> cases n.last <;> simp [hr]
    · by_cases hstop : x.role = some .start ∨ x.visible = false
      · rcases hstop with hstop | hstop <;> simp [hr, hstop]
      · rw [not_or, Bool.not_eq_false] at hstop
        obtain ⟨front, c, last, htext, -, hl, -, -, hlast⟩ := h.stop hx hn hstop.1 hstop.2
        obtain rfl := hlast.resolve_right fun hc => hr hc.1
        have hstart := (h.start hx hn hr).1
        simp only [hr, hstop, hl, htext, List.dropLast_concat]
        cases front with
        | nil => simp [hstart]
        | cons d front =>
          have := d.utf8Size_pos
          rw [byteSize_cons]
          simp
          omega

theorem Stands.reflects {text : List Char} {xs : List (Piece Parsed)} (h : Stands text xs) :
    Reflects text (Piece.marksAll 0 xs) := by
  have hbehind {before behind : List (Piece Parsed)} (hx : xs = before ++ behind) :
      (Piece.marksAll (byteSize (Piece.chars before)) behind).Pairwise
        fun m n => m.dst < n.dst ∨ m = n := by
    induction behind generalizing before with
    | nil => exact .nil
    | cons x behind ih =>
      have hrest := ih (hx.trans (List.append_cons before x behind))
      rw [Piece.chars_append, byteSize_append, Piece.chars_cons, Piece.chars_nil,
        List.append_nil] at hrest
      rw [Piece.marksAll, List.pairwise_append]
      refine ⟨?_, hrest, fun m hm n hn => .inl ?_⟩
      · exact h.sorted_marks hx
      · obtain ⟨⟨front, c, rest, htext, hdst⟩, -⟩ := h.mark_cases hx hm
        have hle := Piece.le_dst hn
        have hc := c.utf8Size_pos
        rw [htext, byteSize_append, byteSize_cons] at hle
        omega
  refine ⟨fun m hm => ?_, hbehind (List.nil_append xs).symm, fun m hm => ?_⟩
  · obtain ⟨before, x, behind, hx, hm⟩ := Piece.mem_marksAll.1 hm
    rw [Nat.zero_add] at hm
    obtain ⟨⟨front, c, rest, htext, hdst⟩, -⟩ := h.mark_cases hx hm
    obtain ⟨more, hmore⟩ := (h.split hx).2
    exact ⟨Piece.chars before ++ front, c, rest ++ more, by simp [hmore, htext],
      by rw [hdst, byteSize_append]⟩
  · obtain ⟨before, x, behind, hx, hm⟩ := Piece.mem_marksAll.1 hm
    rw [Nat.zero_add] at hm
    exact (h.mark_cases hx hm).2.1

/-! ## Ends that can be seen -/

namespace Forest
/-- Something follows a child in the block of `parent`: a sibling or a semicolon. -/
def isFollowed (f : Forest) (parent id : NodeId) : Bool :=
  (f.children parent).getLast? ≠ some id ||
    ((f.raws parent).get? "semicolon").any RawValue.isTruthy

section
variable {f : Forest} {parent : NodeId} {a : NodeId × Element}

theorem closesVisibly_leaf (hn : f.Sits a.1 a.2 (some parent) none)
    (hf : (numberedWording a).LeafFormatted) :
    f.closesVisibly a.1 = (f.isFollowed parent a.1 || a.2.data.kind = .comment) := by
  have hparent : f.parent? a.1 = some parent := hn.parent
  have hblock : (f.node a.1).hasBlock = false := hn.hasBlock
  obtain ⟨-, hf⟩ := hf
  unfold closesVisibly isFollowed
  rw [hn.kind, hblock, hparent]
  cases hd : a.2.data with
  | root => simp [Element.wording, hd] at hf
  | rule => simp [Element.wording, hd] at hf
  | declaration => simp [NodeData.kind]
  | atRule => simp [NodeData.kind]
  | comment => simp [NodeData.kind]

theorem closesVisibly_block {parent : Option NodeId} {ids : List NodeId}
    (hn : f.Sits a.1 a.2 parent (some ids)) (hf : (numberedWording a).BlockFormatted) :
    f.closesVisibly a.1 = true := by
  have hblock : (f.node a.1).hasBlock = true := hn.hasBlock
  have hdata : a.2.data.kind = .rule ∨ a.2.data.kind = .atRule := hf.data
  unfold closesVisibly
  rw [hn.kind, hblock]
  rcases hdata with hk | hk <;> simp [hk]

/-- Of siblings with different numbers only the last one may be followed by nothing. -/
theorem isFollowed_eq {front : List NodeId} {t : Tree (NodeId × Element)}
    {ts : List (Tree (NodeId × Element))}
    (hc : f.children parent = front ++ t.label.1 :: ts.map (·.label.1))
    (hd : t.label.1 ∉ (preorderAll ts).map Prod.fst) :
    f.isFollowed parent t.label.1 =
      (((f.raws parent).get? "semicolon").any RawValue.isTruthy || !ts.isEmpty) := by
  have hlast : ((f.children parent).getLast? ≠ some t.label.1) ↔ ts ≠ [] := by
    rw [hc, List.getLast?_append]
    rcases List.eq_nil_or_concat ts with rfl | ⟨us, u, rfl⟩
    · simp
    · have hu : u.label.1 ∈ (preorderAll (us ++ [u])).map Prod.fst :=
        List.mem_map_of_mem (label_mem_preorderAll (by simp))
      have hne : u.label.1 ≠ t.label.1 := by
        intro he
        rw [he] at hu
        exact hd (by simpa using hu)
      have he : t.label.1 :: (us.concat u).map (·.label.1) =
          (t.label.1 :: us.map (·.label.1)) ++ [u.label.1] := by simp
      rw [he, List.getLast?_concat]
      simp [hne]
  unfold isFollowed
  cases ts <;> simp_all [Bool.or_comm]

end

theorem visible_of_mem_ending {w : α → Wording} {a b : α} {x : Piece α}
    (hx : x ∈ ending w a) (hb : x.node = some b) : x.visible = true := by
  rcases List.mem_append.1 hx with hx | hx
  · rw [node_of_mem_gap hx] at hb
    cases hb
  · rcases List.mem_cons.1 hx with rfl | hx
    · rfl
    · split at hx
      · cases hx
      · rw [List.mem_singleton.1 hx]

mutual

/-- A piece is the visible end of its node exactly if the end counts for the map. -/
theorem visible_eq {f : Forest} {s v : Bool} {x : Piece (NodeId × Element)}
    {b : NodeId × Element} (hb : x.node = some b) :
    {parent : NodeId} → (t : Tree (NodeId × Element)) → f.Hangs (some parent) t →
    t.Formatted numberedWording → (t.preorder.map Prod.fst).Nodup →
    v = f.isFollowed parent t.label.1 → x ∈ t.pieces numberedWording s v →
    x.visible = f.closesVisibly b.1
  | parent, .leaf a, hh, hf, _, hv, hx => by
    rw [pieces, List.mem_singleton] at hx
    rw [hx] at hb ⊢
    cases hb
    rw [closesVisibly_leaf hh hf, hv]
    rfl
  | parent, .block a ts, hh, hf, hd, hv, hx => by
    simp only [preorder, List.map_cons, List.nodup_cons] at hd
    rw [pieces_of_blockFormatted hf.1] at hx
    rcases List.mem_append.1 hx with hx | hx
    · rcases List.mem_cons.1 hx with rfl | hx
      · cases hb
        rw [closesVisibly_block hh.1 hf.1]
        rfl
      · refine visible_eqAll hb ts hh.2 hf.2.2 hd.2 [] ?_ ?_ hx
        · exact hh.1.nodes
        · rw [hh.1.raws]
          rfl
    · rw [visible_of_mem_ending hx hb]
      rcases node_of_mem_ending hx with he | he
      · rw [he] at hb
        cases hb
      · rw [he] at hb
        cases hb
        exact (closesVisibly_block hh.1 hf.1).symm

theorem visible_eqAll {f : Forest} {s v : Bool} {x : Piece (NodeId × Element)}
    {b : NodeId × Element} (hb : x.node = some b) :
    {parent : NodeId} → (ts : List (Tree (NodeId × Element))) → f.HangsAll parent ts →
    FormattedAll numberedWording ts → ((preorderAll ts).map Prod.fst).Nodup →
    (front : List NodeId) → f.children parent = front ++ ts.map (·.label.1) →
    v = ((f.raws parent).get? "semicolon").any RawValue.isTruthy →
    x ∈ piecesAll numberedWording s v ts → x.visible = f.closesVisibly b.1
  | _, [], _, _, _, _, _, _, hx => by cases hx
  | parent, t :: ts, hh, hf, hd, front, hc, hv, hx => by
    rw [preorderAll, List.map_append, List.nodup_append] at hd
    rw [piecesAll, List.mem_append, List.mem_append] at hx
    rcases hx with (hx | hx) | hx
    · rw [node_of_mem_gap hx] at hb
      cases hb
    · refine visible_eq hb t hh.1 hf.1 hd.1 ?_ hx
      rw [isFollowed_eq hc, hv]
      intro hmem
      exact hd.2.2 _ (List.mem_map_of_mem t.label_mem_preorder) _ hmem rfl
    · refine visible_eqAll hb ts hh.2 hf.2 hd.2.1 (front ++ [t.label.1]) ?_ hv hx
      rw [hc, List.map_cons, List.append_assoc]
      rfl

end

/-! ## What the forest knows of the nodes -/

section
variable {f : Forest} {root : NodeId} {input : InputId} {i : Input} {a : Parsed}
  {ts : List (Tree Parsed)} {b : NodeId × Parsed}

theorem Keeps.origin?_eq (h : f.Keeps root input i a ts)
    (hb : b ∈ preorderAll (numberedAll (root + 1) ts)) (position : Source → Option Position)
    {p : Position} (hp : position (f.source b.1) = some p) (hr : f.resolves input p = true) :
    f.origin? .skip b.1 position = some (input, p) := by
  have hinput : (f.source b.1).input = some input := by rw [h.source hb]
  unfold origin? resolved?
  rw [hinput, hp]
  simp [hr]

/-- The pieces of the nodes below a root that was read, under their numbers. -/
def body (root : NodeId) (a : Parsed) (ts : List (Tree Parsed)) : List (Piece (NodeId × Parsed)) :=
  piecesAll readWording a.wording.closed a.wording.closed (numberedAll (root + 1) ts)

/-- The root is printed as what is below it, and blanks. -/
theorem Keeps.pieces (h : f.Keeps root input i a ts) :
    ((Tree.block a ts).numbered root).pieces readWording false false =
      body root a ts ++ Piece.gap (a.wording.slot "after") := by
  rw [numbered, Tree.pieces, show (readWording (root, a)).data = .root from h.formatted.data]
  rfl

theorem map_body (root : NodeId) (a : Parsed) (ts : List (Tree Parsed)) :
    (body root a ts).map (Piece.map Prod.snd) = a.body ts := by
  rw [body, readWording, ← piecesAll_map, mapAll_snd_numberedAll]
  rfl

theorem body_split {before behind : List (Piece (NodeId × Parsed))} {x : Piece (NodeId × Parsed)}
    (h : body root a ts = before ++ x :: behind) :
    a.body ts = before.map (Piece.map Prod.snd) ++ x.map Prod.snd ::
      behind.map (Piece.map Prod.snd) := by
  rw [← map_body root, h, List.map_append, List.map_cons]

/-- The pieces belong to the nodes below the root. -/
theorem mem_of_body {x : Piece (NodeId × Parsed)} (hx : x ∈ body root a ts)
    (hb : x.node = some b) : b ∈ preorderAll (numberedAll (root + 1) ts) :=
  mem_preorderAll_of_mem_pieces hb _ hx

theorem Keeps.visible_eq (h : f.Keeps root input i a ts) {x : Piece (NodeId × Parsed)}
    (hx : x ∈ body root a ts) (hb : x.node = some b) : x.visible = f.closesVisibly b.1 := by
  have hmem : x.map (Prod.map id (i.element input)) ∈ piecesAll numberedWording
      a.wording.closed a.wording.closed
      (mapAll (Prod.map id (i.element input)) (numberedAll (root + 1) ts)) := by
    rw [piecesAll_map]
    exact List.mem_map_of_mem hx
  refine Forest.visible_eqAll (b := Prod.map id (i.element input) b) (by simp [Piece.map, hb])
    _ h.hangs.2 h.formattedAll_elements ?_ [] h.hangs.1.nodes ?_ hmem
  · rw [preorderAll_mapAll, List.map_map]
    exact numbers_numberedAll (root + 1) ts ▸ List.nodup_range'
  · rw [h.hangs.1.raws]
    rfl

/-! ## Mappings -/

theorem mappings_gap (f : Forest) (policy : UnmappedPolicy) (place : OutputPlace) (text : String) :
    f.mappings policy place
      ((Piece.gap text : List (Piece (NodeId × Parsed))).map Piece.fragment) = [] := by
  by_cases h : text = "" <;> simp [Piece.gap, h, mappings, fragmentMappings, Piece.fragment]

/-- The mappings of a piece are its marks. -/
theorem Keeps.fragmentMappings (h : f.Keeps root input i a ts)
    (hs : Stands i.text.toList (a.body ts))
    (hr : ∀ m ∈ Piece.marksAll 0 (a.body ts), ∀ p : Position,
      p.place = placeAt i.text.toList m.src → f.resolves input p = true)
    {before behind : List (Piece (NodeId × Parsed))} {x : Piece (NodeId × Parsed)}
    (hx : body root a ts = before ++ x :: behind) :
    f.fragmentMappings .skip (OutputPlace.start.afterChars (Piece.chars before)) x.fragment =
      ((x.map Prod.snd).marks (byteSize (Piece.chars before))).map
        (Mark.mapping i.text.toList input) := by
  have hx' := body_split hx
  have hmem : x ∈ body root a ts := by
    rw [hx]
    simp
  cases hn : x.node with
  | none => simp [Forest.fragmentMappings, Piece.fragment, Piece.marks, Piece.map, hn]
  | some b =>
    have hb := mem_of_body hmem hn
    have hn' : (x.map Prod.snd).node = some b.2 := by simp [Piece.map, hn]
    have hnode : x.fragment.node = some b.1 := by simp [Piece.fragment, hn]
    have hresolves {m : Mark} (hm : m ∈ (x.map Prod.snd).marks (byteSize (Piece.chars before)))
        {p : Position} (hp : p.place = placeAt i.text.toList m.src) : f.resolves input p = true :=
      hr m (Piece.mem_marksAll.2 ⟨_, _, _, hx', by simpa using hm⟩) p hp
    obtain ⟨rest, htext⟩ := (hs.split hx').2
    simp only [Piece.chars_map, Piece.map_text] at htext
    unfold Forest.fragmentMappings Piece.marks
    simp only [hnode, hn', List.map_append]
    congr 1
    · by_cases hrole : x.role = some .stop
      · simp [Piece.fragment, Piece.map, hrole]
      · have horigin := h.origin?_eq hb Source.start (p := i.position b.2.start)
          (by rw [h.source hb]) (hresolves (Piece.mem_marks.2 ⟨b.2, hn', .inl ⟨hrole, rfl⟩⟩) rfl)
        rw [if_neg (show x.fragment.role ≠ some .stop from hrole), horigin,
          if_neg (show (x.map Prod.snd).role ≠ some .stop from hrole)]
        simp only [Option.map_some, Option.toList_some, List.map_cons, List.map_nil]
        rw [Mark.mapping, htext, List.append_assoc, placeAt_append, ← List.append_assoc, ← htext]
        rfl
    · by_cases hrole : x.role = some .start ∨ x.visible = false
      · rcases hrole with hrole | hrole
        · simp [Piece.fragment, Piece.map, hrole]
        · simp [← h.visible_eq hmem hn, Piece.map, hrole]
      · obtain ⟨hrole, hv⟩ := not_or.1 hrole
        rw [Bool.not_eq_false] at hv
        obtain ⟨front, c, last, hchars, hc, hl, hlast, -⟩ := hs.stop hx' hn' hrole hv
        have hchars : x.text.toList = front ++ [c] := hchars
        have hplace : (i.endPosition last).place = placeAt i.text.toList last := hlast.ofLast
        have horigin := h.origin?_eq hb Source.stop (p := i.endPosition last)
          (by rw [h.source hb]; simp [hl])
          (hresolves (Piece.mem_marks.2 ⟨b.2, hn', .inr ⟨hrole, hv, last, hl, rfl⟩⟩) hplace)
        rw [← h.visible_eq hmem hn, hv, horigin, hl]
        have hrole' : (x.map Prod.snd).role ≠ some .start := hrole
        have hv' : (x.map Prod.snd).visible = true := hv
        simp only [show x.fragment.role ≠ some .start from hrole, hrole', hv', decide_false,
          Bool.not_true, Bool.or_self, Bool.false_eq_true, if_false, Option.map_some,
          Option.toList_some, List.map_cons, List.map_nil, Piece.map_text, hchars,
          List.dropLast_concat]
        rw [OutputPlace.after_eq, show x.fragment.text.toList = front ++ [c] from hchars,
          ← OutputPlace.afterChars_append, ← List.append_assoc, OutputPlace.afterChars_concat hc,
          Mark.mapping, ← hplace, ← byteSize_append]
        rw [hchars, ← List.append_assoc, List.append_assoc (_ ++ _)] at htext
        rw [htext, placeAt_append]
        rfl

/-- **The mappings of a tree that was read and not changed** are its marks. -/
theorem Keeps.mappings (h : f.Keeps root input i a ts) (hs : Stands i.text.toList (a.body ts))
    (hr : ∀ m ∈ Piece.marksAll 0 (a.body ts), ∀ p : Position,
      p.place = placeAt i.text.toList m.src → f.resolves input p = true) :
    f.mappings .skip .start (f.print root) =
      (Piece.marksAll 0 (a.body ts)).map (Mark.mapping i.text.toList input) := by
  have hbehind {before behind : List (Piece (NodeId × Parsed))}
      (hx : body root a ts = before ++ behind) :
      f.mappings .skip (OutputPlace.start.afterChars (Piece.chars before))
        ((behind ++ Piece.gap (a.wording.slot "after")).map Piece.fragment) =
      (Piece.marksAll (byteSize (Piece.chars before)) (behind.map (Piece.map Prod.snd))).map
        (Mark.mapping i.text.toList input) := by
    induction behind generalizing before with
    | nil => exact mappings_gap f _ _ _
    | cons x behind ih =>
      have hrest := ih (hx.trans (List.append_cons before x behind))
      rw [Piece.chars_append, OutputPlace.afterChars_append, byteSize_append, Piece.chars_cons,
        Piece.chars_nil, List.append_nil] at hrest
      rw [List.cons_append, List.map_cons, Forest.mappings, h.fragmentMappings hs hr hx,
        OutputPlace.after_eq, Piece.fragment_text, hrest, List.map_cons, Piece.marksAll,
        List.map_append, Piece.map_text]
  have hall := hbehind (List.nil_append (body root a ts)).symm
  rw [map_body] at hall
  rw [h.print, h.pieces]
  exact hall

/-! ## Where nodes start -/

/-- Whether a declaration starts with the mark of a hack in the text it was read from. -/
def startsWithHack (f : Forest) (text : List Char) (id : NodeId) : Bool :=
  f.kind id = .declaration &&
    ((f.source id).start.bind fun p => charAt? text p.offset).any fun c => c = '*' || c = '_'

theorem Keeps.not_behindHack (h : f.Keeps root input i a ts)
    (hb : b ∈ preorderAll (numberedAll (root + 1) ts))
    (hhack : f.startsWithHack i.text.toList b.1 = false) {done rest : List Char}
    (ht : i.text.toList = done ++ rest) : ¬b.2.BehindHack done := by
  rintro ⟨hk, front, c, rfl, hc, hs, -⟩
  rw [List.append_assoc] at ht
  have hoffset : (i.position b.2.start).offset = b.2.start := by
    rw [hs, Input.position, ht]
    exact (Position.ofOffset_append front _).2
  have hkind : f.kind b.1 = .declaration := by
    show (f.data b.1).kind = _
    rw [h.data hb, hk]
  have hchar : charAt? i.text.toList b.2.start = some c := by
    rw [ht, hs]
    exact charAt?_append front c rest
  simp [startsWithHack, hkind, h.source hb, hoffset, hchar] at hhack
  rcases hc with rfl | rfl
  · exact absurd rfl hhack.1
  · exact absurd rfl hhack.2

/-- A text without hacks. -/
theorem Reads.stands (h : f.Reads root input i a ts)
    (hhack : ∀ id ∈ f.descendants root, f.startsWithHack i.text.toList id = false) :
    Stands i.text.toList (a.body ts) := by
  obtain ⟨⟨rest, htext⟩, hplaced⟩ := h.body_spec
  refine ⟨⟨rest, htext⟩, hplaced, fun x hx n hn => ?_, ?_⟩
  · exact isPieceOf_of_memAll hn ts h.formatted.children hx
  · intro before x behind n hx hn
    rw [← map_body root] at hx
    obtain ⟨xs, ys, hbody, rfl, hys⟩ := List.map_eq_append_iff.1 hx
    obtain ⟨y, zs, rfl, rfl, rfl⟩ := List.map_eq_cons_iff.1 hys
    obtain ⟨b, hb, rfl⟩ := Option.map_eq_some_iff.1 hn
    have hmem := mem_of_body (x := y) (by rw [hbody]; simp) hb
    rw [← map_body root, hbody, List.map_append, Piece.chars_append, List.append_assoc] at htext
    refine h.keeps.not_behindHack hmem (hhack _ ?_) htext
    rw [h.keeps.descendants]
    exact List.mem_map_of_mem hmem

end

end Forest

end Stylesheet
