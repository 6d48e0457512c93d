import Stylesheet.Proofs.Forest.Plant
import Stylesheet.Proofs.Print.Pieces

/-!
# Nodes with all their formatting

A tree is `Formatted` when every node has the slots that the printer asks for. `print_of_hangs`:
such a tree is printed as its own pieces, whatever else the forest holds: no example is looked up
and nothing is remembered.
-/

set_option autoImplicit false

namespace Stylesheet

variable {α β : Type}

/-! ## Formatted trees -/

namespace Wording

/-- The node has no block and all the slots that are asked for then. -/
def LeafFormatted (w : Wording) : Prop :=
  w.raws.contains "before" ∧
  match w.data with
  | .declaration _ _ _ => w.raws.contains "between"
  | .comment _ => w.raws.contains "left" ∧ w.raws.contains "right"
  | .atRule _ _ => True
  | _ => False

/-- Only a rule has a semicolon of its own. -/
theorem LeafFormatted.own_eq {w : Wording} (h : w.LeafFormatted) : w.own = "" := by
  obtain ⟨-, h⟩ := h
  unfold own
  split
  · next hd => simp [hd] at h
  · rfl

/-- The node has a block and all the slots that are asked for then. -/
structure BlockFormatted (w : Wording) : Prop where
  data : w.data.kind = .rule ∨ w.data.kind = .atRule
  before : w.raws.contains "before"
  between : w.raws.contains "between"
  after : w.raws.contains "after"

theorem data_ne_root {w : Wording} (h : w.LeafFormatted ∨ w.BlockFormatted) : w.data ≠ .root := by
  intro he
  rcases h with ⟨-, h⟩ | h
  · rw [he] at h
    exact h
  · rcases h.data with hk | hk <;> rw [he] at hk <;> cases hk

end Wording

namespace Tree

mutual

/-- Every node has the slots that are asked for. -/
def Formatted (w : α → Wording) : Tree α → Prop
  | .leaf a => (w a).LeafFormatted
  | .block a ts =>
    (w a).BlockFormatted ∧ (ts ≠ [] → (w a).raws.contains "semicolon") ∧ FormattedAll w ts

/-- Every node of the trees has the slots that are asked for. -/
def FormattedAll (w : α → Wording) : List (Tree α) → Prop
  | [] => True
  | t :: ts => Formatted w t ∧ FormattedAll w ts

end

theorem formattedAll_iff {w : α → Wording} {ts : List (Tree α)} :
    FormattedAll w ts ↔ ∀ t ∈ ts, t.Formatted w := by
  induction ts with
  | nil => simp [FormattedAll]
  | cons t ts ih => simp [FormattedAll, ih]

/-- A root whose nodes have the slots that are asked for. -/
structure RootFormatted (w : α → Wording) (a : α) (ts : List (Tree α)) : Prop where
  data : (w a).data = .root
  semicolon : ts ≠ [] → (w a).raws.contains "semicolon"
  children : FormattedAll w ts

mutual

theorem formatted_map (w : β → Wording) (g : α → β) : (t : Tree α) →
    ((t.map g).Formatted w ↔ t.Formatted (w ∘ g))
  | .leaf a => Iff.rfl
  | .block a ts => by
    have he : mapAll g ts = [] ↔ ts = [] := by simp [mapAll_eq]
    simp [map, Formatted, formattedAll_map w g ts, he]

theorem formattedAll_map (w : β → Wording) (g : α → β) : (ts : List (Tree α)) →
    (FormattedAll w (mapAll g ts) ↔ FormattedAll (w ∘ g) ts)
  | [] => Iff.rfl
  | t :: ts => by simp [mapAll, FormattedAll, formatted_map w g t, formattedAll_map w g ts]

end

mutual

/-- No root stands in a formatted tree. -/
theorem Formatted.data_ne_root {w : α → Wording} {b : α} : {t : Tree α} → t.Formatted w →
    b ∈ t.preorder → (w b).data ≠ .root
  | .leaf a, h, hb => by
    rw [preorder, List.mem_singleton] at hb
    exact hb ▸ Wording.data_ne_root (.inl h)
  | .block a ts, h, hb => by
    rw [preorder, List.mem_cons] at hb
    rcases hb with rfl | hb
    · exact Wording.data_ne_root (.inr h.1)
    · exact FormattedAll.data_ne_root h.2.2 hb

theorem FormattedAll.data_ne_root {w : α → Wording} {b : α} : {ts : List (Tree α)} →
    FormattedAll w ts → b ∈ preorderAll ts → (w b).data ≠ .root
  | [], _, hb => by cases hb
  | t :: ts, h, hb => by
    rw [preorderAll, List.mem_append] at hb
    rcases hb with hb | hb
    · exact h.1.data_ne_root hb
    · exact FormattedAll.data_ne_root h.2 hb

end

/-- A block that is no root is printed between its opening and its end. -/
theorem pieces_of_blockFormatted {w : α → Wording} {a : α} (h : (w a).BlockFormatted)
    (ts : List (Tree α)) (s v : Bool) : (Tree.block a ts).pieces w s v =
      opening w a :: piecesAll w (w a).closed (w a).closed ts ++ ending w a := by
  have hroot := Wording.data_ne_root (.inr h)
  simp only [pieces]

/-- A comment is printed without a semicolon, and its end can always be seen. -/
theorem pieces_of_isComment {w : α → Wording} {t : Tree α} (hf : t.Formatted w)
    (h : t.isComment w = true) (s v s' v' : Bool) : t.pieces w s v = t.pieces w s' v' := by
  simp only [isComment, decide_eq_true_eq] at h
  cases t with
  | leaf a =>
    simp only [label] at h
    cases hd : (w a).data <;> simp [hd, NodeData.kind] at h
    simp [pieces, Wording.leaf, hd, NodeData.kind]
  | block a ts =>
    simp only [label] at h
    rcases hf.1.data with hk | hk <;> simp [hk] at h

end Tree

/-- The wording of a node. -/
def Element.wording (e : Element) : Wording := ⟨e.data, e.raws⟩

/-- The fragment that a piece of a numbered tree stands for. -/
def Piece.fragment (x : Piece (NodeId × α)) : Fragment := ⟨x.text, x.node.map Prod.fst, x.role⟩

@[simp] theorem Piece.fragment_text (x : Piece (NodeId × α)) : x.fragment.text = x.text := rfl

@[simp] theorem map_fragment_gap (text : String) :
    (Piece.gap text : List (Piece (NodeId × α))).map Piece.fragment = Fragment.between text := by
  by_cases h : text = "" <;> simp [Piece.gap, Fragment.between, h, Piece.fragment]

/-! ## Steps of the printer -/

namespace Printing

/-- The step writes the fragments whatever is remembered, and remembers nothing. -/
def Writes (p : Printing) (fs : List Fragment) : Prop := ∀ memo, p memo = (fs, memo)

theorem writes_emit (fs : List Fragment) : (emit fs).Writes fs := fun _ => rfl

theorem Writes.append {p q : Printing} {fs gs : List Fragment} (hp : p.Writes fs)
    (hq : q.Writes gs) : (p ++ q).Writes (fs ++ gs) := by
  intro memo
  show Printing.append p q memo = _
  simp only [Printing.append, hp memo, hq memo]

end Printing

theorem Raws.toText_of_get? {r : Raws} {slot : String} {v : RawValue} (h : r.get? slot = some v) :
    v.toText = (r.text? slot).getD "" := by
  simp [Raws.text?, h]

/-! ## The last statement -/

namespace Forest

open Printing Stylesheet.Tree

/-- The child at `lastIndex` is the last one that is not a comment. -/
theorem lastIndex_eq_iff {k : NodeKind} (hk : k ≠ .comment) (ks ls : List NodeKind) :
    ks.length = lastIndex (ks ++ k :: ls) ↔ ∀ l ∈ ls, l = .comment := by
  have hk' : decide (k = .comment) = false := by simpa using hk
  have hlen : lastIndex (ks ++ k :: ls) = ks.length + ls.length -
      ((ls.reverse ++ k :: ks.reverse).takeWhile fun x => decide (x = .comment)).length := by
    simp only [lastIndex, List.reverse_append, List.reverse_cons, List.append_assoc,
      List.cons_append, List.nil_append, List.length_append, List.length_cons]
    omega
  rw [hlen]
  by_cases hall : ∀ l ∈ ls, l = .comment
  · rw [List.takeWhile_append_of_pos (by simpa using hall), List.takeWhile_cons, hk']
    simpa using hall
  · have hlt : ((ls.reverse ++ k :: ks.reverse).takeWhile
        fun x => decide (x = .comment)).length < ls.length := by
      rw [List.takeWhile_append]
      have hsub := List.takeWhile_sublist (l := ls.reverse) (fun x => decide (x = .comment))
      split
      · next h =>
        refine absurd (fun l hl => ?_) hall
        have hm := List.mem_reverse.2 hl
        rw [← hsub.eq_of_length h] at hm
        simpa using List.all_eq_true.1 List.all_takeWhile l hm
      · next h =>
        have := hsub.length_le
        rw [List.length_reverse] at this h
        omega
    constructor
    · omega
    · exact fun h => absurd h hall

/-! ## Nodes -/

section
variable {f : Forest} {id : NodeId} {e : Element}

/-- A step that depends on a slot that the node has. -/
theorem writes_withRaw {own : String} {aspect : Aspect} {k : RawValue → Printing}
    {fs : List Fragment} (h : (f.raws id).contains own)
    (hk : ∀ v, (f.raws id).get? own = some v → (k v).Writes fs) :
    (f.withRaw id own aspect k).Writes fs := by
  obtain ⟨v, hv⟩ := Option.isSome_iff_exists.1 h
  intro memo
  have hraw : f.raw memo id (some own) aspect = (v, memo) := by simp [raw, hv]
  simp only [withRaw, hraw]
  exact hk v hv memo

/-- A step that depends on a slot of a node without a parent, which is looked up nowhere. -/
theorem writes_withRaw_of_parent?_eq_none {own : String} {aspect : Aspect}
    {k : RawValue → Printing} {fs : List Fragment} (hp : f.parent? id = none)
    (hk : ∀ v, (k v).Writes fs) : (f.withRaw id own aspect k).Writes fs := by
  intro memo
  have hraw : ∃ v, f.raw memo id (some own) aspect = (v, memo) := by
    unfold raw
    split
    · exact ⟨_, rfl⟩
    · rw [hp]
      exact ⟨_, rfl⟩
  obtain ⟨v, hv⟩ := hraw
  simp only [withRaw, hv]
  exact hk v memo

theorem valueText_eq (hd : f.data id = e.data) (hr : f.raws id = e.raws) (slot : String) :
    f.valueText id slot = e.wording.part slot := by
  simp [valueText, Wording.part, Element.wording, hd, hr]

theorem rawText?_eq (hr : f.raws id = e.raws) (slot : String) :
    (f.rawText? id slot).getD "" = e.wording.slot slot := by
  simp [rawText?, Wording.slot, Element.wording, hr]

theorem atRuleHead_eq (hd : f.data id = e.data) (hr : f.raws id = e.raws) {name params : String}
    (he : e.data = .atRule name params) : f.atRuleHead id = e.wording.head := by
  simp only [atRuleHead, Wording.head, valueText_eq hd hr, rawText?, hr]
  simp [Element.wording, hd, he, NodeData.params, NodeData.name]

/-- A node without a block is written as it says. -/
theorem writes_leaf {parent : Option NodeId} (hn : f.Sits id e parent none)
    (hf : e.wording.LeafFormatted) (semicolon isEmpty : Bool) (body : Printing) :
    (f.printNode id semicolon isEmpty body).Writes
      [⟨e.wording.leaf semicolon, some id, none⟩] := by
  have hd := hn.data
  have hr := hn.raws
  have hv := @valueText_eq f id e hd hr
  have hb : (f.node id).hasBlock = false := hn.hasBlock
  obtain ⟨-, hf⟩ := hf
  unfold printNode
  cases he : e.data with
  | root => simp [Element.wording, he] at hf
  | rule s => simp [Element.wording, he] at hf
  | atRule name ps =>
    simp only [hd, he, hb, Bool.false_eq_true, if_false, atRuleHead_eq hd hr he, rawText?_eq hr]
    have : e.wording.leaf semicolon = e.wording.head ++ e.wording.slot "between" ++
        (if semicolon then ";" else "") := by simp [Wording.leaf, Element.wording, he]
    rw [this]
    exact writes_emit _
  | declaration prop value important =>
    simp only [Element.wording, he] at hf
    simp only [hd, he, printDeclaration]
    refine writes_withRaw (by rw [hr]; exact hf) fun v hb => ?_
    rw [hr] at hb
    simp only [Raws.toText_of_get? hb, hv, NodeData.prop, NodeData.important, rawText?, hr]
    have : e.wording.leaf semicolon = prop ++ (e.raws.text? "between").getD "" ++
        e.wording.part "value" ++
        (if important then (e.raws.text? "important").getD " !important" else "") ++
        (if semicolon then ";" else "") := by
      simp [Wording.leaf, Wording.slot, Element.wording, he]
    rw [this]
    exact writes_emit _
  | comment text =>
    simp only [Element.wording, he] at hf
    simp only [hd, he, printComment]
    refine writes_withRaw (by rw [hr]; exact hf.1) fun l hl => ?_
    refine writes_withRaw (by rw [hr]; exact hf.2) fun r hr' => ?_
    rw [hr] at hl hr'
    simp only [Raws.toText_of_get? hl, Raws.toText_of_get? hr', NodeData.text]
    have : e.wording.leaf semicolon = "/*" ++ (e.raws.text? "left").getD "" ++ text ++
        (e.raws.text? "right").getD "" ++ "*/" := by
      simp [Wording.leaf, Wording.slot, Element.wording, he]
    rw [this]
    exact writes_emit _

/-- A block is written as it says, around what its body writes. -/
theorem writes_printBlock (hr : f.raws id = e.raws) (hb : e.raws.contains "between")
    (ha : e.raws.contains "after") (head : String) {isEmpty : Bool} {body : Printing}
    {fs : List Fragment} (hbody : isEmpty = false → body.Writes fs)
    (hempty : isEmpty = true → fs = []) :
    (f.printBlock id head isEmpty body).Writes
      (⟨head ++ e.wording.slot "between" ++ "\x7b", some id, some .start⟩ :: fs ++
        (Fragment.between (e.wording.slot "after") ++ [⟨"\x7d", some id, some .stop⟩])) := by
  have hclose : ∀ aspect, (f.withRaw id "after" aspect fun after =>
      emit (Fragment.between after.toText ++ [⟨"\x7d", some id, some .stop⟩])).Writes
      (Fragment.between (e.wording.slot "after") ++ [⟨"\x7d", some id, some .stop⟩]) := by
    intro aspect
    refine writes_withRaw (by rw [hr]; exact ha) fun v hv => ?_
    rw [hr] at hv
    rw [Raws.toText_of_get? hv]
    exact writes_emit _
  simp only [printBlock]
  refine writes_withRaw (by rw [hr]; exact hb) fun v hv => ?_
  rw [hr] at hv
  rw [Raws.toText_of_get? hv]
  cases isEmpty with
  | true =>
    rw [hempty rfl]
    exact (writes_emit _).append (hclose _)
  | false => exact (writes_emit [_]).append ((hbody rfl).append (hclose _))

/-- A node with a block is written as it says, around what its body writes. -/
theorem writes_block {parent : Option NodeId} {ids : List NodeId}
    (hn : f.Sits id e parent (some ids)) (hf : e.wording.BlockFormatted) (semicolon : Bool)
    {isEmpty : Bool} {body : Printing} {fs : List Fragment} (hbody : isEmpty = false → body.Writes fs)
    (hempty : isEmpty = true → fs = []) :
    (f.printNode id semicolon isEmpty body).Writes
      ((opening (Element.wording ∘ Prod.snd) (id, e)).fragment :: fs ++
        (ending (Element.wording ∘ Prod.snd) (id, e)).map Piece.fragment) := by
  have hd := hn.data
  have hr := hn.raws
  have hb : (f.node id).hasBlock = true := hn.hasBlock
  obtain ⟨hk, -, hbetween, hafter⟩ := hf
  have hblock := writes_printBlock hr hbetween hafter e.wording.head hbody hempty
  unfold printNode
  cases he : e.data with
  | root => simp [Element.wording, he, NodeData.kind] at hk
  | declaration => simp [Element.wording, he, NodeData.kind] at hk
  | comment => simp [Element.wording, he, NodeData.kind] at hk
  | atRule name ps =>
    have hown : e.wording.own = "" := by simp [Wording.own, Element.wording, he]
    simp only [hd, he, hb, if_true, atRuleHead_eq hd hr he]
    simpa [opening, ending, Piece.fragment, map_fragment_gap, hown] using hblock
  | rule s =>
    have hown : e.wording.own = (f.rawText? id "ownSemicolon").getD "" := by
      rw [rawText?_eq hr]
      simp [Wording.own, Element.wording, he]
    have hhead : f.valueText id "selector" = e.wording.head := by
      rw [valueText_eq hd hr]
      simp [Wording.head, Element.wording, he]
    simp only [hd, he, ← hown, hhead]
    have := hblock.append (writes_emit (if e.wording.own = "" then []
      else [⟨e.wording.own, some id, some .stop⟩]))
    by_cases h : e.wording.own = ""
    · simpa [opening, ending, Piece.fragment, map_fragment_gap, h] using this
    · simpa [opening, ending, Piece.fragment, map_fragment_gap, h] using this

end

/-! ## Trees -/

/-- The printer's view of a numbered tree. -/
abbrev numberedWording : NodeId × Element → Wording := Element.wording ∘ Prod.snd

theorem kind_of_hangs {f : Forest} {parent : Option NodeId} {t : Tree (NodeId × Element)}
    (h : f.Hangs parent t) : f.kind t.label.1 = t.label.2.data.kind := by
  cases t with
  | leaf a => exact Sits.kind h
  | block a ts => exact h.1.kind

theorem raws_of_hangs {f : Forest} {parent : Option NodeId} {t : Tree (NodeId × Element)}
    (h : f.Hangs parent t) : f.raws t.label.1 = t.label.2.raws := by
  cases t with
  | leaf a => exact Sits.raws h
  | block a ts => exact h.1.raws

theorem HangsAll.kinds {f : Forest} {parent : NodeId} : {ts : List (Tree (NodeId × Element))} →
    f.HangsAll parent ts → (mapAll Prod.fst ts).map (fun t => f.kind t.label) =
      ts.map fun t => (numberedWording t.label).data.kind
  | [], _ => rfl
  | t :: ts, h => by
    simp only [mapAll, List.map_cons, label_map, kind_of_hangs h.1, h.2.kinds]
    rfl

/-- The children of a node, written with the semicolons of `printChildren`, are its pieces. -/
theorem last_of_kinds (ts : List (Tree (NodeId × Element))) :
    ∀ us t vs, ts = us ++ t :: vs → t.isComment numberedWording = false →
      (us.length = lastIndex (ts.map fun t => (numberedWording t.label).data.kind) ↔
        ∀ v ∈ vs, v.isComment numberedWording = true) := by
  rintro us t vs rfl ht
  have hk : (numberedWording t.label).data.kind ≠ .comment := by simpa [isComment] using ht
  have := lastIndex_eq_iff hk (us.map fun t => (numberedWording t.label).data.kind)
    (vs.map fun t => (numberedWording t.label).data.kind)
  rw [List.length_map] at this
  simpa [isComment] using this

theorem formatted_before {w : α → Wording} {t : Tree α} (h : t.Formatted w) :
    (w t.label).raws.contains "before" := by
  cases t with
  | leaf a => exact h.1
  | block a ts => exact h.1.before

mutual

theorem writes_tree {f : Forest} : {parent : Option NodeId} → (t : Tree (NodeId × Element)) →
    f.Hangs parent t → t.Formatted numberedWording → (semicolon visible : Bool) →
    (f.printTree semicolon (t.map Prod.fst)).Writes
      ((t.pieces numberedWording semicolon visible).map Piece.fragment)
  | _, .leaf a, hh, hf, semicolon, visible => by
    exact writes_leaf hh hf semicolon true _
  | _, .block a ts, hh, hf, semicolon, visible => by
    have hr : f.raws a.1 = a.2.raws := raws_of_hangs hh
    have hempty : (mapAll Prod.fst ts).isEmpty = ts.isEmpty := by simp [mapAll_eq]
    rw [pieces_of_blockFormatted hf.1, List.map_append, List.map_cons, map, printTree, hempty]
    refine writes_block hh.1 hf.1 semicolon (fun hne => ?_) (fun he => ?_)
    · rw [List.isEmpty_eq_false_iff] at hne
      refine writes_withRaw (by rw [hr]; exact hf.2.1 hne) fun v hv => ?_
      have hclosed : (numberedWording a).closed = v.isTruthy := by
        rw [hr] at hv
        simp [Wording.closed, Element.wording, hv]
      rw [hclosed, hh.2.kinds]
      refine writes_children ts hh.2 hf.2.2 _ 0 _ _ fun us t vs he ht => ?_
      rw [Nat.zero_add]
      exact last_of_kinds ts us t vs he ht
    · rw [List.isEmpty_iff.1 he]
      rfl

theorem writes_children {f : Forest} : {parent : NodeId} → (ts : List (Tree (NodeId × Element))) →
    f.HangsAll parent ts → FormattedAll numberedWording ts →
    (last index : Nat) → (semicolon visible : Bool) →
    (∀ us t vs, ts = us ++ t :: vs → t.isComment numberedWording = false →
      (index + us.length = last ↔ ∀ v ∈ vs, v.isComment numberedWording = true)) →
    (f.printChildren last semicolon index (mapAll Prod.fst ts)).Writes
      ((piecesAll numberedWording semicolon visible ts).map Piece.fragment)
  | _, [], _, _, _, _, _, _, _ => writes_emit []
  | _, t :: ts, hh, hf, last, index, semicolon, visible, hlast => by
    have hr := raws_of_hangs hh.1
    simp only [mapAll, printChildren, piecesAll, List.map_append, map_fragment_gap, label_map]
    refine ((writes_withRaw ?_ fun v hv => ?_).append ?_).append ?_
    · rw [hr]; exact formatted_before hf.1
    · rw [hr] at hv
      rw [Raws.toText_of_get? hv]
      exact writes_emit _
    · -- the semicolon that `printChildren` asks for matters only behind a statement
      have hs : t.isComment numberedWording = false →
          (index != last || semicolon) = (semicolon || ts.any (!·.isComment numberedWording)) := by
        intro ht
        have h := hlast [] t ts rfl ht
        rw [List.length_nil, Nat.add_zero] at h
        by_cases hc : ∀ v ∈ ts, v.isComment numberedWording = true
        · have hany : (ts.any (!·.isComment numberedWording)) = false := by simpa using hc
          simp [h.2 hc, hany]
        · have hany : (ts.any (!·.isComment numberedWording)) = true := by simpa using hc
          have hne : index ≠ last := fun he => hc (h.1 he)
          simp [hne, hany]
      have := writes_tree t hh.1 hf.1 (index != last || semicolon) (visible || !ts.isEmpty)
      cases ht : t.isComment numberedWording with
      | true => rwa [pieces_of_isComment hf.1 ht _ _ (index != last || semicolon)
          (visible || !ts.isEmpty)]
      | false =>
        rw [hs ht] at this ⊢
        exact this
    · refine writes_children ts hh.2 hf.2 last (index + 1) semicolon visible ?_
      intro us u vs he hu
      have := hlast (t :: us) u vs (by rw [he]; rfl) hu
      rw [List.length_cons] at this
      rw [← this]
      omega

end

/-- **A root with all its formatting is printed as its own pieces.** -/
theorem print_of_hangs {f : Forest} {a : NodeId × Element} {ts : List (Tree (NodeId × Element))}
    (hh : f.Hangs none (.block a ts)) (hs : (Tree.block a ts).size ≤ f.size)
    (hf : RootFormatted numberedWording a ts) :
    f.print a.1 = ((Tree.block a ts).pieces numberedWording false false).map Piece.fragment := by
  have hr : f.raws a.1 = a.2.raws := raws_of_hangs hh
  have hd : f.data a.1 = .root := hh.1.data.trans hf.data
  have hp : f.parent? a.1 = none := hh.1.parent
  have hout : f.outline a.1 = (Tree.block a ts).map Prod.fst := outline_of_hangs hh hs
  have hbody : (f.withRaw a.1 "semicolon" .semicolon fun v =>
      f.printChildren (lastIndex ((mapAll Prod.fst ts).map fun t => f.kind t.label)) v.isTruthy 0
        (mapAll Prod.fst ts)).Writes ((piecesAll numberedWording (numberedWording a).closed
          (numberedWording a).closed ts).map Piece.fragment) := by
    cases ts with
    | nil => exact writes_withRaw_of_parent?_eq_none hp fun v => writes_emit []
    | cons t ts =>
      refine writes_withRaw (by rw [hr]; exact hf.semicolon (by simp)) fun v hv => ?_
      have hclosed : (numberedWording a).closed = v.isTruthy := by
        rw [hr] at hv
        simp [Wording.closed, Element.wording, hv]
      rw [hclosed, hh.2.kinds]
      refine writes_children _ hh.2 hf.children _ 0 _ _ fun us t vs he ht => ?_
      rw [Nat.zero_add]
      exact last_of_kinds _ us t vs he ht
  have hafter : (f.rawText? a.1 "after").getD "" = (numberedWording a).slot "after" :=
    rawText?_eq hr "after"
  have hpieces : (Tree.block a ts).pieces numberedWording false false =
      piecesAll numberedWording (numberedWording a).closed (numberedWording a).closed ts ++
        Piece.gap ((numberedWording a).slot "after") := by
    simp only [pieces, hf.data]
  have htree : (f.printTree false ((Tree.block a ts).map Prod.fst)).Writes
      (((Tree.block a ts).pieces numberedWording false false).map Piece.fragment) := by
    rw [hpieces, List.map_append, map_fragment_gap, map, printTree]
    unfold printNode
    simp only [hd, hafter]
    exact hbody.append (writes_emit _)
  rw [print, hout, htree]

end Forest

end Stylesheet
