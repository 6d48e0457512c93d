import Stylesheet.Proofs.Forest.Appended
import Stylesheet.Proofs.Parse.Spaced
import Stylesheet.Proofs.Print.Slots

/-!
# What is printed for one node

`Forest.share` is what a pass over a tree writes for one of its nodes: what stands before the node,
and all of it. `Strip.bare` leaves the blanks and comments out of all formatting.
`WellFormed.writes_share`: every pass over a node above writes the share. `bare_scriptTree`: two
trees whose nodes are written alike, one by one, are the same text but for blanks and comments.
-/

set_option autoImplicit false

namespace Stylesheet

open Relation Stylesheet.Text Stylesheet.Tree

/-! ## Without blanks and comments -/

/-- What a stretch says apart from blanks and comments in formatting. -/
def Stretch.bare (s : Stretch) : List Char :=
  if s.slot.isSome then solid s.text.toList else s.text.toList

@[simp] theorem Stretch.bare_word (text : String) : (word text).bare = text.toList := rfl

@[simp] theorem Stretch.bare_formatting (id : NodeId) (slot : String) (v : RawValue) :
    (formatting id slot v).bare = solid v.toText.toList := rfl

namespace Strip

/-- What is written, apart from blanks and comments in formatting. -/
def bare (xs : List Strip) : List Char := xs.flatMap fun x => x.stretches.flatMap Stretch.bare

@[simp] theorem bare_nil : bare [] = [] := rfl

@[simp] theorem bare_cons (x : Strip) (xs : List Strip) :
    bare (x :: xs) = x.stretches.flatMap Stretch.bare ++ bare xs := rfl

@[simp] theorem bare_append (xs ys : List Strip) : bare (xs ++ ys) = bare xs ++ bare ys :=
  List.flatMap_append

@[simp] theorem bare_between (id : NodeId) (slot : String) (v : RawValue) :
    bare (between id slot v) = solid v.toText.toList := by
  unfold between
  by_cases h : v.toText = "" <;> simp [h]

end Strip

namespace Forest

open Script Strip

variable {f g : Forest} {id x y r : NodeId} {semicolon isEmpty : Bool} {body : Script}
  {xs ys : List Strip}

/-! ## Nodes below -/

theorem lt_size_of_mem_descendants (h : x ∈ f.descendants r) : r < f.size := by
  apply lt_size_of_hasBlock
  unfold Forest.descendants outline at h
  cases hn : f.size with
  | zero =>
    rw [hn] at h
    cases h
  | succ k =>
    rw [hn, outlineWithin] at h
    cases hids : (f.node r).children with
    | none =>
      rw [hids] at h
      cases h
    | some ids => rw [Node.hasBlock, hids, Option.isSome_some]

/-- The nodes below a node are those that can be reached in one step or more. -/
theorem WellFormed.mem_descendants_iff (h : f.WellFormed) (hr : r < f.size) :
    x ∈ f.descendants r ↔ TransGen f.Child r x := by
  have hshows := h.shows_outline hr
  have hlabel := label_outline f r
  rw [TransGen.head'_iff, Forest.descendants]
  cases ht : f.outline r with
  | leaf id =>
    rw [ht] at hshows hlabel
    subst hlabel
    simp only [Child]
    simp [Tree.descendants, Tree.children, preorderAll, label, children_of_leaf hshows]
  | block id ts =>
    rw [ht] at hshows hlabel
    subst hlabel
    simp only [Tree.descendants, Tree.children, mem_preorderAll_iff hshows.2, label, Child,
      children_of_block hshows.1]

/-- No root stands below a node. -/
theorem WellFormed.kind_ne_root (h : f.WellFormed) (hx : TransGen f.Child r x) :
    f.kind x ≠ .root := by
  obtain ⟨p, -, hp⟩ := TransGen.tail'_iff.1 hx
  exact h.root p x hp

/-! ## The share of a node -/

/-- What a pass writes for a node among its siblings: what stands before it, and all of it. -/
def share (f : Forest) (semicolon : Bool) (id : NodeId) : List Strip :=
  between id "before" (f.resolve id "before" .before) ++
    (f.scriptTree semicolon (f.outline id)).alone f

/-- The share of a node is part of what is written. -/
def HasShare (f : Forest) (id : NodeId) (xs : List Strip) : Prop :=
  ∃ semicolon before behind, xs = before ++ f.share semicolon id ++ behind

theorem HasShare.append (h : f.HasShare id xs) (ys : List Strip) : f.HasShare id (xs ++ ys) := by
  obtain ⟨semicolon, before, behind, rfl⟩ := h
  exact ⟨semicolon, before, behind ++ ys, by simp⟩

theorem HasShare.prepend (h : f.HasShare id xs) (ys : List Strip) : f.HasShare id (ys ++ xs) := by
  obtain ⟨semicolon, before, behind, rfl⟩ := h
  exact ⟨semicolon, ys ++ before, behind, by simp⟩

/-- A node with children is written around them. -/
theorem HasShare.node (h : f.HasShare x (body.alone f)) (hid : f.kind id = .root ∨ f.Opens id) :
    f.HasShare x ((f.scriptNode id semicolon false body).alone f) := by
  have hkind : f.kind id = (f.data id).kind := rfl
  have hblock (head : String) : f.HasShare x ((scriptBlock id head false body).alone f) := by
    simp only [scriptBlock, alone, Bool.false_eq_true, if_false, alone_append]
    exact (h.append _).prepend _
  unfold Opens at hid
  rw [hkind] at hid
  unfold scriptNode
  cases hd : f.data id with
  | root =>
    rw [alone_append]
    exact h.append _
  | rule selector =>
    rw [alone_append]
    exact (hblock _).append _
  | atRule name params =>
    have hblocks : (f.node id).hasBlock = true := by simpa [hd, NodeData.kind] using hid
    rw [hblocks]
    exact hblock _
  | declaration prop value important => simp [hd, NodeData.kind] at hid
  | comment text => simp [hd, NodeData.kind] at hid

mutual

/-- The nodes below the top of a tree have their shares in what is written for it. -/
theorem WellFormed.hasShare_tree (h : f.WellFormed) (semicolon : Bool) : (t : Tree NodeId) →
    f.Shows t → x ∈ t.descendants → f.HasShare x ((f.scriptTree semicolon t).alone f)
  | .leaf id, _, hx => by cases hx
  | .block id [], _, hx => by cases hx
  | .block id (t :: ts), hshows, hx => by
    have hids := children_of_block hshows.1
    apply HasShare.node
    · refine h.hasShare_children _ _ 0 (t :: ts) hshows.2 (fun u hu => ?_) hx
      apply h.lt_size (p := id)
      rw [hids]
      exact List.mem_map_of_mem hu
    · apply h.opens_of_children
      rw [hids]
      exact List.cons_ne_nil _ _

theorem WellFormed.hasShare_children (h : f.WellFormed) (last : Nat) (semicolon : Bool)
    (index : Nat) : (ts : List (Tree NodeId)) → f.ShowsAll ts → (∀ t ∈ ts, t.label < f.size) →
    x ∈ preorderAll ts → f.HasShare x ((f.scriptChildren last semicolon index ts).alone f)
  | [], _, _, hx => by cases hx
  | t :: ts, hshows, hlt, hx => by
    obtain ⟨hlabel, hlt⟩ := List.forall_mem_cons.1 hlt
    rw [preorderAll, List.mem_append, preorder_eq, List.mem_cons] at hx
    rw [scriptChildren, alone_append, alone_append]
    rcases hx with (rfl | hx) | hx
    · refine HasShare.append ⟨index != last || semicolon, [], [], ?_⟩ _
      rw [share, h.outline_eq hlabel hshows.1]
      simp [alone]
    · exact ((h.hasShare_tree _ t hshows.1 hx).prepend _).append _
    · exact (h.hasShare_children last semicolon (index + 1) ts hshows.2 hlt hx).prepend _

end

/-- The pass over `r` writes `xs` for a node below. -/
def Writes (f : Forest) (r id : NodeId) (xs : List Strip) : Prop :=
  ∃ semicolon before behind, f.print r = (before ++ xs ++ behind).map Strip.fragment ∧
    xs = f.share semicolon id

/-- **A pass writes the share of every node below.** -/
theorem WellFormed.writes_share (h : f.WellFormed) (hr : r < f.size)
    (hx : x ∈ f.descendants r) : ∃ semicolon, f.Writes r x (f.share semicolon x) := by
  obtain ⟨semicolon, before, behind, hshare⟩ :=
    h.hasShare_tree false (f.outline r) (h.shows_outline hr) hx
  have hprint : f.print r = _ := congrArg Prod.fst (f.follows_scriptTree false (f.outline r) [])
  have halone : ((f.script r).run f []).output = (f.script r).alone f :=
    ((h.asks_script hr).run (f.faithful_nil _)).2.1
  refine ⟨semicolon, semicolon, before, behind, ?_, rfl⟩
  rw [hprint, ← hshare]
  exact congrArg (List.map Strip.fragment) halone

/-! ### Apart from blanks and comments -/

/-- The formatting of a node, apart from blanks and comments. -/
def solidIn (f : Forest) (id : NodeId) (slot : String) (a : Aspect) : List Char :=
  solid (f.resolve id slot a).toText.toList

theorem bare_block (f : Forest) (id : NodeId) (head : String) (isEmpty : Bool) (body : Script) :
    bare ((scriptBlock id head isEmpty body).alone f) =
      head.toList ++ f.solidIn id "between" .beforeOpen ++ '\x7b' ::
        ((if isEmpty then [] else bare (body.alone f)) ++
          f.solidIn id "after" (if isEmpty then .emptyBody else .after) ++ ['\x7d']) := by
  cases isEmpty <;> simp [scriptBlock, scriptEnd, alone, alone_append, own, solidIn]

/-- A node is followed by a semicolon or not. -/
theorem bare_node_semicolon (f : Forest) (id : NodeId) (semicolon isEmpty : Bool)
    (body : Script) : ∃ k, bare ((f.scriptNode id semicolon isEmpty body).alone f) =
      bare ((f.scriptNode id false isEmpty body).alone f) ++ List.replicate k ';' := by
  unfold scriptNode
  cases f.data id with
  | root => exact ⟨0, by simp⟩
  | rule selector => exact ⟨0, by simp⟩
  | atRule name params =>
    simp only
    split
    · exact ⟨0, by simp⟩
    · cases semicolon
      · exact ⟨0, by simp⟩
      · exact ⟨1, by simp [alone]⟩
  | declaration prop value important =>
    cases semicolon
    · exact ⟨0, by simp⟩
    · exact ⟨1, by simp [scriptDeclaration, alone]⟩
  | comment text => exact ⟨0, by simp⟩

theorem bare_share (f : Forest) (semicolon : Bool) (id : NodeId) : ∃ k,
    bare (f.share semicolon id) = f.solidIn id "before" .before ++
      bare ((f.scriptTree false (f.outline id)).alone f) ++ List.replicate k ';' := by
  obtain ⟨k, hk⟩ : ∃ k, bare ((f.scriptTree semicolon (f.outline id)).alone f) =
      bare ((f.scriptTree false (f.outline id)).alone f) ++ List.replicate k ';' := by
    cases f.outline id with
    | leaf a => exact f.bare_node_semicolon a semicolon true _
    | block a ts => exact f.bare_node_semicolon a semicolon ts.isEmpty _
  refine ⟨k, ?_⟩
  rw [share, bare_append, bare_between, hk, List.append_assoc]
  rfl

/-! ## Nodes that are written alike -/

/-- The node `y` of `g` is written like `x` in `f`, apart from blanks and comments. -/
structure WritesLike (f g : Forest) (x y : NodeId) : Prop where
  data : g.data y = f.data x
  raws : ∀ slot, slot ≠ "before" → slot ≠ "between" → slot ≠ "after" →
    (g.raws y).get? slot = (f.raws x).get? slot
  /-- What the printer asks for. -/
  asked : ∀ slot a, f.Asked x x slot a → g.solidIn y slot a = f.solidIn x slot a
  /-- What stands behind the parameters of an at-rule without a block. -/
  statement : f.kind x = .atRule → (f.node x).hasBlock = false →
    solid ((g.rawText? y "between").getD "").toList =
      solid ((f.rawText? x "between").getD "").toList
  semicolon : f.children x ≠ [] → (g.resolve y "semicolon" .semicolon).isTruthy =
    (f.resolve x "semicolon" .semicolon).isTruthy

namespace WritesLike

variable {s t : Script}

theorem rawText? (h : f.WritesLike g x y) {slot : String} (hb : slot ≠ "before")
    (hm : slot ≠ "between") (ha : slot ≠ "after") : g.rawText? y slot = f.rawText? x slot := by
  rw [Forest.rawText?, Raws.text?, h.raws slot hb hm ha, Forest.rawText?, Raws.text?]

theorem valueText (h : f.WritesLike g x y) {slot : String} (hb : slot ≠ "before")
    (hm : slot ≠ "between") (ha : slot ≠ "after") : g.valueText y slot = f.valueText x slot := by
  simp only [Forest.valueText, Raws.lexemeFor, h.raws slot hb hm ha, h.data]

theorem atRuleHead (h : f.WritesLike g x y) : g.atRuleHead y = f.atRuleHead x := by
  have hparams : g.valueText y "params" = f.valueText x "params" :=
    h.valueText (by decide) (by decide) (by decide)
  have hname : g.rawText? y "afterName" = f.rawText? x "afterName" :=
    h.rawText? (by decide) (by decide) (by decide)
  simp only [Forest.atRuleHead, h.data, hparams, hname]

theorem bare_block (h : f.WritesLike g x y) (ho : f.Opens x) (head : String)
    (hempty : isEmpty = (f.children x).isEmpty) (hbody : bare (t.alone g) = bare (s.alone f)) :
    bare ((scriptBlock y head isEmpty t).alone g) =
      bare ((scriptBlock x head isEmpty s).alone f) := by
  have hafter : g.solidIn y "after" (if isEmpty then .emptyBody else .after) =
      f.solidIn x "after" (if isEmpty then .emptyBody else .after) := by
    apply h.asked
    cases isEmpty with
    | true => exact .emptyBody ho (List.isEmpty_iff.1 hempty.symm)
    | false => exact .after ho fun he => by simp [he] at hempty
  rw [Forest.bare_block, Forest.bare_block, hbody, hafter, h.asked _ _ (.beforeOpen ho)]

/-- **One node is written alike**, around children that are. -/
theorem bare_node (h : f.WritesLike g x y) (hroot : f.kind x ≠ .root)
    (hblock : (g.node y).hasBlock = (f.node x).hasBlock)
    (hempty : isEmpty = (f.children x).isEmpty) (hbody : bare (t.alone g) = bare (s.alone f)) :
    bare ((g.scriptNode y semicolon isEmpty t).alone g) =
      bare ((f.scriptNode x semicolon isEmpty s).alone f) := by
  have hkind : f.kind x = (f.data x).kind := rfl
  have hdata := h.data
  unfold scriptNode
  rw [h.data]
  cases hd : f.data x with
  | root =>
    rw [hkind, hd] at hroot
    exact absurd rfl hroot
  | rule selector =>
    have ho : f.Opens x := .inl (by rw [hkind, hd]; rfl)
    have hown : g.rawText? y "ownSemicolon" = f.rawText? x "ownSemicolon" :=
      h.rawText? (by decide) (by decide) (by decide)
    rw [alone_append, alone_append, bare_append, bare_append, hown,
      h.valueText (by decide) (by decide) (by decide), h.bare_block ho _ hempty hbody]
    congr 1
    by_cases hnone : (f.rawText? x "ownSemicolon").getD "" = "" <;> simp [hnone, alone, own]
  | atRule name params =>
    have hatRule : f.kind x = .atRule := by rw [hkind, hd]; rfl
    simp only [hblock, h.atRuleHead]
    split
    · next hb => exact h.bare_block (.inr ⟨hatRule, hb⟩) _ hempty hbody
    · next hb => simp [alone, h.statement hatRule (Bool.not_eq_true _ ▸ hb), RawValue.toText]
  | declaration prop value important =>
    have hcolon := h.asked _ _ (.colon (by rw [hkind, hd]; rfl))
    have himportant : g.rawText? y "important" = f.rawText? x "important" :=
      h.rawText? (by decide) (by decide) (by decide)
    have hvalue : g.valueText y "value" = f.valueText x "value" :=
      h.valueText (by decide) (by decide) (by decide)
    unfold solidIn at hcolon
    simp [scriptDeclaration, alone, h.data, himportant, hvalue, hcolon]
  | comment text =>
    have hleft := h.asked _ _ (.left (by rw [hkind, hd]; rfl))
    have hright := h.asked _ _ (.right (by rw [hkind, hd]; rfl))
    unfold solidIn at hleft hright
    simp [scriptComment, alone, h.data, hleft, hright]

theorem kind (h : f.WritesLike g x y) : g.kind y = f.kind x := congrArg NodeData.kind h.data

end WritesLike

/-! ## Trees -/

theorem hasBlock_of_leaf (h : (f.node id).children = none) : (f.node id).hasBlock = false := by
  rw [Node.hasBlock, h]
  rfl

theorem hasBlock_of_block {ids : List NodeId} (h : (f.node id).children = some ids) :
    (f.node id).hasBlock = true := by
  rw [Node.hasBlock, h]
  rfl

mutual

/-- **Trees whose nodes are written alike are written alike.** The labels are nodes of `g` with
nodes of `f`; what stands before the top does not matter. -/
theorem bare_scriptTree (semicolon : Bool) : (t : Tree (NodeId × NodeId)) →
    f.Shows (t.map Prod.snd) → g.Shows (t.map Prod.fst) →
    (∀ p ∈ t.preorder, f.WritesLike g p.2 p.1 ∧ f.kind p.2 ≠ .root) →
    (∀ p ∈ t.descendants, g.solidIn p.1 "before" .before = f.solidIn p.2 "before" .before) →
    bare ((g.scriptTree semicolon (t.map Prod.fst)).alone g) =
      bare ((f.scriptTree semicolon (t.map Prod.snd)).alone f)
  | .leaf p, hf, hg, halike, _ => by
    obtain ⟨hp, hroot⟩ := halike p (by simp [preorder])
    apply hp.bare_node hroot
    · exact (hasBlock_of_leaf hg).trans (hasBlock_of_leaf hf).symm
    · rw [children_of_leaf hf]
      rfl
    · rfl
  | .block p ts, hf, hg, halike, hbefore => by
    rw [preorder, List.forall_mem_cons] at halike
    obtain ⟨⟨hp, hroot⟩, halike⟩ := halike
    have hempty : (mapAll Prod.snd ts).isEmpty = (f.children p.2).isEmpty := by
      rw [children_of_block hf.1, List.isEmpty_map]
    have hsame : (mapAll Prod.fst ts).isEmpty = (mapAll Prod.snd ts).isEmpty := by
      rw [mapAll_eq, mapAll_eq, List.isEmpty_map, List.isEmpty_map]
    have hkinds : (mapAll Prod.fst ts).map (fun t => g.kind t.label) =
        (mapAll Prod.snd ts).map fun t => f.kind t.label := by
      rw [mapAll_eq, mapAll_eq, List.map_map, List.map_map]
      apply List.map_congr_left
      intro t ht
      have hlabel : t.label ∈ preorderAll ts :=
        mem_preorderAll.2 ⟨t, ht, by rw [preorder_eq]; exact .head _⟩
      simp [label_map, (halike t.label hlabel).1.kind]
    rw [map, scriptTree, map, scriptTree, hkinds, hsame]
    apply hp.bare_node hroot
    · exact (hasBlock_of_block hg.1).trans (hasBlock_of_block hf.1).symm
    · exact hempty
    · cases ts with
      | nil => rfl
      | cons t ts =>
        have hne : f.children p.2 ≠ [] := by
          rw [children_of_block hf.1]
          exact List.cons_ne_nil _ _
        simp only [alone, hp.semicolon hne]
        exact bare_scriptChildren _ _ 0 (t :: ts) hf.2 hg.2 halike hbefore

theorem bare_scriptChildren (last : Nat) (semicolon : Bool) (index : Nat) :
    (ts : List (Tree (NodeId × NodeId))) → f.ShowsAll (mapAll Prod.snd ts) →
    g.ShowsAll (mapAll Prod.fst ts) →
    (∀ p ∈ preorderAll ts, f.WritesLike g p.2 p.1 ∧ f.kind p.2 ≠ .root) →
    (∀ p ∈ preorderAll ts, g.solidIn p.1 "before" .before = f.solidIn p.2 "before" .before) →
    bare ((g.scriptChildren last semicolon index (mapAll Prod.fst ts)).alone g) =
      bare ((f.scriptChildren last semicolon index (mapAll Prod.snd ts)).alone f)
  | [], _, _, _, _ => rfl
  | t :: ts, hf, hg, halike, hbefore => by
    rw [preorderAll, List.forall_mem_append] at halike hbefore
    have hlabel := hbefore.1 t.label (by rw [preorder_eq]; exact .head _)
    have hbelow : ∀ p ∈ t.descendants,
        g.solidIn p.1 "before" .before = f.solidIn p.2 "before" .before := by
      intro p hp
      apply hbefore.1
      rw [preorder_eq]
      exact .tail _ hp
    unfold solidIn at hlabel
    simp only [mapAll, scriptChildren, alone_append, bare_append, alone, List.append_nil,
      bare_between, label_map, hlabel,
      bare_scriptTree _ t hf.1 hg.1 halike.1 hbelow,
      bare_scriptChildren last semicolon (index + 1) ts hf.2 hg.2 halike.2 hbefore.2]

end

end Forest

end Stylesheet
