import Mathlib.Data.List.Flatten
import Stylesheet.Proofs.Forest.Spares
import Stylesheet.Proofs.Print.Texts

/-!
# The formatting of what was read, behind edits

A text is read, new nodes are inserted and nodes are taken out. `textsOf_survivor`: the nodes of the
text that are still there are printed with the formatting that they had. The nodes all have the
slots that the printer asks for (`Keeps.furnishes`), edits spare them (`Proofs/Forest/Spares`), and
each still stands in the tree once, as the survivors keep their order (`Spares.preorder_sublist`).
-/

set_option autoImplicit false

namespace Stylesheet

open Stylesheet.Tree

namespace Wording

/-- Only a semicolon behind it changes what is written of a node without a block. -/
theorem exists_leaf {w : Wording} (h : w.LeafFormatted) :
    (w.data.kind = .comment ∧ ∀ s s', w.leaf s = w.leaf s') ∨
      (w.data.kind = .declaration ∨ w.data.kind = .atRule) ∧
        ∃ text, ∀ s, w.leaf s = text ++ if s then ";" else "" := by
  obtain ⟨-, h⟩ := h
  cases hd : w.data with
  | root => rw [hd] at h; exact h.elim
  | rule selector => rw [hd] at h; exact h.elim
  | atRule name params =>
    refine .inr ⟨.inr rfl, w.head ++ w.slot "between", fun s => ?_⟩
    simp only [leaf, hd]
  | declaration prop value important =>
    refine .inr ⟨.inl rfl, prop ++ w.slot "between" ++ w.part "value" ++
      (if important then (w.raws.text? "important").getD " !important" else ""), fun s => ?_⟩
    simp only [leaf, hd]
  | comment text =>
    refine .inl ⟨rfl, fun s s' => ?_⟩
    simp only [leaf, hd]

end Wording

namespace Forest

open Fragment

variable {f g h : Forest} {old : List NodeId} {id root : NodeId}

/-- The same texts of a node, but for a semicolon behind a declaration or an at-rule without a
block. -/
def SameTexts (f : Forest) (id : NodeId) (xs ys : List (String × Fragment)) : Prop :=
  xs = ys ∨
    (f.kind id = .declaration ∨ f.kind id = .atRule ∧ (f.node id).hasBlock = false) ∧
      ∃ before text, ∃ s s' : Bool,
        xs = [(before, ⟨text ++ if s then ";" else "", some id, none⟩)] ∧
          ys = [(before, ⟨text ++ if s' then ";" else "", some id, none⟩)]

theorem Furnished.sameTexts (h : f.Furnished id) (s s' : Bool) :
    f.SameTexts id ((f.wording id).texts id (f.node id).hasBlock s)
      ((f.wording id).texts id (f.node id).hasBlock s') := by
  unfold Furnished at h
  unfold Wording.texts
  cases hb : (f.node id).hasBlock with
  | true => exact .inl rfl
  | false =>
    rw [hb] at h
    rcases Wording.exists_leaf h with ⟨-, hsame⟩ | ⟨hkind, text, htext⟩
    · simp only [Bool.false_eq_true, if_false, hsame s s']
      exact .inl rfl
    · refine .inr ⟨hkind.imp_right fun hk => ⟨hk, hb⟩, (f.wording id).slot "before", text, s, s',
        ?_⟩
      simp only [Bool.false_eq_true, if_false, htext, and_self]

/-! ## What was read -/

mutual

/-- The nodes of a tree have all the formatting that the tree has. -/
theorem Hangs.furnished : {parent : Option NodeId} → {t : Tree (NodeId × Element)} →
    f.Hangs parent t → t.Formatted numberedWording → ∀ b ∈ t.preorder, f.Furnished b.1
  | _, .leaf a, hh, hf => by
    intro b hb
    rw [preorder, List.mem_singleton] at hb
    subst hb
    have hb : (f.node b.1).hasBlock = false := Sits.hasBlock hh
    rw [Furnished, hb, wording, Sits.element hh]
    exact hf
  | _, .block a ts, hh, hf => by
    intro b hb
    rcases List.mem_cons.1 hb with rfl | hb
    · have hb : (f.node b.1).hasBlock = true := hh.1.hasBlock
      rw [Furnished, hb, wording, hh.1.element]
      exact hf.1
    · exact hh.2.furnished hf.2.2 b hb

theorem HangsAll.furnished : {parent : NodeId} → {ts : List (Tree (NodeId × Element))} →
    f.HangsAll parent ts → FormattedAll numberedWording ts →
    ∀ b ∈ preorderAll ts, f.Furnished b.1
  | _, [], _, _ => by
    intro b hb
    cases hb
  | _, _ :: _, hh, hf => by
    intro b hb
    rcases List.mem_append.1 hb with hb | hb
    · exact hh.1.furnished hf.1 b hb
    · exact hh.2.furnished hf.2 b hb

end

section
variable {input : InputId} {i : Input} {a : Parsed} {ts : List (Tree Parsed)}

/-- The nodes of a tree that was read have the numbers from that of the root on. -/
theorem Keeps.preorder_outlineWithin (h : f.Keeps root input i a ts) {n : Nat}
    (hn : f.size ≤ n) :
    (f.outlineWithin n root).preorder = List.range' root (Tree.block a ts).size := by
  have hout := outlineWithin_of_hangs _ h.hangs n (Nat.le_trans h.size_numbered_le hn)
  rw [Tree.label] at hout
  rw [hout, ← numbers_numbered]
  simp [Tree.map, Tree.preorder, numbered, preorderAll_mapAll, Function.comp_def]

theorem Keeps.furnished (h : f.Keeps root input i a ts) (hid : id ∈ f.descendants root) :
    f.Furnished id := by
  rw [h.descendants, List.mem_map] at hid
  obtain ⟨b, hb, rfl⟩ := hid
  refine h.hangs.2.furnished h.formattedAll_elements (Prod.map (fun n => n) (i.element input) b) ?_
  rw [preorderAll_mapAll]
  exact List.mem_map_of_mem hb

theorem Keeps.kind_root (h : f.Keeps root input i a ts) : f.kind root = .root :=
  h.hangs.1.kind.trans (congrArg NodeData.kind h.formatted.data)

end

/-- What was read stands apart from the nodes that were there before. -/
theorem apart_parse (hf : f.Sound) {files : Files} {text : String} {file : Option String}
    {setting : MapSetting} (hr : f.parse files text file setting = .ok (root, g)) :
    g.Apart (g.outline root).preorder := by
  have hg := grown_parse hr
  obtain ⟨i, a, ts, -, rfl, -, -, hreads⟩ := parse_spec hr
  have hsize := hreads.size
  have hmem (c : Nat) : c ∈ (g.outline f.size).preorder ↔ f.size ≤ c ∧ c < g.size := by
    rw [outline, hreads.keeps.preorder_outlineWithin (Nat.le_refl _), List.mem_range'_1, hsize]
  refine ⟨fun id hid => ((hmem id).1 hid).2, fun p hp c hc hold => ?_⟩
  rw [hmem] at hp hold
  rcases hg.cases p with hlt | hnew | hle
  · rw [hg.children_eq hlt] at hc
    exact absurd (hf.bound p c hc) (Nat.not_lt.2 hold.1)
  · exact hp hnew
  · rw [children_of_le hle] at hc
    cases hc

/-! ## What is left -/

/-- The nodes that give nothing can be left out. -/
theorem flatMap_filter_of_nil {α β : Type} {keep : α → Bool} {g : α → List β} {xs : List α}
    (h : ∀ x ∈ xs, keep x = false → g x = []) : (xs.filter keep).flatMap g = xs.flatMap g := by
  induction xs with
  | nil => rfl
  | cons x xs ih =>
    obtain ⟨hx, hxs⟩ := List.forall_mem_cons.1 h
    cases hk : keep x with
    | true => rw [List.filter_cons_of_pos hk, List.flatMap_cons, List.flatMap_cons, ih hxs]
    | false =>
      rw [List.filter_cons_of_neg (by simp [hk]), List.flatMap_cons, hx hk, List.nil_append,
        ih hxs]

/-- The survivors keep their order. -/
theorem Spares.preorder_sublist (hs : Spares old f g) (ha : f.Apart old) (n : Nat) :
    ∀ p, ((g.outlineWithin n p).preorder.filter (· ∈ old)).Sublist
      (f.outlineWithin n p).preorder := by
  have hapart := ha.step hs
  have hnone (n : Nat) (p : NodeId) (hp : p ∉ old) :
      (g.outlineWithin n p).preorder.filter (· ∈ old) = [] := by
    rw [List.filter_eq_nil_iff]
    simpa using hapart.not_mem_outlineWithin n p hp
  induction n with
  | zero => exact fun p => List.filter_sublist
  | succ n ih =>
    intro p
    by_cases hp : p ∈ old
    · rw [outlineWithin]
      rcases hids : (g.node p).children with _ | ids
      · exact List.filter_sublist.trans
          (List.singleton_sublist.2 (mem_preorder_outlineWithin f (n + 1) p))
      · have hb := hs.hasBlock p hp
        rw [Node.hasBlock, hids, Option.isSome_some, Node.hasBlock, eq_comm,
          Option.isSome_iff_exists] at hb
        obtain ⟨ids', hids'⟩ := hb
        have hchildren := hs.children p
        rw [children_of_block hids, children_of_block hids'] at hchildren
        rw [outlineWithin, hids']
        simp only [preorder, preorderAll_eq, List.flatMap_map]
        rw [List.filter_cons_of_pos (by simpa using hp), List.filter_flatMap]
        refine List.Sublist.cons_cons p ?_
        rw [← flatMap_filter_of_nil fun c _ hc => hnone n c (of_decide_eq_false hc)]
        exact ((hchildren.trans List.filter_sublist).flatMap _).trans
          (List.Sublist.flatMap_right ids' fun c _ => ih c)
    · rw [hnone (n + 1) p hp]
      exact List.nil_sublist _

/-- The nodes that are spared still have all their formatting. -/
theorem Spares.furnishes (hs : Spares old f g) (ha : f.Apart old)
    (hf : ∀ id ∈ old, f.kind id ≠ .root → f.Furnished id) : g.Furnishes (· ∈ old) where
  up p c hc hold := by
    apply Classical.byContradiction
    intro hp
    exact (ha.step hs).children p hp c hc hold
  furnished id hid hk := by
    have helement := hs.element id hid
    have hkind : g.kind id = f.kind id := congrArg (fun e => e.data.kind) helement
    have := hf id hid (hkind ▸ hk)
    unfold Furnished wording at *
    rwa [hs.hasBlock id hid, helement]

section
variable {input : InputId} {i : Input} {a : Parsed} {ts : List (Tree Parsed)}

/-- A node that was read stands in the tree at most once. -/
theorem Keeps.count_le_one (h : f.Keeps root input i a ts)
    (ha : f.Apart (f.outline root).preorder) (hs : Spares (f.outline root).preorder f g)
    (hid : id ∈ (f.outline root).preorder) : (g.descendants root).count id ≤ 1 := by
  have hn := h.preorder_outlineWithin hs.size
  have hkept := (hs.preorder_sublist ha g.size root).count_le id
  rw [List.count_filter (by simpa using hid), hn] at hkept
  refine Nat.le_trans ?_ (Nat.le_trans hkept (List.nodup_iff_count_le_one.1 List.nodup_range' id))
  rw [preorder_eq]
  exact List.count_le_count_cons

/-- A node that was read and spared is printed with its own formatting. -/
theorem Keeps.textsOf_print (h : f.Keeps root input i a ts)
    (ha : f.Apart (f.outline root).preorder) (hs : Spares (f.outline root).preorder f g)
    (hg : g.Sound) (hid : id ∈ (f.outline root).preorder) (hmem : id ∈ g.descendants root) :
    ∃ semicolon, textsOf id "" (g.print root) =
      (f.wording id).texts id (f.node id).hasBlock semicolon := by
  have hold : root ∈ (f.outline root).preorder := mem_preorder_outlineWithin f f.size root
  have hroot : g.kind root = .root :=
    (congrArg (fun e => e.data.kind) (hs.element root hold)).trans h.kind_root
  have hfurnishes : g.Furnishes (· ∈ (f.outline root).preorder) := by
    refine hs.furnishes ha fun c hc hk => ?_
    rw [preorder_eq, label_outline, List.mem_cons] at hc
    refine h.furnished (hc.resolve_left ?_)
    rintro rfl
    exact hk h.kind_root
  obtain ⟨semicolon, htexts⟩ := Forest.textsOf_print hg.root hfurnishes hroot hmem hid
    (h.count_le_one ha hs hid)
  refine ⟨semicolon, ?_⟩
  rw [htexts, hs.hasBlock id hid, wording, hs.element id hid, wording]

end

/-- **What edits leave of the formatting**: a text was read, and the edits since put none of its
nodes anywhere and nothing into those that have no block. Then a node of the text that is still
there is printed as it was, its formatting included, but for a semicolon that may appear or
disappear behind a declaration or an at-rule without a block. Behind the last node stands what stood
there. -/
theorem textsOf_survivor (hf : f.Sound) {files : Files} {text : String} {file : Option String}
    {setting : MapSetting} (hr : f.parse files text file setting = .ok (root, g))
    {es : List Edit} (hn : Edit.Named g es) (hs : Edit.AllAvoid (g.outline root).preorder g es)
    (hh : h ∈ Edit.trail g es) :
    trailing "" (h.print root) = trailing "" (g.print root) ∧
      ∀ id ∈ g.descendants root, id ∈ h.descendants root →
        textsOf id "" (h.print root) ≠ [] ∧
          g.SameTexts id (textsOf id "" (h.print root)) (textsOf id "" (g.print root)) := by
  have hapart := apart_parse hf hr
  have hsound : g.Sound := hf.grown (grown_parse hr)
  obtain ⟨hspares, hsound'⟩ := Edit.spares_trail hapart hsound hn hs hh
  obtain ⟨i, a, ts, -, -, -, -, hreads⟩ := parse_spec hr
  have hkeeps := hreads.keeps
  have hold : root ∈ (g.outline root).preorder := mem_preorder_outlineWithin g g.size root
  have helement := hspares.element root hold
  have hroot : h.kind root = .root :=
    (congrArg (fun e => e.data.kind) helement).trans hkeeps.kind_root
  refine ⟨?_, fun id hid hmem => ?_⟩
  · rw [trailing_print hsound'.root hroot, trailing_print hsound.root hkeeps.kind_root, wording,
      wording, helement]
  · have hkept : id ∈ (g.outline root).preorder := by
      rw [preorder_eq]
      exact List.mem_cons_of_mem _ hid
    obtain ⟨s, htexts⟩ := hkeeps.textsOf_print hapart hspares hsound' hkept hmem
    obtain ⟨s', htexts'⟩ := hkeeps.textsOf_print hapart (.refl _ g) hsound hkept hid
    rw [htexts, htexts']
    refine ⟨?_, (hkeeps.furnished hid).sameTexts s s'⟩
    unfold Wording.texts
    split <;> exact List.cons_ne_nil _ _

theorem textsOf_survivor_emptied :
    let css := "a \x7b b :c\x7d @d e ;/*f*/ g\x7b h: i;j:k \x7d\n"
    let es := [.removeAt 1 0, .detach 7, .new (.declaration "x" "y" false), .insert 1 .stop [8],
      .detach 4, .new (.comment "m"), .insert 5 .start [9]]
    ∃ root g, Forest.empty.parse .empty css none .auto = .ok (root, g) ∧
      Edit.Named g es ∧ Edit.AllAvoid (g.outline root).preorder g es ∧
      ∃ h ∈ Edit.trail g es,
        (h.css root).toList =
          "a \x7b x: y\x7d @d e ; g\x7b /* m */ h: i \x7d\n".toList ∧
        trailing "" (h.print root) = trailing "" (g.print root) ∧
        ∀ id ∈ [1, 3, 5, 6], textsOf id "" (h.print root) ≠ [] ∧
          g.SameTexts id (textsOf id "" (h.print root)) (textsOf id "" (g.print root)) := by
  intro css es
  obtain ⟨root, g, hr, hn, hs, hids, hcss, hids'⟩ : ∃ root g,
      Forest.empty.parse .empty css none .auto = .ok (root, g) ∧
      Edit.Named g es ∧ Edit.AllAvoid (g.outline root).preorder g es ∧
      (∀ id ∈ ([1, 3, 5, 6] : List NodeId), id ∈ g.descendants root) ∧
      ((es.foldl Edit.run g).css root).toList =
        "a \x7b x: y\x7d @d e ; g\x7b /* m */ h: i \x7d\n".toList ∧
      ∀ id ∈ ([1, 3, 5, 6] : List NodeId), id ∈ (es.foldl Edit.run g).descendants root := by
    decide +kernel
  have hmem := Edit.foldl_mem_trail es g
  obtain ⟨htrailing, htexts⟩ := textsOf_survivor sound_empty hr hn hs hmem
  exact ⟨root, g, hr, hn, hs, _, hmem, hcss, htrailing,
    fun id hid => htexts id (hids id hid) (hids' id hid)⟩

end Forest

end Stylesheet
