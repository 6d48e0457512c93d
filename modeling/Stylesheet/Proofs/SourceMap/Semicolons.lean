import Stylesheet.Proofs.Forest.Replacement
import Stylesheet.Proofs.Print.Resolved
import Stylesheet.Proofs.SourceMap.Traced

/-!
# Semicolons and the ends of nodes

A node without a block ends, in the output, with the semicolon behind it, if there is one. Whether
there is one the printer decides by the last child that is no comment (`Closes`), and the mappings
by the last child of any kind (`closesVisibly_iff`). `endMapped_iff` says when the two agree, and
that the end is then mapped at the semicolon.
-/

set_option autoImplicit false

namespace Stylesheet

open Relation

namespace Forest

open Fragment

variable {f : Forest} {id p P : NodeId} {A B : List NodeId} {x : Fragment}

/-- A declaration, or an at-rule without a block. -/
def Blockless (f : Forest) (id : NodeId) : Prop :=
  f.kind id = .declaration ∨ f.kind id = .atRule ∧ (f.node id).hasBlock = false

/-- Whether a semicolon is printed behind a child of `P` that has `B` behind it: a statement
follows, or `P` wants one behind its last statement. -/
def Closes (f : Forest) (P : NodeId) (B : List NodeId) : Prop :=
  (∃ b ∈ B, f.kind b ≠ .comment) ∨ (f.resolve P "semicolon" .semicolon).isTruthy = true

/-! ## Fragments of nodes without a block -/

theorem node_of_mem_between {text : String} (hx : x ∈ between text) : x.node = none := by
  unfold between at hx
  split at hx
  · cases hx
  · rw [List.mem_singleton.1 hx]

theorem mem_renderBlock {head : String} {isEmpty : Bool} {body : List Fragment}
    (hx : x ∈ f.renderBlock p head isEmpty body) (hid : x.node = some id) :
    x ∈ body ∨ p = id := by
  unfold renderBlock at hx
  simp only [List.mem_append, List.mem_singleton] at hx
  rcases hx with (rfl | hx) | hx | rfl
  · exact .inr (Option.some.inj hid)
  · split at hx
    · cases hx
    · exact .inl hx
  · rw [node_of_mem_between hx] at hid
    cases hid
  · exact .inr (Option.some.inj hid)

/-- A fragment is one of a child, or it belongs to the node. -/
theorem mem_renderNode {semicolon isEmpty : Bool} {body : List Fragment}
    (hx : x ∈ f.renderNode p semicolon isEmpty body) (hid : x.node = some id) :
    x ∈ body ∨ p = id ∧ (f.Blockless p →
      x = ⟨f.stem p ++ (if semicolon then ";" else ""), some p, none⟩) := by
  have hkind : f.kind p = (f.data p).kind := rfl
  unfold renderNode at hx
  unfold Blockless
  rw [hkind]
  cases hd : f.data p with
  | root =>
    rw [hd] at hx
    rcases List.mem_append.1 hx with hx | hx
    · exact .inl hx
    · rw [node_of_mem_between hx] at hid
      cases hid
  | rule selector =>
    rw [hd] at hx
    have hp : x ∈ body ∨ p = id := by
      rcases List.mem_append.1 hx with hx | hx
      · exact mem_renderBlock hx hid
      · split at hx
        · cases hx
        · rw [List.mem_singleton.1 hx] at hid
          exact .inr (Option.some.inj hid)
    exact hp.imp_right fun he => ⟨he, by simp [NodeData.kind]⟩
  | atRule name params =>
    rw [hd] at hx
    simp only at hx
    split at hx
    · next hb =>
      exact (mem_renderBlock hx hid).imp_right fun he => ⟨he, by simp [NodeData.kind, hb]⟩
    · rw [List.mem_singleton] at hx
      rw [hx] at hid
      exact .inr ⟨Option.some.inj hid, fun _ => hx⟩
  | declaration prop value important =>
    rw [hd] at hx
    rw [List.mem_singleton.1 hx] at hid
    exact .inr ⟨Option.some.inj hid, fun _ => List.mem_singleton.1 hx⟩
  | comment text =>
    rw [hd] at hx
    rw [List.mem_singleton.1 hx] at hid
    exact .inr ⟨Option.some.inj hid, by simp [NodeData.kind]⟩

/-- What a node with children prints between its ends is the output of its children. -/
theorem subset_renderNode (hc : (f.kind p).isContainer = true) (hb : (f.node p).hasBlock = true)
    (semicolon : Bool) (body : List Fragment) (hx : x ∈ body) :
    x ∈ f.renderNode p semicolon false body := by
  have hkind : f.kind p = (f.data p).kind := rfl
  rw [hkind] at hc
  unfold renderNode
  cases hd : f.data p with
  | root => exact List.mem_append_left _ hx
  | rule selector => exact List.mem_append_left _ (by simp [renderBlock, hx])
  | atRule name params => simp [renderBlock, hb, hx]
  | _ => rw [hd] at hc; cases hc

/-- The printer asks whether the last statement comes later. -/
theorem closes_iff (hid : f.kind id ≠ .comment) (v : Bool) :
    ((A.length != lastIndex ((A ++ id :: B).map f.kind)) || v) = true ↔
      (∃ b ∈ B, f.kind b ≠ .comment) ∨ v = true := by
  have hlast := lastIndex_eq_iff hid (A.map f.kind) (B.map f.kind)
  rw [List.length_map, List.forall_mem_map] at hlast
  rw [List.map_append, List.map_cons, Bool.or_eq_true, bne_iff_ne, Ne, hlast]
  simp

mutual

/-- What is printed of a node without a block, at the top of a tree or below it. -/
theorem fragment_of_mem_tree (hid : x.node = some id) (hk : f.Blockless id) {s : Bool} :
    (t : Tree NodeId) → f.Shows t → x ∈ f.renderTree s t →
    (t.label = id ∧ x = ⟨f.stem id ++ (if s then ";" else ""), some id, none⟩) ∨
      ∃ P A B s', f.children P = A ++ id :: B ∧ (s' = true ↔ f.Closes P B) ∧
        x = ⟨f.stem id ++ (if s' then ";" else ""), some id, none⟩
  | .leaf p, _, hx => by
    rcases mem_renderNode hx hid with hx | ⟨rfl, hx⟩
    · cases hx
    · exact .inl ⟨rfl, hx hk⟩
  | .block p ts, ht, hx => by
    rw [Shows] at ht
    rcases mem_renderNode hx hid with hx | ⟨rfl, hx⟩
    · refine .inr (fragment_of_mem_children hid hk ts ht.2 (A := []) (children_of_block ht.1) ?_)
      rw [children_of_block ht.1, List.map_map]
      exact hx
    · exact .inl ⟨rfl, hx hk⟩

theorem fragment_of_mem_children (hid : x.node = some id) (hk : f.Blockless id) {P : NodeId} :
    (ts : List (Tree NodeId)) → f.ShowsAll ts → {A : List NodeId} →
    f.children P = A ++ ts.map Tree.label →
    x ∈ f.renderChildren (lastIndex ((f.children P).map f.kind))
      (f.resolve P "semicolon" .semicolon).isTruthy A.length ts →
    ∃ P A B s', f.children P = A ++ id :: B ∧ (s' = true ↔ f.Closes P B) ∧
      x = ⟨f.stem id ++ (if s' then ";" else ""), some id, none⟩
  | [], _, _, _, hx => by cases hx
  | t :: ts, ht, A, hc, hx => by
    rw [ShowsAll] at ht
    rw [renderChildren, List.mem_append, List.mem_append] at hx
    rcases hx with (hx | hx) | hx
    · rw [node_of_mem_between hx] at hid
      cases hid
    · rcases fragment_of_mem_tree hid hk t ht.1 hx with ⟨rfl, hx⟩ | hx
      · refine ⟨P, A, ts.map Tree.label, _, hc, ?_, hx⟩
        have hne : f.kind t.label ≠ .comment := by
          rcases hk with hk | ⟨hk, -⟩ <;> simp [hk]
        rw [hc, List.map_cons, closes_iff hne]
        rfl
      · exact hx
    · have hc' : f.children P = A ++ [t.label] ++ ts.map Tree.label := by simp [hc]
      refine fragment_of_mem_children hid hk ts ht.2 hc' ?_
      simpa using hx

end

theorem exists_fragment_self (hk : f.Blockless id) (semicolon isEmpty : Bool)
    (body : List Fragment) : ∃ x ∈ f.renderNode id semicolon isEmpty body, x.node = some id := by
  have hkind : f.kind id = (f.data id).kind := rfl
  unfold Blockless at hk
  rw [hkind] at hk
  unfold renderNode
  cases hd : f.data id with
  | declaration prop value important => exact ⟨_, List.mem_singleton_self _, rfl⟩
  | atRule name params =>
    rw [hd] at hk
    have hb : (f.node id).hasBlock = false := by simpa [NodeData.kind] using hk
    simp only [hb, Bool.false_eq_true, if_false]
    exact ⟨_, List.mem_singleton_self _, rfl⟩
  | _ => rw [hd] at hk; simp [NodeData.kind] at hk

mutual

/-- Every node without a block has a fragment. -/
theorem exists_fragment_tree (h : f.WellFormed) (hk : f.Blockless id) {s : Bool} :
    (t : Tree NodeId) → f.Shows t → id ∈ t.preorder → ∃ x ∈ f.renderTree s t, x.node = some id
  | .leaf p, _, hid => by
    rw [Tree.preorder, List.mem_singleton] at hid
    subst hid
    exact exists_fragment_self hk s true []
  | .block p ts, ht, hid => by
    rw [Shows] at ht
    rw [Tree.preorder, List.mem_cons] at hid
    rcases hid with rfl | hid
    · exact exists_fragment_self hk s ts.isEmpty _
    · cases ts with
      | nil => cases hid
      | cons t ts =>
        have hc : (f.kind p).isContainer = true := by
          refine h.isContainer_of_mem (r := t.label) ?_
          rw [children_of_block ht.1]
          exact .head _
        have hb : (f.node p).hasBlock = true := by simp [Node.hasBlock, ht.1]
        obtain ⟨x, hx, hn⟩ := exists_fragment_children h hk (t :: ts) ht.2 hid
        exact ⟨x, subset_renderNode hc hb s _ hx, hn⟩

theorem exists_fragment_children (h : f.WellFormed) (hk : f.Blockless id) {last index : Nat}
    {v : Bool} : (ts : List (Tree NodeId)) → f.ShowsAll ts → id ∈ Tree.preorderAll ts →
    ∃ x ∈ f.renderChildren last v index ts, x.node = some id
  | [], _, hid => by cases hid
  | t :: ts, ht, hid => by
    rw [ShowsAll] at ht
    rw [Tree.preorderAll, List.mem_append] at hid
    rw [renderChildren]
    rcases hid with hid | hid
    · obtain ⟨x, hx, hn⟩ := exists_fragment_tree h hk t ht.1 hid
      exact ⟨x, List.mem_append_left _ (List.mem_append_right _ hx), hn⟩
    · obtain ⟨x, hx, hn⟩ := exists_fragment_children h hk ts ht.2 hid
      exact ⟨x, List.mem_append_right _ hx, hn⟩

end

/-! ## The mapping of an end -/

/-- A node without a block ends visibly if anything follows it in the list of its parent, or if the
parent itself wants a semicolon at the end. -/
theorem WellFormed.closesVisibly_iff (h : f.WellFormed) (hk : f.Blockless id)
    (hc : f.children P = A ++ id :: B) :
    f.closesVisibly id = true ↔
      B ≠ [] ∨ ((f.raws P).get? "semicolon").any RawValue.isTruthy = true := by
  have hp : f.parent? id = some P := (h.parent P id).1 (by simp [hc])
  have hlast : (f.children P).getLast? ≠ some id ↔ B ≠ [] := by
    have hnodup := h.nodup P
    rw [hc] at hnodup ⊢
    rcases List.eq_nil_or_concat B with rfl | ⟨B, b, rfl⟩
    · simp
    · have hne : b ≠ id := by
        rintro rfl
        simp [List.nodup_append] at hnodup
      rw [show A ++ id :: B.concat b = (A ++ id :: B) ++ [b] by simp, List.getLast?_concat]
      simp [hne]
  unfold closesVisibly
  rw [hp]
  rcases hk with hk | ⟨hk, hb⟩
  · simp [hk, hlast]
  · simp [hk, hb, hlast]

theorem mappings_append (f : Forest) (policy : UnmappedPolicy) (place : OutputPlace)
    (xs ys : List Fragment) : f.mappings policy place (xs ++ ys) =
      f.mappings policy place xs ++ f.mappings policy (place.after (concat xs)) ys := by
  induction xs generalizing place with
  | nil => rfl
  | cons x xs ih =>
    rw [List.cons_append, mappings, mappings, ih, concat_cons, List.append_assoc]
    simp [OutputPlace.after_eq, OutputPlace.afterChars_append]

/-- The end of a node from an input without a map is mapped if the end can be seen. -/
theorem stopMapping?_of_blockless {policy : UnmappedPolicy} {place : OutputPlace} {text : String}
    {i : InputId} {q : Position} (hinput : (f.source id).input = some i)
    (hstop : (f.source id).stop = some q) (hmap : (f.input? i).bind Input.map = none) :
    f.stopMapping? policy place ⟨text, some id, none⟩ =
      if f.closesVisibly id then
        some (mappingAt { place.after text with col := (place.after text).col - 1 } (i, q))
      else none := by
  have horigin : f.origin? policy id Source.stop = some (i, q) := by
    simp [origin?, resolved?, hinput, hstop, resolves, hmap]
  unfold stopMapping?
  rw [Option.bind_some, horigin]
  cases f.closesVisibly id <;> rfl

/-- The last character of a text that ends with a semicolon. -/
theorem place_of_semicolon (place : OutputPlace) (text : String) :
    ({ place.after (text ++ ";") with col := (place.after (text ++ ";")).col - 1 } : OutputPlace) =
      place.after text := by
  simp [OutputPlace.after_eq, OutputPlace.afterChars, OutputPlace.next]

/-- **Semicolons and mapped ends.** A node without a block, with a known end in an input without a
map, is printed with a semicolon if the printer closes it, and its end is mapped if something
follows it in the list or its parent itself wants a semicolon. The two agree behind a statement that
is followed by another one; behind a last statement with comments behind it if there is a semicolon;
and behind a last child if the semicolon is not one by example. Then the end is mapped at the
semicolon. -/
theorem WellFormed.endMapped_iff (h : f.WellFormed) {r : NodeId} (hr : r < f.size)
    (hreach : ReflTransGen f.Child r P) (hc : f.children P = A ++ id :: B) (hk : f.Blockless id)
    {i : InputId} {q : Position} (hinput : (f.source id).input = some i)
    (hstop : (f.source id).stop = some q) (hmap : (f.input? i).bind Input.map = none)
    (policy : UnmappedPolicy) :
    (∃ x ∈ f.print r, x.node = some id) ∧
    ∀ before x behind, f.print r = before ++ x :: behind → x.node = some id →
      let place := OutputPlace.start.after (concat before)
      let stop := f.stopMapping? policy place x
      let own := ((f.raws P).get? "semicolon").any RawValue.isTruthy
      f.mappings policy .start (f.print r) = f.mappings policy .start before ++
        (f.startMapping? policy place x).toList ++ stop.toList ++
        f.mappings policy (place.after x.text) behind ∧
      ∃ closed : Bool, x.text = f.stem id ++ (if closed then ";" else "") ∧
        (closed = true ↔ f.Closes P B) ∧ (stop.isSome = true ↔ B ≠ [] ∨ own = true) ∧
        ((stop.isSome = true ↔ closed = true) ↔
          if B = [] then (f.resolve P "semicolon" .semicolon).isTruthy = own else f.Closes P B) ∧
        ∀ m, stop = some m → closed = true →
          (⟨m.dstLine, m.dstCol⟩ : OutputPlace) = place.after (f.stem id) := by
  have hshows := h.shows_outline hr
  have hid : id ∈ (f.outline r).preorder := by
    rw [mem_preorder_iff hshows, label_outline]
    exact hreach.tail (by simp [Child, hc])
  rw [h.print_eq_render hr]
  refine ⟨exists_fragment_tree h hk _ hshows hid, ?_⟩
  intro before x behind hx hn place stop own
  have hmem : x ∈ f.renderTree false (f.outline r) := by simp [hx]
  obtain ⟨closed, hclosed, rfl⟩ : ∃ closed : Bool, (closed = true ↔ f.Closes P B) ∧
      x = ⟨f.stem id ++ (if closed then ";" else ""), some id, none⟩ := by
    rcases fragment_of_mem_tree hn hk _ hshows hmem with ⟨he, -⟩ | ⟨P', A', B', s, hc', hs, he⟩
    · rw [label_outline] at he
      exact absurd (.tail' (he ▸ hreach) (by simp [Child, hc])) (h.acyclic id)
    · have hp : f.parent? id = some P := (h.parent P id).1 (by simp [hc])
      have hp' : f.parent? id = some P' := (h.parent P' id).1 (by simp [hc'])
      obtain rfl : P = P' := Option.some.inj (hp.symm.trans hp')
      have hnodup := h.nodup P
      rw [hc] at hnodup hc'
      obtain ⟨rfl, rfl⟩ := cut_unique hnodup hc'
      exact ⟨s, hs, he⟩
  have hvisible := h.closesVisibly_iff hk hc
  have hmapped : stop.isSome = true ↔ B ≠ [] ∨ own = true := by
    rw [← hvisible]
    simp only [stop, stopMapping?_of_blockless hinput hstop hmap]
    cases f.closesVisibly id <;> simp
  refine ⟨?_, closed, rfl, hclosed, hmapped, ?_, ?_⟩
  · rw [hx, mappings_append, mappings, fragmentMappings_eq]
    simp only [List.append_assoc, place, stop]
  · rw [hmapped, hclosed]
    by_cases hB : B = []
    · subst hB
      have hiff : (f.Closes P []) ↔ (f.resolve P "semicolon" .semicolon).isTruthy = true := by
        simp [Closes]
      rw [if_pos rfl, hiff, or_iff_right (not_not.2 rfl), ← Bool.eq_iff_iff]
      exact eq_comm
    · simp [hB]
  · rintro m hm rfl
    simp only [stop, stopMapping?_of_blockless hinput hstop hmap] at hm
    split at hm
    · rw [← place_of_semicolon, ← Option.some.inj hm]
      rfl
    · cases hm

/-- The last of two declarations, with a semicolon of the rule's own behind it. -/
theorem WellFormed.endMapped_iff_last :
    let es := [.read .empty "a\x7bb:c;d:e;\x7d" none .auto]
    ∃ f ∈ Edit.trail .empty es, ∃ before x behind m, f.print 0 = before ++ x :: behind ∧
      x.text = f.stem 3 ++ ";" ∧
      f.stopMapping? .skip (OutputPlace.start.after (concat before)) x = some m ∧
      (⟨m.dstLine, m.dstCol⟩ : OutputPlace) =
        (OutputPlace.start.after (concat before)).after (f.stem 3) := by
  intro es
  obtain ⟨f, hmem, hf, hsize, hroot, hc, hk, hinput, hstop, hmap, hresolve, hown⟩ :=
    Edit.exists_last es
      (fun f => 0 < f.size ∧ f.children 0 = [1] ∧ f.children 1 = [2] ++ 3 :: [] ∧
        f.kind 3 = .declaration ∧ (f.source 3).input = some 0 ∧
        (f.source 3).stop = some ⟨1, 10, 10⟩ ∧ ((f.input? 0).bind Input.map).isNone = true ∧
        (f.resolve 1 "semicolon" .semicolon).isTruthy = true ∧
        ((f.raws 1).get? "semicolon").any RawValue.isTruthy = true)
      (by decide +kernel) (by decide +kernel) (by decide +kernel)
  have hreach : ReflTransGen f.Child 0 1 := .single (by simp [Child, hroot])
  obtain ⟨⟨x, hx, hnode⟩, hall⟩ := hf.endMapped_iff hsize hreach hc (.inl hk) hinput hstop
    (Option.isNone_iff_eq_none.1 hmap) .skip
  obtain ⟨before, behind, hprint⟩ := List.append_of_mem hx
  obtain ⟨-, closed, htext, hclosed, hmapped, -, hplace⟩ := hall before x behind hprint hnode
  obtain rfl := hclosed.2 (.inr hresolve)
  obtain ⟨m, hm⟩ := Option.isSome_iff_exists.1 (hmapped.2 (.inr hown))
  exact ⟨f, hmem, before, x, behind, m, hprint, htext, hm, hplace m hm rfl⟩

/-- Behind the declaration stands a comment and no semicolon: its end is mapped all the same. -/
theorem not_endMapped_iff : ¬ ∀ f : Forest, f.WellFormed → ∀ r < f.size, ∀ id i q,
    f.Blockless id → (f.source id).input = some i → (f.source id).stop = some q →
    (f.input? i).bind Input.map = none → ∀ policy before x behind,
    f.print r = before ++ x :: behind → x.node = some id →
    ((f.stopMapping? policy (OutputPlace.start.after (concat before)) x).isSome = true ↔
      ∃ stem, x.text = stem ++ ";") := by
  intro hall
  let es : List Edit := [.read .empty "a\x7bb:c/*x*/\x7d" none .auto]
  let before : List Fragment := [⟨"a\x7b", some 1, some .start⟩]
  let x : Fragment := ⟨"b:c", some 2, none⟩
  let behind : List Fragment := [⟨"/*x*/", some 3, none⟩, ⟨"\x7d", some 1, some .stop⟩]
  obtain ⟨f, -, hf, hsize, hk, hinput, hstop, hmap, hprint, hmapped⟩ := Edit.exists_last es
    (fun f => 0 < f.size ∧ f.kind 2 = .declaration ∧
      (f.source 2).input = some 0 ∧ (f.source 2).stop = some ⟨1, 5, 5⟩ ∧
      ((f.input? 0).bind Input.map).isNone = true ∧ f.print 0 = before ++ x :: behind ∧
      (f.stopMapping? .skip (OutputPlace.start.after (concat before)) x).isSome = true)
    (by decide +kernel) (by decide +kernel) (by decide +kernel)
  obtain ⟨stem, htext⟩ := (hall f hf 0 hsize 2 0 _ (.inl hk) hinput hstop
    (Option.isNone_iff_eq_none.1 hmap) .skip before x behind hprint rfl).1 hmapped
  have hend := congrArg (fun s : String => s.toList.getLast?) htext
  simp [x] at hend

end Forest

end Stylesheet
