import Mathlib.Data.List.Flatten
import Stylesheet.Proofs.Forest.Links
import Stylesheet.Proofs.SourceMap.Identity

/-!
# Taking link comments out of a tree

`Forest.clearLinks` takes out children of the root from the last to the first, so that the places of
those that are still to be looked at do not change. `Hangs.clearLinks`: what hangs below the root
then are the other children. `Keeps.css_clearLinks`: a tree that was read is printed without the
comments, each with what stands before it, and nothing else about it changes.
-/

set_option autoImplicit false

namespace Stylesheet

open Stylesheet.Text Stylesheet.Tree

namespace Forest

variable {f : Forest} {root parent : NodeId} {e : Element} {p : Option NodeId}
  {c : Option (List NodeId)} {index : Nat}

/-! ## Taking out a node -/

/-- Other nodes stay where they are. -/
theorem Sits.removeAt {id : NodeId} (h : f.Sits id e p c) (hp : id ≠ parent)
    (hc : (f.children parent)[index]? ≠ some id) : (f.removeAt parent index).2.Sits id e p c := by
  cases hchild : (f.children parent)[index]? with
  | none => rwa [removeAt_of_none hchild]
  | some child =>
    have hnode : (f.removeAt parent index).2.node id = f.node id := by
      rw [removeAt_of_some hchild, node_modify_of_ne _ (by rintro rfl; exact hc hchild),
        node_modify_of_ne _ hp]
    exact ⟨hnode ▸ h.element, hnode ▸ h.parent, hnode ▸ h.children⟩

/-- The parent has one child less. -/
theorem Sits.removeAt_self {ids : List NodeId} (index : Nat) (h : f.Sits parent e p (some ids))
    (hc : ids[index]? ≠ some parent) :
    (f.removeAt parent index).2.Sits parent e p (some (ids.eraseIdx index)) := by
  have hids : f.children parent = ids := h.nodes
  cases hchild : (f.children parent)[index]? with
  | none =>
    rw [removeAt_of_none hchild, List.eraseIdx_of_length_le]
    · exact h
    · rw [← hids]
      exact List.getElem?_eq_none_iff.1 hchild
  | some child =>
    have hlt := lt_size_of_mem (List.mem_of_getElem? hchild)
    rw [removeAt_of_some hchild]
    have hne : parent ≠ child := by
      rintro rfl
      exact hc (hids ▸ hchild)
    refine ⟨?_, ?_, ?_⟩ <;> rw [node_modify_of_ne _ hne, node_modify_self _ hlt]
    · exact h.element
    · exact h.parent
    · simp only [Node.nodes, h.children, Option.getD_some]

theorem hangsAll_append {xs ys : List (Tree (NodeId × Element))} :
    f.HangsAll parent (xs ++ ys) ↔ f.HangsAll parent xs ∧ f.HangsAll parent ys := by
  induction xs with
  | nil => simp [HangsAll]
  | cons x xs ih => simp [HangsAll, ih, and_assoc]

/-- The other children hang below a node of which one child is taken out. -/
theorem Hangs.removeAt {a : NodeId × Element} {us vs : List (Tree (NodeId × Element))}
    {u : Tree (NodeId × Element)} (h : f.Hangs p (.block a (us ++ u :: vs)))
    (hn : ((Tree.block a (us ++ u :: vs)).preorder.map Prod.fst).Nodup) :
    (f.removeAt a.1 us.length).2.Hangs p (.block a (us ++ vs)) := by
  obtain ⟨hroot, hall⟩ := h
  rw [hangsAll_append] at hall
  have hlength : (us.map (·.label.1)).length = us.length := List.length_map ..
  have hid : ((us ++ u :: vs).map (·.label.1))[us.length]? = some u.label.1 := by
    rw [List.map_append, ← hlength, List.getElem?_append_right (Nat.le_refl _), Nat.sub_self]
    rfl
  have hfirst : u.label.1 ∈ u.preorder.map Prod.fst := by
    cases u <;> simp [preorder, label]
  -- the number of the child is no number of another node that stays
  rw [preorder, List.map_cons, List.nodup_cons, preorderAll_eq, List.flatMap_append,
    List.flatMap_cons, List.map_append, List.map_append, ← preorderAll_eq, ← preorderAll_eq] at hn
  obtain ⟨hself, hn⟩ := hn
  obtain ⟨-, hbehind, hdisjoint⟩ := List.nodup_append.1 hn
  obtain ⟨-, -, hdisjoint'⟩ := List.nodup_append.1 hbehind
  have hne : ∀ i ∈ (preorderAll (us ++ vs)).map Prod.fst, i ≠ a.1 ∧ u.label.1 ≠ i := by
    intro i hi
    rw [preorderAll_eq, List.flatMap_append, List.map_append, ← preorderAll_eq, ← preorderAll_eq,
      List.mem_append] at hi
    rcases hi with hi | hi
    · refine ⟨?_, (hdisjoint i hi _ (List.mem_append_left _ hfirst)).symm⟩
      rintro rfl
      exact hself (List.mem_append_left _ hi)
    · refine ⟨?_, hdisjoint' _ hfirst i hi⟩
      rintro rfl
      exact hself (List.mem_append_right _ (List.mem_append_right _ hi))
  have hchildren : (f.children a.1)[us.length]? = some u.label.1 := by
    rw [hroot.nodes]
    exact hid
  refine ⟨?_, (hangsAll_append.2 ⟨hall.1, hall.2.2⟩).congr fun i hi e p c hs => ?_⟩
  · have := hroot.removeAt_self us.length (by
      rw [hid, ne_eq, Option.some.injEq]
      rintro heq
      exact hself (heq ▸ List.mem_append_right _ (List.mem_append_left _ hfirst)))
    rwa [List.map_append, ← hlength, List.eraseIdx_append_of_length_le (Nat.le_refl _),
      Nat.sub_self, List.map_cons, List.eraseIdx_cons_zero, ← List.map_append, hlength] at this
  · refine hs.removeAt (hne i hi).1 ?_
    rw [hchildren, ne_eq, Option.some.injEq]
    exact (hne i hi).2

/-! ## Taking out link comments -/

/-- Whether the top is a comment that names a map. -/
def isLinkTop (t : Tree (NodeId × Element)) : Bool := t.label.2.data.isLink

theorem namesMap_of_hangs {t : Tree (NodeId × Element)} (h : f.Hangs p t) :
    f.namesMap t.label.1 = isLinkTop t := by
  rw [namesMap_eq, isLinkTop]
  cases t with
  | leaf a => rw [label, Sits.data h]
  | block a ts => rw [label, h.1.data]

/-- What one step of `clearLinks` does. -/
def clearLinkAt (root : NodeId) (f : Forest) (index : Nat) : Forest :=
  if ((f.children root)[index]?).any f.namesMap then (f.removeAt root index).2 else f

theorem clearLinks_eq_foldl (f : Forest) (root : NodeId) : f.clearLinks root =
    (List.range (f.children root).length).reverse.foldl (clearLinkAt root) f := rfl

/-- A step takes out the child at its place if that is a link comment. -/
theorem Hangs.clearLinkAt {a : NodeId × Element} {us vs : List (Tree (NodeId × Element))}
    {u : Tree (NodeId × Element)} (h : f.Hangs p (.block a (us ++ u :: vs)))
    (hn : ((Tree.block a (us ++ u :: vs)).preorder.map Prod.fst).Nodup) :
    (f.clearLinkAt a.1 us.length).Hangs p (.block a (us ++ ([u].filter (!isLinkTop ·) ++ vs))) := by
  have hchild : (f.children a.1)[us.length]? = some u.label.1 := by
    rw [h.1.nodes]
    simp
  have hnames : f.namesMap u.label.1 = isLinkTop u :=
    namesMap_of_hangs (hangsAll_append.1 h.2).2.1
  rw [Forest.clearLinkAt, hchild, Option.any_some, hnames]
  cases hu : isLinkTop u with
  | true => simpa [hu] using h.removeAt hn
  | false => simpa [hu] using h

theorem nodup_erase {a : NodeId × Element} {us vs : List (Tree (NodeId × Element))}
    {u : Tree (NodeId × Element)}
    (hn : ((Tree.block a (us ++ u :: vs)).preorder.map Prod.fst).Nodup) :
    ((Tree.block a (us ++ ([u].filter (!isLinkTop ·) ++ vs))).preorder.map Prod.fst).Nodup := by
  refine hn.sublist (List.Sublist.map _ ?_)
  simp only [preorder, preorderAll_eq, List.flatMap_append, List.flatMap_cons]
  refine .cons_cons _ (.append (.refl _) (.append ?_ (.refl _)))
  cases hu : isLinkTop u <;> simp [hu]

/-- The steps up to a place, from the last to the first. -/
theorem Hangs.clearLinksBefore {a : NodeId × Element} {us vs : List (Tree (NodeId × Element))}
    (h : f.Hangs p (.block a (us ++ vs)))
    (hn : ((Tree.block a (us ++ vs)).preorder.map Prod.fst).Nodup) :
    ((List.range us.length).reverse.foldl (Forest.clearLinkAt a.1) f).Hangs p
      (.block a (us.filter (!isLinkTop ·) ++ vs)) := by
  induction hlen : us.length generalizing us vs f with
  | zero =>
    rw [List.length_eq_zero_iff.1 hlen] at h ⊢
    exact h
  | succ n ih =>
    rcases List.eq_nil_or_concat us with rfl | ⟨us, u, rfl⟩
    · cases hlen
    rw [List.concat_eq_append, List.append_assoc, List.singleton_append] at h hn
    rw [List.concat_eq_append, List.length_append, List.length_singleton, Nat.add_right_cancel_iff]
      at hlen
    have hstep := h.clearLinkAt hn
    rw [hlen] at hstep
    have := ih hstep (nodup_erase hn) hlen
    rwa [List.range_succ, List.reverse_append, List.reverse_singleton, List.singleton_append,
      List.foldl_cons, List.concat_eq_append, List.filter_append, List.append_assoc]

/-- **Only the children that name no map are left.** -/
theorem Hangs.clearLinks {a : NodeId × Element} {us : List (Tree (NodeId × Element))}
    (h : f.Hangs p (.block a us)) (hn : ((Tree.block a us).preorder.map Prod.fst).Nodup) :
    (f.clearLinks a.1).Hangs p (.block a (us.filter (!isLinkTop ·))) := by
  rw [clearLinks_eq_foldl, h.1.nodes, Option.getD_some, List.length_map]
  have := @Hangs.clearLinksBefore f p a us [] (by rwa [List.append_nil]) (by rwa [List.append_nil])
  rwa [List.append_nil] at this

theorem clearLinkAt_frame (f : Forest) (root : NodeId) (index : Nat) :
    (f.clearLinkAt root index).size = f.size ∧ (f.clearLinkAt root index).inputs = f.inputs := by
  unfold clearLinkAt
  split
  · exact ⟨size_removeAt .., by unfold Forest.removeAt; split <;> rfl⟩
  · exact ⟨rfl, rfl⟩

/-- No node is lost, and no input. -/
theorem clearLinks_frame (f : Forest) (root : NodeId) :
    (f.clearLinks root).size = f.size ∧ (f.clearLinks root).inputs = f.inputs := by
  rw [clearLinks_eq_foldl]
  generalize (List.range (f.children root).length).reverse = indices
  induction indices generalizing f with
  | nil => exact ⟨rfl, rfl⟩
  | cons index indices ih =>
    obtain ⟨hsize, hinputs⟩ := f.clearLinkAt_frame root index
    exact ⟨(ih _).1.trans hsize, (ih _).2.trans hinputs⟩

/-! ## Trees that were read -/

section
variable {input : InputId} {i : Input} {a : Parsed} {ts : List (Tree Parsed)}

theorem nodup_numbers (root : NodeId) (e : Element) (g : Parsed → Element)
    (ts : List (Tree Parsed)) : ((Tree.block (root, e) (mapAll (Prod.map id g)
      (numberedAll (root + 1) ts))).preorder.map Prod.fst).Nodup := by
  have hnumbers : (preorderAll (mapAll (Prod.map id g) (numberedAll (root + 1) ts))).map
      Prod.fst = List.range' (root + 1) (sizeAll ts) := by
    rw [preorderAll_mapAll, List.map_map]
    exact numbers_numberedAll (root + 1) ts
  rw [preorder, List.map_cons, hnumbers, ← List.range'_succ]
  exact List.nodup_range'

theorem sizeAll_le_of_sublist {α : Type} {us vs : List (Tree α)} (h : us.Sublist vs) :
    sizeAll us ≤ sizeAll vs := by
  rw [sizeAll, sizeAll, preorderAll_eq, preorderAll_eq]
  exact (h.flatMap preorder).length_le

theorem Keeps.hangs_clearLinks (h : f.Keeps root input i a ts) :
    (f.clearLinks root).Hangs none (.block (root, i.rootElement input a)
      (mapAll (Prod.map id (i.element input))
        ((numberedAll (root + 1) ts).filter (!·.label.2.data.isLink)))) := by
  have hclear := h.hangs.clearLinks (nodup_numbers ..)
  have hlink : (fun t => !isLinkTop t) ∘ Tree.map (Prod.map id (i.element input)) =
      fun t => !t.label.2.data.isLink := by
    funext t
    simp [isLinkTop, label_map, Input.element]
  rwa [mapAll_eq, List.filter_map, hlink, ← mapAll_eq] at hclear

/-- **A tree that was read is printed without its link comments**, and otherwise the same. -/
theorem Keeps.css_clearLinks (h : f.Keeps root input i a ts) :
    ((f.clearLinks root).css root).toList =
      Piece.chars (a.body (ts.filter (!·.label.data.isLink))) ++
        (a.wording.slot "after").toList := by
  have hhangs := h.hangs_clearLinks
  generalize hkept : (numberedAll (root + 1) ts).filter (!·.label.2.data.isLink) = kept at hhangs
  have hsub : kept.Sublist (numberedAll (root + 1) ts) := hkept ▸ List.filter_sublist
  have hts : mapAll Prod.snd kept = ts.filter (!·.label.data.isLink) := by
    conv => rhs; rw [← mapAll_snd_numberedAll (root + 1) ts]
    rw [← hkept, mapAll_eq, mapAll_eq, List.filter_map]
    simp [Function.comp_def, label_map]
  have hf : RootFormatted numberedWording (root, i.rootElement input a)
      (mapAll (Prod.map id (i.element input)) kept) := by
    refine ⟨h.formatted.data, fun hne => h.formatted.semicolon ?_, ?_⟩
    · rintro rfl
      rw [numberedAll, List.sublist_nil] at hsub
      exact hne (by rw [hsub]; rfl)
    · rw [formattedAll_map]
      exact formattedAll_iff.2 fun t ht => formattedAll_iff.1 h.formattedAll t (hsub.subset ht)
  have hsize : (Tree.block (root, i.rootElement input a)
      (mapAll (Prod.map id (i.element input)) kept)).size ≤ (f.clearLinks root).size := by
    rw [(f.clearLinks_frame root).1, size_block, sizeAll_mapAll]
    have := h.size_numbered_le
    rw [size_block, sizeAll_mapAll] at this
    exact Nat.le_trans (Nat.succ_le_succ (sizeAll_le_of_sublist hsub)) this
  have hpieces : (Tree.block (root, i.rootElement input a)
      (mapAll (Prod.map id (i.element input)) kept)).pieces numberedWording false false =
      piecesAll numberedWording a.wording.closed a.wording.closed
        (mapAll (Prod.map id (i.element input)) kept) ++
          Piece.gap (a.wording.slot "after") := by
    simp only [Tree.pieces, hf.data]
    rfl
  have hcss : ((f.clearLinks root).css root).toList = _ :=
    (congrArg (fun fs => (Fragment.concat fs).toList) (print_of_hangs hhangs hsize hf)).trans
      (Fragment.toList_concat_map _)
  rw [hcss, hpieces, Piece.chars_append, Piece.chars_gap, piecesAll_map, Piece.chars_map, ← hts,
    Parsed.body, piecesAll_map, Piece.chars_map]
  rfl

end

end Forest

end Stylesheet
