import Stylesheet.Proofs.Parse.Printed
import Stylesheet.Proofs.Print.Plain
import Stylesheet.Proofs.Print.Resolved

/-!
# Trees that are printed as their tokens

`Forest.PrintsTree` says of a tree of numbered parts that each node is printed as the tokens of its
part, with whatever formatting it gets from itself or by example, and that the semicolons stand
where the parts have them. The tree is then printed as its tokens (`chars_renderTree`). Nodes that
were read and not changed are printed so (`printsLeaf_of_read`, `printsBlock_of_read`).
-/

set_option autoImplicit false

namespace Stylesheet

open Stylesheet.Tree

namespace Fragment

/-- The characters of fragments. -/
def chars (fs : List Fragment) : List Char := fs.flatMap (·.text.toList)

@[simp] theorem chars_nil : chars [] = [] := rfl

@[simp] theorem chars_cons (x : Fragment) (xs : List Fragment) :
    chars (x :: xs) = x.text.toList ++ chars xs := rfl

@[simp] theorem chars_append (xs ys : List Fragment) : chars (xs ++ ys) = chars xs ++ chars ys :=
  List.flatMap_append

@[simp] theorem chars_between (text : String) : chars (between text) = text.toList := by
  by_cases h : text = "" <;> simp [between, h]

theorem toList_concat (fs : List Fragment) : (concat fs).toList = chars fs := by
  simp [concat, chars, List.flatMap_map]

end Fragment

namespace Forest

open Printing

/-- A statement or comment without a block is printed as the tokens of the part. -/
structure PrintsLeaf (f : Forest) (id : NodeId) (a : Part) : Prop where
  data : f.data id = a.data
  kind : a.data.kind ≠ .root ∧ a.data.kind ≠ .rule
  hasBlock : (f.node id).hasBlock = false
  text : ((f.resolve id "before" .before).toText ++ f.stem id).toList =
    Spelling.chars (a.gap ++ a.body)

/-- A node with a block is printed as the tokens of the part, around its children. -/
structure PrintsBlock (f : Forest) (id : NodeId) (a : Part) (isEmpty : Bool) : Prop where
  data : f.data id = a.data
  text : ∀ semicolon fs, (isEmpty = true → fs = []) →
    (f.resolve id "before" .before).toText.toList ++
      Fragment.chars (f.renderNode id semicolon isEmpty fs) =
        Spelling.chars (a.gap ++ a.body) ++ Fragment.chars fs ++
          Spelling.chars (a.tail ++ Spelling.brace :: a.own)

theorem renderNode_of_leaf {f : Forest} {id : NodeId}
    (hk : (f.data id).kind ≠ .root ∧ (f.data id).kind ≠ .rule)
    (hb : (f.node id).hasBlock = false) (semicolon : Bool) :
    Fragment.chars (f.renderNode id semicolon true []) =
      (f.stem id).toList ++ if semicolon && (f.data id).kind ≠ .comment then [';'] else [] := by
  unfold renderNode
  cases hd : f.data id with
  | root => exact absurd (by rw [hd]; rfl) hk.1
  | rule selector => exact absurd (by rw [hd]; rfl) hk.2
  | atRule name params => cases semicolon <;> simp [hb, NodeData.kind]
  | declaration prop value important => cases semicolon <;> simp [NodeData.kind]
  | comment text => simp [NodeData.kind]

mutual

/-- The nodes of the tree are printed as the tokens of their parts. -/
def PrintsTree (f : Forest) : Tree (NodeId × Part) → Prop
  | .leaf a => f.PrintsLeaf a.1 a.2
  | .block a ts => f.PrintsBlock a.1 a.2 ts.isEmpty ∧
      Flagged (f.resolve a.1 "semicolon" .semicolon).isTruthy (mapAll Prod.snd ts) ∧ PrintsAll f ts

/-- The nodes of the trees are printed as the tokens of their parts. -/
def PrintsAll (f : Forest) : List (Tree (NodeId × Part)) → Prop
  | [] => True
  | t :: ts => PrintsTree f t ∧ PrintsAll f ts

end

variable {f : Forest}

theorem PrintsTree.data {t : Tree (NodeId × Part)} (h : f.PrintsTree t) :
    f.data t.label.1 = t.label.2.data := by
  cases t with
  | leaf a => exact PrintsLeaf.data h
  | block a ts => exact h.1.data

mutual

/-- What the nodes say. -/
theorem PrintsTree.map_data : {t : Tree (NodeId × Part)} → f.PrintsTree t →
    (t.map Prod.fst).map f.data = (t.map Prod.snd).map Part.data
  | .leaf a, h => by
    simp only [map]
    rw [PrintsLeaf.data h]
  | .block a ts, h => by
    simp only [map]
    rw [h.1.data, h.2.2.mapAll_data]

theorem PrintsAll.mapAll_data : {ts : List (Tree (NodeId × Part))} → f.PrintsAll ts →
    mapAll f.data (mapAll Prod.fst ts) = mapAll Part.data (mapAll Prod.snd ts)
  | [], _ => rfl
  | t :: ts, h => by
    simp only [mapAll]
    rw [h.1.map_data, h.2.mapAll_data]

end

theorem PrintsAll.kinds {ts : List (Tree (NodeId × Part))} (h : f.PrintsAll ts) :
    (mapAll Prod.fst ts).map (fun t => f.kind t.label) = ts.map fun t => t.label.2.data.kind := by
  induction ts with
  | nil => rfl
  | cons t ts ih =>
    simp only [mapAll, List.map_cons, label_map, ih h.2]
    exact congrArg (· :: _) (congrArg NodeData.kind h.1.data)

theorem map_label_fst (ts : List (Tree (NodeId × Part))) :
    (mapAll Prod.fst ts).map Tree.label = ts.map (·.label.1) := by
  rw [mapAll_eq, List.map_map]
  exact List.map_congr_left fun t _ => label_map Prod.fst t

theorem isSolid_map_snd (t : Tree (NodeId × Part)) :
    (t.map Prod.snd).isSolid = decide (t.label.2.data.kind ≠ .comment) := by
  rw [isSolid, label_map]

/-- The child at `last` is the last statement: the one with only comments behind it. -/
def EndsIn (last index : Nat) (ts : List (Tree (NodeId × Part))) : Prop :=
  ∀ us t vs, ts = us ++ t :: vs → t.label.2.data.kind ≠ .comment →
    (index + us.length = last ↔ (mapAll Prod.snd vs).any isSolid = false)

theorem endsIn_lastIndex (ts : List (Tree (NodeId × Part))) :
    EndsIn (lastIndex (ts.map fun t => t.label.2.data.kind)) 0 ts := by
  rintro us t vs rfl ht
  have := lastIndex_eq_iff ht (us.map fun t => t.label.2.data.kind)
    (vs.map fun t => t.label.2.data.kind)
  rw [Nat.zero_add, List.map_append, List.map_cons, ← List.length_map, this, mapAll_eq,
    List.any_map, List.any_eq_false, List.forall_mem_map]
  simp only [Function.comp_apply, isSolid_map_snd, decide_eq_true_iff, not_not]

theorem EndsIn.tail {last index : Nat} {t : Tree (NodeId × Part)} {ts : List (Tree (NodeId × Part))}
    (h : EndsIn last index (t :: ts)) : EndsIn last (index + 1) ts := by
  intro us u vs he hu
  rw [← h (t :: us) u vs (by rw [he]; rfl) hu, List.length_cons]
  omega

mutual

/-- **A tree is printed as its tokens**, where its nodes are. -/
theorem PrintsTree.chars_renderTree : {t : Tree (NodeId × Part)} → f.PrintsTree t →
    (semicolon : Bool) →
    (∀ a, t.map Prod.snd = .leaf a → a.closed = ((t.map Prod.snd).isSolid && semicolon)) →
    (f.resolve t.label.1 "before" .before).toText.toList ++
      Fragment.chars (f.renderTree semicolon (t.map Prod.fst)) =
        Spelling.chars (t.map Prod.snd).source
  | .leaf a, h, semicolon, hclosed => by
    have hleaf : f.PrintsLeaf a.1 a.2 := h
    have hdata := hleaf.data
    have htext := hleaf.text
    have hc := hclosed a.2 rfl
    rw [isSolid_map_snd, Bool.and_comm, label] at hc
    rw [map, renderTree, label, renderNode_of_leaf (hdata ▸ hleaf.kind) hleaf.hasBlock, hdata, ← hc,
      ← List.append_assoc, ← String.toList_append, htext, map, Tree.source, Part.leaf]
    cases a.2.closed <;> simp [Spelling.semicolon]
  | .block a ts, h, semicolon, _ => by
    obtain ⟨hblock, hflagged, hall⟩ := h
    have hempty : (mapAll Prod.fst ts).isEmpty = ts.isEmpty := by simp [mapAll_eq]
    have hchildren := hall.chars_renderChildren hflagged (endsIn_lastIndex ts)
    have htext := hblock.text semicolon (f.renderChildren
      (lastIndex (ts.map fun t => t.label.2.data.kind))
      (f.resolve a.1 "semicolon" .semicolon).isTruthy 0 (mapAll Prod.fst ts)) fun he => by
        rw [List.isEmpty_iff.1 he]
        rfl
    rw [map, renderTree, label, hempty, hall.kinds, htext, hchildren]
    simp [map, Tree.source]

/-- The children of a node are printed as their tokens. -/
theorem PrintsAll.chars_renderChildren : {ts : List (Tree (NodeId × Part))} → f.PrintsAll ts →
    {semicolon : Bool} → Flagged semicolon (mapAll Prod.snd ts) → {last index : Nat} →
    EndsIn last index ts →
    Fragment.chars (f.renderChildren last semicolon index (mapAll Prod.fst ts)) =
      Spelling.chars (sourceAll (mapAll Prod.snd ts))
  | [], _, _, _, _, _, _ => rfl
  | t :: ts, h, semicolon, hflagged, last, index, hlast => by
    obtain ⟨hclosed, hrest⟩ := hflagged
    have htree := h.1.chars_renderTree (index != last || semicolon) fun a ha => by
      rw [hclosed a ha]
      cases hs : (t.map Prod.snd).isSolid with
      | false => rfl
      | true =>
        rw [isSolid_map_snd, decide_eq_true_iff] at hs
        have hiff := hlast [] t ts rfl hs
        rw [List.length_nil, Nat.add_zero] at hiff
        rw [Bool.true_and, Bool.true_and, Bool.or_comm]
        refine congrArg (· || semicolon) (Bool.eq_iff_iff.2 ?_)
        rw [← Bool.not_eq_false, ← hiff, bne_iff_ne]
    have hall := h.2.chars_renderChildren hrest hlast.tail
    rw [mapAll, renderChildren, Fragment.chars_append, Fragment.chars_append,
      Fragment.chars_between, label_map, htree, hall, mapAll, sourceAll, Spelling.chars_append]

end

/-- **A root is printed as its tokens**, where the nodes below it are. -/
theorem WellFormed.toList_css (h : f.WellFormed) {root : NodeId} {ts : List (Tree (NodeId × Part))}
    (hd : f.data root = .root) (hout : f.outline root = .block root (mapAll Prod.fst ts))
    (hts : f.PrintsAll ts)
    (hf : Flagged (f.resolve root "semicolon" .semicolon).isTruthy (mapAll Prod.snd ts)) :
    (f.css root).toList = Spelling.chars (sourceAll (mapAll Prod.snd ts)) ++
      ((f.rawText? root "after").getD "").toList := by
  have hlt : root < f.size := lt_size_of_root (congrArg NodeData.kind hd)
  have hchildren := hts.chars_renderChildren hf (endsIn_lastIndex ts)
  rw [Forest.css, h.print_eq_render hlt, Fragment.toList_concat, hout, renderTree, hts.kinds]
  unfold renderNode
  simp only [hd, Fragment.chars_append, Fragment.chars_between, hchildren]

/-! ## Nodes that were read -/

section
variable {id : NodeId} {a : Part}

/-- A slot that a node has is not looked up anywhere. -/
theorem resolve_of_contains {own : String} (h : (f.raws id).contains own) (aspect : Aspect) :
    f.resolve id own aspect = ((f.raws id).get? own).getD (.text "") := by
  obtain ⟨v, hv⟩ := Option.isSome_iff_exists.1 h
  simp [resolve, raw, hv]

theorem toText_resolve_of_contains {own : String} (h : (f.raws id).contains own)
    (aspect : Aspect) :
    (f.resolve id own aspect).toText = ((f.raws id).text? own).getD "" := by
  obtain ⟨v, hv⟩ := Option.isSome_iff_exists.1 h
  simp [resolve_of_contains h, Raws.text?, hv]

/-- A node with children that was read has a slot for the semicolon behind the last one. -/
theorem flagged_of_read {w : Wording} {ts : List (Tree Part)} (hr : f.raws id = w.raws)
    (h : ts ≠ [] → w.raws.contains "semicolon") (hf : Flagged w.closed ts) :
    Flagged (f.resolve id "semicolon" .semicolon).isTruthy ts := by
  cases ts with
  | nil => trivial
  | cons t ts =>
    have hcontains := h (List.cons_ne_nil t ts)
    obtain ⟨v, hv⟩ := Option.isSome_iff_exists.1 hcontains
    have hclosed : w.closed = v.isTruthy := by
      rw [Wording.closed, hv]
      rfl
    rwa [resolve_of_contains (by rw [hr]; exact hcontains), hr, hv, Option.getD_some, ← hclosed]

variable (hd : f.data id = a.node.data) (hr : f.raws id = a.node.raws)
include hd hr

theorem wording_node : (f.node id).toElement.wording = a.node.wording := by
  show (⟨f.data id, f.raws id⟩ : Wording) = _
  rw [hd, hr]
  rfl

theorem printsLeaf_of_read (hb : (f.node id).hasBlock = false)
    (hf : a.node.wording.LeafFormatted) (hp : a.LeafPrinted) : f.PrintsLeaf id a := by
  have hw := wording_node hd hr
  have hkind : a.data.kind ≠ .root ∧ a.data.kind ≠ .rule := by
    have h := hf.2
    show a.node.wording.data.kind ≠ _ ∧ a.node.wording.data.kind ≠ _
    generalize a.node.wording.data = d at h
    cases d <;> simp [NodeData.kind] at h ⊢
  have hsits : f.Sits id (f.node id).toElement (f.node id).parent none :=
    ⟨rfl, rfl, by simpa [Node.hasBlock] using hb⟩
  have hwrites := writes_leaf hsits (hw ▸ hf) false true (emit []) []
  have hsettles := settles_printNode (show f.top id = f.top id from rfl) false true
    (settles_emit f _ []) [] (f.faithful_nil _)
  rw [hwrites, hw] at hsettles
  have hstem := renderNode_of_leaf (by rw [hd]; exact hkind) hb false
  rw [← hsettles.1] at hstem
  have hleaf : (a.node.wording.leaf false).toList = (f.stem id).toList := by simpa using hstem
  refine ⟨hd, hkind, hb, ?_⟩
  rw [String.toList_append, toText_resolve_of_contains (by rw [hr]; exact hf.1), hr, ← hleaf,
    Spelling.chars_append]
  exact hp.symm

theorem printsBlock_of_read (hb : (f.node id).hasBlock = true)
    (hf : a.node.wording.BlockFormatted) (hp : a.BlockPrinted) (isEmpty : Bool) :
    f.PrintsBlock id a isEmpty where
  data := hd
  text semicolon fs hfs := by
    have hw := wording_node hd hr
    obtain ⟨ids, hids⟩ := Option.isSome_iff_exists.1 hb
    have hsits : f.Sits id (f.node id).toElement (f.node id).parent (some ids) :=
      ⟨rfl, rfl, hids⟩
    have hwrites := writes_block hsits (hw ▸ hf) semicolon (fun _ => writes_emit fs) hfs []
    have hsettles := settles_printNode (show f.top id = f.top id from rfl) semicolon isEmpty
      (settles_emit f _ fs) [] (f.faithful_nil _)
    rw [hwrites] at hsettles
    rw [← hsettles.1, toText_resolve_of_contains (by rw [hr]; exact hf.before), hr]
    have hbefore : (a.node.raws.text? "before").getD "" = a.node.wording.slot "before" := rfl
    have hopening : (opening numberedWording (id, (f.node id).toElement)).text =
        (opening Parsed.wording a.node).text := by
      simp [opening, hw]
    have hending : Fragment.chars ((ending numberedWording (id, (f.node id).toElement)).map
        Piece.fragment) = Spelling.chars (a.tail ++ Spelling.brace :: a.own) := by
      simp only [ending, Function.comp_apply, hw, List.map_append, List.map_cons,
        map_fragment_gap, Fragment.chars_append, Fragment.chars_between, Fragment.chars_cons,
        Spelling.chars_append, Spelling.chars_cons, hp.after, hp.own]
      by_cases hown : a.node.wording.own = "" <;> simp [hown, Spelling.brace]
    rw [hbefore, ← hp.before, Fragment.chars_append, hending, Fragment.chars_cons,
      Piece.fragment_text, hopening, ← hp.opening]
    simp

end

end Forest

end Stylesheet
