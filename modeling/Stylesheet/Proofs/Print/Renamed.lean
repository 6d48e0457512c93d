import Stylesheet.Proofs.Print.Plain
import Stylesheet.Proofs.Print.Resolved

/-!
# Trees under other numbers

`Renames f g ρ top` says that the tree below `top` in `g` is a tree of `f` whose nodes have other
numbers: `ρ` leads back. Nothing that the printer asks of a node depends on its number but by the
question whether two nodes are the same, so the links, the formatting by example and what is printed
are the same up to `ρ` (`Renames.print_eq`).
-/

set_option autoImplicit false

namespace Stylesheet

open Relation

namespace Fragment

/-- The fragment with its node under another number. -/
def rename (ρ : NodeId → NodeId) (x : Fragment) : Fragment := { x with node := x.node.map ρ }

@[simp] theorem map_rename_between (ρ : NodeId → NodeId) (text : String) :
    (between text).map (rename ρ) = between text := by
  unfold between
  split <;> rfl

theorem concat_map_rename (ρ : NodeId → NodeId) (xs : List Fragment) :
    concat (xs.map (rename ρ)) = concat xs := by
  rw [concat, concat, List.map_map]
  rfl

end Fragment

namespace Forest

open Fragment

/-- The tree below `top` in `g` is the tree of `f` that `ρ` makes of it, whole from a node without a
parent on; its nodes say the same and have the same formatting. -/
structure Renames (f g : Forest) (ρ : NodeId → NodeId) (top : NodeId) : Prop where
  old : f.WellFormed
  new : g.WellFormed
  outline : f.outline (ρ top) = (g.outline top).map ρ
  old_lt : ρ top < f.size
  new_lt : top < g.size
  old_parent : f.parent? (ρ top) = none
  new_parent : g.parent? top = none
  data : ∀ x ∈ (g.outline top).preorder, f.data (ρ x) = g.data x
  raws : ∀ x ∈ (g.outline top).preorder, f.raws (ρ x) = g.raws x

mutual

/-- The lists of children of a tree that is shown under both numbers. -/
theorem Shows.children_map {f g : Forest} {ρ : NodeId → NodeId} : {t : Tree NodeId} →
    g.Shows t → f.Shows (t.map ρ) →
    ∀ x ∈ t.preorder, (f.node (ρ x)).children = (g.node x).children.map (List.map ρ)
  | .leaf id, hg, hf, x, hx => by
    rw [Tree.preorder, List.mem_singleton] at hx
    rw [Shows] at hg
    rw [Tree.map, Shows] at hf
    rw [hx, hg, hf, Option.map_none]
  | .block id ts, hg, hf, x, hx => by
    rw [Shows] at hg
    rw [Tree.map, Shows] at hf
    rw [Tree.preorder, List.mem_cons] at hx
    rcases hx with rfl | hx
    · rw [hg.1, hf.1, Tree.mapAll_eq, Option.map_some, List.map_map, List.map_map]
      simp [Function.comp_def, Tree.label_map]
    · exact hg.2.children_map hf.2 x hx

theorem ShowsAll.children_map {f g : Forest} {ρ : NodeId → NodeId} : {ts : List (Tree NodeId)} →
    g.ShowsAll ts → f.ShowsAll (Tree.mapAll ρ ts) →
    ∀ x ∈ Tree.preorderAll ts, (f.node (ρ x)).children = (g.node x).children.map (List.map ρ)
  | [], _, _, x, hx => by cases hx
  | t :: ts, hg, hf, x, hx => by
    rw [Tree.preorderAll, List.mem_append] at hx
    rcases hx with hx | hx
    · exact hg.1.children_map hf.1 x hx
    · exact hg.2.children_map hf.2 x hx

end

theorem depth_eq_zero {f : Forest} {id : NodeId} (hp : f.parent? id = none) : f.depth id = 0 := by
  have hnil : f.ancestors id = [] := by
    rw [ancestors]
    cases f.size <;> simp [ancestorsWithin, hp]
  rw [depth, hnil]
  rfl

theorem findSome?_congr {α β : Type} {l : List α} {find find' : α → Option β}
    (h : ∀ a ∈ l, find a = find' a) : l.findSome? find = l.findSome? find' := by
  induction l with
  | nil => rfl
  | cons a l ih =>
    obtain ⟨ha, h⟩ := List.forall_mem_cons.1 h
    rw [List.findSome?_cons, List.findSome?_cons, ha, ih h]

namespace Renames

variable {f g : Forest} {ρ : NodeId → NodeId} {top x y p : NodeId}

/-! ## Links -/

theorem mem_iff (h : f.Renames g ρ top) :
    x ∈ (g.outline top).preorder ↔ ReflTransGen g.Child top x := by
  rw [mem_preorder_iff (h.new.shows_outline h.new_lt), label_outline]

theorem top_mem (h : f.Renames g ρ top) : top ∈ (g.outline top).preorder := h.mem_iff.2 .refl

theorem injective (h : f.Renames g ρ top) (hx : x ∈ (g.outline top).preorder)
    (hy : y ∈ (g.outline top).preorder) (he : ρ x = ρ y) : x = y := by
  have hnodup := h.old.nodup_preorder (h.old.shows_outline h.old_lt)
  rw [h.outline, Tree.preorder_map] at hnodup
  exact List.inj_on_of_nodup_map hnodup hx hy he

/-- Whether a node of the tree is a given one is the same question under both numbers. -/
theorem map_eq_some_iff (h : f.Renames g ρ top) {o : Option NodeId}
    (ho : ∀ y ∈ o, y ∈ (g.outline top).preorder) (hx : x ∈ (g.outline top).preorder) :
    o.map ρ = some (ρ x) ↔ o = some x := by
  cases o with
  | none => simp
  | some y =>
    rw [Option.map_some, Option.some.injEq, Option.some.injEq]
    exact ⟨h.injective (ho y rfl) hx, congrArg ρ⟩

theorem node_children (h : f.Renames g ρ top) (hx : x ∈ (g.outline top).preorder) :
    (f.node (ρ x)).children = (g.node x).children.map (List.map ρ) :=
  (h.new.shows_outline h.new_lt).children_map (h.outline ▸ h.old.shows_outline h.old_lt) x hx

theorem children (h : f.Renames g ρ top) (hx : x ∈ (g.outline top).preorder) :
    f.children (ρ x) = (g.children x).map ρ := by
  rw [Forest.children, Node.nodes, h.node_children hx, Forest.children, Node.nodes]
  cases (g.node x).children <;> rfl

theorem child_mem (h : f.Renames g ρ top) (hx : x ∈ (g.outline top).preorder)
    (hy : y ∈ g.children x) : y ∈ (g.outline top).preorder :=
  h.mem_iff.2 ((h.mem_iff.1 hx).tail hy)

theorem hasBlock (h : f.Renames g ρ top) (hx : x ∈ (g.outline top).preorder) :
    (f.node (ρ x)).hasBlock = (g.node x).hasBlock := by
  rw [Node.hasBlock, h.node_children hx, Option.isSome_map, Node.hasBlock]

theorem kind (h : f.Renames g ρ top) (hx : x ∈ (g.outline top).preorder) :
    f.kind (ρ x) = g.kind x := congrArg NodeData.kind (h.data x hx)

/-- A node of the tree is its top or stands below another one. -/
theorem parent_cases (h : f.Renames g ρ top) (hx : x ∈ (g.outline top).preorder) :
    x = top ∨ ∃ p ∈ (g.outline top).preorder, g.parent? x = some p ∧
      f.parent? (ρ x) = some (ρ p) := by
  rcases ReflTransGen.cases_tail (h.mem_iff.1 hx) with rfl | ⟨p, hp, hc⟩
  · exact .inl rfl
  · have hmem := h.mem_iff.2 hp
    refine .inr ⟨p, hmem, (h.new.parent p x).1 hc, (h.old.parent _ _).1 ?_⟩
    rw [h.children hmem]
    exact List.mem_map_of_mem hc

theorem parent? (h : f.Renames g ρ top) (hx : x ∈ (g.outline top).preorder) :
    f.parent? (ρ x) = (g.parent? x).map ρ := by
  rcases h.parent_cases hx with rfl | ⟨p, -, hp, hp'⟩
  · rw [h.old_parent, h.new_parent, Option.map_none]
  · rw [hp, hp', Option.map_some]

theorem parent_mem (h : f.Renames g ρ top) (hx : x ∈ (g.outline top).preorder)
    (hp : g.parent? x = some p) : p ∈ (g.outline top).preorder := by
  rcases h.parent_cases hx with rfl | ⟨q, hq, hp', -⟩
  · rw [h.new_parent] at hp
    cases hp
  · rw [hp, Option.some.injEq] at hp'
    exact hp' ▸ hq

theorem top_eq (h : f.Renames g ρ top) (hx : x ∈ (g.outline top).preorder) : g.top x = top :=
  h.new.top_eq h.new_parent (h.mem_iff.1 hx)

theorem top_map (h : f.Renames g ρ top) (hx : x ∈ (g.outline top).preorder) :
    f.top (ρ x) = ρ top := by
  have hmem : ρ x ∈ (f.outline (ρ top)).preorder := by
    rw [h.outline, Tree.preorder_map]
    exact List.mem_map_of_mem hx
  rw [mem_preorder_iff (h.old.shows_outline h.old_lt), label_outline] at hmem
  exact h.old.top_eq h.old_parent hmem

theorem depth (h : f.Renames g ρ top) (hx : x ∈ (g.outline top).preorder) :
    f.depth (ρ x) = g.depth x := by
  have hreach := h.mem_iff.1 hx
  induction hreach with
  | refl => rw [depth_eq_zero h.old_parent, depth_eq_zero h.new_parent]
  | tail hp hc ih =>
    have hmem := h.mem_iff.2 hp
    have hparent := (h.new.parent _ _).1 hc
    have hparent' := h.parent? hx
    rw [hparent, Option.map_some] at hparent'
    rw [h.new.depth_of_parent hparent, h.old.depth_of_parent hparent', h.kind hmem, ih hmem]

/-! ## Formatting by example -/

theorem findBelow {α : Type} (h : f.Renames g ρ top) {find find' : NodeId → Option α}
    (hfind : ∀ x ∈ (g.outline top).preorder, find (ρ x) = find' x) :
    f.findBelow (ρ top) find = g.findBelow top find' := by
  rw [Forest.findBelow, Forest.findBelow, Forest.descendants, h.outline, Tree.descendants_map,
    Forest.descendants, List.findSome?_map]
  refine findSome?_congr fun x hx => hfind x ?_
  rw [Tree.preorder_eq]
  exact .tail _ hx

/-- The first child of the top is the same one. -/
theorem head?_iff (h : f.Renames g ρ top) (hp : p ∈ (g.outline top).preorder)
    (hx : x ∈ (g.outline top).preorder) :
    (f.children (ρ p)).head? = some (ρ x) ↔ (g.children p).head? = some x := by
  rw [h.children hp, List.head?_map]
  exact h.map_eq_some_iff (fun c hc => h.child_mem hp (List.mem_of_head? hc)) hx

theorem parent?_iff (h : f.Renames g ρ top) (hp : p ∈ (g.outline top).preorder)
    (hx : x ∈ (g.outline top).preorder) :
    f.parent? (ρ x) = some (ρ p) ↔ g.parent? x = some p := by
  rw [h.parent? hx]
  exact h.map_eq_some_iff (fun q hq => h.parent_mem hx hq) hp

theorem rawText? (h : f.Renames g ρ top) (hx : x ∈ (g.outline top).preorder) (slot : String) :
    f.rawText? (ρ x) slot = g.rawText? x slot := by
  rw [Forest.rawText?, h.raws x hx, Forest.rawText?]

theorem linesIn? (h : f.Renames g ρ top) (hx : x ∈ (g.outline top).preorder) (slot : String) :
    f.linesIn? (ρ x) slot = g.linesIn? x slot := by
  rw [Forest.linesIn?, h.rawText? hx, Forest.linesIn?]

theorem isEmpty_children (h : f.Renames g ρ top) (hx : x ∈ (g.outline top).preorder) :
    (f.children (ρ x)).isEmpty = (g.children x).isEmpty := by
  rw [h.children hx, List.isEmpty_map]

theorem any_getLast? (h : f.Renames g ρ top) (hx : x ∈ (g.outline top).preorder)
    (kind : NodeKind) : ((f.children (ρ x)).getLast?.any fun c => f.kind c = kind) =
      (g.children x).getLast?.any fun c => g.kind c = kind := by
  rw [h.children hx, List.getLast?_map]
  cases hlast : (g.children x).getLast? with
  | none => rfl
  | some c => simp [h.kind (h.child_mem hx (List.mem_of_getLast? hlast))]

/-- **Both trees give the same examples.** -/
theorem detect (h : f.Renames g ρ top) (own : Option String) (a : Aspect) :
    f.detect (ρ top) own a = g.detect top own a := by
  cases a with
  | before | after => rfl
  | beforeDeclaration | beforeComment =>
    refine h.findBelow fun x hx => ?_
    rw [h.kind hx, h.linesIn? hx]
  | colon =>
    refine h.findBelow fun x hx => ?_
    rw [h.kind hx, h.rawText? hx]
  | beforeRule =>
    refine h.findBelow fun x hx => ?_
    rw [h.hasBlock hx, h.linesIn? hx]
    simp only [ne_eq, h.head?_iff h.top_mem hx]
  | beforeClose =>
    refine h.findBelow fun x hx => ?_
    rw [h.isEmpty_children hx, h.linesIn? hx]
  | beforeOpen =>
    refine h.findBelow fun x hx => ?_
    rw [h.kind hx, h.raws x hx]
  | emptyBody =>
    refine h.findBelow fun x hx => ?_
    rw [h.hasBlock hx, h.isEmpty_children hx, h.raws x hx]
  | indent =>
    simp only [Forest.detect, h.rawText? h.top_mem]
    split
    · rfl
    · refine h.findBelow fun x hx => ?_
      rcases h.parent_cases hx with rfl | ⟨p, hmem, hp, hp'⟩
      · rw [h.old_parent, h.new_parent]
      · have htop : ρ p = ρ top ↔ p = top := ⟨h.injective hmem h.top_mem, congrArg ρ⟩
        simp only [hp, hp', ne_eq, htop, h.parent?_iff h.top_mem hmem, h.rawText? hx]
  | semicolon =>
    refine h.findBelow fun x hx => ?_
    rw [h.any_getLast? hx, h.raws x hx]
  | commentLeft | commentRight | slot name =>
    refine congrArg own.bind (funext fun s => h.findBelow fun x hx => ?_)
    rw [h.raws x hx]

theorem lookup (h : f.Renames g ρ top) (own : Option String) (memo : Memo) (as : List Aspect) :
    f.lookup (ρ top) own memo as = g.lookup top own memo as := by
  induction as generalizing own with
  | nil => rfl
  | cons a as ih => rw [Forest.lookup, Forest.lookup, h.detect, ih]

theorem placed (h : f.Renames g ρ top) (hx : x ∈ (g.outline top).preorder) (memo : Memo)
    (before : Bool) : f.placed memo (ρ x) before = g.placed memo x before := by
  unfold Forest.placed
  rw [h.top_map hx, h.top_eq hx, h.kind hx, h.depth hx]
  simp only [h.lookup]

theorem raw (h : f.Renames g ρ top) (hx : x ∈ (g.outline top).preorder) (memo : Memo)
    (own : Option String) (a : Aspect) : f.raw memo (ρ x) own a = g.raw memo x own a := by
  unfold Forest.raw
  rw [h.raws x hx, h.top_map hx, h.top_eq hx, h.placed hx, h.placed hx, h.lookup]
  rcases h.parent_cases hx with rfl | ⟨p, hmem, hp, hp'⟩
  · rw [h.old_parent, h.new_parent]
  · simp only [hp, hp', h.kind hmem, h.head?_iff hmem hx]

theorem resolve (h : f.Renames g ρ top) (hx : x ∈ (g.outline top).preorder) (own : String)
    (a : Aspect) : f.resolve (ρ x) own a = g.resolve x own a := by
  rw [Forest.resolve, h.raw hx, Forest.resolve]

/-! ## Printing -/

theorem valueText (h : f.Renames g ρ top) (hx : x ∈ (g.outline top).preorder) (slot : String) :
    f.valueText (ρ x) slot = g.valueText x slot := by
  rw [Forest.valueText, h.data x hx, h.raws x hx, Forest.valueText]

theorem atRuleHead (h : f.Renames g ρ top) (hx : x ∈ (g.outline top).preorder) :
    f.atRuleHead (ρ x) = g.atRuleHead x := by
  rw [Forest.atRuleHead, h.data x hx, h.valueText hx, h.rawText? hx, Forest.atRuleHead]

theorem stem (h : f.Renames g ρ top) (hx : x ∈ (g.outline top).preorder) :
    f.stem (ρ x) = g.stem x := by
  unfold Forest.stem
  rw [h.data x hx, h.atRuleHead hx, h.rawText? hx]
  simp only [h.resolve hx, h.valueText hx, h.rawText? hx]

theorem renderBlock (h : f.Renames g ρ top) (hx : x ∈ (g.outline top).preorder) (head : String)
    (isEmpty : Bool) (body : List Fragment) :
    f.renderBlock (ρ x) head isEmpty (body.map (rename ρ)) =
      (g.renderBlock x head isEmpty body).map (rename ρ) := by
  unfold Forest.renderBlock
  rw [h.resolve hx, h.resolve hx]
  cases isEmpty <;> simp [rename]

theorem renderNode (h : f.Renames g ρ top) (hx : x ∈ (g.outline top).preorder)
    (semicolon isEmpty : Bool) (body : List Fragment) :
    f.renderNode (ρ x) semicolon isEmpty (body.map (rename ρ)) =
      (g.renderNode x semicolon isEmpty body).map (rename ρ) := by
  unfold Forest.renderNode
  rw [h.data x hx]
  cases g.data x with
  | root => simp [h.rawText? hx]
  | rule selector =>
    simp only [h.valueText hx, h.rawText? hx, h.renderBlock hx, List.map_append]
    congr 1
    split <;> rfl
  | atRule name params =>
    simp only [h.hasBlock hx, h.atRuleHead hx, h.renderBlock hx, h.stem hx]
    split <;> rfl
  | declaration prop value important =>
    simp only [h.stem hx]
    rfl
  | comment text =>
    simp only [h.stem hx]
    rfl

mutual

theorem renderTree (h : f.Renames g ρ top) (semicolon : Bool) : (t : Tree NodeId) →
    (∀ x ∈ t.preorder, x ∈ (g.outline top).preorder) →
    f.renderTree semicolon (t.map ρ) = (g.renderTree semicolon t).map (rename ρ)
  | .leaf id, ht => h.renderNode (ht id (.head _)) semicolon true []
  | .block id ts, ht => by
    rw [Tree.preorder, List.forall_mem_cons] at ht
    have hkinds : ((Tree.mapAll ρ ts).map fun t => f.kind t.label) =
        ts.map fun t => g.kind t.label := by
      rw [Tree.mapAll_eq, List.map_map]
      refine List.map_congr_left fun t hmem => ?_
      have hlabel : t.label ∈ Tree.preorderAll ts :=
        Tree.mem_preorderAll.2 ⟨t, hmem, by rw [Tree.preorder_eq]; exact .head _⟩
      simp [Tree.label_map, h.kind (ht.2 t.label hlabel)]
    have hempty : (Tree.mapAll ρ ts).isEmpty = ts.isEmpty := by
      rw [Tree.mapAll_eq, List.isEmpty_map]
    rw [Tree.map, Forest.renderTree, Forest.renderTree, hkinds, hempty, h.resolve ht.1,
      h.renderChildren _ _ 0 ts ht.2, h.renderNode ht.1]

theorem renderChildren (h : f.Renames g ρ top) (last : Nat) (semicolon : Bool) (index : Nat) :
    (ts : List (Tree NodeId)) → (∀ x ∈ Tree.preorderAll ts, x ∈ (g.outline top).preorder) →
    f.renderChildren last semicolon index (Tree.mapAll ρ ts) =
      (g.renderChildren last semicolon index ts).map (rename ρ)
  | [], _ => rfl
  | t :: ts, ht => by
    rw [Tree.preorderAll, List.forall_mem_append] at ht
    have hlabel : t.label ∈ (g.outline top).preorder :=
      ht.1 _ (by rw [Tree.preorder_eq]; exact .head _)
    rw [Tree.mapAll, Forest.renderChildren, Forest.renderChildren, Tree.label_map,
      h.resolve hlabel, h.renderTree _ t ht.1,
      h.renderChildren last semicolon (index + 1) ts ht.2]
    simp

end

/-- **Printing does not depend on the numbers**: the fragments are the same but for these. -/
theorem print_eq (h : f.Renames g ρ top) : f.print (ρ top) = (g.print top).map (rename ρ) := by
  rw [h.old.print_eq_render h.old_lt, h.new.print_eq_render h.new_lt, h.outline,
    h.renderTree false (g.outline top) fun _ hx => hx]

theorem css_eq (h : f.Renames g ρ top) : g.css top = f.css (ρ top) := by
  rw [css, css, h.print_eq, concat_map_rename]

end Renames

end Forest

end Stylesheet
