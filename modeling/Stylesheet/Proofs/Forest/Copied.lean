import Stylesheet.Proofs.Forest.Relocated
import Stylesheet.Proofs.Print.Renamed

/-!
# Copies of whole trees

`WellFormed.copied`: the copy of a root is a tree of its own under new numbers that says the same and
prints the same, and nothing else changes; a cleaned copy is the copy, cleaned (`copy_cleaned`).
-/

set_option autoImplicit false

namespace Stylesheet

namespace Tree

variable {α β : Type}

mutual

theorem map_congr {g h : α → β} : {t : Tree α} → (∀ a ∈ t.preorder, g a = h a) → t.map g = t.map h
  | .leaf a, hall => by rw [map, map, hall a (by simp [preorder])]
  | .block a ts, hall => by
    rw [preorder, List.forall_mem_cons] at hall
    rw [map, map, hall.1, mapAll_congr hall.2]

theorem mapAll_congr {g h : α → β} : {ts : List (Tree α)} → (∀ a ∈ preorderAll ts, g a = h a) →
    mapAll g ts = mapAll h ts
  | [], _ => rfl
  | t :: ts, hall => by
    rw [preorderAll, List.forall_mem_append] at hall
    rw [mapAll, mapAll, map_congr hall.1, mapAll_congr hall.2]

end

/-- The number of a label is its place in the order of the tree. -/
theorem getElem?_of_mem_numbered {n : Nat} {t : Tree α} {p : Nat × α}
    (hp : p ∈ (t.numbered n).preorder) : n ≤ p.1 ∧ t.preorder[p.1 - n]? = some p.2 := by
  obtain ⟨k, hk, rfl⟩ := List.getElem_of_mem hp
  have hfst : ((t.numbered n).preorder.map Prod.fst)[k]? = some (t.numbered n).preorder[k].1 := by
    rw [List.getElem?_map, List.getElem?_eq_getElem hk, Option.map_some]
  have hsnd : ((t.numbered n).preorder.map Prod.snd)[k]? = some (t.numbered n).preorder[k].2 := by
    rw [List.getElem?_map, List.getElem?_eq_getElem hk, Option.map_some]
  rw [← preorder_map, map_snd_numbered] at hsnd
  obtain ⟨hlt, -⟩ := List.getElem?_eq_some_iff.1 hsnd
  rw [numbers_numbered, size, List.getElem?_range' hlt, Option.some.injEq, Nat.one_mul] at hfst
  rw [← hfst]
  exact ⟨Nat.le_add_right n k, by rwa [Nat.add_sub_cancel_left]⟩

end Tree

namespace Forest

variable {f g : Forest} {r : NodeId}

/-- The node that a node of a copy is a copy of. -/
def original (f : Forest) (r x : NodeId) : NodeId := (f.outline r).preorder.getD (x - f.size) r

theorem original_of_mem {p : NodeId × NodeId}
    (hp : p ∈ ((f.outline r).numbered f.size).preorder) : f.original r p.1 = p.2 := by
  rw [original, List.getD_eq_getElem?_getD, (Tree.getElem?_of_mem_numbered hp).2, Option.getD_some]

theorem Holds.parent? {parent : Option NodeId} {t : Tree (NodeId × Element)}
    (h : f.Holds parent t) : f.parent? t.label.1 = parent := by
  cases t with
  | leaf a => exact congrArg Node.parent h
  | block a ts => exact congrArg Node.parent h.1

/-- **A copy is the tree under new numbers.** -/
theorem WellFormed.renames_copy (h : f.WellFormed) (hr : f.kind r = .root) (stripSource : Bool) :
    f.Renames (f.copy r { stripSource }).2 (f.original r) f.size ∧ f.original r f.size = r := by
  have hlt := lt_size_of_root hr
  obtain ⟨hid, hout, helement⟩ := f.copy_spec r { stripSource }
  have hnew := f.copy_lt_size r { stripSource }
  obtain ⟨-, -, hholds⟩ := plant_spec f none ((f.outline r).map (f.copiedElement { stripSource }))
  have htop : (f.size, r) ∈ ((f.outline r).numbered f.size).preorder := by
    rw [Tree.preorder_eq, Tree.label_numbered, label_outline]
    exact .head _
  have horiginal : f.original r f.size = r := original_of_mem htop
  have hback : ∀ x ∈ ((f.copy r { stripSource }).2.outline f.size).preorder,
      ((f.copy r { stripSource }).2.node x).toElement =
        f.copiedElement { stripSource } (f.original r x) := by
    intro x hx
    rw [← hout, Tree.preorder_map] at hx
    obtain ⟨p, hp, rfl⟩ := List.mem_map.1 hx
    rw [helement p hp, original_of_mem hp]
  refine ⟨{
    old := h
    new := h.copy r _
    outline := ?_
    old_lt := by rwa [horiginal]
    new_lt := by rwa [hid] at hnew
    old_parent := ?_
    new_parent := ?_
    data := fun x hx => (congrArg Element.data (hback x hx)).symm
    raws := fun x hx => (congrArg Element.raws (hback x hx)).symm }, horiginal⟩
  · rw [horiginal, ← hout, Tree.map_map]
    conv => lhs; rw [← Tree.map_snd_numbered f.size (f.outline r)]
    exact Tree.map_congr fun p hp => (original_of_mem hp).symm
  · rw [horiginal]
    cases hp : f.parent? r with
    | none => rfl
    | some p => exact absurd hr (h.root p r ((h.parent p r).2 hp))
  · have hparent := hholds.parent?
    rwa [Tree.label_numbered] at hparent

/-! ## Cleaned copies -/

/-- An element with the formatting cleaned. -/
def cleaned (e : Element) : Element := { e with raws := e.raws.clean false }

mutual

/-- Two forests that hold the same tree have the same nodes there. -/
theorem Holds.node_eq : {parent : Option NodeId} → {t : Tree (NodeId × Element)} →
    f.Holds parent t → g.Holds parent t → ∀ i ∈ t.preorder.map Prod.fst, g.node i = f.node i
  | _, .leaf a, hf, hg, i, hi => by
    rw [Tree.preorder, List.map_singleton, List.mem_singleton] at hi
    rw [Holds] at hf hg
    rw [hi, hf, hg]
  | _, .block a ts, hf, hg, i, hi => by
    rw [Holds] at hf hg
    rw [Tree.preorder, List.map_cons, List.mem_cons] at hi
    rcases hi with rfl | hi
    · rw [hf.1, hg.1]
    · exact hf.2.node_eq hg.2 i hi

theorem HoldsAll.node_eq : {parent : NodeId} → {ts : List (Tree (NodeId × Element))} →
    f.HoldsAll parent ts → g.HoldsAll parent ts →
    ∀ i ∈ (Tree.preorderAll ts).map Prod.fst, g.node i = f.node i
  | _, [], _, _, i, hi => by cases hi
  | _, t :: ts, hf, hg, i, hi => by
    rw [HoldsAll] at hf hg
    rw [Tree.preorderAll, List.map_append, List.mem_append] at hi
    rcases hi with hi | hi
    · exact hf.1.node_eq hg.1 i hi
    · exact hf.2.node_eq hg.2 i hi

end

mutual

/-- Where the nodes of a tree are cleaned, the cleaned tree hangs. -/
theorem Holds.cleaned : {parent : Option NodeId} → {t : Tree (NodeId × Element)} →
    f.Holds parent t → (∀ i ∈ t.preorder.map Prod.fst,
      g.node i = { f.node i with raws := (f.node i).raws.clean false }) →
    g.Holds parent (t.map (Prod.map id Forest.cleaned))
  | _, .leaf a, hf, hg => by
    rw [Holds] at hf
    rw [Tree.map, Holds, Prod.map_fst, id, hg a.1 (by simp [Tree.preorder]), hf]
    rfl
  | _, .block a ts, hf, hg => by
    rw [Holds] at hf
    rw [Tree.preorder, List.map_cons, List.forall_mem_cons] at hg
    have hids : (Tree.mapAll (Prod.map id Forest.cleaned) ts).map (fun t => t.label.1) =
        ts.map fun t => t.label.1 := by
      rw [Tree.mapAll_eq, List.map_map]
      exact List.map_congr_left fun t _ => by simp [Tree.label_map]
    rw [Tree.map, Holds, Prod.map_fst, id, hg.1, hf.1, hids]
    exact ⟨rfl, hf.2.cleaned hg.2⟩

theorem HoldsAll.cleaned : {parent : NodeId} → {ts : List (Tree (NodeId × Element))} →
    f.HoldsAll parent ts → (∀ i ∈ (Tree.preorderAll ts).map Prod.fst,
      g.node i = { f.node i with raws := (f.node i).raws.clean false }) →
    g.HoldsAll parent (Tree.mapAll (Prod.map id Forest.cleaned) ts)
  | _, [], _, _ => trivial
  | _, t :: ts, hf, hg => by
    rw [HoldsAll] at hf
    rw [Tree.preorderAll, List.map_append, List.forall_mem_append] at hg
    exact ⟨hf.1.cleaned hg.1, hf.2.cleaned hg.2⟩

end

/-- What cleaning a tree does to a node. -/
theorem node_cleanRaws_eq (f : Forest) (id : NodeId) (keepBetween : Bool) (x : NodeId) :
    (f.cleanRaws id keepBetween).node x = if x ∈ (f.outline id).preorder then
      { f.node x with raws := (f.node x).raws.clean keepBetween } else f.node x := by
  have hothers := node_cleanRaws (fun n => { n with raws := Raws.empty }) (fun _ _ => rfl) f id
    keepBetween x
  have hraws := raws_cleanAll keepBetween (f.outline id).preorder f x
  rw [← cleanRaws, Forest.raws, Forest.raws] at hraws
  generalize (f.cleanRaws id keepBetween).node x = n at hothers hraws
  have hn : n = { f.node x with raws := n.raws } :=
    congrArg (fun m : Node => { m with raws := n.raws }) hothers
  rw [hn, hraws]
  split <;> rfl

/-- Forests with the same nodes and inputs are the same. -/
theorem ext_node (hsize : g.size = f.size) (hnode : ∀ i < f.size, g.node i = f.node i)
    (hinputs : g.inputs = f.inputs) : g = f := by
  have hall : g.all = f.all := by
    refine Array.ext hsize fun i hi hi' => ?_
    have hi := hnode i hi'
    simpa [node, hi', *] using hi
  obtain ⟨all, inputs⟩ := g
  simp only at hall hinputs
  rw [hall, hinputs]

theorem inputs_cleanRaws (f : Forest) (id : NodeId) (keepBetween : Bool) :
    (f.cleanRaws id keepBetween).inputs = f.inputs := by
  unfold cleanRaws
  rw [foldl_congr Forest.inputs]
  intro f id
  rfl

/-- The nodes of a copy are those behind all nodes that there were. -/
theorem mem_outline_copy (f : Forest) (r : NodeId) (options : CopyOptions) (x : NodeId) :
    x ∈ ((f.copy r options).2.outline f.size).preorder ↔
      f.size ≤ x ∧ x < (f.copy r options).2.size := by
  obtain ⟨-, hout, -⟩ := f.copy_spec r options
  have hext : Extends f (f.copy r options).2 ((f.outline r).map (f.copiedElement options)).size :=
    (plant_spec f none _).2.1
  rw [← hout, Tree.preorder_map, Tree.numbers_numbered, List.mem_range'_1, hext.size, Tree.size_map]

/-- **A cleaned copy** is the copy, cleaned. -/
theorem copy_cleaned (f : Forest) (r : NodeId) (stripSource : Bool) :
    f.copy r { stripSource, cleanRaws := true } =
      ((f.copy r { stripSource }).1,
        (f.copy r { stripSource }).2.cleanRaws (f.copy r { stripSource }).1 false) := by
  obtain ⟨hid, -, -⟩ := f.copy_spec r { stripSource }
  obtain ⟨hid', -, -⟩ := f.copy_spec r { stripSource, cleanRaws := true }
  have hmem := f.mem_outline_copy r { stripSource }
  obtain ⟨hext, hholds⟩ : Extends f (f.copy r { stripSource }).2 _ ∧
      (f.copy r { stripSource }).2.Holds none _ :=
    (plant_spec f none ((f.outline r).map (f.copiedElement { stripSource }))).2
  obtain ⟨hext', hholds'⟩ : Extends f (f.copy r { stripSource, cleanRaws := true }).2 _ ∧
      (f.copy r { stripSource, cleanRaws := true }).2.Holds none _ :=
    (plant_spec f none ((f.outline r).map (f.copiedElement { stripSource, cleanRaws := true }))).2
  have hsize : (f.copy r { stripSource, cleanRaws := true }).2.size =
      (f.copy r { stripSource }).2.size := by
    rw [hext.size, hext'.size, Tree.size_map, Tree.size_map]
  have hcleaned : ((f.copy r { stripSource }).2.cleanRaws f.size false).Holds none
      (((f.outline r).map (f.copiedElement { stripSource, cleanRaws := true })).numbered
        f.size) := by
    have hmap : (f.outline r).map (f.copiedElement { stripSource, cleanRaws := true }) =
        ((f.outline r).map (f.copiedElement { stripSource })).map Forest.cleaned := by
      rw [Tree.map_map]
      rfl
    rw [hmap, Tree.numbered_map]
    refine hholds.cleaned fun i hi => ?_
    rw [Tree.numbers_numbered, List.mem_range'_1, ← hext.size] at hi
    rw [node_cleanRaws_eq, if_pos ((hmem i).2 hi)]
  rw [hid]
  refine Prod.ext hid' (ext_node (hsize.trans (size_cleanRaws ..).symm) (fun i hi => ?_) ?_)
  · rw [size_cleanRaws, ← hsize] at hi
    by_cases hlt : i < f.size
    · have hnot : i ∉ ((f.copy r { stripSource }).2.outline f.size).preorder :=
        fun h => Nat.not_lt.2 ((hmem i).1 h).1 hlt
      rw [node_cleanRaws_eq, if_neg hnot, hext.node i hlt, hext'.node i hlt]
    · refine hcleaned.node_eq hholds' i ?_
      rw [Tree.numbers_numbered, List.mem_range'_1, ← hext'.size]
      exact ⟨Nat.not_lt.1 hlt, hi⟩
  · rw [inputs_cleanRaws, hext.inputs, hext'.inputs]

/-! ## Copies -/

/-- The node `y` of `g` is new and says what the node `x` of `f` says. -/
structure Copies (f g : Forest) (stripSource : Bool) (x y : NodeId) : Prop where
  fresh : f.size ≤ y
  data : g.data y = f.data x
  raws : g.raws y = f.raws x
  hasBlock : (g.node y).hasBlock = (f.node x).hasBlock
  source : g.source y = if stripSource then .unknown else f.source x

/-- **The copy of a root** prints what the root prints. It is a tree of new nodes without a parent,
each with the data, the formatting and the block of its original, in the same order and below the
copy of its parent. Nothing else changes, and a cleaned copy is the copy, cleaned. -/
theorem WellFormed.copied (h : f.WellFormed) (hr : f.kind r = .root) (stripSource : Bool) :
    let c := (f.copy r { stripSource }).1
    let g := (f.copy r { stripSource }).2
    g.css c = f.css r ∧
      (∃ t : Tree (NodeId × NodeId), t.map Prod.snd = f.outline r ∧ t.map Prod.fst = g.outline c ∧
        ∀ p ∈ t.preorder, f.Copies g stripSource p.2 p.1) ∧
      g.parent? c = none ∧
      (∀ x ∈ (g.outline c).preorder, ∀ y ∈ g.children x, g.parent? y = some x) ∧
      (∀ x < f.size, g.node x = f.node x) ∧ g.inputs = f.inputs ∧
      f.copy r { stripSource, cleanRaws := true } = (c, g.cleanRaws c false) := by
  intro c g
  obtain ⟨hren, horiginal⟩ := h.renames_copy hr stripSource
  obtain ⟨hid, hout, helement⟩ := f.copy_spec r { stripSource }
  have hext : Extends f g _ := (plant_spec f none ((f.outline r).map (f.copiedElement _))).2.1
  have hc : c = f.size := hid
  rw [hc]
  refine ⟨by rw [hren.css_eq, horiginal], ⟨_, Tree.map_snd_numbered f.size _, hout, ?_⟩,
    hren.new_parent, fun x _ y hy => (hren.new.parent x y).1 hy, hext.node, hext.inputs, ?_⟩
  · intro p hp
    have hmem : p.1 ∈ (g.outline f.size).preorder := by
      rw [← hout, Tree.preorder_map]
      exact List.mem_map_of_mem hp
    have hdata := hren.data p.1 hmem
    have hraws := hren.raws p.1 hmem
    have hblock := hren.hasBlock hmem
    rw [original_of_mem hp] at hdata hraws hblock
    exact ⟨((f.mem_outline_copy r _ p.1).1 hmem).1, hdata.symm, hraws.symm, hblock.symm,
      congrArg Element.source (helement p hp)⟩
  · rw [copy_cleaned, hid]

/-- The copy of a sheet whose last declaration is indented by the example of another one. -/
theorem copied_indented :
    let f := (Edit.insert 1 .stop [3]).run ((Edit.new (.declaration "d" "e" false)).run
      ((Edit.read .empty "a\x7b\n  b:c\n\x7d" (some "a.css") .auto).run .empty))
    let c := (f.copy 0 { stripSource := true }).1
    let g := (f.copy 0 { stripSource := true }).2
    f.WellFormed ∧ f.kind 0 = .root ∧ f.css 0 = "a\x7b\n  b:c;\n  d:e\n\x7d" ∧
      g.css c = f.css 0 ∧ g.parent? c = none ∧
      f.copy 0 { stripSource := true, cleanRaws := true } = (c, g.cleanRaws c false) := by
  intro f c g
  have hf : f.WellFormed := by
    refine (Edit.wellFormed_run ((Edit.wellFormed_run ((Edit.wellFormed_run wellFormed_empty ?_).2
      ?_) ?_).2 ?_) ?_).2 ?_
    all_goals decide +kernel
  have hk : f.kind 0 = .root ∧ f.css 0 = "a\x7b\n  b:c;\n  d:e\n\x7d" := by decide +kernel
  obtain ⟨hcss, -, hparent, -, -, -, hclean⟩ := hf.copied hk.1 true
  exact ⟨hf, hk.1, hk.2, hcss, hparent, hclean⟩

end Forest

end Stylesheet
