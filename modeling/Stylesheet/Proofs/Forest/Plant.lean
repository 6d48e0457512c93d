import Stylesheet.Forest.Copy

/-!
# What planting adds to a forest

`plant_spec`: planting a tree gives its nodes the next numbers, in order, hangs them below each
other as in the tree, and leaves all earlier nodes alone. `Holds f parent t` says that the numbered
tree `t` hangs below `parent` in `f`; `Hangs f parent t` says it but for the cursors, which nothing
that reads a tree looks at. `outline_of_hangs`: unrolling `f` there gives `t` back.
-/

set_option autoImplicit false

namespace Stylesheet

variable {α β : Type}

namespace Tree

/-- The number of nodes. -/
def size (t : Tree α) : Nat := t.preorder.length

/-- The number of nodes of trees. -/
def sizeAll (ts : List (Tree α)) : Nat := (preorderAll ts).length

@[simp] theorem size_leaf (a : α) : (leaf a).size = 1 := rfl

@[simp] theorem size_block (a : α) (ts : List (Tree α)) : (block a ts).size = sizeAll ts + 1 := rfl

@[simp] theorem sizeAll_nil : sizeAll ([] : List (Tree α)) = 0 := rfl

@[simp] theorem sizeAll_cons (t : Tree α) (ts : List (Tree α)) :
    sizeAll (t :: ts) = t.size + sizeAll ts := by
  simp [sizeAll, size, preorderAll]

mutual

/-- The tree with its nodes numbered from `n` on, each before those below it. -/
def numbered (n : Nat) : Tree α → Tree (Nat × α)
  | leaf a => leaf (n, a)
  | block a ts => block (n, a) (numberedAll (n + 1) ts)

/-- The trees with their nodes numbered from `n` on. -/
def numberedAll (n : Nat) : List (Tree α) → List (Tree (Nat × α))
  | [] => []
  | t :: ts => numbered n t :: numberedAll (n + t.size) ts

end

@[simp] theorem label_numbered (n : Nat) (t : Tree α) : (t.numbered n).label = (n, t.label) := by
  cases t <;> rfl

mutual

theorem numbers_numbered (n : Nat) : (t : Tree α) →
    (t.numbered n).preorder.map Prod.fst = List.range' n t.size
  | leaf a => rfl
  | block a ts => by
    simp [numbered, preorder, numbers_numberedAll (n + 1) ts, List.range'_succ]

theorem numbers_numberedAll (n : Nat) : (ts : List (Tree α)) →
    (preorderAll (numberedAll n ts)).map Prod.fst = List.range' n (sizeAll ts)
  | [] => rfl
  | t :: ts => by
    simp [numberedAll, preorderAll, numbers_numbered n t, numbers_numberedAll (n + t.size) ts,
      List.range'_append_1]

end

mutual

theorem map_snd_numbered (n : Nat) : (t : Tree α) → (t.numbered n).map Prod.snd = t
  | leaf a => rfl
  | block a ts => by simp [numbered, map, mapAll_snd_numberedAll (n + 1) ts]

theorem mapAll_snd_numberedAll (n : Nat) : (ts : List (Tree α)) →
    mapAll Prod.snd (numberedAll n ts) = ts
  | [] => rfl
  | t :: ts => by
    simp [numberedAll, mapAll, map_snd_numbered n t, mapAll_snd_numberedAll (n + t.size) ts]

end

mutual

theorem size_map (g : α → β) : (t : Tree α) → (t.map g).size = t.size
  | leaf a => rfl
  | block a ts => by simp [map, sizeAll_mapAll g ts]

theorem sizeAll_mapAll (g : α → β) : (ts : List (Tree α)) → sizeAll (mapAll g ts) = sizeAll ts
  | [] => rfl
  | t :: ts => by simp [mapAll, size_map g t, sizeAll_mapAll g ts]

end

end Tree

namespace Forest

open Stylesheet.Tree

mutual

/-- The numbered tree hangs below `parent`. -/
def Holds (f : Forest) (parent : Option NodeId) : Tree (NodeId × Element) → Prop
  | .leaf a => f.node a.1 = { Node.ofElement a.2 false with parent }
  | .block a ts =>
    f.node a.1 =
      { Node.ofElement a.2 true with parent, children := some (ts.map fun t => t.label.1) } ∧
    HoldsAll f a.1 ts

/-- The numbered trees hang below `parent`. -/
def HoldsAll (f : Forest) (parent : NodeId) : List (Tree (NodeId × Element)) → Prop
  | [] => True
  | t :: ts => Holds f (some parent) t ∧ HoldsAll f parent ts

end

mutual

/-- Only the nodes of the tree matter. -/
theorem Holds.congr {f g : Forest} : {parent : Option NodeId} → {t : Tree (NodeId × Element)} →
    f.Holds parent t → (∀ i ∈ t.preorder.map Prod.fst, g.node i = f.node i) → g.Holds parent t
  | _, .leaf a, h, hg => by
    have : g.node a.1 = f.node a.1 := hg _ (by simp [preorder])
    exact this.trans h
  | _, .block a ts, h, hg => by
    have : g.node a.1 = f.node a.1 := hg _ (by simp [preorder])
    refine ⟨this.trans h.1, h.2.congr fun i hi => hg i ?_⟩
    simp only [preorder, List.map_cons, List.mem_cons]
    exact .inr hi

theorem HoldsAll.congr {f g : Forest} : {parent : NodeId} → {ts : List (Tree (NodeId × Element))} →
    f.HoldsAll parent ts → (∀ i ∈ (preorderAll ts).map Prod.fst, g.node i = f.node i) →
    g.HoldsAll parent ts
  | _, [], _, _ => trivial
  | _, t :: ts, h, hg => by
    simp only [preorderAll, List.map_append, List.mem_append] at hg
    exact ⟨h.1.congr fun i hi => hg i (.inl hi), h.2.congr fun i hi => hg i (.inr hi)⟩

end

/-! ## Hanging -/

/-- What a forest knows of a node, apart from the cursors over its children. -/
structure Sits (f : Forest) (id : NodeId) (e : Element) (parent : Option NodeId)
    (children : Option (List NodeId)) : Prop where
  element : (f.node id).toElement = e
  parent : (f.node id).parent = parent
  children : (f.node id).children = children

namespace Sits

variable {f : Forest} {id : NodeId} {e : Element} {parent : Option NodeId}
  {children : Option (List NodeId)}

theorem data (h : f.Sits id e parent children) : f.data id = e.data :=
  congrArg Element.data h.element

theorem raws (h : f.Sits id e parent children) : f.raws id = e.raws :=
  congrArg Element.raws h.element

theorem kind (h : f.Sits id e parent children) : f.kind id = e.data.kind :=
  congrArg NodeData.kind h.data

theorem hasBlock (h : f.Sits id e parent children) : (f.node id).hasBlock = children.isSome :=
  congrArg Option.isSome h.children

theorem nodes (h : f.Sits id e parent children) : f.children id = children.getD [] :=
  congrArg (Option.getD · []) h.children

end Sits

mutual

/-- The numbered tree hangs below `parent`, with whatever cursors over its nodes. -/
def Hangs (f : Forest) (parent : Option NodeId) : Tree (NodeId × Element) → Prop
  | .leaf a => f.Sits a.1 a.2 parent none
  | .block a ts => f.Sits a.1 a.2 parent (some (ts.map fun t => t.label.1)) ∧ HangsAll f a.1 ts

/-- The numbered trees hang below `parent`, with whatever cursors over their nodes. -/
def HangsAll (f : Forest) (parent : NodeId) : List (Tree (NodeId × Element)) → Prop
  | [] => True
  | t :: ts => Hangs f (some parent) t ∧ HangsAll f parent ts

end

mutual

theorem Holds.hangs {f : Forest} : {parent : Option NodeId} → {t : Tree (NodeId × Element)} →
    f.Holds parent t → f.Hangs parent t
  | _, .leaf _, (h : f.node _ = _) =>
    ⟨congrArg Node.toElement h, congrArg Node.parent h, congrArg Node.children h⟩
  | _, .block _ _, h =>
    ⟨⟨congrArg Node.toElement h.1, congrArg Node.parent h.1, congrArg Node.children h.1⟩, h.2.hangs⟩

theorem HoldsAll.hangs {f : Forest} : {parent : NodeId} → {ts : List (Tree (NodeId × Element))} →
    f.HoldsAll parent ts → f.HangsAll parent ts
  | _, [], _ => trivial
  | _, _ :: _, h => ⟨h.1.hangs, h.2.hangs⟩

end

mutual

/-- Only the nodes of the tree matter. -/
theorem Hangs.congr {f g : Forest} : {parent : Option NodeId} → {t : Tree (NodeId × Element)} →
    f.Hangs parent t → (∀ i ∈ t.preorder.map Prod.fst, ∀ e p c, f.Sits i e p c → g.Sits i e p c) →
    g.Hangs parent t
  | _, .leaf a, h, hg => hg _ (by simp [preorder]) _ _ _ h
  | _, .block a ts, h, hg => by
    refine ⟨hg _ (by simp [preorder]) _ _ _ h.1, h.2.congr fun i hi => hg i ?_⟩
    simp only [preorder, List.map_cons, List.mem_cons]
    exact .inr hi

theorem HangsAll.congr {f g : Forest} : {parent : NodeId} → {ts : List (Tree (NodeId × Element))} →
    f.HangsAll parent ts →
    (∀ i ∈ (preorderAll ts).map Prod.fst, ∀ e p c, f.Sits i e p c → g.Sits i e p c) →
    g.HangsAll parent ts
  | _, [], _, _ => trivial
  | _, t :: ts, h, hg => by
    simp only [preorderAll, List.map_append, List.mem_append] at hg
    exact ⟨h.1.congr fun i hi => hg i (.inl hi), h.2.congr fun i hi => hg i (.inr hi)⟩

end

mutual

/-- The elements of a tree that hangs in a forest. -/
theorem Hangs.element {f : Forest} {b : NodeId × Element} : {parent : Option NodeId} →
    {t : Tree (NodeId × Element)} → f.Hangs parent t → b ∈ t.preorder →
    (f.node b.1).toElement = b.2
  | _, .leaf a, h, hb => by
    rw [preorder, List.mem_singleton] at hb
    rw [hb]
    exact Sits.element h
  | _, .block a ts, h, hb => by
    rw [preorder, List.mem_cons] at hb
    rcases hb with rfl | hb
    · exact h.1.element
    · exact h.2.element hb

theorem HangsAll.element {f : Forest} {b : NodeId × Element} : {parent : NodeId} →
    {ts : List (Tree (NodeId × Element))} → f.HangsAll parent ts → b ∈ preorderAll ts →
    (f.node b.1).toElement = b.2
  | _, [], _, hb => by cases hb
  | _, t :: ts, h, hb => by
    rw [preorderAll, List.mem_append] at hb
    rcases hb with hb | hb
    · exact h.1.element hb
    · exact h.2.element hb

end

/-! ## Planting -/

/-- `g` has `count` nodes more than `f` and is the same on the nodes of `f`. -/
structure Extends (f g : Forest) (count : Nat) : Prop where
  size : g.size = f.size + count
  node : ∀ i < f.size, g.node i = f.node i
  inputs : g.inputs = f.inputs

theorem Extends.trans {f g h : Forest} {m n : Nat} (hm : Extends f g m) (hn : Extends g h n) :
    Extends f h (m + n) where
  size := by rw [hn.size, hm.size, Nat.add_assoc]
  node i hi := by rw [hn.node i (by rw [hm.size]; omega), hm.node i hi]
  inputs := hn.inputs.trans hm.inputs

theorem extends_add (f : Forest) (n : Node) : Extends f (f.add n).2 1 :=
  ⟨f.size_add n, fun _ hi => node_add_of_lt n hi, rfl⟩

theorem extends_modify (f : Forest) {g : Forest} {n : Nat} (h : Extends f g n) {id : NodeId}
    (hid : f.size ≤ id) (k : Node → Node) : Extends f (g.modify id k) n where
  size := by rw [size_modify, h.size]
  node i hi := by rw [node_modify_of_ne k (Nat.ne_of_lt (Nat.lt_of_lt_of_le hi hid)), h.node i hi]
  inputs := h.inputs

mutual

/-- What planting a tree adds. -/
theorem plant_spec (f : Forest) (parent : Option NodeId) : (t : Tree Element) →
    (f.plant parent t).1 = f.size ∧ Extends f (f.plant parent t).2 t.size ∧
      (f.plant parent t).2.Holds parent (t.numbered f.size)
  | .leaf e => by
    refine ⟨rfl, extends_add f _, ?_⟩
    exact node_add_self f { Node.ofElement e false with parent }
  | .block e ts => by
    have hadd := extends_add f { Node.ofElement e true with parent }
    have hself := node_add_self f { Node.ofElement e true with parent }
    obtain ⟨hids, hext, hholds⟩ := plantAll_spec
      (f.add { Node.ofElement e true with parent }).2 f.size ts
    have hsize : (f.add { Node.ofElement e true with parent }).2.size = f.size + 1 := hadd.size
    rw [hsize] at hids hholds
    have hid : (f.add { Node.ofElement e true with parent }).1 = f.size := rfl
    rw [hid] at hself
    have hall := hadd.trans hext
    have hlt : f.size < ((f.add { Node.ofElement e true with parent }).2.plantAll f.size ts).2.size
      := by rw [hall.size]; omega
    simp only [plant, numbered, size_block, hid, true_and]
    refine ⟨?_, ?_, ?_⟩
    · rw [Nat.add_comm]
      exact extends_modify f hall (Nat.le_refl _) _
    · rw [node_modify_self _ hlt, hext.node _ (by rw [hsize]; omega), hself, hids]
    · refine hholds.congr fun i hi => node_modify_of_ne _ ?_
      rw [numbers_numberedAll, List.mem_range'_1] at hi
      exact Nat.ne_of_gt hi.1

/-- What planting trees adds. -/
theorem plantAll_spec (f : Forest) (parent : NodeId) : (ts : List (Tree Element)) →
    (f.plantAll parent ts).1 = (numberedAll f.size ts).map (fun t => t.label.1) ∧
      Extends f (f.plantAll parent ts).2 (sizeAll ts) ∧
      (f.plantAll parent ts).2.HoldsAll parent (numberedAll f.size ts)
  | [] => ⟨rfl, ⟨rfl, fun _ _ => rfl, rfl⟩, trivial⟩
  | t :: ts => by
    obtain ⟨hid, hext, hholds⟩ := plant_spec f (some parent) t
    obtain ⟨hids, hext', hholds'⟩ := plantAll_spec (f.plant (some parent) t).2 parent ts
    rw [hext.size] at hids hholds'
    simp only [plantAll, numberedAll, sizeAll_cons, List.map_cons, label_numbered, hid, hids,
      true_and]
    refine ⟨hext.trans hext', hholds.congr fun i hi => hext'.node i ?_, hholds'⟩
    rw [numbers_numbered, List.mem_range'_1] at hi
    rw [hext.size]
    exact hi.2

end

/-! ## Unrolling -/

mutual

theorem outlineWithin_of_hangs {f : Forest} : {parent : Option NodeId} →
    (t : Tree (NodeId × Element)) → f.Hangs parent t → (levels : Nat) → t.size ≤ levels →
    f.outlineWithin levels t.label.1 = t.map Prod.fst
  | _, .leaf a, h, levels, hl => by
    cases levels with
    | zero => rfl
    | succ levels =>
      have hc : (f.node a.1).children = none := Sits.children h
      simp only [outlineWithin, label, hc, map]
  | _, .block a ts, h, levels, hl => by
    rw [size_block] at hl
    cases levels with
    | zero => omega
    | succ levels =>
      have hc : (f.node a.1).children = some (ts.map fun t => t.label.1) := h.1.children
      simp only [outlineWithin, label, hc, map, List.map_map]
      rw [← outlineWithin_of_hangsAll ts h.2 levels (by omega)]
      rfl

theorem outlineWithin_of_hangsAll {f : Forest} : {parent : NodeId} →
    (ts : List (Tree (NodeId × Element))) → f.HangsAll parent ts → (levels : Nat) →
    sizeAll ts ≤ levels →
    ts.map (fun t => f.outlineWithin levels t.label.1) = mapAll Prod.fst ts
  | _, [], _, _, _ => rfl
  | _, t :: ts, h, levels, hl => by
    rw [sizeAll_cons] at hl
    rw [List.map_cons, mapAll, outlineWithin_of_hangs t h.1 levels (by omega),
      outlineWithin_of_hangsAll ts h.2 levels (by omega)]

end

/-- Unrolling gives back the tree that hangs there. -/
theorem outline_of_hangs {f : Forest} {parent : Option NodeId} {t : Tree (NodeId × Element)}
    (h : f.Hangs parent t) (hs : t.size ≤ f.size) : f.outline t.label.1 = t.map Prod.fst :=
  outlineWithin_of_hangs t h f.size hs

end Forest

end Stylesheet
