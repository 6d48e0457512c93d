import Stylesheet.Proofs.Forest.Replacement

/-!
# A new node behind the others

A new node can be put behind the children of every container of a well-formed forest
(`WellFormed.exists_appends`). `Appends` says what that changes: the list of children, and nothing
else about the nodes that were there. The tree below a node is then the one that it was, with the
new node in its place (`Appends.outline`).
-/

set_option autoImplicit false

namespace Stylesheet

open Relation Stylesheet.Tree

namespace Tree

variable {α : Type}

mutual

/-- The tree with `d` behind the children of the blocks that `p` picks. -/
def push (p : α → Bool) (d : Tree α) : Tree α → Tree α
  | .leaf a => .leaf a
  | .block a ts => .block a (if p a then pushAll p d ts ++ [d] else pushAll p d ts)

/-- The trees with `d` behind the children of the blocks that `p` picks. -/
def pushAll (p : α → Bool) (d : Tree α) : List (Tree α) → List (Tree α)
  | [] => []
  | t :: ts => push p d t :: pushAll p d ts

end

@[simp] theorem label_push (p : α → Bool) (d t : Tree α) : (push p d t).label = t.label := by
  cases t <;> rfl

theorem map_label_pushAll (p : α → Bool) (d : Tree α) (ts : List (Tree α)) :
    (pushAll p d ts).map label = ts.map label := by
  induction ts with
  | nil => rfl
  | cons t ts ih => simp [pushAll, ih]

end Tree

namespace Forest

variable {f g : Forest} {P : NodeId} {data : NodeData}

/-! ## Trees that a forest shows -/

mutual

/-- A forest shows one tree below a node. -/
theorem Shows.unique : {t t' : Tree NodeId} → f.Shows t → f.Shows t' → t.label = t'.label →
    t = t'
  | .leaf _, .leaf _, _, _, he => congrArg Tree.leaf he
  | .leaf a, .block b us, h, h', he => by
    obtain rfl : a = b := he
    cases (show (f.node a).children = none from h).symm.trans h'.1
  | .block a ts, .leaf b, h, h', he => by
    obtain rfl : a = b := he
    cases h.1.symm.trans (show (f.node a).children = none from h')
  | .block a ts, .block b us, h, h', he => by
    obtain rfl : a = b := he
    rw [Shows] at h h'
    rw [ShowsAll.unique h.2 h'.2 (Option.some.inj (h.1.symm.trans h'.1))]

theorem ShowsAll.unique : {ts ts' : List (Tree NodeId)} → f.ShowsAll ts → f.ShowsAll ts' →
    ts.map Tree.label = ts'.map Tree.label → ts = ts'
  | [], [], _, _, _ => rfl
  | _ :: _, _ :: _, h, h', he => by
    obtain ⟨hlabel, hlabels⟩ := List.cons.inj he
    rw [Shows.unique h.1 h'.1 hlabel, ShowsAll.unique h.2 h'.2 hlabels]

end

theorem WellFormed.outline_eq (h : f.WellFormed) {t : Tree NodeId} (hlt : t.label < f.size)
    (ht : f.Shows t) : f.outline t.label = t :=
  (h.shows_outline hlt).unique ht (label_outline f _)

theorem WellFormed.lt_size_of_mem_preorder (h : f.WellFormed) {t : Tree NodeId} {x : NodeId}
    (ht : f.Shows t) (hlt : t.label < f.size) (hx : x ∈ t.preorder) : x < f.size := by
  rcases ((mem_preorder_iff ht).1 hx).cases_tail with rfl | ⟨p, -, hp⟩
  · exact hlt
  · exact h.lt_size hp

/-! ## The new node -/

/-- `g` is `f` with a new node, which says `data`, behind the children of `P`. -/
structure Appends (f g : Forest) (P : NodeId) (data : NodeData) : Prop where
  wellFormed : g.WellFormed
  size : g.size = f.size + 1
  node : ∀ x < f.size, x ≠ P → g.node x = f.node x
  element : (g.node P).toElement = (f.node P).toElement
  children : (g.node P).children = some (f.children P ++ [f.size])
  fresh : g.data f.size = data
  raws : g.raws f.size = Raws.empty.filledBy (f.sampleBefore P .stop)
  block : (g.node f.size).children = (Node.new data).children

theorem sampleBefore_add (h : f.WellFormed) (n : Node) (hP : P < f.size) :
    (f.add n).2.sampleBefore P .stop = f.sampleBefore P .stop := by
  have hchildren : (f.add n).2.children P = f.children P := by
    rw [Forest.children, node_add_of_lt n hP, Forest.children]
  unfold sampleBefore
  simp only [hchildren]
  cases hlast : (f.children P).getLast? with
  | none => rfl
  | some c =>
    have hc : c < f.size := h.lt_size (List.mem_of_getLast? hlast)
    rw [Option.bind_some, Option.bind_some, Forest.raws, node_add_of_lt n hc, Forest.raws]

/-- A new node has the next number. -/
theorem node_add_size (f : Forest) (n : Node) : (f.add n).2.node f.size = n :=
  node_add_self f n

theorem children_new (data : NodeData) : (Node.new data).nodes = [] := by
  unfold Node.new Node.ofElement Node.nodes
  cases data.kind.startsWithBlock <;> rfl

/-- No container refuses a new node. -/
theorem WellFormed.refusal?_add (h : f.WellFormed) (hP : (f.kind P).isContainer = true)
    (data : NodeData) : (f.add (Node.new data)).2.refusal? P .stop [f.size] = none := by
  have hlt := lt_size_of_isContainer hP
  have hgrown := grown_add f data
  have hinside : (f.add (Node.new data)).2.isInside f.size P = false := by
    rw [← Bool.not_eq_true, (h.grown hgrown).isInside_iff]
    intro hreach
    rcases hreach.cases_head with he | ⟨c, hc, -⟩
    · exact Nat.ne_of_lt hlt he.symm
    · rw [Child, Forest.children, node_add_size, children_new] at hc
      cases hc
  rw [refusal?_eq_ite (by rwa [hgrown.kind_eq hlt]) (by rintro r ⟨⟩)]
  simp [hinside]

section
variable {m : NodeId} (hm : f.parent? m = none) (sample : Option String)
include hm

theorem detach_of_parent?_eq_none :
    f.detach m = (false, f.modify m fun n => { n with parent := none }) := by
  unfold detach place?
  rw [hm]
  rfl

/-- A node that is in no list is only linked. -/
theorem node_adopt_self (hlt : m < f.size) : (f.adopt P sample m).node m =
    { f.node m with raws := (f.raws m).filledBy sample, parent := some P } := by
  unfold adopt
  rw [detach_of_parent?_eq_none hm, node_modify_self _ (by rwa [size_modify]),
    node_modify_self _ hlt]
  cases sample <;> rfl

theorem node_adopt_of_ne {x : NodeId} (hx : x ≠ m) : (f.adopt P sample m).node x = f.node x := by
  unfold adopt
  rw [detach_of_parent?_eq_none hm, node_modify_of_ne _ hx, node_modify_of_ne _ hx]

end

/-- **A new node can be put behind the children of every container.** -/
theorem WellFormed.exists_appends (h : f.WellFormed) (hP : (f.kind P).isContainer = true)
    (hroot : data.kind ≠ .root) :
    ∃ g, (f.add (Node.new data)).2.insert P .stop [f.size] = .ok g ∧ Appends f g P data := by
  have hlt := lt_size_of_isContainer hP
  have hne : P ≠ f.size := Nat.ne_of_lt hlt
  have hgrown := grown_add f data
  have hnode := node_add_size f (Node.new data)
  have hsize := size_add f (Node.new data)
  have hsample := sampleBefore_add h (Node.new data) hlt
  have hinsert := insert_of_accepted (h.refusal?_add hP data)
  have hwf := h.grown hgrown
  generalize (f.add (Node.new data)).2 = f' at *
  have hself : f.size < f'.size := by omega
  have hkind : f'.kind f.size = data.kind := by rw [kind, hnode]; rfl
  have hparent : f'.parent? f.size = none := by rw [parent?, hnode]; rfl
  rw [flatten_single (by rwa [hkind])] at hinsert
  simp only [show f'.flatten Anchor.stop.reference? [] = ([], f') from rfl,
    show (Anchor.stop.reference? = some f.size) = False by simp [Anchor.reference?], if_false,
    List.isEmpty_cons, Bool.false_eq_true, List.foldl_cons, List.foldl_nil, hsample] at hinsert
  have hwell := (hwf.insert_one hself hinsert).1
  have hadopted : (f'.adopt P (f.sampleBefore P .stop) f.size).size = f'.size := size_adopt ..
  have hold : ∀ x < f.size, (f'.adopt P (f.sampleBefore P .stop) f.size).node x = f.node x := by
    intro x hx
    rw [node_adopt_of_ne hparent _ (Nat.ne_of_lt hx), hgrown.node x hx]
  have hnew := node_adopt_self hparent (f.sampleBefore P .stop) hself (P := P)
  rw [hnode, Forest.raws, hnode] at hnew
  generalize f'.adopt P (f.sampleBefore P .stop) f.size = linked at *
  have hthere : P < linked.size := hadopted ▸ Nat.lt_trans hlt hself
  have hchildren : linked.children P = f.children P := by
    rw [Forest.children, hold P hlt, Forest.children]
  have hlast : (linked.splice P (linked.insertionIndex P .stop) [f.size]).node f.size =
      linked.node f.size := node_modify_of_ne _ hne.symm
  rw [hnew] at hlast
  refine ⟨_, hinsert, hwell, ?_, ?_, ?_, ?_, congrArg (·.data) hlast, congrArg (·.raws) hlast,
    congrArg (·.children) hlast⟩
  · rw [size_splice, hadopted, hsize]
  · intro x hx hxP
    rw [splice, node_modify_of_ne _ hxP, hold x hx]
  · rw [splice, node_modify_self _ hthere, hold P hlt]
  · rw [splice, node_modify_self _ hthere, hold P hlt, insertionIndex, hchildren]
    simp [Forest.children]

namespace Appends

theorem raws_eq (hg : Appends f g P data) {x : NodeId} (hx : x < f.size) : g.raws x = f.raws x := by
  by_cases he : x = P
  · rw [he]
    exact congrArg Element.raws hg.element
  · rw [Forest.raws, hg.node x hx he, Forest.raws]

theorem data_eq (hg : Appends f g P data) {x : NodeId} (hx : x < f.size) : g.data x = f.data x := by
  by_cases he : x = P
  · rw [he]
    exact congrArg Element.data hg.element
  · rw [Forest.data, hg.node x hx he, Forest.data]

mutual

/-- The new node is shown behind the children of `P`. -/
theorem shows (hg : Appends f g P data) (hP : (f.node P).hasBlock = true)
    (hleaf : (Node.new data).children = none) :
    {t : Tree NodeId} → f.Shows t → (∀ x ∈ t.preorder, x < f.size) →
    g.Shows (push (· = P) (.leaf f.size) t)
  | .leaf id, h, hlt => by
    have hne : id ≠ P := by
      rintro rfl
      rw [Node.hasBlock, show (f.node id).children = none from h] at hP
      cases hP
    show (g.node id).children = none
    rw [hg.node id (hlt id (by simp [preorder])) hne]
    exact h
  | .block id ts, h, hlt => by
    rw [Shows] at h
    rw [preorder, List.forall_mem_cons] at hlt
    have hall := hg.showsAll hP hleaf h.2 hlt.2
    rw [push, Shows]
    by_cases hid : id = P
    · subst hid
      rw [hg.children, children_of_block h.1, if_pos (decide_eq_true rfl), List.map_append,
        map_label_pushAll]
      exact ⟨rfl, showsAll_iff.2 (List.forall_mem_append.2 ⟨showsAll_iff.1 hall,
        List.forall_mem_singleton.2 (hg.block.trans hleaf)⟩)⟩
    · rw [hg.node id hlt.1 hid, if_neg (by simpa using hid), map_label_pushAll]
      exact ⟨h.1, hall⟩

theorem showsAll (hg : Appends f g P data) (hP : (f.node P).hasBlock = true)
    (hleaf : (Node.new data).children = none) :
    {ts : List (Tree NodeId)} → f.ShowsAll ts → (∀ x ∈ preorderAll ts, x < f.size) →
    g.ShowsAll (pushAll (· = P) (.leaf f.size) ts)
  | [], _, _ => trivial
  | t :: ts, h, hlt => by
    rw [preorderAll, List.forall_mem_append] at hlt
    exact ⟨hg.shows hP hleaf h.1 hlt.1, hg.showsAll hP hleaf h.2 hlt.2⟩

end

/-- **The tree with the new node**: it is the last child of `P`, and all else is as it was. -/
theorem outline (hg : Appends f g P data) (h : f.WellFormed) (hP : (f.node P).hasBlock = true)
    (hleaf : (Node.new data).children = none) {r : NodeId} (hr : r < f.size) :
    g.outline r = push (· = P) (.leaf f.size) (f.outline r) := by
  have hshows := h.shows_outline hr
  have hall := hg.shows hP hleaf hshows fun x hx =>
    h.lt_size_of_mem_preorder hshows (by rwa [label_outline]) hx
  have hlabel : (push (· = P) (.leaf f.size) (f.outline r)).label = r := by simp
  have := hg.wellFormed.outline_eq (by rw [hlabel, hg.size]; exact Nat.lt_succ_of_lt hr) hall
  rwa [hlabel] at this

end Appends

end Forest

end Stylesheet
