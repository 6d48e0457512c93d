import Stylesheet.Proofs.Forest.Growth

/-!
# The tree below a node

In a well-formed forest `outline` unrolls a node to the end (`shows_outline`). The nodes of the tree
are those that can be reached from its top (`mem_preorder_iff`), each stands in it once
(`nodup_preorder`), and so there are no more of them than nodes in the forest.
-/

set_option autoImplicit false

namespace Stylesheet

open Relation

namespace Tree

variable {α : Type}

mutual

/-- The labels, each behind those below it. -/
def postorder : Tree α → List α
  | leaf a => [a]
  | block a ts => postorderAll ts ++ [a]

/-- The labels of trees, one tree after the other. -/
def postorderAll : List (Tree α) → List α
  | [] => []
  | t :: ts => postorder t ++ postorderAll ts

end

mutual

theorem postorder_perm : (t : Tree α) → t.postorder.Perm t.preorder
  | leaf _ => .refl _
  | block a ts => by
    rw [postorder, preorder]
    exact (List.perm_append_singleton a _).trans (.cons a (postorderAll_perm ts))

theorem postorderAll_perm : (ts : List (Tree α)) → (postorderAll ts).Perm (preorderAll ts)
  | [] => .refl _
  | t :: ts => by
    rw [postorderAll, preorderAll]
    exact (postorder_perm t).append (postorderAll_perm ts)

end

theorem mem_preorderAll {a : α} {ts : List (Tree α)} :
    a ∈ preorderAll ts ↔ ∃ t ∈ ts, a ∈ t.preorder := by
  induction ts with
  | nil => simp [preorderAll]
  | cons t ts ih => simp [preorderAll, ih]

theorem preorder_eq (t : Tree α) : t.preorder = t.label :: t.descendants := by
  cases t <;> simp [preorder, descendants, label, children, preorderAll]

theorem size_pos (t : Tree α) : 0 < t.size := by
  rw [size, preorder_eq]
  exact Nat.succ_pos _

end Tree

namespace Forest

variable {f : Forest}

mutual

/-- The lists of children in the forest are those of the tree, down to its leaves. -/
def Shows (f : Forest) : Tree NodeId → Prop
  | .leaf id => (f.node id).children = none
  | .block id ts => (f.node id).children = some (ts.map Tree.label) ∧ ShowsAll f ts

/-- Every one of the trees is shown. -/
def ShowsAll (f : Forest) : List (Tree NodeId) → Prop
  | [] => True
  | t :: ts => Shows f t ∧ ShowsAll f ts

end

theorem showsAll_iff {ts : List (Tree NodeId)} : f.ShowsAll ts ↔ ∀ t ∈ ts, f.Shows t := by
  induction ts with
  | nil => simp [ShowsAll]
  | cons t ts ih => simp [ShowsAll, ih]

theorem children_of_block {id : NodeId} {ids : List NodeId}
    (h : (f.node id).children = some ids) : f.children id = ids := by
  rw [children, Node.nodes, h, Option.getD_some]

theorem children_of_leaf {id : NodeId} (h : (f.node id).children = none) : f.children id = [] := by
  rw [children, Node.nodes, h, Option.getD_none]

/-- `seen` is the way down to the node; it meets no node twice, so `f.size` levels are enough. -/
theorem WellFormed.shows_outlineWithin (h : f.WellFormed) : ∀ (levels : Nat) (id : NodeId)
    (seen : List NodeId), id < f.size → seen.Nodup → (∀ s ∈ seen, TransGen f.Child s id) →
    f.size ≤ seen.length + levels → f.Shows (f.outlineWithin levels id) := by
  intro levels
  induction levels with
  | zero =>
    intro id seen hid hn hseen hsize
    have hnew : id ∉ seen := fun hmem => h.acyclic id (hseen id hmem)
    have hsub : id :: seen ⊆ List.range f.size := by
      intro s hs
      rw [List.mem_range]
      rcases List.mem_cons.1 hs with rfl | hs
      · exact hid
      · obtain ⟨c, hc, -⟩ := TransGen.head'_iff.1 (hseen s hs)
        exact lt_size_of_mem hc
    have := (List.nodup_cons.2 ⟨hnew, hn⟩).length_le_of_subset hsub
    rw [List.length_cons, List.length_range] at this
    omega
  | succ levels ih =>
    intro id seen hid hn hseen hsize
    rw [outlineWithin]
    rcases hids : (f.node id).children with _ | ids
    · exact hids
    simp only
    rw [Shows, List.map_map]
    constructor
    · rw [hids, show Tree.label ∘ f.outlineWithin levels = fun c => c from
        funext (label_outlineWithin f levels), List.map_id']
    · refine showsAll_iff.2 fun t ht => ?_
      obtain ⟨c, hc, rfl⟩ := List.mem_map.1 ht
      have hchild : f.Child id c := by rwa [Child, children_of_block hids]
      have hnew : id ∉ seen := fun hmem => h.acyclic id (hseen id hmem)
      refine ih c (id :: seen) (h.lt_size hchild) (List.nodup_cons.2 ⟨hnew, hn⟩) ?_ ?_
      · intro s hs
        rcases List.mem_cons.1 hs with rfl | hs
        · exact .single hchild
        · exact (hseen s hs).tail hchild
      · rw [List.length_cons]
        omega

/-- **The outline of a node** shows all that stands below it. -/
theorem WellFormed.shows_outline (h : f.WellFormed) {id : NodeId} (hid : id < f.size) :
    f.Shows (f.outline id) :=
  h.shows_outlineWithin f.size id [] hid List.nodup_nil (by simp) (by simp)

@[simp] theorem label_outline (f : Forest) (id : NodeId) : (f.outline id).label = id :=
  label_outlineWithin f f.size id

mutual

/-- The nodes of a tree are those that can be reached from its top. -/
theorem mem_preorder_iff {x : NodeId} : {t : Tree NodeId} → f.Shows t →
    (x ∈ t.preorder ↔ ReflTransGen f.Child t.label x)
  | .leaf id, h => by
    rw [Tree.preorder, List.mem_singleton, Tree.label, ReflTransGen.cases_head_iff, Shows] at *
    constructor
    · rintro rfl
      exact .inl rfl
    · rintro (rfl | ⟨c, hc, -⟩)
      · rfl
      · rw [Child, children_of_leaf h] at hc
        cases hc
  | .block id ts, h => by
    rw [Shows] at h
    rw [Tree.preorder, List.mem_cons, mem_preorderAll_iff h.2, Tree.label,
      ReflTransGen.cases_head_iff]
    simp only [Child, children_of_block h.1]
    exact or_congr ⟨Eq.symm, Eq.symm⟩ (exists_congr fun c => Iff.rfl)

theorem mem_preorderAll_iff {x : NodeId} : {ts : List (Tree NodeId)} → f.ShowsAll ts →
    (x ∈ Tree.preorderAll ts ↔ ∃ c, c ∈ ts.map Tree.label ∧ ReflTransGen f.Child c x)
  | [], _ => by simp [Tree.preorderAll]
  | t :: ts, h => by
    rw [ShowsAll] at h
    rw [Tree.preorderAll, List.mem_append, mem_preorder_iff h.1, mem_preorderAll_iff h.2]
    simp

end

/-- A node stands below one child at most. -/
theorem WellFormed.sibling_eq (h : f.WellFormed) {P c d x : NodeId} (hc : c ∈ f.children P)
    (hd : d ∈ f.children P) (hcx : ReflTransGen f.Child c x) (hdx : ReflTransGen f.Child d x) :
    c = d := by
  have apart {a b : NodeId} (ha : a ∈ f.children P) (hb : b ∈ f.children P) :
      ¬ TransGen f.Child a b := by
    intro hab
    obtain ⟨p, hp, hap⟩ := h.exists_parent hab
    rw [(h.parent P b).1 hb, Option.some.injEq] at hp
    exact h.acyclic P (.head' ha (hp ▸ hap))
  have hunique : Relator.RightUnique (Function.swap f.Child) := by
    intro x p q hp hq
    exact Option.some.inj (((h.parent p x).1 hp).symm.trans ((h.parent q x).1 hq))
  rcases ReflTransGen.total_of_right_unique hunique hcx.swap hdx.swap with hcd | hcd
  · rcases reflTransGen_iff_eq_or_transGen.1 (reflTransGen_swap.1 hcd) with rfl | hcd
    · rfl
    · exact absurd hcd (apart hd hc)
  · rcases reflTransGen_iff_eq_or_transGen.1 (reflTransGen_swap.1 hcd) with rfl | hcd
    · rfl
    · exact absurd hcd (apart hc hd)

mutual

/-- Each node stands in a tree once. -/
theorem WellFormed.nodup_preorder (h : f.WellFormed) : {t : Tree NodeId} → f.Shows t →
    t.preorder.Nodup
  | .leaf id, _ => List.nodup_singleton id
  | .block id ts, ht => by
    rw [Shows] at ht
    have hids := children_of_block ht.1
    rw [Tree.preorder, List.nodup_cons, mem_preorderAll_iff ht.2, ← hids]
    refine ⟨?_, h.nodup_preorderAll ht.2 (hids ▸ h.nodup id) fun c hc => hids ▸ hc⟩
    rintro ⟨c, hc, hcid⟩
    exact h.acyclic id (.head' hc hcid)

theorem WellFormed.nodup_preorderAll (h : f.WellFormed) : {P : NodeId} →
    {ts : List (Tree NodeId)} → f.ShowsAll ts → (ts.map Tree.label).Nodup →
    (∀ c ∈ ts.map Tree.label, c ∈ f.children P) → (Tree.preorderAll ts).Nodup
  | _, [], _, _, _ => List.nodup_nil
  | P, t :: ts, hts, hn, hc => by
    rw [ShowsAll] at hts
    rw [List.map_cons] at hn hc
    obtain ⟨hnew, hn⟩ := List.nodup_cons.1 hn
    obtain ⟨htop, hc⟩ := List.forall_mem_cons.1 hc
    rw [Tree.preorderAll, List.nodup_append]
    refine ⟨h.nodup_preorder hts.1, h.nodup_preorderAll hts.2 hn hc, ?_⟩
    rintro x hx _ hx' rfl
    obtain ⟨c, hmem, hcx⟩ := (mem_preorderAll_iff hts.2).1 hx'
    have := h.sibling_eq htop (hc c hmem) ((mem_preorder_iff hts.1).1 hx) hcx
    exact hnew (this ▸ hmem)

end

/-- There are no more nodes in a tree than in the forest. -/
theorem WellFormed.size_outline_le (h : f.WellFormed) {id : NodeId} (hid : id < f.size) :
    (f.outline id).size ≤ f.size := by
  have hshows := h.shows_outline hid
  have hsub : (f.outline id).preorder ⊆ List.range f.size := by
    intro x hx
    rw [List.mem_range]
    rw [mem_preorder_iff hshows, label_outline] at hx
    rcases hx.cases_tail with rfl | ⟨p, -, hp⟩
    · exact hid
    · exact h.lt_size hp
  have := (h.nodup_preorder hshows).length_le_of_subset hsub
  rwa [List.length_range] at this

/-! ## The way up -/

/-- The way up ends before `f.size` steps. `seen` are the nodes passed so far. -/
theorem WellFormed.ancestorsWithin_succ (h : f.WellFormed) : ∀ (steps : Nat) (id : NodeId)
    (seen : List NodeId), seen.Nodup → (∀ s ∈ seen, TransGen f.Child id s) →
    f.size ≤ seen.length + 1 + steps →
    f.ancestorsWithin (steps + 1) id = f.ancestorsWithin steps id := by
  intro steps
  induction steps with
  | zero =>
    intro id seen hn hseen hsize
    cases hp : f.parent? id with
    | none => rw [ancestorsWithin, ancestorsWithin, hp]
    | some p =>
      have hchild : f.Child p id := (h.parent p id).2 hp
      have hsub : p :: id :: seen ⊆ List.range f.size := by
        intro s hs
        rw [List.mem_range]
        rcases List.mem_cons.1 hs with rfl | hs
        · exact lt_size_of_mem hchild
        rcases List.mem_cons.1 hs with rfl | hs
        · exact lt_size_of_parent hp
        · obtain ⟨q, hq, -⟩ := h.exists_parent (hseen s hs)
          exact lt_size_of_parent hq
      have hself : id ∉ seen := fun hid => h.acyclic id (hseen id hid)
      have hnew : p ∉ id :: seen := by
        rintro hmem
        rcases List.mem_cons.1 hmem with rfl | hmem
        · exact h.acyclic p (.single hchild)
        · exact h.acyclic p (.head hchild (hseen p hmem))
      have := (List.nodup_cons.2 ⟨hnew, List.nodup_cons.2 ⟨hself, hn⟩⟩).length_le_of_subset hsub
      simp only [List.length_cons, List.length_range] at this
      omega
  | succ steps ih =>
    intro id seen hn hseen hsize
    cases hp : f.parent? id with
    | none => rw [ancestorsWithin, ancestorsWithin, hp]
    | some p =>
      have hchild : f.Child p id := (h.parent p id).2 hp
      have hnew : id ∉ seen := fun hid => h.acyclic id (hseen id hid)
      rw [ancestorsWithin, hp, ancestorsWithin, hp]
      refine congrArg (p :: ·) (ih p (id :: seen) (List.nodup_cons.2 ⟨hnew, hn⟩) ?_ ?_)
      · intro s hs
        rcases List.mem_cons.1 hs with rfl | hs
        · exact .single hchild
        · exact .head hchild (hseen s hs)
      · rw [List.length_cons]
        omega

/-- The ancestors of a node are its parent and the ancestors of that. -/
theorem WellFormed.ancestors_cons (h : f.WellFormed) {id p : NodeId} (hp : f.parent? id = some p) :
    f.ancestors id = p :: f.ancestors p := by
  have hsize : 0 < f.size := Nat.lt_of_le_of_lt (Nat.zero_le _) (lt_size_of_parent hp)
  obtain ⟨n, hn⟩ := Nat.exists_eq_succ_of_ne_zero (Nat.ne_of_gt hsize)
  have hchild : f.Child p id := (h.parent p id).2 hp
  rw [ancestors, ancestors, hn, ancestorsWithin, hp]
  refine congrArg (p :: ·) (h.ancestorsWithin_succ n p [id] (List.nodup_singleton id) ?_ ?_).symm
  · exact fun s hs => List.mem_singleton.1 hs ▸ .single hchild
  · rw [hn, List.length_singleton]
    omega

/-- A node has the top of its parent. -/
theorem WellFormed.top_of_parent (h : f.WellFormed) {id p : NodeId} (hp : f.parent? id = some p) :
    f.top id = f.top p := by
  rw [top, top, h.ancestors_cons hp, List.getLast?_cons, Option.getD_some]

/-- A node stands one container deeper than its parent, unless that is a root. -/
theorem WellFormed.depth_of_parent (h : f.WellFormed) {id p : NodeId}
    (hp : f.parent? id = some p) :
    f.depth id = if f.kind p = .root then 0 else f.depth p + 1 := by
  rw [depth, depth, h.ancestors_cons hp, List.takeWhile_cons]
  by_cases hk : f.kind p = .root <;> simp [hk]

end Forest

end Stylesheet
