import Stylesheet.Proofs.Forest.Links
import Mathlib.Data.List.Nodup
import Mathlib.Logic.Relation

/-!
# Well-formed forests

A forest is `WellFormed` if its lists of children and its links to parents fit each other and no
node stands below itself. Taking nodes out keeps it so. An insertion that is not refused keeps it
so exactly if the list of incoming nodes is `Distinct`: `insert` detaches the incoming nodes one by
one and then splices in the whole list, so a node that is named twice stands in it twice.
-/

set_option autoImplicit false

namespace Stylesheet

open Relation

namespace Forest

variable {f g : Forest} {id parent : NodeId} {out ids incoming : List NodeId} {anchor : Anchor}

/-- `c` is a child of `p`. -/
def Child (f : Forest) (p c : NodeId) : Prop := c ∈ f.children p

/-- The lists of children and the links to parents fit each other. -/
structure WellFormed (f : Forest) : Prop where
  /-- All lists of children together hold no node twice. -/
  once : ((List.range f.size).flatMap f.children).Nodup
  parent : ∀ p c, c ∈ f.children p ↔ f.parent? c = some p
  root : ∀ p, ∀ c ∈ f.children p, f.kind c ≠ .root
  leaf : ∀ p, (f.kind p).isContainer = false → f.children p = []
  acyclic : ∀ id, ¬ TransGen f.Child id id

namespace WellFormed

theorem nodup (h : f.WellFormed) (p : NodeId) : (f.children p).Nodup := by
  by_cases hp : p < f.size
  · exact (List.nodup_flatMap.1 h.once).1 p (List.mem_range.2 hp)
  · rw [children_of_le (Nat.not_lt.1 hp)]
    exact List.nodup_nil

theorem once_of_nodup (hn : ∀ p, (f.children p).Nodup)
    (hp : ∀ p c, c ∈ f.children p ↔ f.parent? c = some p) :
    ((List.range f.size).flatMap f.children).Nodup := by
  refine List.nodup_flatMap.2 ⟨fun p _ => hn p, ?_⟩
  refine List.nodup_range.imp ?_
  intro p q hne c hc hc'
  have := ((hp p c).1 hc).symm.trans ((hp q c).1 hc')
  exact hne (Option.some.inj this)

theorem lt_size (h : f.WellFormed) {p c : NodeId} (hc : c ∈ f.children p) : c < f.size :=
  lt_size_of_parent ((h.parent p c).1 hc)

/-! ## Ancestors -/

theorem exists_parent (h : f.WellFormed) {a : NodeId} (ha : TransGen f.Child a id) :
    ∃ p, f.parent? id = some p ∧ ReflTransGen f.Child a p := by
  cases ha with
  | single hc => exact ⟨a, (h.parent a id).1 hc, .refl⟩
  | tail hab hc => exact ⟨_, (h.parent _ id).1 hc, hab.to_reflTransGen⟩

/-- The way up from a node meets no node twice, so `f.size` steps reach every ancestor. `seen` are
the nodes passed so far. -/
theorem mem_ancestorsWithin (h : f.WellFormed) {a : NodeId} : ∀ (steps : Nat) (id : NodeId)
    (seen : List NodeId), seen.Nodup → (∀ s ∈ seen, TransGen f.Child id s) →
    f.size ≤ seen.length + steps → TransGen f.Child a id → a ∈ f.ancestorsWithin steps id := by
  intro steps
  induction steps with
  | zero =>
    intro id seen hn hseen hsize ha
    obtain ⟨p, hp, -⟩ := h.exists_parent ha
    have hnew : id ∉ seen := fun hid => h.acyclic id (hseen id hid)
    have hsub : id :: seen ⊆ List.range f.size := by
      intro s hs
      rw [List.mem_range]
      rcases List.mem_cons.1 hs with rfl | hs
      · exact lt_size_of_parent hp
      · obtain ⟨q, hq, -⟩ := h.exists_parent (hseen s hs)
        exact lt_size_of_parent hq
    have := (List.nodup_cons.2 ⟨hnew, hn⟩).length_le_of_subset hsub
    rw [List.length_cons, List.length_range] at this
    omega
  | succ steps ih =>
    intro id seen hn hseen hsize ha
    obtain ⟨p, hp, hap⟩ := h.exists_parent ha
    rw [ancestorsWithin, hp]
    simp only [List.mem_cons]
    rcases reflTransGen_iff_eq_or_transGen.1 hap with rfl | hap
    · exact .inl rfl
    · right
      have hchild : f.Child p id := (h.parent p id).2 hp
      have hnew : id ∉ seen := fun hid => h.acyclic id (hseen id hid)
      refine ih p (id :: seen) (List.nodup_cons.2 ⟨hnew, hn⟩) ?_ ?_ hap
      · intro s hs
        rcases List.mem_cons.1 hs with rfl | hs
        · exact .single hchild
        · exact .head hchild (hseen s hs)
      · rw [List.length_cons]
        omega

/-- `isInside` sees every node that stands below another one. -/
theorem isInside_of_reach (h : f.WellFormed) {a : NodeId} (ha : ReflTransGen f.Child a id) :
    f.isInside a id = true := by
  unfold isInside ancestors
  rcases reflTransGen_iff_eq_or_transGen.1 ha with rfl | ha
  · simp
  · have := h.mem_ancestorsWithin f.size id [] List.nodup_nil (by simp) (by simp) ha
    simp [this]

theorem transGen_of_mem_ancestorsWithin (h : f.WellFormed) {a : NodeId} {steps : Nat}
    (ha : a ∈ f.ancestorsWithin steps id) : TransGen f.Child a id := by
  induction steps generalizing id with
  | zero => cases ha
  | succ steps ih =>
    rw [ancestorsWithin] at ha
    split at ha
    · cases ha
    · next p hp =>
      have hchild : f.Child p id := (h.parent p id).2 hp
      rcases List.mem_cons.1 ha with rfl | ha
      · exact .single hchild
      · exact (ih ha).tail hchild

/-- `isInside` is right about any two nodes. -/
theorem isInside_iff (h : f.WellFormed) {a : NodeId} :
    f.isInside a id = true ↔ ReflTransGen f.Child a id := by
  refine ⟨fun ha => ?_, h.isInside_of_reach⟩
  unfold isInside ancestors at ha
  rw [Bool.or_eq_true, decide_eq_true_iff, List.contains_iff_mem] at ha
  rcases ha with rfl | ha
  · exact .refl
  · exact (h.transGen_of_mem_ancestorsWithin ha).to_reflTransGen

end WellFormed

/-! ## Taking nodes out -/

/-- `g` is `f` without the links between `out` and their parents. -/
structure Without (f g : Forest) (out : List NodeId) : Prop where
  size : g.size = f.size
  kind : ∀ p, g.kind p = f.kind p
  children : ∀ p, g.children p = (f.children p).filter (· ∉ out)
  parent : ∀ c, g.parent? c = if c ∈ out then none else f.parent? c

theorem WellFormed.without (h : f.WellFormed) (hg : Without f g out) : g.WellFormed := by
  have hsub : ∀ p c, c ∈ g.children p ↔ c ∈ f.children p ∧ c ∉ out := by
    intro p c
    rw [hg.children, List.mem_filter, decide_eq_true_iff]
  have hparent : ∀ p c, c ∈ g.children p ↔ g.parent? c = some p := by
    intro p c
    rw [hsub, hg.parent, h.parent]
    by_cases hc : c ∈ out <;> simp [hc]
  refine ⟨WellFormed.once_of_nodup ?_ hparent, hparent, ?_, ?_, ?_⟩
  · intro p
    rw [hg.children]
    exact (h.nodup p).filter _
  · intro p c hc
    rw [hg.kind]
    exact h.root p c ((hsub p c).1 hc).1
  · intro p hp
    rw [hg.kind] at hp
    rw [hg.children, h.leaf p hp, List.filter_nil]
  · intro id hid
    exact h.acyclic id (TransGen.mono (fun p c hc => ((hsub p c).1 hc).1) _ _ hid)

/-- Only the links matter. -/
theorem WellFormed.same (h : f.WellFormed) (hs : g.size = f.size) (hk : ∀ p, g.kind p = f.kind p)
    (hc : ∀ p, g.children p = f.children p) (hp : ∀ c, g.parent? c = f.parent? c) :
    g.WellFormed := by
  have : Without f g [] := ⟨hs, hk, fun p => by simp [hc], fun c => by simp [hp]⟩
  exact h.without this

theorem WellFormed.erase_eq (h : f.WellFormed) (p c : NodeId) :
    (f.children p).erase c = (f.children p).filter (· ∉ [c]) := by
  rw [(h.nodup p).erase_eq_filter]
  refine List.filter_congr ?_
  intro x _
  by_cases hx : x = c <;> simp [hx]

theorem WellFormed.filter_self (h : f.WellFormed) {c q : NodeId} (hc : c ∈ f.children parent)
    (hq : q ≠ parent) : (f.children q).filter (· ∉ [c]) = f.children q := by
  rw [List.filter_eq_self]
  intro x hx
  rw [decide_eq_true_iff, List.mem_singleton]
  rintro rfl
  exact hq (Option.some.inj (((h.parent q x).1 hx).symm.trans ((h.parent parent x).1 hc)))

theorem WellFormed.removeAt_without (h : f.WellFormed) {index : Nat} {c : NodeId}
    (hc : (f.children parent)[index]? = some c) :
    Without f (f.removeAt parent index).2 [c] := by
  have hmem := List.mem_of_getElem? hc
  refine ⟨size_removeAt .., kind_removeAt f parent index, ?_, ?_⟩
  · intro q
    rw [children_removeAt]
    split
    · next hq =>
      obtain ⟨hlt, rfl⟩ := List.getElem?_eq_some_iff.1 hc
      rw [hq, ← h.erase_eq, (h.nodup parent).erase_getElem index hlt]
    · next hq => rw [h.filter_self hmem hq]
  · intro x
    rw [parent?_removeAt, hc]
    simp [eq_comm]

theorem WellFormed.removeAt (h : f.WellFormed) (parent : NodeId) (index : Nat) :
    (f.removeAt parent index).2.WellFormed := by
  cases hc : (f.children parent)[index]? with
  | none =>
    rw [removeAt_of_none hc]
    exact h
  | some c => exact h.without (h.removeAt_without hc)

theorem WellFormed.detach_without (h : f.WellFormed) (id : NodeId) :
    Without f (f.detach id).2 [id] := by
  refine ⟨size_detach .., kind_detach f id, ?_, ?_⟩
  · intro q
    rw [children_detach, h.erase_eq]
    split
    · rfl
    · next hq =>
      rw [← h.parent] at hq
      rw [eq_comm, List.filter_eq_self]
      intro x hx
      rw [decide_eq_true_iff, List.mem_singleton]
      rintro rfl
      exact hq hx
  · intro x
    rw [parent?_detach]
    simp

theorem WellFormed.detach (h : f.WellFormed) (id : NodeId) : (f.detach id).2.WellFormed :=
  h.without (h.detach_without id)

theorem WellFormed.clear_without (h : f.WellFormed) (parent : NodeId) :
    Without f (f.clear parent).2 (f.children parent) := by
  refine ⟨size_clear .., kind_clear f parent, ?_, parent?_clear f parent⟩
  intro q
  rw [children_clear]
  split
  · next hq => simp [hq]
  · next hq =>
    rw [eq_comm, List.filter_eq_self]
    intro x hx
    rw [decide_eq_true_iff]
    intro hx'
    exact hq (Option.some.inj (((h.parent q x).1 hx).symm.trans ((h.parent parent x).1 hx')))

theorem WellFormed.clear (h : f.WellFormed) (parent : NodeId) : (f.clear parent).2.WellFormed :=
  h.without (h.clear_without parent)

/-! ## Putting nodes in -/

/-- `g` is `f` with `ids` moved below `parent`. -/
structure Joins (f g : Forest) (parent : NodeId) (ids : List NodeId) : Prop where
  size : g.size = f.size
  kind : ∀ p, g.kind p = f.kind p
  perm : (g.children parent).Perm (ids ++ (f.children parent).filter (· ∉ ids))
  children : ∀ q, q ≠ parent → g.children q = (f.children q).filter (· ∉ ids)
  parent : ∀ c, g.parent? c = if c ∈ ids then some parent else f.parent? c

theorem Joins.child_iff (h : Joins f g parent ids) (p c : NodeId) :
    g.Child p c ↔ (c ∈ ids ∧ p = parent) ∨ (c ∉ ids ∧ f.Child p c) := by
  unfold Child
  by_cases hp : p = parent
  · subst hp
    rw [h.perm.mem_iff, List.mem_append, List.mem_filter, decide_eq_true_iff]
    by_cases hc : c ∈ ids <;> simp [hc]
  · rw [h.children p hp, List.mem_filter, decide_eq_true_iff]
    simp [hp, and_comm]

/-- A way down in `g` is one in `f`, or it comes through `parent` and one of the nodes moved. -/
theorem Joins.transGen (h : Joins f g parent ids) {a b : NodeId} (hab : TransGen g.Child a b) :
    TransGen f.Child a b ∨
      ∃ c ∈ ids, ReflTransGen g.Child a parent ∧ ReflTransGen f.Child c b := by
  induction hab with
  | single hc =>
    rcases (h.child_iff _ _).1 hc with ⟨hmem, rfl⟩ | ⟨-, hc⟩
    · exact .inr ⟨_, hmem, .refl, .refl⟩
    · exact .inl (.single hc)
  | tail hab hc ih =>
    rcases (h.child_iff _ _).1 hc with ⟨hmem, rfl⟩ | ⟨-, hc⟩
    · exact .inr ⟨_, hmem, hab.to_reflTransGen, .refl⟩
    · rcases ih with hold | ⟨d, hd, hup, hdown⟩
      · exact .inl (hold.tail hc)
      · exact .inr ⟨d, hd, hup, hdown.tail hc⟩

/-- Nodes that `parent` does not stand below can be moved there. -/
theorem WellFormed.joins (h : f.WellFormed) (hg : Joins f g parent ids) (hn : ids.Nodup)
    (hc : (f.kind parent).isContainer = true) (hroot : ∀ c ∈ ids, f.kind c ≠ .root)
    (hsafe : ∀ c ∈ ids, ¬ ReflTransGen f.Child c parent) : g.WellFormed := by
  have hparent : ∀ p c, c ∈ g.children p ↔ g.parent? c = some p := by
    intro p c
    have := hg.child_iff p c
    unfold Child at this
    rw [this, hg.parent, h.parent]
    by_cases hmem : c ∈ ids <;> simp [hmem, eq_comm]
  refine ⟨WellFormed.once_of_nodup ?_ hparent, hparent, ?_, ?_, ?_⟩
  · intro p
    by_cases hp : p = parent
    · subst hp
      refine hg.perm.nodup_iff.2 (List.nodup_append.2 ⟨hn, (h.nodup p).filter _, ?_⟩)
      rintro c hmem d hd rfl
      simp [hmem] at hd
    · rw [hg.children p hp]
      exact (h.nodup p).filter _
  · intro p c hchild
    rw [hg.kind]
    rcases (hg.child_iff p c).1 hchild with ⟨hmem, -⟩ | ⟨-, hchild⟩
    · exact hroot c hmem
    · exact h.root p c hchild
  · intro p hp
    rw [hg.kind] at hp
    have hne : p ≠ parent := by
      rintro rfl
      rw [hc] at hp
      cases hp
    rw [hg.children p hne, h.leaf p hp, List.filter_nil]
  · intro id hid
    rcases hg.transGen hid with hold | ⟨c, hmem, hup, hdown⟩
    · exact h.acyclic id hold
    · rcases reflTransGen_iff_eq_or_transGen.1 hup with rfl | hup
      · exact hsafe c hmem hdown
      · rcases hg.transGen hup with hold | ⟨d, hmem', -, hdown'⟩
        · exact hsafe c hmem (hdown.trans hold.to_reflTransGen)
        · exact hsafe d hmem' hdown'

/-- The incoming nodes that an insertion takes as they are. -/
def singles (f : Forest) (reference : Option NodeId) (incoming : List NodeId) : List NodeId :=
  incoming.filter fun id => f.kind id ≠ .root ∧ reference ≠ some id

/-- No node is named twice, and none together with a root that it is a child of. -/
def Distinct (f : Forest) (reference : Option NodeId) (incoming : List NodeId) : Prop :=
  (f.singles reference incoming).Nodup ∧
    ∀ id ∈ f.singles reference incoming, ∀ r ∈ incoming, f.kind r = .root → id ∉ f.children r

theorem singles_root {reference : Option NodeId} (h : f.kind id = .root) :
    f.singles reference (id :: incoming) = f.singles reference incoming := by
  simp [singles, h]

theorem singles_reference {reference : Option NodeId} (h : reference = some id) :
    f.singles reference (id :: incoming) = f.singles reference incoming := by
  simp [singles, h]

theorem singles_single {reference : Option NodeId} (h : f.kind id ≠ .root)
    (hr : reference ≠ some id) :
    f.singles reference (id :: incoming) = id :: f.singles reference incoming := by
  simp [singles, h, hr]

theorem singles_clear (f : Forest) (id : NodeId) (reference : Option NodeId)
    (incoming : List NodeId) :
    (f.clear id).2.singles reference incoming = f.singles reference incoming := by
  simp [singles]

theorem WellFormed.flatten (h : f.WellFormed) (reference : Option NodeId)
    (incoming : List NodeId) : (f.flatten reference incoming).2.WellFormed := by
  induction incoming generalizing f with
  | nil => exact h
  | cons id rest ih =>
    by_cases hr : f.kind id = .root
    · rw [flatten_root hr]
      exact ih (h.clear id)
    · rw [flatten_single hr]
      exact ih h

/-- The nodes that an insertion puts in. -/
theorem mem_flatten {reference : Option NodeId} {c : NodeId} :
    c ∈ (f.flatten reference incoming).1 ↔
      c ∈ f.singles reference incoming ∨
        ∃ r ∈ incoming, f.kind r = .root ∧ c ∈ f.children r := by
  induction incoming generalizing f with
  | nil => simp [Forest.flatten, singles]
  | cons id rest ih =>
    by_cases hr : f.kind id = .root
    · rw [flatten_root hr, List.mem_append, ih, singles_clear, singles_root hr]
      simp only [children_clear, kind_clear, List.mem_cons, exists_eq_or_imp, hr, true_and]
      constructor
      · rintro (hc | hc | ⟨r, hmem, hk, hc⟩)
        · exact .inr (.inl hc)
        · exact .inl hc
        · split at hc
          · cases hc
          · exact .inr (.inr ⟨r, hmem, hk, hc⟩)
      · rintro (hc | hc | ⟨r, hmem, hk, hc⟩)
        · exact .inr (.inl hc)
        · exact .inl hc
        · by_cases hri : r = id
          · exact .inl (hri ▸ hc)
          · exact .inr (.inr ⟨r, hmem, hk, by rwa [if_neg hri]⟩)
    · rw [flatten_single hr]
      by_cases href : reference = some id
      · simp only [if_pos href, ih, singles_reference href, List.mem_cons, exists_eq_or_imp, hr,
          false_and, false_or]
      · simp only [if_neg href, ih, singles_single hr href, List.mem_cons, exists_eq_or_imp, hr,
          false_and, false_or, or_assoc]

theorem parent?_flatten {reference : Option NodeId} {c : NodeId}
    (hc : c ∉ (f.flatten reference incoming).1) :
    (f.flatten reference incoming).2.parent? c = f.parent? c := by
  induction incoming generalizing f with
  | nil => rfl
  | cons id rest ih =>
    by_cases hr : f.kind id = .root
    · rw [flatten_root hr, List.mem_append, not_or] at hc
      rw [flatten_root hr, ih hc.2, parent?_clear, if_neg hc.1]
    · rw [flatten_single hr] at hc ⊢
      by_cases href : reference = some id
      · rw [if_pos href] at hc
        exact ih hc
      · rw [if_neg href, List.mem_cons, not_or] at hc
        exact ih hc.2

theorem WellFormed.eq_of_mem (h : f.WellFormed) {p q c : NodeId} (hp : c ∈ f.children p)
    (hq : c ∈ f.children q) : p = q :=
  Option.some.inj (((h.parent p c).1 hp).symm.trans ((h.parent q c).1 hq))

/-- A root among the incoming nodes: its children are named by it. -/
theorem distinct_root {reference : Option NodeId} (hr : f.kind id = .root) :
    f.Distinct reference (id :: incoming) ↔
      (f.clear id).2.Distinct reference incoming ∧
        ∀ c ∈ f.singles reference incoming, c ∉ f.children id := by
  unfold Distinct
  rw [singles_root hr, singles_clear]
  simp only [kind_clear]
  constructor
  · rintro ⟨hn, hd⟩
    refine ⟨⟨hn, ?_⟩, fun c hc => hd c hc id (.head _) hr⟩
    intro c hc r hmem hk hchild
    rw [children_clear] at hchild
    split at hchild
    · cases hchild
    · exact hd c hc r (.tail _ hmem) hk hchild
  · rintro ⟨⟨hn, hd⟩, hsent⟩
    refine ⟨hn, ?_⟩
    intro c hc r hmem hk hchild
    by_cases hri : r = id
    · exact hsent c hc (hri ▸ hchild)
    · refine hd c hc r ((List.mem_cons.1 hmem).resolve_left hri) hk ?_
      rwa [children_clear, if_neg hri]

/-- A node that is no root, in front of other incoming nodes. -/
theorem distinct_cons {reference : Option NodeId} (hr : f.kind id ≠ .root)
    (href : reference ≠ some id) : f.Distinct reference (id :: incoming) ↔
      id ∉ (f.flatten reference incoming).1 ∧ f.Distinct reference incoming := by
  unfold Distinct
  rw [singles_single hr href, mem_flatten, List.nodup_cons]
  simp only [List.forall_mem_cons, hr, false_implies, true_and, not_or, not_exists, not_and]
  constructor
  · rintro ⟨⟨hnew, hn⟩, hroots, hd⟩
    exact ⟨⟨hnew, hroots⟩, hn, hd⟩
  · rintro ⟨⟨hnew, hroots⟩, hn, hd⟩
    exact ⟨⟨hnew, hn⟩, hroots, hd⟩

theorem distinct_reference {reference : Option NodeId} (hr : f.kind id ≠ .root)
    (href : reference = some id) :
    f.Distinct reference (id :: incoming) ↔ f.Distinct reference incoming := by
  unfold Distinct
  rw [singles_reference href]
  simp only [List.forall_mem_cons, hr, false_implies, true_and]

/-- An insertion puts no node in twice exactly if the incoming nodes are distinct. -/
theorem WellFormed.nodup_flatten (h : f.WellFormed) (reference : Option NodeId)
    (incoming : List NodeId) :
    (f.flatten reference incoming).1.Nodup ↔ f.Distinct reference incoming := by
  induction incoming generalizing f with
  | nil => simp [Forest.flatten, Distinct, singles]
  | cons id rest ih =>
    by_cases hr : f.kind id = .root
    · -- the children of the root are apart from those of the other roots
      have hapart : ∀ c ∈ f.children id, (c ∈ ((f.clear id).2.flatten reference rest).1 ↔
          c ∈ f.singles reference rest) := by
        intro c hc
        rw [mem_flatten, singles_clear]
        refine or_iff_left ?_
        rintro ⟨r, -, -, hchild⟩
        rw [children_clear] at hchild
        split at hchild
        · cases hchild
        · next hne => exact hne (h.eq_of_mem hchild hc)
      rw [flatten_root hr, List.nodup_append, ih (h.clear id), distinct_root hr]
      constructor
      · rintro ⟨-, hd, hsent⟩
        exact ⟨hd, fun c hc hchild => hsent c hchild c ((hapart c hchild).2 hc) rfl⟩
      · rintro ⟨hd, hsent⟩
        refine ⟨h.nodup id, hd, ?_⟩
        rintro c hc d hd rfl
        exact hsent c ((hapart c hc).1 hd) hc
    · rw [flatten_single hr]
      by_cases href : reference = some id
      · rw [if_pos href, distinct_reference hr href]
        exact ih h
      · rw [if_neg href, distinct_cons hr href, List.nodup_cons, ih h]

/-! ### The insertion -/

theorem children_adoptAll (parent : NodeId) (sample : Option String) (ids : List NodeId)
    {f : Forest} (hn : ∀ q, (f.children q).Nodup)
    (hp : ∀ q, ∀ c ∈ f.children q, c ∈ ids → f.parent? c = some q) (hs : ∀ id ∈ ids, id < f.size)
    (q : NodeId) :
    (ids.foldl (fun f id => f.adopt parent sample id) f).children q =
      (f.children q).filter (· ∉ ids) := by
  induction ids generalizing f with
  | nil => simp
  | cons id ids ih =>
    have hstep : ∀ q, (f.adopt parent sample id).children q =
        (f.children q).filter (· ≠ id) := by
      intro q
      rw [children_adopt, children_detach, (hn q).erase_eq_filter]
      split
      · refine List.filter_congr ?_
        intro c _
        by_cases hc : c = id <;> simp [hc]
      · next hq =>
        rw [eq_comm, List.filter_eq_self]
        intro c hc
        rw [decide_eq_true_iff]
        rintro rfl
        exact hq (hp q c hc (.head _))
    rw [List.foldl_cons, ih, hstep, List.filter_filter]
    · refine List.filter_congr ?_
      intro c _
      by_cases hc : c = id <;> simp [hc]
    · intro q
      rw [hstep]
      exact (hn q).filter _
    · intro q c hc hmem
      rw [hstep, List.mem_filter, decide_eq_true_iff] at hc
      rw [parent?_adopt _ _ (hs id (.head _)), if_neg hc.2]
      exact hp q c hc.1 (.tail _ hmem)
    · intro c hc
      rw [size_adopt]
      exact hs c (.tail _ hc)

theorem parent?_adoptAll (parent : NodeId) (sample : Option String) (ids : List NodeId)
    {f : Forest} (hs : ∀ id ∈ ids, id < f.size) (c : NodeId) :
    (ids.foldl (fun f id => f.adopt parent sample id) f).parent? c =
      if c ∈ ids then some parent else f.parent? c := by
  induction ids generalizing f with
  | nil => simp
  | cons id ids ih =>
    rw [List.foldl_cons, ih, parent?_adopt _ _ (hs id (.head _))]
    · by_cases hc : c = id <;> by_cases hmem : c ∈ ids <;> simp [hc, hmem]
    · intro c hc
      rw [size_adopt]
      exact hs c (.tail _ hc)

/-- The roots that send their children have no other ones. -/
theorem filter_children_flatten (f : Forest) (reference : Option NodeId) (incoming : List NodeId)
    (q : NodeId) :
    ((f.flatten reference incoming).2.children q).filter
        (· ∉ (f.flatten reference incoming).1) =
      (f.children q).filter (· ∉ (f.flatten reference incoming).1) := by
  rw [children_flatten]
  split
  · next hq =>
    rw [List.filter_nil, eq_comm, List.filter_eq_nil_iff]
    intro c hc
    simp only [decide_eq_true_iff, Decidable.not_not]
    exact mem_flatten.2 (.inr ⟨q, hq.1, hq.2, hc⟩)
  · rfl

theorem WellFormed.lt_size_of_mem_flatten (h : f.WellFormed) (hs : ∀ id ∈ incoming, id < f.size)
    {reference : Option NodeId} {c : NodeId} (hc : c ∈ (f.flatten reference incoming).1) :
    c < (f.flatten reference incoming).2.size := by
  rw [size_flatten]
  rcases mem_flatten.1 hc with hsingle | ⟨r, -, -, hchild⟩
  · exact hs c (List.mem_filter.1 hsingle).1
  · exact h.lt_size hchild

/-- Adopting nodes and splicing them in moves them below `parent`. -/
theorem WellFormed.joins_splice (h : f.WellFormed) (hs : ∀ c ∈ ids, c < f.size)
    (hp : parent < f.size) (sample : Option String) (index : Forest → Nat) :
    Joins f (let g := ids.foldl (fun g id => g.adopt parent sample id) f
      g.splice parent (index g) ids) parent ids := by
  have hchildren := children_adoptAll parent sample ids h.nodup
    (fun q c hc _ => (h.parent q c).1 hc) hs
  have hadopted := parent?_adoptAll parent sample ids hs
  have hsize := size_adoptAll f parent sample ids
  have hkind := kind_adoptAll f parent sample ids
  generalize ids.foldl (fun g id => g.adopt parent sample id) f = g at *
  have hlt : parent < g.size := by rwa [hsize]
  refine ⟨?_, ?_, ?_, ?_, ?_⟩
  · rw [size_splice, hsize]
  · intro q
    rw [kind_splice, hkind]
  · rw [children_splice hlt, if_pos rfl, ← hchildren]
    refine (List.perm_append_comm.append_right _).trans ?_
    rw [List.append_assoc, List.take_append_drop]
  · intro q hq
    rw [children_splice hlt, if_neg hq, hchildren]
  · intro c
    rw [parent?_splice, hadopted]

/-- The roots sent what they had to the same place. -/
theorem Joins.of_flatten {reference : Option NodeId}
    (h : Joins (f.flatten reference incoming).2 g parent (f.flatten reference incoming).1) :
    Joins f g parent (f.flatten reference incoming).1 where
  size := h.size.trans (size_flatten ..)
  kind p := (h.kind p).trans (kind_flatten ..)
  perm := by
    rw [← filter_children_flatten]
    exact h.perm
  children q hq := by
    rw [← filter_children_flatten]
    exact h.children q hq
  parent c := by
    rw [h.parent]
    split
    · rfl
    · next hc => exact parent?_flatten hc

/-- What an insertion does to a well-formed forest. -/
theorem WellFormed.insert_joins (h : f.WellFormed) (hs : ∀ id ∈ incoming, id < f.size)
    (hr : f.refusal? parent anchor incoming = none)
    (hg : f.insert parent anchor incoming = .ok g) :
    Joins f g parent (f.flatten anchor.reference? incoming).1 := by
  refine Joins.of_flatten ?_
  rcases insert_cases hg with ⟨hids, rfl⟩ | ⟨sample, g', -, rfl, -, rfl⟩
  · rw [hids]
    exact ⟨rfl, fun _ => rfl, by simp, fun q _ => by simp, fun c => by simp⟩
  · have hlt := lt_size_of_isContainer (refusal?_eq_none hr).1
    rw [← size_flatten anchor.reference? incoming] at hlt
    exact (h.flatten anchor.reference? incoming).joins_splice
      (fun c => h.lt_size_of_mem_flatten hs) hlt sample (·.insertionIndex parent anchor)

/-- **An insertion into a well-formed forest** leaves one exactly if it is refused or the incoming
nodes are distinct. -/
theorem WellFormed.insert_iff (h : f.WellFormed) (hs : ∀ id ∈ incoming, id < f.size)
    (hr : f.refusal? parent anchor incoming = none)
    (hg : f.insert parent anchor incoming = .ok g) :
    g.WellFormed ↔ f.Distinct anchor.reference? incoming := by
  have hj := h.insert_joins hs hr hg
  obtain ⟨hcontainer, -, hcycle⟩ := refusal?_eq_none hr
  rw [← h.nodup_flatten]
  constructor
  · intro hwf
    exact (List.nodup_append.1 (hj.perm.nodup_iff.1 (hwf.nodup parent))).1
  · intro hn
    -- no incoming node stands around `parent`, so no child of an incoming root does
    have hout : ∀ id ∈ incoming, ¬ ReflTransGen f.Child id parent := by
      intro id hid hreach
      have := h.isInside_of_reach hreach
      rw [hcycle id hid] at this
      cases this
    refine h.joins hj hn hcontainer ?_ ?_
    · intro c hc
      rcases mem_flatten.1 hc with hsingle | ⟨r, -, -, hchild⟩
      · have := (List.mem_filter.1 hsingle).2
        rw [decide_eq_true_iff] at this
        exact this.1
      · exact h.root r c hchild
    · intro c hc hreach
      rcases mem_flatten.1 hc with hsingle | ⟨r, hmem, -, hchild⟩
      · exact hout c (List.mem_filter.1 hsingle).1 hreach
      · exact hout r hmem (.head hchild hreach)

end Forest

end Stylesheet
