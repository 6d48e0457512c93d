import Stylesheet.Forest.Copy
import Stylesheet.Forest.Walk

/-!
# How the steps of an edit change the links

For each step that edits are made of (`removeAt`, `detach`, `clear`, `flatten`, `adopt`, `splice`)
the children, parents, kinds and cursors behind it, in terms of those before it. Nothing is assumed
of the forest: these hold also where a node stands in several lists.
-/

set_option autoImplicit false

namespace Stylesheet

namespace Forest

variable {f : Forest} {id parent : NodeId}

/-- The cursors over the children of a node. -/
def cursors (f : Forest) (id : NodeId) : Cursors := (f.node id).cursors

/-! ## One node -/

theorem node_of_le (h : f.size ≤ id) : f.node id = default := by
  unfold size at h
  simp [node, Nat.not_lt.2 h]

theorem children_of_le (h : f.size ≤ id) : f.children id = [] := by
  unfold children
  rw [node_of_le h]
  rfl

theorem parent?_of_le (h : f.size ≤ id) : f.parent? id = none := by
  unfold parent?
  rw [node_of_le h]
  rfl

theorem cursors_of_le (h : f.size ≤ id) : f.cursors id = .empty := by
  unfold cursors
  rw [node_of_le h]
  rfl

theorem kind_of_le (h : f.size ≤ id) : f.kind id = .comment := by
  unfold kind
  rw [node_of_le h]
  rfl

theorem lt_size_of_root (h : f.kind id = .root) : id < f.size := by
  apply Nat.lt_of_not_le
  intro hle
  rw [kind_of_le hle] at h
  cases h

theorem lt_size_of_hasBlock (h : (f.node id).hasBlock = true) : id < f.size := by
  apply Nat.lt_of_not_le
  intro hle
  rw [node_of_le hle] at h
  cases h

theorem lt_size_of_mem {c : NodeId} (h : c ∈ f.children id) : id < f.size := by
  apply Nat.lt_of_not_le
  intro hle
  rw [children_of_le hle] at h
  cases h

theorem lt_size_of_parent {p : NodeId} (h : f.parent? id = some p) : id < f.size := by
  apply Nat.lt_of_not_le
  intro hle
  rw [parent?_of_le hle] at h
  cases h

theorem node_modify (f : Forest) (id : NodeId) (g : Node → Node) (p : NodeId) :
    (f.modify id g).node p = if p = id ∧ id < f.size then g (f.node id) else f.node p := by
  by_cases hp : p = id
  · subst hp
    by_cases hlt : p < f.size
    · rw [if_pos ⟨rfl, hlt⟩, node_modify_self g hlt]
    · rw [if_neg fun h => hlt h.2, node_of_le (Nat.not_lt.1 hlt),
        node_of_le (by rw [size_modify]; exact Nat.not_lt.1 hlt)]
  · rw [if_neg fun h => hp h.1, node_modify_of_ne g hp]

/-- What is kept by a change of a node that keeps it for that node. -/
theorem node_modify_congr {α : Type} (k : Node → α) {g : Node → Node}
    (h : k (g (f.node id)) = k (f.node id)) (p : NodeId) :
    k ((f.modify id g).node p) = k (f.node p) := by
  rw [node_modify]
  split
  · next hp => rw [h, hp.1]
  · rfl

/-- What a change of a node makes of a part of it. -/
theorem node_modify_map {α : Type} (k : Node → α) {g : Node → Node} (φ : α → α)
    (h : ∀ n, k (g n) = φ (k n)) (hnone : φ (k default) = k default) (f : Forest) (id p : NodeId) :
    k ((f.modify id g).node p) = if p = id then φ (k (f.node p)) else k (f.node p) := by
  rw [node_modify]
  by_cases hp : p = id
  · subst hp
    by_cases hlt : p < f.size
    · rw [if_pos ⟨rfl, hlt⟩, if_pos rfl, h]
    · rw [if_neg fun h => hlt h.2, if_pos rfl, node_of_le (Nat.not_lt.1 hlt), hnone]
  · rw [if_neg fun h => hp h.1, if_neg hp]

/-- Only the parent of `id` changes. -/
theorem parent?_unlink (f : Forest) (id c : NodeId) :
    (f.modify id fun n => { n with parent := none }).parent? c =
      if c = id then none else f.parent? c :=
  node_modify_map Node.parent (fun _ => none) (fun _ => rfl) rfl f id c

@[simp] theorem children_unlink (f : Forest) (id p : NodeId) :
    (f.modify id fun n => { n with parent := none }).children p = f.children p :=
  node_modify_congr Node.nodes rfl p

@[simp] theorem cursors_unlink (f : Forest) (id p : NodeId) :
    (f.modify id fun n => { n with parent := none }).cursors p = f.cursors p :=
  node_modify_congr Node.cursors rfl p

@[simp] theorem kind_unlink (f : Forest) (id p : NodeId) :
    (f.modify id fun n => { n with parent := none }).kind p = f.kind p :=
  node_modify_congr Node.kind rfl p

/-! ## Taking nodes out -/

theorem removeAt_of_none {index : Nat} (h : (f.children parent)[index]? = none) :
    f.removeAt parent index = (none, f) := by
  unfold removeAt
  rw [h]

theorem removeAt_of_some {index : Nat} {child : NodeId}
    (h : (f.children parent)[index]? = some child) :
    f.removeAt parent index = (some child, (f.modify parent fun n => { n with
      children := some (n.nodes.eraseIdx index)
      cursors := n.cursors.mapCursors (·.removed index) }).modify child
        fun n => { n with parent := none }) := by
  unfold removeAt
  rw [h]

theorem children_removeAt (f : Forest) (parent : NodeId) (index : Nat) (p : NodeId) :
    (f.removeAt parent index).2.children p =
      if p = parent then (f.children parent).eraseIdx index else f.children p := by
  cases h : (f.children parent)[index]? with
  | none =>
    rw [removeAt_of_none h]
    split
    · next hp => rw [hp, List.eraseIdx_of_length_le (List.getElem?_eq_none_iff.1 h)]
    · rfl
  | some child =>
    have hlt := lt_size_of_mem (List.mem_of_getElem? h)
    rw [removeAt_of_some h, children_unlink]
    unfold children
    rw [node_modify]
    by_cases hp : p = parent
    · simp [hp, hlt, Node.nodes]
    · simp [hp]

theorem parent?_removeAt (f : Forest) (parent : NodeId) (index : Nat) (c : NodeId) :
    (f.removeAt parent index).2.parent? c =
      if (f.children parent)[index]? = some c then none else f.parent? c := by
  cases h : (f.children parent)[index]? with
  | none =>
    rw [removeAt_of_none h]
    simp
  | some child =>
    rw [removeAt_of_some h, parent?_unlink]
    by_cases hc : c = child
    · simp [hc]
    · rw [if_neg hc, if_neg fun h => hc (Option.some.inj h).symm]
      exact node_modify_congr Node.parent rfl c

theorem cursors_removeAt {index : Nat} (h : index < (f.children parent).length) (p : NodeId) :
    (f.removeAt parent index).2.cursors p =
      if p = parent then (f.cursors parent).mapCursors (·.removed index) else f.cursors p := by
  have hsome := List.getElem?_eq_getElem h
  have hlt := lt_size_of_mem (List.mem_of_getElem? hsome)
  rw [removeAt_of_some hsome, cursors_unlink]
  unfold cursors
  rw [node_modify]
  by_cases hp : p = parent
  · simp [hp, hlt]
  · simp [hp]

@[simp] theorem kind_removeAt (f : Forest) (parent : NodeId) (index : Nat) (p : NodeId) :
    (f.removeAt parent index).2.kind p = f.kind p := by
  cases h : (f.children parent)[index]? with
  | none => rw [removeAt_of_none h]
  | some child =>
    rw [removeAt_of_some h, kind_unlink]
    exact node_modify_congr Node.kind rfl p

@[simp] theorem size_removeAt (f : Forest) (parent : NodeId) (index : Nat) :
    (f.removeAt parent index).2.size = f.size := by
  cases h : (f.children parent)[index]? with
  | none => rw [removeAt_of_none h]
  | some child => rw [removeAt_of_some h, size_modify, size_modify]

theorem indexOf?_eq_none_iff {c : NodeId} : f.indexOf? parent c = none ↔ c ∉ f.children parent := by
  unfold indexOf?
  rw [List.findIdx?_eq_none_iff]
  constructor
  · intro h hmem
    simpa using h c hmem
  · intro h x hx
    simp only [decide_eq_false_iff_not]
    rintro rfl
    exact h hx

theorem getElem?_of_indexOf? {c : NodeId} {i : Nat} (h : f.indexOf? parent c = some i) :
    (f.children parent)[i]? = some c := by
  unfold indexOf? at h
  obtain ⟨hi, hc, -⟩ := List.findIdx?_eq_some_iff_getElem.1 h
  rw [List.getElem?_eq_getElem hi]
  simpa using hc

theorem eraseIdx_of_indexOf? {c : NodeId} {i : Nat} (h : f.indexOf? parent c = some i) :
    (f.children parent).eraseIdx i = (f.children parent).erase c := by
  have hidx : (f.children parent).idxOf c = i := (List.findIdx?_eq_some_iff_findIdx_eq.1 h).2
  rw [List.erase_eq_eraseIdx_of_idxOf hidx]

/-- Detaching removes the node from the list of its parent, where it stands there. -/
theorem detach_cases (f : Forest) (id : NodeId) :
    (∃ p i, f.parent? id = some p ∧ f.indexOf? p id = some i ∧
      f.detach id = (true, (f.removeAt p i).2)) ∨
    ((∀ p, f.parent? id = some p → id ∉ f.children p) ∧
      f.detach id = (false, f.modify id fun n => { n with parent := none })) := by
  unfold detach place?
  cases hp : f.parent? id with
  | none =>
    refine .inr ⟨?_, rfl⟩
    intro p h
    cases h
  | some p =>
    cases hi : f.indexOf? p id with
    | none =>
      refine .inr ⟨?_, by simp [hi]⟩
      intro q hq
      cases hq
      exact indexOf?_eq_none_iff.1 hi
    | some i => exact .inl ⟨p, i, rfl, hi, by simp [hi]⟩

theorem children_detach (f : Forest) (id q : NodeId) :
    (f.detach id).2.children q =
      if f.parent? id = some q then (f.children q).erase id else f.children q := by
  obtain ⟨p, i, hp, hi, hd⟩ | ⟨hnot, hd⟩ := detach_cases f id
  · rw [hd, children_removeAt, eraseIdx_of_indexOf? hi, hp]
    by_cases hq : q = p
    · simp [hq]
    · rw [if_neg hq, if_neg fun h => hq (Option.some.inj h).symm]
  · rw [hd, children_unlink]
    split
    · next hq => rw [List.erase_of_not_mem (hnot q hq)]
    · rfl

theorem parent?_detach (f : Forest) (id c : NodeId) :
    (f.detach id).2.parent? c = if c = id then none else f.parent? c := by
  obtain ⟨p, i, -, hi, hd⟩ | ⟨-, hd⟩ := detach_cases f id
  · rw [hd, parent?_removeAt, getElem?_of_indexOf? hi]
    by_cases hc : c = id
    · simp [hc]
    · rw [if_neg hc, if_neg fun h => hc (Option.some.inj h).symm]
  · rw [hd, parent?_unlink]

@[simp] theorem kind_detach (f : Forest) (id p : NodeId) :
    (f.detach id).2.kind p = f.kind p := by
  unfold detach
  split <;> simp

@[simp] theorem size_detach (f : Forest) (id : NodeId) : (f.detach id).2.size = f.size := by
  unfold detach
  split <;> simp

/-- Cutting the links of some nodes to their parents. -/
theorem parent?_unlinkAll (ids : List NodeId) (f : Forest) (c : NodeId) :
    (ids.foldl (fun f id => f.modify id fun n => { n with parent := none }) f).parent? c =
      if c ∈ ids then none else f.parent? c := by
  induction ids generalizing f with
  | nil => simp
  | cons id ids ih =>
    rw [List.foldl_cons, ih, parent?_unlink]
    by_cases hc : c = id <;> by_cases hmem : c ∈ ids <;> simp [hc, hmem]

/-- What a fold over nodes keeps if each step keeps it. -/
theorem foldl_congr {α : Type} (k : Forest → α) {step : Forest → NodeId → Forest}
    (h : ∀ f id, k (step f id) = k f) (ids : List NodeId) (f : Forest) :
    k (ids.foldl step f) = k f := by
  induction ids generalizing f with
  | nil => rfl
  | cons id ids ih => rw [List.foldl_cons, ih, h]

theorem children_clear (f : Forest) (parent q : NodeId) :
    (f.clear parent).2.children q = if q = parent then [] else f.children q := by
  unfold clear
  simp only
  rw [foldl_congr (·.children q) fun f id => children_unlink f id q]
  refine node_modify_map Node.nodes (fun _ => []) (fun n => ?_) rfl f parent q
  cases n.children <;> simp [Node.nodes]

theorem parent?_clear (f : Forest) (parent c : NodeId) :
    (f.clear parent).2.parent? c = if c ∈ f.children parent then none else f.parent? c := by
  unfold clear
  simp only
  rw [parent?_unlinkAll]
  exact ite_congr rfl (fun _ => rfl) fun _ => node_modify_congr Node.parent rfl c

theorem cursors_clear (f : Forest) (parent q : NodeId) :
    (f.clear parent).2.cursors q =
      if q = parent then (f.cursors parent).mapCursors Cursor.cleared else f.cursors q := by
  unfold clear
  simp only
  rw [foldl_congr (·.cursors q) fun f id => cursors_unlink f id q]
  refine (node_modify_map Node.cursors (·.mapCursors Cursor.cleared) (fun _ => rfl) rfl f parent
    q).trans ?_
  split
  · next hq => rw [← hq]; rfl
  · rfl

@[simp] theorem kind_clear (f : Forest) (parent p : NodeId) :
    (f.clear parent).2.kind p = f.kind p := by
  unfold clear
  simp only
  rw [foldl_congr (·.kind p) fun f id => kind_unlink f id p]
  exact node_modify_congr Node.kind rfl p

@[simp] theorem size_clear (f : Forest) (parent : NodeId) :
    (f.clear parent).2.size = f.size := by
  unfold clear
  simp only
  rw [foldl_congr Forest.size fun f id => size_modify f id _, size_modify]

/-! ## Putting nodes in -/

theorem flatten_root {reference : Option NodeId} {rest : List NodeId} (h : f.kind id = .root) :
    f.flatten reference (id :: rest) =
      (f.children id ++ ((f.clear id).2.flatten reference rest).1,
        ((f.clear id).2.flatten reference rest).2) := by
  rw [flatten, if_pos h]
  rfl

theorem flatten_single {reference : Option NodeId} {rest : List NodeId} (h : f.kind id ≠ .root) :
    f.flatten reference (id :: rest) =
      (if reference = some id then (f.flatten reference rest).1
        else id :: (f.flatten reference rest).1, (f.flatten reference rest).2) := by
  rw [flatten, if_neg h]

@[simp] theorem kind_flatten (reference : Option NodeId) (incoming : List NodeId) (f : Forest)
    (p : NodeId) : (f.flatten reference incoming).2.kind p = f.kind p := by
  induction incoming generalizing f with
  | nil => rfl
  | cons id rest ih =>
    by_cases h : f.kind id = .root
    · rw [flatten_root h, ih, kind_clear]
    · rw [flatten_single h, ih]

@[simp] theorem size_flatten (reference : Option NodeId) (incoming : List NodeId) (f : Forest) :
    (f.flatten reference incoming).2.size = f.size := by
  induction incoming generalizing f with
  | nil => rfl
  | cons id rest ih =>
    by_cases h : f.kind id = .root
    · rw [flatten_root h, ih, size_clear]
    · rw [flatten_single h, ih]

/-- The roots among the incoming nodes are left without children. -/
theorem children_flatten (reference : Option NodeId) (incoming : List NodeId) (f : Forest)
    (q : NodeId) : (f.flatten reference incoming).2.children q =
      if q ∈ incoming ∧ f.kind q = .root then [] else f.children q := by
  induction incoming generalizing f with
  | nil => simp [flatten]
  | cons id rest ih =>
    by_cases h : f.kind id = .root
    · rw [flatten_root h, ih, kind_clear, children_clear]
      by_cases hq : q = id
      · subst hq
        simp [h]
      · simp [hq]
    · rw [flatten_single h, ih]
      by_cases hq : q = id
      · subst hq
        simp [h]
      · simp [hq]

@[simp] theorem children_adopt (f : Forest) (parent : NodeId) (sample : Option String)
    (id q : NodeId) :
    (f.adopt parent sample id).children q = (f.detach id).2.children q :=
  node_modify_congr Node.nodes rfl q

@[simp] theorem cursors_adopt (f : Forest) (parent : NodeId) (sample : Option String)
    (id q : NodeId) :
    (f.adopt parent sample id).cursors q = (f.detach id).2.cursors q :=
  node_modify_congr Node.cursors rfl q

@[simp] theorem kind_adopt (f : Forest) (parent : NodeId) (sample : Option String)
    (id q : NodeId) : (f.adopt parent sample id).kind q = f.kind q := by
  rw [← kind_detach f id]
  exact node_modify_congr Node.kind rfl q

@[simp] theorem size_adopt (f : Forest) (parent : NodeId) (sample : Option String) (id : NodeId) :
    (f.adopt parent sample id).size = f.size := by
  unfold adopt
  rw [size_modify, size_detach]

theorem kind_adoptAll (f : Forest) (parent : NodeId) (sample : Option String) (ids : List NodeId)
    (q : NodeId) : (ids.foldl (fun g id => g.adopt parent sample id) f).kind q = f.kind q :=
  foldl_congr (·.kind q) (fun f id => kind_adopt f parent sample id q) ids f

theorem size_adoptAll (f : Forest) (parent : NodeId) (sample : Option String) (ids : List NodeId) :
    (ids.foldl (fun g id => g.adopt parent sample id) f).size = f.size :=
  foldl_congr Forest.size (fun f id => size_adopt f parent sample id) ids f

theorem parent?_adopt (parent : NodeId) (sample : Option String) (h : id < f.size) (c : NodeId) :
    (f.adopt parent sample id).parent? c = if c = id then some parent else f.parent? c := by
  unfold parent? adopt
  rw [node_modify, size_detach]
  by_cases hc : c = id
  · simp [hc, h]
  · have := parent?_detach f id c
    rw [if_neg hc] at this
    rw [if_neg fun h => hc h.1, if_neg hc]
    exact this

theorem children_splice {index : Nat} {ids : List NodeId} (h : parent < f.size) (q : NodeId) :
    (f.splice parent index ids).children q =
      if q = parent then (f.children parent).take index ++ ids ++ (f.children parent).drop index
      else f.children q := by
  unfold splice children
  rw [node_modify]
  by_cases hq : q = parent
  · simp [hq, h, Node.nodes]
  · simp [hq]

theorem cursors_splice {index : Nat} {ids : List NodeId} (h : parent < f.size) (q : NodeId) :
    (f.splice parent index ids).cursors q =
      if q = parent then (f.cursors parent).mapCursors (·.inserted index ids)
      else f.cursors q := by
  unfold splice cursors
  rw [node_modify]
  by_cases hq : q = parent
  · simp [hq, h]
  · simp [hq]

@[simp] theorem parent?_splice (f : Forest) (parent : NodeId) (index : Nat) (ids : List NodeId)
    (c : NodeId) : (f.splice parent index ids).parent? c = f.parent? c :=
  node_modify_congr Node.parent rfl c

@[simp] theorem kind_splice (f : Forest) (parent : NodeId) (index : Nat) (ids : List NodeId)
    (p : NodeId) : (f.splice parent index ids).kind p = f.kind p :=
  node_modify_congr Node.kind rfl p

@[simp] theorem size_splice (f : Forest) (parent : NodeId) (index : Nat) (ids : List NodeId) :
    (f.splice parent index ids).size = f.size :=
  size_modify ..

/-- An insertion that is not refused goes into a container that is there. -/
theorem refusal?_eq_none {anchor : Anchor} {incoming : List NodeId}
    (h : f.refusal? parent anchor incoming = none) :
    (f.kind parent).isContainer = true ∧
      (∀ r, anchor.reference? = some r → r ∈ f.children parent) ∧
      ∀ id ∈ incoming, f.isInside id parent = false := by
  unfold refusal? at h
  split at h
  · cases h
  · next hkind =>
    split at h
    · cases h
    · next href =>
      split at h
      · cases h
      · next hcycle =>
        refine ⟨by simpa using hkind, ?_, ?_⟩
        · intro r hr
          rw [hr] at href
          apply Classical.byContradiction
          intro hnot
          rw [← indexOf?_eq_none_iff] at hnot
          simp [hnot] at href
        · intro id hid
          simp only [List.any_eq_true, not_exists, not_and, Bool.not_eq_true] at hcycle
          exact hcycle id hid

theorem lt_size_of_isContainer (h : (f.kind id).isContainer = true) : id < f.size := by
  apply Nat.lt_of_not_le
  intro hle
  rw [kind_of_le hle] at h
  cases h

theorem insert_of_refusal? {anchor : Anchor} {incoming : List NodeId} {e : TreeError}
    (h : f.refusal? parent anchor incoming = some e) :
    f.insert parent anchor incoming = .error e := by
  unfold Forest.insert
  rw [h]

/-- What is inserted was not refused. -/
theorem refusal?_of_insert {g : Forest} {anchor : Anchor} {incoming : List NodeId}
    (hg : f.insert parent anchor incoming = .ok g) : f.refusal? parent anchor incoming = none := by
  cases hr : f.refusal? parent anchor incoming with
  | none => rfl
  | some e =>
    rw [insert_of_refusal? hr] at hg
    cases hg

theorem insert_of_accepted {anchor : Anchor} {incoming : List NodeId}
    (h : f.refusal? parent anchor incoming = none) :
    f.insert parent anchor incoming = .ok
      (let r := f.flatten anchor.reference? incoming
      if r.1.isEmpty then r.2
      else
        let g := r.1.foldl (fun g id => g.adopt parent (r.2.sampleBefore parent anchor) id) r.2
        g.splice parent (g.insertionIndex parent anchor) r.1) := by
  unfold Forest.insert
  rw [h]
  simp only
  split <;> rfl

/-- What an insertion did: the roots were emptied, and if the list stands for nodes, they were
adopted and then spliced in. -/
theorem insert_cases {g : Forest} {anchor : Anchor} {incoming : List NodeId}
    (hg : f.insert parent anchor incoming = .ok g) :
    ((f.flatten anchor.reference? incoming).1 = [] ∧
      g = (f.flatten anchor.reference? incoming).2) ∨
    ∃ sample g', sample = (f.flatten anchor.reference? incoming).2.sampleBefore parent anchor ∧
      g' = (f.flatten anchor.reference? incoming).1.foldl
        (fun g id => g.adopt parent sample id) (f.flatten anchor.reference? incoming).2 ∧
      parent < g'.size ∧
      g = g'.splice parent (g'.insertionIndex parent anchor)
        (f.flatten anchor.reference? incoming).1 := by
  have hr := refusal?_of_insert hg
  have hlt := lt_size_of_isContainer (refusal?_eq_none hr).1
  rw [insert_of_accepted hr] at hg
  cases hg
  simp only
  split
  · next hempty => exact .inl ⟨List.isEmpty_iff.1 hempty, rfl⟩
  · refine .inr ⟨_, _, rfl, rfl, ?_, rfl⟩
    rwa [size_adoptAll, size_flatten]

theorem kind_insert {g : Forest} {anchor : Anchor} {incoming : List NodeId}
    (hg : f.insert parent anchor incoming = .ok g) (p : NodeId) : g.kind p = f.kind p := by
  rcases insert_cases hg with ⟨-, rfl⟩ | ⟨sample, g', -, rfl, -, rfl⟩
  · exact kind_flatten ..
  · rw [kind_splice, kind_adoptAll]
    exact kind_flatten ..

/-! ## Formatting -/

theorem node_cleanRaws {α : Type} (k : Node → α)
    (hk : ∀ (n : Node) (r : Raws), k { n with raws := r } = k n) (f : Forest) (id : NodeId)
    (keepBetween : Bool) (p : NodeId) : k ((f.cleanRaws id keepBetween).node p) = k (f.node p) := by
  unfold cleanRaws
  rw [foldl_congr fun f => k (f.node p)]
  intro f id
  exact node_modify_congr k (hk _ _) p

theorem size_cleanRaws (f : Forest) (id : NodeId) (keepBetween : Bool) :
    (f.cleanRaws id keepBetween).size = f.size := by
  unfold cleanRaws
  rw [foldl_congr Forest.size]
  intro f id
  exact size_modify ..

end Forest

end Stylesheet
