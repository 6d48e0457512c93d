import Stylesheet.Proofs.Cursor.Advance
import Stylesheet.Proofs.Forest.Edits

/-!
# Cursors while trees are edited

`Tracks f P k handed` says that the cursor `k` over the children of `P` has handed out `handed`
since these nodes were last put there, and knows it. `Follows P f g arrivals` says that this is
still so behind a step from `f` to `g` that puts `arrivals` among the children of `P`, once these
are taken from `handed`, and that nothing else was added (`Edit.mem_arrivals`). It is shown for the
steps of an edit first and from these for all edits.
Other lists of the forest may hold a node several times.
-/

set_option autoImplicit false

namespace Stylesheet

namespace Forest

variable {f g : Forest} {P id parent : NodeId} {ids incoming : List NodeId} {anchor : Anchor}
  {k : Nat} {handed : List NodeId}

/-! ## What holds of every forest that edits lead to -/

/-- What edits keep of all forests. -/
structure Sound (f : Forest) : Prop where
  bound : ∀ p, ∀ c ∈ f.children p, c < f.size
  root : ∀ p, ∀ c ∈ f.children p, f.kind c ≠ .root
  leaf : ∀ p, (f.kind p).isContainer = false → f.children p = []
  numbered : ∀ p, (f.cursors p).Numbered

theorem sound_empty : Forest.empty.Sound where
  bound _ _ hc := by rw [children_of_le (Nat.zero_le _)] at hc; cases hc
  root _ _ hc := by rw [children_of_le (Nat.zero_le _)] at hc; cases hc
  leaf _ _ := children_of_le (Nat.zero_le _)
  numbered p := by
    rw [cursors_of_le (Nat.zero_le _)]
    exact Cursors.numbered_empty

theorem Sound.shrink (h : f.Sound) (hs : g.size = f.size) (hk : ∀ p, g.kind p = f.kind p)
    (hc : ∀ p, g.children p ⊆ f.children p) (hn : ∀ p, (g.cursors p).Numbered) : g.Sound where
  bound p c hmem := by
    rw [hs]
    exact h.bound p c (hc p hmem)
  root p c hmem := by
    rw [hk]
    exact h.root p c (hc p hmem)
  leaf p hp := by
    rw [hk] at hp
    have := hc p
    rw [h.leaf p hp] at this
    exact List.subset_nil.1 this
  numbered := hn

theorem Sound.grown (h : f.Sound) (hg : Grown f g) : g.Sound := by
  refine ⟨?_, ?_, ?_, ?_⟩
  · intro p c hc
    rcases hg.child_cases hc with ⟨-, hold⟩ | ⟨h1, h2⟩
    · exact Nat.lt_trans (h.bound p c hold) hg.size
    · exact (hg.spans.child p c h1 h2 hc).2.1
  · intro p c hc
    rcases hg.child_cases hc with ⟨-, hold⟩ | ⟨h1, h2⟩
    · rw [hg.kind_eq (h.bound p c hold)]
      exact h.root p c hold
    · exact (hg.spans.child p c h1 h2 hc).2.2.2
  · intro p hk
    rcases hg.cases p with hp | ⟨h1, h2⟩ | hp
    · rw [hg.kind_eq hp] at hk
      rw [hg.children_eq hp]
      exact h.leaf p hk
    · exact hg.spans.leaf p h1 h2 hk
    · exact children_of_le hp
  · intro p
    rcases hg.cases p with hp | ⟨h1, h2⟩ | hp
    · rw [hg.cursors_eq hp]
      exact h.numbered p
    · rw [hg.spans.fresh p h1 h2]
      exact Cursors.numbered_empty
    · rw [cursors_of_le hp]
      exact Cursors.numbered_empty

/-! ## Steps -/

/-- The cursor `k` over the children of `P` has handed out `handed` since they were put there. -/
def Tracks (f : Forest) (P : NodeId) (k : Nat) (handed : List NodeId) : Prop :=
  ∃ next, (f.cursors P).get? k = some ⟨.traversal, next, handed⟩ ∧
    Passed handed next (f.children P)

/-- Behind a step that puts `arrivals` among the children of `P` these are to be handed out. -/
structure Follows (P : NodeId) (f g : Forest) (arrivals : List NodeId) : Prop where
  sound : g.Sound
  size : f.size ≤ g.size
  arrived : P < f.size → ∀ c ∈ g.children P, c ∈ f.children P ∨ c ∈ arrivals
  tracks : ∀ k handed, f.Tracks P k handed → g.Tracks P k (handed.filter (· ∉ arrivals))

theorem filter_not_mem_nil (xs : List NodeId) : xs.filter (· ∉ []) = xs := by
  simp

theorem filter_not_mem_append (xs before behind : List NodeId) :
    xs.filter (· ∉ before ++ behind) = (xs.filter (· ∉ before)).filter (· ∉ behind) := by
  rw [List.filter_filter]
  refine List.filter_congr ?_
  intro x _
  by_cases hx : x ∈ before <;> by_cases hx' : x ∈ behind <;> simp [hx, hx']

theorem Follows.trans {h : Forest} {before behind : List NodeId} (hfg : Follows P f g before)
    (hgh : Follows P g h behind) : Follows P f h (before ++ behind) where
  sound := hgh.sound
  size := Nat.le_trans hfg.size hgh.size
  arrived hP c hc := by
    rcases hgh.arrived (Nat.lt_of_lt_of_le hP hfg.size) c hc with hc | hc
    · rcases hfg.arrived hP c hc with hc | hc
      · exact .inl hc
      · exact .inr (List.mem_append_left _ hc)
    · exact .inr (List.mem_append_right _ hc)
  tracks k handed ht := by
    rw [filter_not_mem_append]
    exact hgh.tracks k _ (hfg.tracks k handed ht)

/-- A step that leaves the children of `P` and their cursors alone. -/
theorem Follows.frame (hg : g.Sound) (hs : f.size ≤ g.size)
    (h : P < f.size → g.children P = f.children P ∧ g.cursors P = f.cursors P) :
    Follows P f g [] where
  sound := hg
  size := hs
  arrived hP c hc := by
    rw [(h hP).1] at hc
    exact .inl hc
  tracks k handed ht := by
    obtain ⟨next, hget, hpassed⟩ := ht
    have hlt : P < f.size := by
      apply Nat.lt_of_not_le
      intro hle
      rw [cursors_of_le hle] at hget
      cases hget
    obtain ⟨hc, hcur⟩ := h hlt
    rw [filter_not_mem_nil]
    refine ⟨next, ?_, ?_⟩
    · rw [hcur, hget]
    · rw [hc]
      exact hpassed

theorem Follows.refl (h : f.Sound) : Follows P f f [] :=
  .frame h (Nat.le_refl _) fun _ => ⟨rfl, rfl⟩

theorem follows_grown (h : f.Sound) (hg : Grown f g) : Follows P f g [] := by
  refine .frame (h.grown hg) (Nat.le_of_lt hg.size) ?_
  intro hlt
  exact ⟨hg.children_eq hlt, hg.cursors_eq hlt⟩

/-- Removing a child of `P` that does not stand further ahead as well. -/
theorem follows_removeAt (h : f.Sound) {index : Nat} (hfirst : parent = P →
      ∀ c, (f.children P)[index]? = some c → c ∉ (f.children P).take index) :
    Follows P f (f.removeAt parent index).2 [] := by
  by_cases hi : index < (f.children parent).length
  · have hsound : (f.removeAt parent index).2.Sound := by
      refine h.shrink (size_removeAt ..) (kind_removeAt f parent index) ?_ ?_
      · intro p
        rw [children_removeAt]
        split
        · next hp =>
          rw [hp]
          exact (List.eraseIdx_sublist _ _).subset
        · exact List.Subset.refl _
      · intro p
        rw [cursors_removeAt hi]
        split
        · exact Cursors.numbered_mapCursors (h.numbered parent) _
        · exact h.numbered p
    by_cases hP : P = parent
    · subst hP
      refine ⟨hsound, Nat.le_of_eq (size_removeAt ..).symm, fun _ c hc => ?_, ?_⟩
      · rw [children_removeAt, if_pos rfl] at hc
        exact .inl (List.mem_of_mem_eraseIdx hc)
      rintro k handed ⟨next, hget, hpassed⟩
      refine ⟨if index < next then next - 1 else next, ?_, ?_⟩
      · rw [cursors_removeAt hi, if_pos rfl, Cursors.get?_mapCursors, hget]
        by_cases hn : index < next <;> simp [Cursor.removed, hn]
      · rw [children_removeAt, if_pos rfl, filter_not_mem_nil]
        refine hpassed.removed hi ?_
        intro hn hmem
        exact hfirst rfl _ (List.getElem?_eq_getElem hi) (List.take_subset_take_left _ hn hmem)
    · refine .frame hsound (Nat.le_of_eq (size_removeAt ..).symm) fun _ => ?_
      rw [children_removeAt, cursors_removeAt hi, if_neg hP, if_neg hP]
      exact ⟨rfl, rfl⟩
  · rw [removeAt_of_none (List.getElem?_eq_none (Nat.not_lt.1 hi))]
    exact .refl h

theorem follows_unlink (h : f.Sound) (id : NodeId) :
    Follows P f (f.modify id fun n => { n with parent := none }) [] := by
  have hsound : (f.modify id fun n => { n with parent := none }).Sound :=
    h.shrink (size_modify ..) (kind_unlink f id)
      (fun p => by rw [children_unlink]; exact List.Subset.refl _)
      (fun p => by rw [cursors_unlink]; exact h.numbered p)
  exact .frame hsound (Nat.le_of_eq (size_modify ..).symm) fun _ =>
    ⟨children_unlink .., cursors_unlink ..⟩

/-- The index of a node is that of the first child that it is. -/
theorem not_mem_take_of_indexOf? {c : NodeId} {i : Nat} (h : f.indexOf? parent c = some i) :
    c ∉ (f.children parent).take i := by
  obtain ⟨hlt, hc, hbefore⟩ := List.findIdx?_eq_some_iff_getElem.1 h
  intro hmem
  obtain ⟨j, hj, hjc⟩ := List.mem_take_iff_getElem.1 hmem
  have := hbefore j (by omega)
  rw [hjc] at this
  simp at this

theorem follows_removeAt_indexOf? (h : f.Sound) {c : NodeId} {i : Nat}
    (hi : f.indexOf? parent c = some i) : Follows P f (f.removeAt parent i).2 [] := by
  refine follows_removeAt h ?_
  rintro rfl d hget
  rw [getElem?_of_indexOf? hi, Option.some.injEq] at hget
  rw [← hget]
  exact not_mem_take_of_indexOf? hi

theorem follows_detach (h : f.Sound) (id : NodeId) : Follows P f (f.detach id).2 [] := by
  obtain ⟨p, i, -, hi, hd⟩ | ⟨-, hd⟩ := detach_cases f id
  · rw [hd]
    exact follows_removeAt_indexOf? h hi
  · rw [hd]
    exact follows_unlink h id

theorem follows_clear (h : f.Sound) (parent : NodeId) : Follows P f (f.clear parent).2 [] := by
  have hsound : (f.clear parent).2.Sound := by
    refine h.shrink (size_clear ..) (kind_clear f parent) ?_ ?_
    · intro p
      rw [children_clear]
      split
      · exact List.nil_subset _
      · exact List.Subset.refl _
    · intro p
      rw [cursors_clear]
      split
      · exact Cursors.numbered_mapCursors (h.numbered parent) _
      · exact h.numbered p
  by_cases hP : P = parent
  · subst hP
    refine ⟨hsound, Nat.le_of_eq (size_clear ..).symm, fun _ c hc => ?_, ?_⟩
    · rw [children_clear, if_pos rfl] at hc
      cases hc
    rintro k handed ⟨next, hget, -⟩
    refine ⟨0, ?_, ?_⟩
    · rw [cursors_clear, if_pos rfl, Cursors.get?_mapCursors, hget]
      simp [Cursor.cleared]
    · intro x hx
      cases hx
  · refine .frame hsound (Nat.le_of_eq (size_clear ..).symm) fun _ => ?_
    rw [children_clear, cursors_clear, if_neg hP, if_neg hP]
    exact ⟨rfl, rfl⟩

theorem follows_flatten (h : f.Sound) (reference : Option NodeId) (incoming : List NodeId) :
    Follows P f (f.flatten reference incoming).2 [] := by
  induction incoming generalizing f with
  | nil => exact .refl h
  | cons id rest ih =>
    by_cases hr : f.kind id = .root
    · rw [flatten_root hr]
      have hclear := follows_clear (P := P) h id
      exact hclear.trans (ih hclear.sound)
    · rw [flatten_single hr]
      exact ih h

theorem follows_adopt (h : f.Sound) (parent : NodeId) (sample : Option String) (id : NodeId) :
    Follows P f (f.adopt parent sample id) [] := by
  have hdetach := follows_detach (P := P) h id
  have hsound : (f.adopt parent sample id).Sound := by
    refine hdetach.sound.shrink ?_ ?_ ?_ ?_
    · rw [size_adopt, size_detach]
    · intro p
      rw [kind_adopt, kind_detach]
    · intro p
      rw [children_adopt]
      exact List.Subset.refl _
    · intro p
      rw [cursors_adopt]
      exact hdetach.sound.numbered p
  have hsize : (f.detach id).2.size = (f.adopt parent sample id).size := by
    rw [size_adopt, size_detach]
  exact hdetach.trans (.frame hsound (Nat.le_of_eq hsize) fun _ =>
    ⟨children_adopt .., cursors_adopt ..⟩)

theorem follows_adoptAll (h : f.Sound) (parent : NodeId) (sample : Option String)
    (ids : List NodeId) :
    Follows P f (ids.foldl (fun f id => f.adopt parent sample id) f) [] := by
  induction ids generalizing f with
  | nil => exact .refl h
  | cons id ids ih =>
    have hadopt := follows_adopt (P := P) h parent sample id
    exact hadopt.trans (ih hadopt.sound)

/-- Nodes that can be children. -/
def Single (f : Forest) (ids : List NodeId) : Prop := ∀ c ∈ ids, c < f.size ∧ f.kind c ≠ .root

theorem mem_children_splice {index : Nat} (hlt : parent < f.size) {p c : NodeId}
    (h : c ∈ (f.splice parent index ids).children p) : c ∈ ids ∨ c ∈ f.children p := by
  rw [children_splice hlt] at h
  split at h
  · next hp =>
    simp only [List.mem_append] at h
    rcases h with (h | h) | h
    · exact .inr (hp ▸ List.mem_of_mem_take h)
    · exact .inl h
    · exact .inr (hp ▸ List.mem_of_mem_drop h)
  · exact .inr h

theorem Sound.splice (h : f.Sound) {index : Nat} (hlt : parent < f.size)
    (hc : (f.kind parent).isContainer = true) (hs : f.Single ids) :
    (f.splice parent index ids).Sound where
  bound p c hchild := by
    rw [size_splice]
    exact (mem_children_splice hlt hchild).elim (fun hmem => (hs c hmem).1) (h.bound p c)
  root p c hchild := by
    rw [kind_splice]
    exact (mem_children_splice hlt hchild).elim (fun hmem => (hs c hmem).2) (h.root p c)
  leaf p hp := by
    rw [kind_splice] at hp
    have hne : p ≠ parent := by
      rintro rfl
      rw [hc] at hp
      cases hp
    rw [children_splice hlt, if_neg hne]
    exact h.leaf p hp
  numbered p := by
    rw [cursors_splice hlt]
    split
    · exact Cursors.numbered_mapCursors (h.numbered parent) _
    · exact h.numbered p

/-- Splicing in children, at an index of the list. -/
theorem follows_splice (h : f.Sound) {index : Nat} (hlt : parent < f.size)
    (hc : (f.kind parent).isContainer = true) (hs : f.Single ids)
    (hi : parent = P → index ≤ (f.children P).length) :
    Follows P f (f.splice parent index ids) (if parent = P then ids else []) := by
  have hsound : (f.splice parent index ids).Sound := h.splice hlt hc hs
  have hsize := Nat.le_of_eq (size_splice f parent index ids).symm
  by_cases hP : parent = P
  · subst hP
    rw [if_pos rfl]
    refine ⟨hsound, hsize, fun _ c hc => (mem_children_splice hlt hc).symm, ?_⟩
    rintro k handed ⟨next, hget, hpassed⟩
    refine ⟨if index < next then index else next, ?_, ?_⟩
    · rw [cursors_splice hlt, if_pos rfl, Cursors.get?_mapCursors, hget]
      simp [Cursor.inserted]
    · rw [children_splice hlt, if_pos rfl]
      exact hpassed.inserted (hi rfl) ids
  · rw [if_neg hP]
    refine .frame hsound hsize fun _ => ?_
    rw [children_splice hlt, cursors_splice hlt, if_neg (Ne.symm hP), if_neg (Ne.symm hP)]
    exact ⟨rfl, rfl⟩

/-! ## Insertions -/

theorem parent?_flatten_eq_none (reference : Option NodeId) (incoming : List NodeId) {c : NodeId}
    (h : f.parent? c = none) : (f.flatten reference incoming).2.parent? c = none := by
  induction incoming generalizing f with
  | nil => exact h
  | cons id rest ih =>
    by_cases hr : f.kind id = .root
    · rw [flatten_root hr]
      refine ih ?_
      rw [parent?_clear, h]
      split <;> rfl
    · rw [flatten_single hr]
      exact ih h

/-- The nodes that roots send have no parent on their way. -/
theorem parent?_flatten_sent (reference : Option NodeId) {r c : NodeId} (hmem : r ∈ incoming)
    (hr : f.kind r = .root) (hc : c ∈ f.children r) :
    (f.flatten reference incoming).2.parent? c = none := by
  induction incoming generalizing f with
  | nil => cases hmem
  | cons id rest ih =>
    by_cases hid : f.kind id = .root
    · rw [flatten_root hid]
      by_cases hri : r = id
      · subst hri
        refine parent?_flatten_eq_none reference rest ?_
        rw [parent?_clear, if_pos hc]
      · refine ih ((List.mem_cons.1 hmem).resolve_left hri) (by rwa [kind_clear]) ?_
        rwa [children_clear, if_neg hri]
    · rw [flatten_single hid]
      have hri : r ≠ id := by
        rintro rfl
        exact hid hr
      exact ih ((List.mem_cons.1 hmem).resolve_left hri) hr hc

/-- A child without a parent stays where it is when nodes are adopted. -/
theorem mem_children_adoptAll (sample : Option String) {r p : NodeId} (hn : ids.Nodup)
    (hs : ∀ id ∈ ids, id < f.size) (hr : r ∈ ids → f.parent? r = none)
    (hc : r ∈ f.children p) :
    r ∈ (ids.foldl (fun f id => f.adopt parent sample id) f).children p := by
  induction ids generalizing f with
  | nil => exact hc
  | cons id ids ih =>
    obtain ⟨hnew, hn⟩ := List.nodup_cons.1 hn
    refine ih hn ?_ ?_ ?_
    · intro c hmem
      rw [size_adopt]
      exact hs c (.tail _ hmem)
    · intro hmem
      have hne : r ≠ id := by
        rintro rfl
        exact hnew hmem
      rw [parent?_adopt _ _ (hs id (.head _)), if_neg hne]
      exact hr (.tail _ hmem)
    · rw [children_adopt, children_detach]
      split
      · next hp =>
        have hne : r ≠ id := by
          rintro rfl
          rw [hr (.head _)] at hp
          cases hp
        exact (List.mem_erase_of_ne hne).2 hc
      · exact hc

theorem insertionIndex_le (h : ∀ r, anchor.reference? = some r → r ∈ f.children parent) :
    f.insertionIndex parent anchor ≤ (f.children parent).length := by
  have hfound : ∀ r, r ∈ f.children parent →
      (f.indexOf? parent r).getD (f.children parent).length < (f.children parent).length := by
    intro r hr
    cases hi : f.indexOf? parent r with
    | none => exact absurd hr (indexOf?_eq_none_iff.1 hi)
    | some i => exact (List.getElem?_eq_some_iff.1 (getElem?_of_indexOf? hi)).1
  unfold insertionIndex
  cases anchor with
  | start => exact Nat.zero_le _
  | stop => exact Nat.le_refl _
  | before r => exact Nat.le_of_lt (hfound r (h r rfl))
  | after r => exact hfound r (h r rfl)

theorem Sound.single_flatten (h : f.Sound) (hs : ∀ id ∈ incoming, id < f.size)
    (reference : Option NodeId) : f.Single (f.flatten reference incoming).1 := by
  intro c hc
  rcases Forest.mem_flatten.1 hc with hsingle | ⟨r, -, -, hchild⟩
  · obtain ⟨hmem, hk⟩ := List.mem_filter.1 hsingle
    rw [decide_eq_true_iff] at hk
    exact ⟨hs c hmem, hk.1⟩
  · exact ⟨h.bound r c hchild, h.root r c hchild⟩

/-- The node that an insertion goes by is still there when the nodes have been taken out. -/
theorem mem_children_of_reference (h : f.Sound) (hs : ∀ id ∈ incoming, id < f.size)
    (hr : f.refusal? parent anchor incoming = none)
    (hd : (f.flatten anchor.reference? incoming).1.Nodup) (sample : Option String) {r : NodeId}
    (href : anchor.reference? = some r) :
    r ∈ ((f.flatten anchor.reference? incoming).1.foldl (fun f id => f.adopt parent sample id)
      (f.flatten anchor.reference? incoming).2).children parent := by
  obtain ⟨-, hchild, hcycle⟩ := refusal?_eq_none hr
  refine mem_children_adoptAll sample hd ?_ ?_ ?_
  · intro c hc
    rw [size_flatten]
    exact (h.single_flatten hs _ c hc).1
  · intro hmem
    rcases Forest.mem_flatten.1 hmem with hsingle | ⟨q, hq, hk, hc⟩
    · obtain ⟨-, hk⟩ := List.mem_filter.1 hsingle
      rw [decide_eq_true_iff] at hk
      exact absurd href hk.2
    · exact parent?_flatten_sent _ hq hk hc
  · have hparent : ¬ (parent ∈ incoming ∧ f.kind parent = .root) := by
      rintro ⟨hmem, -⟩
      have := hcycle parent hmem
      simp [isInside] at this
    rw [children_flatten, if_neg hparent]
    exact hchild r href

/-- An insertion that puts no node among the children of `P` twice. -/
theorem follows_insert (h : f.Sound) (hs : ∀ id ∈ incoming, id < f.size)
    (hd : parent = P → (f.flatten anchor.reference? incoming).1.Nodup)
    (hg : f.insert parent anchor incoming = .ok g) :
    Follows P f g (arrivals P f parent anchor incoming) := by
  have hr := refusal?_of_insert hg
  have hflat := follows_flatten (P := P) h anchor.reference? incoming
  unfold arrivals
  simp only [hr, and_true]
  rcases insert_cases hg with ⟨hids, rfl⟩ | ⟨sample, g', -, hadopted, hlt, rfl⟩
  · rw [hids, ite_self]
    exact hflat
  · have hadopt := follows_adoptAll (P := P) hflat.sound parent sample
      (f.flatten anchor.reference? incoming).1
    have hkept : g'.size = f.size := by
      rw [hadopted, size_adoptAll, size_flatten]
    have hkinds : ∀ q, g'.kind q = f.kind q := fun q => by
      rw [hadopted, kind_adoptAll, kind_flatten]
    rw [← hadopted] at hadopt
    refine (hflat.trans hadopt).trans (follows_splice hadopt.sound hlt ?_ (fun c hc => ?_) ?_)
    · rw [hkinds]
      exact (refusal?_eq_none hr).1
    · rw [hkept, hkinds]
      exact h.single_flatten hs anchor.reference? c hc
    · rintro rfl
      rw [hadopted]
      exact insertionIndex_le fun _ => mem_children_of_reference h hs hr (hd rfl) sample

/-- Where the children of `P` are distinct behind an insertion, it put none in twice. -/
theorem nodup_flatten_of_insert (hg : f.insert parent anchor incoming = .ok g)
    (hd : (g.children parent).Nodup) : (f.flatten anchor.reference? incoming).1.Nodup := by
  rcases insert_cases hg with ⟨hids, -⟩ | ⟨sample, g', -, -, hlt, rfl⟩
  · rw [hids]
    exact List.nodup_nil
  · rw [children_splice hlt, if_pos rfl] at hd
    exact (List.nodup_append.1 (List.nodup_append.1 hd).1).2.1

/-! ## Replacing -/

/-- A node that is no root is inserted by itself. -/
theorem follows_insert_single (h : f.Sound) (hid : id < f.size) (hr : f.kind id ≠ .root)
    (hg : f.insert parent anchor [id] = .ok g) :
    Follows P f g (arrivals P f parent anchor [id]) := by
  refine follows_insert h ?_ ?_ hg
  · intro c hc
    rw [List.mem_singleton.1 hc]
    exact hid
  · intro _
    rw [flatten_single hr, flatten]
    split
    · exact List.nodup_nil
    · exact List.nodup_singleton id

theorem keptByReplacing_follows (f : Forest) (P parent : NodeId) :
    KeptByReplacing P parent (Follows P f) (fun g c => c < g.size)
      (fun g c => c < g.size ∧ g.kind c ≠ .root) where
  clear {g l r} hf _ _ := by
    refine ⟨?_, fun c hc => ?_, fun c hc => by rwa [size_clear]⟩
    · rw [← List.append_nil l]
      exact hf.trans (follows_clear hf.sound r)
    · rw [size_clear, kind_clear]
      exact ⟨hf.sound.bound r c hc, hf.sound.root r c hc⟩
  single _ hr hk := ⟨hr, hk⟩
  insert _ hf hc hg := by
    have hstep := follows_insert_single (P := P) hf.sound hc.1 hc.2 hg
    refine ⟨hf.trans hstep, fun c hc => Nat.lt_of_lt_of_le hc hstep.size, fun c hc => ?_⟩
    rw [kind_insert hg]
    exact ⟨Nat.lt_of_lt_of_le hc.1 hstep.size, hc.2⟩
  detach {g l} c hf := by
    rw [← List.append_nil l]
    exact hf.trans (follows_detach hf.sound c)

theorem follows_replace (h : f.Sound) (hs : ∀ c ∈ ids, c < f.size)
    (hp : f.parent? id = some parent) :
    Follows P f (f.replace id ids).1 (arrivalsReplacing P parent id f none ids) :=
  (keptByReplacing_follows f P parent).replace hp (.refl h) fun r hr => .inr (hs r hr)

/-! ## Other edits -/

theorem follows_cleanRaws (h : f.Sound) (id : NodeId) (keepBetween : Bool) :
    Follows P f (f.cleanRaws id keepBetween) [] := by
  have hsize := size_cleanRaws f id keepBetween
  have hchildren := node_cleanRaws Node.nodes (fun _ _ => rfl) f id keepBetween
  have hcursors := node_cleanRaws Node.cursors (fun _ _ => rfl) f id keepBetween
  have hsound : (f.cleanRaws id keepBetween).Sound := by
    refine h.shrink hsize (node_cleanRaws Node.kind (fun _ _ => rfl) f id keepBetween) ?_ ?_
    · intro p c hc
      rwa [← show _ = f.children p from hchildren p]
    · intro p
      rw [show (f.cleanRaws id keepBetween).cursors p = f.cursors p from hcursors p]
      exact h.numbered p
  exact .frame hsound (Nat.le_of_eq hsize.symm) fun _ => ⟨hchildren P, hcursors P⟩

theorem follows_ensureBlock (h : f.Sound) (id : NodeId) : Follows P f (f.ensureBlock id) [] := by
  have hchildren : ∀ p, (f.ensureBlock id).children p = f.children p :=
    node_modify_congr Node.nodes rfl
  have hcursors : ∀ p, (f.ensureBlock id).cursors p = f.cursors p :=
    node_modify_congr Node.cursors rfl
  have hsound : (f.ensureBlock id).Sound := by
    refine h.shrink (size_modify ..) (node_modify_congr Node.kind rfl) ?_ ?_
    · intro p c hc
      rwa [← hchildren p]
    · intro p
      rw [hcursors p]
      exact h.numbered p
  exact .frame hsound (Nat.le_of_eq (size_modify ..).symm) fun _ => ⟨hchildren P, hcursors P⟩

/-- One insertion, refused or not, that leaves the children of `P` distinct. -/
theorem follows_orElse_insert (h : f.Sound) (hs : ∀ c ∈ incoming, c < f.size)
    (hd : ((Edit.orElse f (f.insert parent anchor incoming)).children P).Nodup) :
    Follows P f (Edit.orElse f (f.insert parent anchor incoming))
      (arrivals P f parent anchor incoming) := by
  cases hg : f.insert parent anchor incoming with
  | error e =>
    rw [arrivals_of_error hg]
    exact .refl h
  | ok g =>
    rw [hg] at hd
    refine follows_insert h hs ?_ hg
    rintro rfl
    exact nodup_flatten_of_insert hg hd

end Forest

namespace Edit

open Forest

variable {f : Forest} {P : NodeId}

/-- The nodes that a new sibling of `id` puts among the children of `P`. -/
def arrivalsBeside (P : NodeId) (f : Forest) (id : NodeId) (anchor : Anchor) (added : NodeId) :
    List NodeId :=
  match f.parent? id with
  | none => []
  | some parent => Forest.arrivals P f parent anchor [added]

/-- The nodes that an edit puts among the children of `P`. -/
def arrivals (P : NodeId) (f : Forest) : Edit → List NodeId
  | insert parent anchor incoming => Forest.arrivals P f parent anchor incoming
  | insertBefore id added => arrivalsBeside P f id (.before id) added
  | insertAfter id added => arrivalsBeside P f id (.after id) added
  | replace id replacements =>
    match f.parent? id with
    | none => []
    | some parent => arrivalsReplacing P parent id f none replacements
  | moveTo id container =>
    if f.isInside id container then []
    else Forest.arrivals P (f.cleanRaws id (f.top id = f.top container)) container .stop [id]
  | copyBefore id =>
    let (added, f) := f.copy id {}
    arrivalsBeside P f id (.before id) added
  | copyAfter id =>
    let (added, f) := f.copy id {}
    arrivalsBeside P f id (.after id) added
  | _ => []

theorem arrivalsBeside_of_error {id added : NodeId} {anchor : Anchor} {e : TreeError}
    (h : beside f id anchor added = .error e) : arrivalsBeside P f id anchor added = [] := by
  unfold beside at h
  unfold arrivalsBeside
  split
  · rfl
  · next hp =>
    rw [hp] at h
    exact arrivals_of_error h

theorem follows_beside (h : f.Sound) {id added : NodeId} (anchor : Anchor) (ha : added < f.size)
    (hd : ((orElse f (beside f id anchor added)).children P).Nodup) :
    Follows P f (orElse f (beside f id anchor added)) (arrivalsBeside P f id anchor added) := by
  have hs : ∀ c ∈ [added], c < f.size := by
    intro c hc
    rw [List.mem_singleton.1 hc]
    exact ha
  unfold beside arrivalsBeside at *
  cases hp : f.parent? id with
  | none => exact .refl h
  | some parent =>
    rw [hp] at hd
    exact follows_orElse_insert h hs hd

/-- A copy beside its original. -/
theorem follows_copy_beside (h : f.Sound) (id : NodeId) (anchor : Anchor)
    (hd : ((orElse f (beside (f.copy id {}).2 id anchor (f.copy id {}).1)).children P).Nodup) :
    Follows P f (orElse f (beside (f.copy id {}).2 id anchor (f.copy id {}).1))
      (arrivalsBeside P (f.copy id {}).2 id anchor (f.copy id {}).1) := by
  have hcopy := follows_grown (P := P) h (grown_copy h.root h.leaf id {})
  have hlt := copy_lt_size f id {}
  generalize f.copy id {} = copied at *
  obtain ⟨added, g⟩ := copied
  simp only at hd hcopy hlt ⊢
  cases hb : beside g id anchor added with
  | error e =>
    rw [arrivalsBeside_of_error hb]
    exact .refl h
  | ok k =>
    have hk : orElse g (beside g id anchor added) = k := by
      rw [hb]
      rfl
    rw [hb] at hd
    have hbeside : Follows P g (orElse g (beside g id anchor added))
        (arrivalsBeside P g id anchor added) :=
      follows_beside hcopy.sound anchor hlt (by rw [hk]; exact hd)
    rw [hk] at hbeside
    exact hcopy.trans hbeside

theorem follows_moveTo (h : f.Sound) {id : NodeId} (hid : id < f.size) (container : NodeId)
    (hd : ((f.moveTo id container).1.children P).Nodup) :
    Follows P f (f.moveTo id container).1 (arrivals P f (moveTo id container)) := by
  unfold arrivals
  unfold Forest.moveTo at hd ⊢
  simp only at hd ⊢
  split
  · exact .refl h
  · next hinside =>
    rw [if_neg hinside] at hd
    have hclean := follows_cleanRaws (P := P) h id (f.top id = f.top container)
    generalize f.cleanRaws id (f.top id = f.top container) = g at *
    have hs : ∀ c ∈ [id], c < g.size := by
      intro c hc
      rw [List.mem_singleton.1 hc]
      exact Nat.lt_of_lt_of_le hid hclean.size
    have hinsert : ((orElse g (g.insert container .stop [id])).children P).Nodup →
        Follows P g (orElse g (g.insert container .stop [id]))
          (Forest.arrivals P g container .stop [id]) :=
      fun hd => follows_orElse_insert hclean.sound hs hd
    cases hg : g.insert container .stop [id] with
    | error e =>
      rw [hg] at hd hinsert
      exact hclean.trans (hinsert hd)
    | ok k =>
      rw [hg] at hd hinsert
      exact hclean.trans (hinsert hd)

/-- **What edits tell the cursors.** An edit that finds the children of `P` distinct and leaves
them so has a cursor hand out what it puts there, and nothing else again. -/
theorem follows_run {e : Edit} (h : f.Sound) (hn : ∀ id ∈ e.names, id < f.size)
    (hbefore : (f.children P).Nodup) (hbehind : ((e.run f).children P).Nodup) :
    Follows P f (e.run f) (e.arrivals P f) := by
  cases e with
  | new data => exact follows_grown h (grown_add f data)
  | withBlock id => exact follows_ensureBlock h id
  | read files text file setting =>
    simp only [run]
    cases hr : f.parse files text file setting with
    | error e => exact .refl h
    | ok r => exact follows_grown h (grown_parse hr)
  | copy id options => exact follows_grown h (grown_copy h.root h.leaf id options)
  | insert parent anchor incoming =>
    exact follows_orElse_insert h (fun c hc => hn c (by simp [names, hc])) hbehind
  | insertBefore id added =>
    exact follows_beside h (.before id) (hn added (by simp [names])) hbehind
  | insertAfter id added =>
    exact follows_beside h (.after id) (hn added (by simp [names])) hbehind
  | replace id replacements =>
    simp only [run, arrivals]
    cases hp : f.parent? id with
    | none =>
      unfold Forest.replace
      rw [hp]
      exact .refl h
    | some parent => exact follows_replace h (fun c hc => hn c (.tail _ hc)) hp
  | detach id => exact follows_detach h id
  | removeChild parent child =>
    simp only [run, Forest.removeChild]
    cases hi : f.indexOf? parent child with
    | none => exact .refl h
    | some index => exact follows_removeAt_indexOf? h hi
  | removeAt parent index =>
    refine follows_removeAt h ?_
    rintro rfl c hget hmem
    obtain ⟨hi, rfl⟩ := List.getElem?_eq_some_iff.1 hget
    obtain ⟨j, hj, hjc⟩ := List.mem_take_iff_getElem.1 hmem
    have := (List.Nodup.getElem_inj_iff hbefore).1 hjc
    omega
  | clear parent => exact follows_clear h parent
  | moveTo id container => exact follows_moveTo h (hn id (by simp [names])) container hbehind
  | copyBefore id =>
    rw [run_copyBefore] at hbehind ⊢
    exact follows_copy_beside h id (.before id) hbehind
  | copyAfter id =>
    rw [run_copyAfter] at hbehind ⊢
    exact follows_copy_beside h id (.after id) hbehind

/-- The children that an edit adds to a list without repetitions are its arrivals. -/
theorem mem_arrivals {e : Edit} (h : f.Sound) (hn : ∀ id ∈ e.names, id < f.size)
    (hbefore : (f.children P).Nodup) (hbehind : ((e.run f).children P).Nodup) (hP : P < f.size)
    {c : NodeId} (hc : c ∈ (e.run f).children P) (hnew : c ∉ f.children P) : c ∈ e.arrivals P f :=
  ((follows_run h hn hbefore hbehind).arrived hP c hc).resolve_left hnew

/-- Edits keep what holds of all forests. -/
theorem sound_run {e : Edit} (h : f.Sound) (hn : ∀ id ∈ e.names, id < f.size) :
    (e.run f).Sound := by
  -- a number beyond all nodes has no children that could repeat
  have hnone : ∀ g : Forest, g.size ≤ max f.size (e.run f).size →
      (g.children (max f.size (e.run f).size)).Nodup := by
    intro g hg
    rw [children_of_le hg]
    exact List.nodup_nil
  exact (follows_run h hn (hnone f (Nat.le_max_left ..)) (hnone _ (Nat.le_max_right ..))).sound

end Edit

end Stylesheet
