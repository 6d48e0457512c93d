import Stylesheet.Proofs.Cursor.Naive
import Stylesheet.Proofs.Forest.Outline

/-!
# Cursors over lists that stay

Opening, advancing and closing a cursor changes nothing but cursors (`Alike`). As long as the lists
of children stay what they are (`Steady`), a cursor hands out exactly one list from its first child
to its last (`At`), whatever its mode; so a walk meets the nodes below a node in preorder
(`walk_recorded`).
-/

set_option autoImplicit false

namespace Stylesheet

namespace Cursors

variable {cs : Cursors} {k : Nat}

theorem close_open (h : cs.Numbered) (mode : CursorMode) :
    ((cs.open mode).2.close (cs.open mode).1).active = cs.active := by
  unfold «open» close
  simp only
  rw [List.filter_append, List.filter_eq_self.2 fun x hx => ?_]
  · simp
  · have := h x hx
    have hne : x.1 ≠ cs.lastId + 1 := by omega
    simpa using hne

theorem close_put (c : Cursor) : ((cs.put k c).close k).active = (cs.close k).active := by
  unfold put close
  simp only
  induction cs.active with
  | nil => rfl
  | cons x xs ih =>
    rw [List.map_cons, List.filter_cons, List.filter_cons, ih]
    by_cases hx : x.1 = k <;> simp [hx]

end Cursors

namespace Forest

variable {f g h : Forest} {P id : NodeId} {k i : Nat}

/-! ## What the steps of a cursor change -/

/-- The forests differ only in the cursors over lists of children. -/
structure Alike (f g : Forest) : Prop where
  size : g.size = f.size
  inputs : g.inputs = f.inputs
  node : ∀ id, { g.node id with cursors := .empty } = { f.node id with cursors := .empty }

theorem Alike.refl (f : Forest) : Alike f f := ⟨rfl, rfl, fun _ => rfl⟩

theorem Alike.symm (hfg : Alike f g) : Alike g f :=
  ⟨hfg.size.symm, hfg.inputs.symm, fun id => (hfg.node id).symm⟩

theorem Alike.trans (hfg : Alike f g) (hgh : Alike g h) : Alike f h :=
  ⟨hgh.size.trans hfg.size, hgh.inputs.trans hfg.inputs,
    fun id => (hgh.node id).trans (hfg.node id)⟩

/-- What does not look at the cursors of a node is the same of alike forests. -/
theorem Alike.congr {α : Type} (hfg : Alike f g) (k : Node → α)
    (hk : ∀ (n : Node) (c : Cursors), k { n with cursors := c } = k n) (id : NodeId) :
    k (g.node id) = k (f.node id) := by
  rw [← hk (g.node id) .empty, hfg.node, hk]

theorem Alike.children (hfg : Alike f g) (id : NodeId) : g.children id = f.children id :=
  hfg.congr Node.nodes (fun _ _ => rfl) id

theorem Alike.parent? (hfg : Alike f g) (id : NodeId) : g.parent? id = f.parent? id :=
  hfg.congr Node.parent (fun _ _ => rfl) id

theorem Alike.kind (hfg : Alike f g) (id : NodeId) : g.kind id = f.kind id :=
  hfg.congr Node.kind (fun _ _ => rfl) id

theorem alike_modify (f : Forest) (id : NodeId) (c : Node → Cursors) :
    Alike f (f.modify id fun n => { n with cursors := c n }) := by
  refine ⟨size_modify .., rfl, fun p => ?_⟩
  rw [node_modify]
  split
  · next hp => rw [hp.1]
  · rfl

theorem alike_openCursor (f : Forest) (id : NodeId) (mode : CursorMode) :
    Alike f (f.openCursor id mode).2 := alike_modify f id _

theorem alike_closeCursor (f : Forest) (id : NodeId) (cursor : Nat) :
    Alike f (f.closeCursor id cursor) := alike_modify f id _

theorem alike_nextChild (f : Forest) (id : NodeId) (cursor : Nat) :
    Alike f (f.nextChild id cursor).2 := by
  unfold nextChild
  split
  · exact .refl f
  · exact alike_modify f id _

theorem cursors_openCursor (hP : P < f.size) (mode : CursorMode) (id : NodeId) :
    (f.openCursor P mode).2.cursors id =
      if id = P then ((f.cursors P).open mode).2 else f.cursors id :=
  cursors_modifyCursors (fun _ => ((f.cursors P).open mode).2) hP id

theorem cursors_closeCursor (hP : P < f.size) (k : Nat) (id : NodeId) :
    (f.closeCursor P k).cursors id = if id = P then (f.cursors P).close k else f.cursors id :=
  cursors_modifyCursors (·.close k) hP id

/-- A cursor hands out children. -/
theorem mem_of_advance {c : Cursor} {ahead : List NodeId} {x : NodeId}
    (hx : (c.advance ahead).1 = some (x, i)) : x ∈ ahead := by
  induction ahead generalizing c with
  | nil => cases hx
  | cons y ahead ih =>
    rw [Cursor.advance] at hx
    split at hx
    · exact .tail _ (ih hx)
    · cases hx
      exact .head _

theorem mem_of_nextChild {x : NodeId} (hx : (f.nextChild P k).1 = some (x, i)) :
    x ∈ f.children P := by
  unfold nextChild at hx
  split at hx
  · cases hx
  · exact List.mem_of_mem_drop (mem_of_advance hx)

/-! ## Lists that stay -/

/-- The nodes of `f` have the same places in `g`. -/
structure SameLinks (f g : Forest) : Prop where
  size : f.size ≤ g.size
  children : ∀ id < f.size, (g.node id).children = (f.node id).children
  parent : ∀ id < f.size, g.parent? id = f.parent? id
  kind : ∀ id < f.size, g.kind id = f.kind id

/-- The nodes of `f` have the same places in `g`, and the cursors over their children stand where
they stood. -/
structure Steady (f g : Forest) : Prop extends SameLinks f g where
  active : ∀ id < f.size, (g.cursors id).active = (f.cursors id).active

theorem SameLinks.trans (hfg : SameLinks f g) (hgh : SameLinks g h) : SameLinks f h where
  size := Nat.le_trans hfg.size hgh.size
  children id hid :=
    (hgh.children id (Nat.lt_of_lt_of_le hid hfg.size)).trans (hfg.children id hid)
  parent id hid := (hgh.parent id (Nat.lt_of_lt_of_le hid hfg.size)).trans (hfg.parent id hid)
  kind id hid := (hgh.kind id (Nat.lt_of_lt_of_le hid hfg.size)).trans (hfg.kind id hid)

theorem Alike.sameLinks (hfg : Alike f g) : SameLinks f g where
  size := Nat.le_of_eq hfg.size.symm
  children id _ := hfg.congr Node.children (fun _ _ => rfl) id
  parent id _ := hfg.parent? id
  kind id _ := hfg.kind id

theorem SameLinks.nodes (hfg : SameLinks f g) (hid : id < f.size) :
    g.children id = f.children id := by
  rw [Forest.children, Node.nodes, hfg.children id hid]
  rfl

theorem Steady.refl (f : Forest) : Steady f f := ⟨(Alike.refl f).sameLinks, fun _ _ => rfl⟩

theorem Steady.trans (hfg : Steady f g) (hgh : Steady g h) : Steady f h :=
  ⟨hfg.toSameLinks.trans hgh.toSameLinks, fun id hid =>
    (hgh.active id (Nat.lt_of_lt_of_le hid hfg.size)).trans (hfg.active id hid)⟩

/-- The cursors have numbers that were given out. -/
def Numbered (f : Forest) : Prop := ∀ id, (f.cursors id).Numbered

theorem Numbered.openCursor (hf : f.Numbered) (hP : P < f.size) (mode : CursorMode) :
    (f.openCursor P mode).2.Numbered := by
  intro id
  rw [cursors_openCursor hP]
  split
  · exact Cursors.numbered_open (hf P) mode
  · exact hf id

theorem Numbered.closeCursor (hf : f.Numbered) (hP : P < f.size) (k : Nat) :
    (f.closeCursor P k).Numbered := by
  intro id
  rw [cursors_closeCursor hP]
  split
  · exact Cursors.numbered_close (hf P) k
  · exact hf id

/-- The lists stay behind a cursor that was opened and closed. -/
theorem steady_open_close (hf : f.Numbered) (hP : P < f.size) (mode : CursorMode) :
    Steady f ((f.openCursor P mode).2.closeCursor P (f.openCursor P mode).1) := by
  refine ⟨((alike_openCursor f P mode).trans (alike_closeCursor ..)).sameLinks, fun id _ => ?_⟩
  have hP' : P < (f.openCursor P mode).2.size := by rwa [(alike_openCursor f P mode).size]
  rw [cursors_closeCursor hP', cursors_openCursor hP, if_pos rfl]
  split
  · next hid =>
    rw [hid]
    exact Cursors.close_open (hf P) mode
  · next hid => rw [cursors_openCursor hP, if_neg hid]

/-- The lists stay the same apart from one cursor. -/
theorem Steady.closeCursor (hfg : Steady f g) (hP : P < f.size) (k : Nat) :
    Steady (f.closeCursor P k) (g.closeCursor P k) := by
  have hf := (alike_closeCursor f P k).symm.sameLinks
  have hg := (alike_closeCursor g P k).sameLinks
  refine ⟨(hf.trans hfg.toSameLinks).trans hg, fun id hid => ?_⟩
  rw [(alike_closeCursor f P k).size] at hid
  rw [cursors_closeCursor (Nat.lt_of_lt_of_le hP hfg.size), cursors_closeCursor hP]
  split
  · unfold Cursors.close
    simp only
    rw [hfg.active P hP]
  · exact hfg.active id hid

/-! ## A cursor over a list that stays -/

/-- The cursor stands at index `i` and passes over no child from there on. -/
def At (f : Forest) (P : NodeId) (k i : Nat) : Prop :=
  ∃ c, (f.cursors P).get? k = some c ∧ c.next = i ∧ ∀ x ∈ (f.children P).drop i, c.skips x = false

theorem At.steady (ha : f.At P k i) (hP : P < f.size) (hfg : Steady f g) : g.At P k i := by
  obtain ⟨c, hget, hnext, hskips⟩ := ha
  refine ⟨c, ?_, hnext, ?_⟩
  · rw [Cursors.get?, hfg.active P hP]
    exact hget
  · rwa [hfg.nodes hP]

theorem at_openCursor (hf : f.Numbered) (hP : P < f.size) (mode : CursorMode) :
    (f.openCursor P mode).2.At P (f.openCursor P mode).1 0 := by
  refine ⟨.start mode, ?_, rfl, fun x _ => by simp [Cursor.start, Cursor.skips]⟩
  rw [cursors_openCursor hP, if_pos rfl]
  exact Cursors.get?_open_self (hf P) mode

theorem nextChild_of_get? {c : Cursor} (hget : (f.cursors P).get? k = some c) :
    f.nextChild P k = ((c.advance ((f.children P).drop c.next)).1,
      f.modify P fun n => { n with
        cursors := n.cursors.put k (c.advance ((f.children P).drop c.next)).2 }) := by
  rw [cursors] at hget
  unfold nextChild
  rw [hget]

theorem cursors_nextChild {c : Cursor} (hget : (f.cursors P).get? k = some c) (hP : P < f.size)
    (id : NodeId) : (f.nextChild P k).2.cursors id =
      if id = P then (f.cursors P).put k (c.advance ((f.children P).drop c.next)).2
      else f.cursors id := by
  rw [nextChild_of_get? hget]
  exact cursors_modifyCursors (·.put k _) hP id

theorem Numbered.nextChild (hf : f.Numbered) (P : NodeId) (k : Nat) :
    (f.nextChild P k).2.Numbered := by
  by_cases hP : P < f.size
  · rcases hget : (f.cursors P).get? k with _ | c
    · rwa [Forest.nextChild, show (f.node P).cursors.get? k = none from hget]
    · intro id
      rw [cursors_nextChild hget hP]
      split
      · exact Cursors.numbered_put (hf P) k _
      · exact hf id
  · have hget : (f.node P).cursors.get? k = none := by
      rw [node_of_le (Nat.not_lt.1 hP)]
      rfl
    rwa [Forest.nextChild, hget]

/-- The lists stay the same when a cursor moves on, apart from this cursor. -/
theorem At.steady_nextChild (ha : f.At P k i) (hP : P < f.size) :
    Steady (f.closeCursor P k) ((f.nextChild P k).2.closeCursor P k) := by
  obtain ⟨c, hget, -, -⟩ := ha
  have hstep := alike_nextChild f P k
  refine ⟨((alike_closeCursor f P k).symm.trans (hstep.trans (alike_closeCursor ..))).sameLinks,
    fun id _ => ?_⟩
  rw [cursors_closeCursor (by rwa [hstep.size]), cursors_closeCursor hP, cursors_nextChild hget hP,
    if_pos rfl]
  split
  · exact Cursors.close_put _
  · next hid => rw [cursors_nextChild hget hP, if_neg hid]

/-- **One step of a cursor** hands out the child at its index. -/
theorem At.nextChild (ha : f.At P k i) (hP : P < f.size) (hd : (f.children P).Nodup) {x : NodeId}
    (hx : (f.children P)[i]? = some x) :
    (f.nextChild P k).1 = some (x, i) ∧ (f.nextChild P k).2.At P k (i + 1) := by
  obtain ⟨c, hget, rfl, hskips⟩ := ha
  obtain ⟨hi, rfl⟩ := List.getElem?_eq_some_iff.1 hx
  have hdrop := List.drop_eq_getElem_cons hi
  rw [hdrop] at hskips
  obtain ⟨hskip, hskips⟩ := List.forall_mem_cons.1 hskips
  have hnew : (f.children P)[c.next] ∉ (f.children P).drop (c.next + 1) := by
    have := (List.drop_sublist c.next (f.children P)).nodup hd
    rw [hdrop] at this
    exact (List.nodup_cons.1 this).1
  constructor
  · rw [nextChild_of_get? hget, hdrop, Cursor.advance, if_neg (by simp [hskip])]
  · refine ⟨{ c with
      next := c.next + 1
      visited := if c.mode = .traversal then (f.children P)[c.next] :: c.visited
        else c.visited }, ?_, rfl, ?_⟩
    · rw [cursors_nextChild hget hP, if_pos rfl, Cursors.get?_put_self hget, hdrop, Cursor.advance,
        if_neg (by simp [hskip])]
    · rw [(alike_nextChild f P k).children]
      intro y hy
      have hne : y ≠ (f.children P)[c.next] := by
        rintro rfl
        exact hnew hy
      have hold := hskips y hy
      unfold Cursor.skips at hold ⊢
      by_cases hm : c.mode = .traversal
      · rw [hm] at hold
        simp only [hm, if_true, List.contains_cons, beq_false_of_ne hne, Bool.false_or]
        exact hold
      · simp [hm]

/-- A cursor behind the last child hands out nothing. -/
theorem At.nextChild_none (ha : f.At P k i) (hx : (f.children P)[i]? = none) :
    (f.nextChild P k).1 = none := by
  obtain ⟨c, hget, rfl, -⟩ := ha
  rw [nextChild_of_get? hget, List.drop_eq_nil_of_le (List.getElem?_eq_none_iff.1 hx)]
  rfl

/-! ## The order of a walk -/

/-- The visitor that keeps the nodes it has met. -/
def meet : Visitor (List NodeId) := fun f seen id _ => (true, f, seen ++ [id])

mutual

/-- A walk below a node meets the nodes below it in preorder. -/
theorem walk_meet {f₀ : Forest} (hw : f₀.WellFormed) : (t : Tree NodeId) → f₀.Shows t →
    t.label < f₀.size → ∀ (fuel : Nat) {f : Forest}, 2 * t.size ≤ fuel → SameLinks f₀ f →
    f.Numbered → ∀ seen, ∃ g, f.walk meet t.label fuel seen =
      (.completed, g, seen ++ t.descendants) ∧ Steady f g ∧ g.Numbered
  | t, _, _, 0, _, hfuel, _, _, _ => by
    have := t.size_pos
    omega
  | .leaf id, ht, hlt, fuel + 1, f, _, hl, hf, seen => by
    rw [Shows] at ht
    rw [walk, Node.hasBlock, Tree.label, hl.children id hlt, ht]
    exact ⟨f, by simp [Tree.descendants, Tree.children, Tree.preorderAll], .refl f, hf⟩
  | .block id ts, ht, hlt, fuel + 1, f, hfuel, hl, hf, seen => by
    rw [Shows] at ht
    rw [Tree.label] at hlt ⊢
    have hid : id < f.size := Nat.lt_of_lt_of_le hlt hl.size
    have hids : f₀.children id = [] ++ ts.map Tree.label := children_of_block ht.1
    obtain ⟨g, hg, hsteady, hnumbered⟩ := walkFrom_meet hw ts ht.2 hlt hids fuel
      (k := (f.openCursor id .sequential).1)
      (by rw [Tree.size_block] at hfuel; omega)
      (hl.trans (alike_openCursor f id .sequential).sameLinks)
      (hf.openCursor hid .sequential) (at_openCursor hf hid .sequential) seen
    rw [walk, Node.hasBlock, hl.children id hlt, ht.1]
    simp only [Option.isSome_some, Bool.not_true, Bool.false_eq_true, if_false]
    rw [hg]
    have hback := (steady_open_close hf hid .sequential).trans hsteady
    refine ⟨_, rfl, hback, hnumbered.closeCursor ?_ _⟩
    rw [← (alike_closeCursor g id (f.openCursor id .sequential).1).size]
    exact Nat.lt_of_lt_of_le hid hback.size

/-- A walk over the children that are left meets them and the nodes below them in preorder. -/
theorem walkFrom_meet {f₀ : Forest} (hw : f₀.WellFormed) : (ts : List (Tree NodeId)) →
    f₀.ShowsAll ts → ∀ {P : NodeId} {met : List NodeId}, P < f₀.size →
    f₀.children P = met ++ ts.map Tree.label → ∀ (fuel : Nat) {k : Nat} {f : Forest},
    2 * Tree.sizeAll ts + 1 ≤ fuel → SameLinks f₀ f → f.Numbered → f.At P k met.length → ∀ seen,
    ∃ g, f.walkFrom meet P k fuel seen = (.completed, g, seen ++ Tree.preorderAll ts) ∧
      Steady (f.closeCursor P k) (g.closeCursor P k) ∧ g.Numbered
  | _, _, _, _, _, _, 0, _, _, hfuel, _, _, _, _ => by omega
  | [], _, P, met, hlt, hP, fuel + 1, k, f, _, hl, hf, ha, seen => by
    have hlt' : P < f.size := Nat.lt_of_lt_of_le hlt hl.size
    have hnone : (f.nextChild P k).1 = none := by
      apply ha.nextChild_none
      rw [hl.nodes hlt, hP]
      simp
    rw [walkFrom, show f.nextChild P k = (none, (f.nextChild P k).2) from Prod.ext hnone rfl]
    exact ⟨_, by simp [Tree.preorderAll], ha.steady_nextChild hlt', hf.nextChild P k⟩
  | t :: ts, hts, P, met, hlt, hP, fuel + 1, k, f, hfuel, hl, hf, ha, seen => by
    rw [ShowsAll] at hts
    rw [List.map_cons] at hP
    rw [Tree.sizeAll_cons] at hfuel
    have hpos := t.size_pos
    have hlt' : P < f.size := Nat.lt_of_lt_of_le hlt hl.size
    have hnodes : f.children P = met ++ t.label :: ts.map Tree.label := by rw [hl.nodes hlt, hP]
    obtain ⟨hchild, hat⟩ := ha.nextChild hlt' (by rw [hl.nodes hlt]; exact hw.nodup P)
      (x := t.label) (by rw [hnodes]; simp)
    have hstep := (alike_nextChild f P k).sameLinks
    obtain ⟨g, hg, hsteady, hnumbered⟩ := walk_meet hw t hts.1
      (hw.lt_size (p := P) (by rw [hP]; simp)) fuel (by omega) (hl.trans hstep)
      (hf.nextChild P k) (seen ++ [t.label])
    have hlt₁ : P < (f.nextChild P k).2.size := Nat.lt_of_lt_of_le hlt' hstep.size
    have hP' : f₀.children P = (met ++ [t.label]) ++ ts.map Tree.label := by rw [hP]; simp
    obtain ⟨g', hg', hsteady', hnumbered'⟩ := walkFrom_meet hw ts hts.2 hlt hP' fuel (by omega)
      ((hl.trans hstep).trans hsteady.toSameLinks) hnumbered
      (by rw [List.length_append]; exact hat.steady hlt₁ hsteady)
      (seen ++ [t.label] ++ t.descendants)
    refine ⟨g', ?_, (ha.steady_nextChild hlt').trans ((hsteady.closeCursor hlt₁ k).trans hsteady'),
      hnumbered'⟩
    rw [walkFrom, show f.nextChild P k = (some (t.label, met.length), (f.nextChild P k).2) from
      Prod.ext hchild rfl]
    simp only [meet, hg, hg']
    simp [Tree.preorderAll, Tree.preorder_eq]

end

end Forest

end Stylesheet
