import Stylesheet.Proofs.Cursor.Carried
import Stylesheet.Proofs.Cursor.Open

/-!
# What an iteration passes

A visitor may do to a forest what `Performed` lists: edits, changes of what nodes say, and visits of
children, which may be the same children. `Visitor.noting` keeps a log of the calls of a visitor
(`Pass`), and `Visitor.level` is what a walk does with each child of a node, so that every level of
a walk is an iteration of its own.

`passesOnce_each_and_walk`: an iteration that ends has passed the children that stay in the list
once and in their order. No node is passed more often than it stood in the list or was inserted
since. The cursors that are open behind an iteration, however it ends, are those that were open
before it.
-/

set_option autoImplicit false

namespace Stylesheet

open Forest

variable {σ : Type} {visit : Visitor σ} {f g : Forest} {P : NodeId} {k : Nat}
  {own : Option (NodeId × Nat)} {edits edits' : List (Forest × Edit)}

namespace Forest

/-! ## What visitors do -/

/-- `g` is what is made of `f` by edits, each listed with the forest in which it is made, by changes
of what nodes say, and by visits of children, each with a cursor that is opened for it and closed
behind it. `own` is the cursor of the innermost visit, the only one that is advanced. -/
inductive Performed : Option (NodeId × Nat) → Forest → List (Forest × Edit) → Forest → Prop
  | nothing {own : Option (NodeId × Nat)} {f : Forest} : Performed own f [] f
  | edit {own : Option (NodeId × Nat)} {f g : Forest} {edits : List (Forest × Edit)} (e : Edit)
      (rest : Performed own (e.run f) edits g) : Performed own f ((f, e) :: edits) g
  | change {own : Option (NodeId × Nat)} {f g : Forest} {edits : List (Forest × Edit)}
      (id : NodeId) (k : Node → Node) (hnodes : ∀ n, (k n).nodes = n.nodes)
      (hcursors : ∀ n, (k n).cursors = n.cursors)
      (rest : Performed own (f.modify id k) edits g) : Performed own f edits g
  | next {P : NodeId} {k : Nat} {f g : Forest} {edits : List (Forest × Edit)}
      (rest : Performed (some (P, k)) (f.nextChild P k).2 edits g) :
      Performed (some (P, k)) f edits g
  | visit {own : Option (NodeId × Nat)} {f g h : Forest} {edits edits' : List (Forest × Edit)}
      {P : NodeId} (mode : CursorMode) (hP : P < f.size)
      (inner : Performed (some (P, (f.openCursor P mode).1)) (f.openCursor P mode).2 edits g)
      (rest : Performed own (g.closeCursor P (f.openCursor P mode).1) edits' h) :
      Performed own f (edits ++ edits') h

/-! ## Other cursors -/

theorem adjusts_change (id : NodeId) {k : Node → Node} (hcursors : ∀ n, (k n).cursors = n.cursors) :
    Adjusts f (f.modify id k) :=
  adjusts_modify f id (fun c => c) fun n => by rw [hcursors, Cursors.mapCursors_same]

/-- A cursor that is opened has a number of its own. -/
theorem Numbered.openCursor_ne (hf : f.Numbered) (p : NodeId) (mode : CursorMode) {c : Cursor}
    (hk : (f.cursors P).get? k = some c) : (p, (f.openCursor p mode).1) ≠ (P, k) := by
  intro he
  cases he
  cases (Cursors.get?_fresh (hf P) mode).symm.trans hk

theorem get?_openCursor_of_some {p : NodeId} (hp : p < f.size) (mode : CursorMode) {c : Cursor}
    (hk : (f.cursors P).get? k = some c) :
    ((f.openCursor p mode).2.cursors P).get? k = some c := by
  rw [cursors_openCursor hp]
  split
  · next he =>
    rw [← he]
    exact Cursors.get?_open_of_some hk mode
  · exact hk

theorem get?_nextChild_of_ne {p : NodeId} {j : Nat} (hne : (p, j) ≠ (P, k)) :
    ((f.nextChild p j).2.cursors P).get? k = (f.cursors P).get? k := by
  rcases nextChild_snd f p j with hr | ⟨c, hr⟩
  · rw [hr]
  · by_cases hp : P = p
    · subst hp
      by_cases hP : P < f.size
      · rw [hr, cursors_modifyCursors (·.put j c) hP, if_pos rfl]
        exact Cursors.get?_put_of_ne (fun he => hne (by rw [he])) c
      · rw [cursors_of_le (Nat.not_lt.1 hP), cursors_of_le]
        rw [(alike_nextChild f P j).size]
        exact Nat.not_lt.1 hP
    · rw [hr]
      unfold cursors
      rw [node_modify_of_ne _ hp]

theorem get?_closeCursor_of_ne {p : NodeId} (hp : p < f.size) {j : Nat} (hne : (p, j) ≠ (P, k)) :
    ((f.closeCursor p j).cursors P).get? k = (f.cursors P).get? k := by
  rw [cursors_closeCursor hp]
  split
  · next he =>
    subst he
    exact Cursors.get?_close_of_ne fun he => hne (by rw [he])
  · rfl

namespace Performed

theorem append {h : Forest} (hfg : Performed own f edits g) (hgh : Performed own g edits' h) :
    Performed own f (edits ++ edits') h := by
  induction hfg with
  | nothing => exact hgh
  | edit e _ ih => exact .edit e (ih hgh)
  | change id k hnodes hcursors _ ih => exact .change id k hnodes hcursors (ih hgh)
  | next _ ih => exact .next (ih hgh)
  | visit mode hP inner _ _ ih =>
    rw [List.append_assoc]
    exact .visit mode hP inner (ih hgh)

/-- What is done without a cursor can be done within any visit. -/
theorem within (h : Performed none f edits g) (own : Option (NodeId × Nat)) :
    Performed own f edits g := by
  generalize hnone : none = outer at h
  induction h with
  | nothing => exact .nothing
  | edit e _ ih => exact .edit e (ih hnone)
  | change id k hnodes hcursors _ ih => exact .change id k hnodes hcursors (ih hnone)
  | next => cases hnone
  | visit mode hP inner _ _ ih => exact .visit mode hP inner (ih hnone)

/-- The cursors that are open stay the same. -/
theorem sameOpen (h : Performed own f edits g) (hf : f.Numbered) :
    f.size ≤ g.size ∧ g.Numbered ∧ SameOpen f g := by
  induction h with
  | nothing => exact ⟨Nat.le_refl _, hf, .refl _⟩
  | @edit _ f _ _ e _ ih =>
    have hadjusts := e.adjusts_run f
    obtain ⟨hsize, hnumbered, hopen⟩ := ih (hadjusts.numbered hf)
    exact ⟨Nat.le_trans hadjusts.size hsize, hnumbered, hadjusts.sameOpen.trans hopen⟩
  | @change _ f _ _ id k _ hcursors _ ih =>
    have hadjusts : Adjusts f (f.modify id k) := adjusts_change id hcursors
    obtain ⟨hsize, hnumbered, hopen⟩ := ih (hadjusts.numbered hf)
    exact ⟨Nat.le_trans hadjusts.size hsize, hnumbered, hadjusts.sameOpen.trans hopen⟩
  | @next P k f _ _ _ ih =>
    obtain ⟨hsize, hnumbered, hopen⟩ := ih (hf.nextChild P k)
    rw [(alike_nextChild f P k).size] at hsize
    exact ⟨hsize, hnumbered, (sameOpen_nextChild f P k).trans hopen⟩
  | @visit _ f g _ _ _ P mode hP _ _ ihinner ihrest =>
    obtain ⟨hsize, hnumbered, hopen⟩ := ihinner (hf.openCursor hP mode)
    rw [(alike_openCursor f P mode).size] at hsize
    have hP' := Nat.lt_of_lt_of_le hP hsize
    obtain ⟨hsize', hnumbered', hopen'⟩ := ihrest (hnumbered.closeCursor hP' _)
    rw [(alike_closeCursor g P _).size] at hsize'
    exact ⟨Nat.le_trans hsize hsize', hnumbered', (hopen.closeCursor hP hf hP').trans hopen'⟩

end Performed

/-- The nodes that edits put among the children of `P`, as often as they do. -/
def arrivalsOf (P : NodeId) (edits : List (Forest × Edit)) : List NodeId :=
  edits.flatMap fun x => x.2.arrivals P x.1

/-- Whether edits neither take a node out of the children of `P` nor insert it there. -/
def stays (P : NodeId) (edits : List (Forest × Edit)) (c : NodeId) : Bool :=
  c ∉ arrivalsOf P edits ∧ ∀ x ∈ edits, c ∈ (x.2.run x.1).children P

theorem arrivalsOf_append (P : NodeId) (edits edits' : List (Forest × Edit)) :
    arrivalsOf P (edits ++ edits') = arrivalsOf P edits ++ arrivalsOf P edits' :=
  List.flatMap_append ..

theorem stays_iff {c : NodeId} : stays P edits c = true ↔
    c ∉ arrivalsOf P edits ∧ ∀ x ∈ edits, c ∈ (x.2.run x.1).children P :=
  decide_eq_true_iff

namespace Performed

/-- A sequential cursor that is open, and not the one that is advanced, is carried along. -/
theorem carried (h : Performed own f edits g) (hf : f.Numbered) (hown : own ≠ some (P, k))
    (hP : P < f.size) {n : Nat} {v : List NodeId}
    (hk : (f.cursors P).get? k = some ⟨.sequential, n, v⟩) :
    ∃ m, (g.cursors P).get? k = some ⟨.sequential, m, v⟩ ∧
      Carried (arrivalsOf P edits) (f.children P) n (g.children P) m := by
  induction h generalizing n with
  | nothing => exact ⟨n, hk, .refl _ n⟩
  | @edit _ f _ edits e _ ih =>
    have hcarries := e.carries_run P f
    obtain ⟨m, hm, hcarried⟩ := hcarries.carried hP k n v hk
    obtain ⟨l, hl, hcarried'⟩ := ih ((e.adjusts_run f).numbered hf) hown
      (Nat.lt_of_lt_of_le hP hcarries.size) hm
    exact ⟨l, hl, hcarried.trans hcarried'⟩
  | @change _ f _ _ id k' hnodes hcursors _ ih =>
    have hcarries : Carries P f (f.modify id k') [] := carries_modify f id hnodes hcursors
    obtain ⟨m, hm, hcarried⟩ := hcarries.carried hP k n v hk
    obtain ⟨l, hl, hcarried'⟩ := ih ((adjusts_change id hcursors).numbered hf) hown
      (Nat.lt_of_lt_of_le hP hcarries.size) hm
    exact ⟨l, hl, hcarried.trans hcarried'⟩
  | @next p j f _ _ _ ih =>
    have hstep := alike_nextChild f p j
    rw [← hstep.children P]
    refine ih (hf.nextChild p j) hown (by rwa [hstep.size]) ?_
    rwa [get?_nextChild_of_ne fun he => hown (congrArg some he)]
  | @visit _ f g _ edits edits' p mode hp inner _ ihinner ihrest =>
    have hne := hf.openCursor_ne p mode hk
    obtain ⟨hgrown, hnumbered, -⟩ := inner.sameOpen (hf.openCursor hp mode)
    rw [(alike_openCursor f p mode).size] at hgrown
    have hp' := Nat.lt_of_lt_of_le hp hgrown
    obtain ⟨m, hm, hcarried⟩ := ihinner (hf.openCursor hp mode)
      (fun he => hne (Option.some.inj he)) (by rwa [(alike_openCursor f p mode).size])
      (get?_openCursor_of_some hp mode hk)
    obtain ⟨l, hl, hcarried'⟩ := ihrest (hnumbered.closeCursor hp' _) hown
      (by rw [(alike_closeCursor ..).size]; exact Nat.lt_of_lt_of_le hP hgrown)
      (by rwa [get?_closeCursor_of_ne hp' hne])
    rw [(alike_openCursor f p mode).children] at hcarried
    rw [(alike_closeCursor ..).children] at hcarried'
    rw [arrivalsOf_append]
    exact ⟨l, hl, hcarried.trans hcarried'⟩

/-- A child that no edit takes out is still there. -/
theorem mem_children (h : Performed own f edits g) {c : NodeId} (hc : c ∈ f.children P)
    (hstays : ∀ x ∈ edits, c ∈ (x.2.run x.1).children P) : c ∈ g.children P := by
  induction h with
  | nothing => exact hc
  | edit e _ ih =>
    obtain ⟨hhead, htail⟩ := List.forall_mem_cons.1 hstays
    exact ih hhead htail
  | change id k hnodes _ _ ih =>
    refine ih ?_ hstays
    rwa [children, node_modify_congr Node.nodes (hnodes _)]
  | @next p j f _ _ _ ih =>
    refine ih ?_ hstays
    rwa [(alike_nextChild f p j).children]
  | @visit _ f g _ _ _ p mode _ _ _ ihinner ihrest =>
    rw [List.forall_mem_append] at hstays
    refine ihrest ?_ hstays.2
    rw [(alike_closeCursor ..).children]
    refine ihinner ?_ hstays.1
    rwa [(alike_openCursor ..).children]

end Performed

/-- Lets a visit of children count as one of the things that are done. -/
theorem Performed.visited (mode : CursorMode) (hP : P < f.size)
    (h : Performed (some (P, (f.openCursor P mode).1)) (f.openCursor P mode).2 edits g) :
    Performed own f edits (g.closeCursor P (f.openCursor P mode).1) := by
  have hvisit : Performed own f (edits ++ []) _ := .visit mode hP h .nothing
  rwa [List.append_nil] at hvisit

end Forest

/-! ## Iterations -/

/-- What a visitor does at any node of any forest can be performed. -/
def Visitor.Performs (visit : Visitor σ) : Prop :=
  ∀ f s child index, ∃ edits, Performed none f edits (visit f s child index).2.1

/-- A call of a visitor: what it is told, and the forest behind it. -/
structure Pass (σ : Type) where
  before : Forest
  state : σ
  child : NodeId
  index : Nat
  after : Forest

/-- The visitor that keeps a log of its calls. -/
def Visitor.noting (visit : Visitor σ) : Visitor (σ × List (Pass σ)) := fun f s child index =>
  let r := visit f s.1 child index
  (r.1, r.2.1, r.2.2, s.2 ++ [⟨f, s.1, child, index, r.2.1⟩])

/-- What a walk does with a child: it visits the child and walks below it. The state holds the fuel
that is left. -/
def Visitor.level (visit : Visitor σ) : Visitor (Nat × σ) := fun f s child index =>
  match visit f s.2 child index with
  | (false, g, t) => (false, g, s.1 - 1, t)
  | (true, g, t) =>
    let r := g.walk visit child (s.1 - 1) t
    (r.1 = .completed, r.2.1, s.1 - 1, r.2.2)

namespace Forest

/-- An iteration with the cursor `k` over the children of `P`, its calls, and how it ends. -/
inductive Iterates (P : NodeId) (k : Nat) :
    Forest → List (Pass σ) → WalkEnd → Forest → Prop
  | done {f g : Forest} (hnext : f.nextChild P k = (none, g)) : Iterates P k f [] .completed g
  | cut {f : Forest} {ended : WalkEnd} (hended : ended ≠ .completed) : Iterates P k f [] ended f
  | pass {f g : Forest} {log : List (Pass σ)} {ended : WalkEnd} {p : Pass σ}
      (hnext : f.nextChild P k = (some (p.child, p.index), p.before))
      (hdone : ∃ edits, Performed none p.before edits p.after)
      (rest : Iterates P k p.after log ended g) : Iterates P k f (p :: log) ended g

variable {log : List (Pass σ)} {ended : WalkEnd}

theorem iterates_eachFrom (hvisit : visit.Performs) (P : NodeId) (k fuel : Nat) (f : Forest) (s : σ)
    (noted : List (Pass σ)) :
    ∃ log, eachFrom visit.noting P k fuel f (s, noted) =
        ((eachFrom visit P k fuel f s).1, (eachFrom visit P k fuel f s).2.1,
          (eachFrom visit P k fuel f s).2.2, noted ++ log) ∧
      Iterates P k f log (eachFrom visit P k fuel f s).1 (eachFrom visit P k fuel f s).2.1 := by
  induction fuel generalizing f s noted with
  | zero => exact ⟨[], by rw [List.append_nil]; rfl, .cut (by simp [eachFrom])⟩
  | succ fuel ih =>
    rw [eachFrom, eachFrom]
    rcases hnext : f.nextChild P k with ⟨_ | ⟨child, index⟩, g⟩
    · exact ⟨[], by rw [List.append_nil], .done hnext⟩
    · have hdone := hvisit g s child index
      simp only [Visitor.noting]
      rcases hr : visit g s child index with ⟨_ | _, h, t⟩ <;> rw [hr] at hdone <;> simp only
      · exact ⟨[⟨g, s, child, index, h⟩], rfl, .pass hnext hdone (.cut (by simp))⟩
      · obtain ⟨log, hlog, hiterates⟩ := ih h t (noted ++ [⟨g, s, child, index, h⟩])
        exact ⟨⟨g, s, child, index, h⟩ :: log, by rw [hlog, List.append_assoc]; rfl,
          .pass hnext hdone hiterates⟩

theorem Iterates.performed (h : Iterates P k f log ended g) :
    ∃ edits, Performed (some (P, k)) f edits g := by
  induction h with
  | @done f g hnext =>
    have hg : (f.nextChild P k).2 = g := by rw [hnext]
    exact ⟨[], .next (hg ▸ .nothing)⟩
  | cut => exact ⟨[], .nothing⟩
  | @pass f _ _ _ p hnext hdone _ ih =>
    obtain ⟨edits, hdone⟩ := hdone
    obtain ⟨edits', hrest⟩ := ih
    have hbefore : (f.nextChild P k).2 = p.before := by rw [hnext]
    exact ⟨edits ++ edits', .next (hbefore ▸ (hdone.within _).append hrest)⟩

/-- **A visitor may visit children itself.** -/
theorem performed_each (hvisit : visit.Performs) (P : NodeId) (fuel : Nat) (f : Forest) (s : σ) :
    ∃ edits, Performed none f edits (f.each visit P fuel s).2.1 := by
  rw [each]
  split
  · exact ⟨[], .nothing⟩
  · next hblock =>
    obtain ⟨log, -, hiterates⟩ := iterates_eachFrom hvisit P (f.openCursor P .sequential).1 fuel
      (f.openCursor P .sequential).2 s []
    obtain ⟨edits, hedits⟩ := hiterates.performed
    exact ⟨edits, hedits.visited .sequential (lt_size_of_hasBlock (by simpa using hblock))⟩

/-- **A visitor may walk itself.** -/
theorem performed_walk (hvisit : visit.Performs) (fuel : Nat) :
    (∀ P f s, ∃ edits, Performed none f edits (walk visit P fuel f s).2.1) ∧
      ∀ P k f s, ∃ edits, Performed (some (P, k)) f edits (walkFrom visit P k fuel f s).2.1 := by
  induction fuel with
  | zero =>
    refine ⟨fun P f s => ⟨[], ?_⟩, fun P k f s => ⟨[], ?_⟩⟩
    · rw [walk]
      exact .nothing
    · rw [walkFrom]
      exact .nothing
  | succ fuel ih =>
    obtain ⟨ihwalk, ihfrom⟩ := ih
    constructor
    · intro P f s
      rw [walk]
      split
      · exact ⟨[], .nothing⟩
      · next hblock =>
        have hP : P < f.size := lt_size_of_hasBlock (by simpa using hblock)
        obtain ⟨edits, hedits⟩ := ihfrom P (f.openCursor P .sequential).1
          (f.openCursor P .sequential).2 s
        exact ⟨edits, hedits.visited .sequential hP⟩
    · intro P k f s
      rw [walkFrom]
      rcases hnext : f.nextChild P k with ⟨_ | ⟨child, index⟩, g⟩
      · have hg : (f.nextChild P k).2 = g := by rw [hnext]
        exact ⟨[], .next (hg ▸ .nothing)⟩
      · have hg : (f.nextChild P k).2 = g := by rw [hnext]
        obtain ⟨edits, hdone⟩ := hvisit g s child index
        simp only
        rcases hr : visit g s child index with ⟨_ | _, h, t⟩ <;> rw [hr] at hdone <;> simp only
        · exact ⟨edits, .next (hg ▸ hdone.within _)⟩
        · obtain ⟨edits', hwalk⟩ := ihwalk child h t
          have hboth := (hdone.append hwalk).within (some (P, k))
          rcases hw : walk visit child fuel h t with ⟨_ | _ | _, h', t'⟩ <;>
            rw [hw] at hboth <;> simp only
          · obtain ⟨edits'', hrest⟩ := ihfrom P k h' t'
            exact ⟨_, .next (hg ▸ hboth.append hrest)⟩
          · exact ⟨_, .next (hg ▸ hboth)⟩
          · exact ⟨_, .next (hg ▸ hboth)⟩

/-! ## What is passed -/

theorem drop_of_nextChild_none {n : Nat} {v : List NodeId}
    (hk : (f.cursors P).get? k = some ⟨.sequential, n, v⟩) (hnext : f.nextChild P k = (none, g)) :
    (f.children P).drop n = [] := by
  rw [nextChild_of_get? hk] at hnext
  cases hdrop : (f.children P).drop n with
  | nil => rfl
  | cons c rest =>
    rw [hdrop, Cursor.advance, if_neg (by simp [Cursor.skips])] at hnext
    cases hnext

/-- **One step of a sequential cursor** hands out the child at its index. -/
theorem nextChild_of_sequential {n index : Nat} {v : List NodeId} {child : NodeId}
    (hk : (f.cursors P).get? k = some ⟨.sequential, n, v⟩)
    (hnext : f.nextChild P k = (some (child, index), g)) (hP : P < f.size) :
    (f.children P).drop n = child :: (f.children P).drop (n + 1) ∧
      (g.cursors P).get? k = some ⟨.sequential, n + 1, v⟩ := by
  have hcursors := cursors_nextChild hk hP P
  rw [if_pos rfl, hnext] at hcursors
  rw [nextChild_of_get? hk] at hnext
  cases hdrop : (f.children P).drop n with
  | nil =>
    rw [hdrop] at hnext
    cases hnext
  | cons c rest =>
    have hadvance : (⟨.sequential, n, v⟩ : Cursor).advance (c :: rest) =
        (some (c, n), ⟨.sequential, n + 1, v⟩) := by
      rw [Cursor.advance, if_neg (by simp [Cursor.skips])]
      rfl
    rw [hdrop, hadvance] at hcursors
    have hfound := congrArg Prod.fst hnext
    simp only [hdrop, hadvance] at hfound
    cases hfound
    rw [hcursors, Cursors.get?_put_self hk, ← List.drop_drop, hdrop]
    exact ⟨rfl, rfl⟩

/-- **One pass** hands out the child at the index of the cursor and carries the cursor along. -/
theorem pass_of_sequential {p : Pass σ} {n : Nat} {v : List NodeId} (hf : f.Numbered)
    (hP : P < f.size) (hk : (f.cursors P).get? k = some ⟨.sequential, n, v⟩)
    (hnext : f.nextChild P k = (some (p.child, p.index), p.before))
    (hdone : Performed none p.before edits p.after) :
    (f.children P).drop n = p.child :: (f.children P).drop (n + 1) ∧
      p.before.children P = f.children P ∧ p.after.Numbered ∧ P < p.after.size ∧
      ∃ m, (p.after.cursors P).get? k = some ⟨.sequential, m, v⟩ ∧
        Carried (arrivalsOf P edits) (f.children P) (n + 1) (p.after.children P) m := by
  obtain ⟨hdrop, hk'⟩ := nextChild_of_sequential hk hnext hP
  have hstep := alike_nextChild f P k
  have hbefore := hf.nextChild P k
  rw [hnext] at hstep hbefore
  have hP' : P < p.before.size := by rwa [hstep.size]
  obtain ⟨hsize, hafter, -⟩ := hdone.sameOpen hbefore
  obtain ⟨m, hm, hcarried⟩ := hdone.carried hbefore (by simp) hP' hk'
  rw [hstep.children P] at hcarried
  exact ⟨hdrop, hstep.children P, hafter, Nat.lt_of_lt_of_le hP' hsize, m, hm, hcarried⟩

namespace Iterates

variable {edits : Pass σ → List (Forest × Edit)} {n : Nat} {v : List NodeId}

/-- **The children ahead that stay are passed once and in their order.** -/
theorem filter_children {keep : NodeId → Bool} (h : Iterates P k f log ended g)
    (hended : ended = .completed) (hf : f.Numbered) (hP : P < f.size)
    (hk : (f.cursors P).get? k = some ⟨.sequential, n, v⟩)
    (hedits : ∀ p ∈ log, Performed none p.before (edits p) p.after)
    (hkeep : ∀ p ∈ log, ∀ c, keep c = true → stays P (edits p) c = true)
    (hd : ((f.children P).filter keep).Nodup) :
    (log.map Pass.child).filter keep = ((f.children P).drop n).filter keep := by
  induction h generalizing n with
  | done hnext =>
    rw [drop_of_nextChild_none hk hnext]
    rfl
  | cut hne => exact absurd hended hne
  | @pass f _ log _ p hnext _ _ ih =>
    obtain ⟨hedit, hedits⟩ := List.forall_mem_cons.1 hedits
    obtain ⟨hstays, hkeep⟩ := List.forall_mem_cons.1 hkeep
    obtain ⟨hdrop, hsame, hafter, hP', m, hm, hcarried⟩ :=
      pass_of_sequential hf hP hk hnext hedit
    obtain ⟨hahead, hkept⟩ := hcarried.filter_drop
      (fun c hc => (stays_iff.1 (hstays c hc)).1)
      (fun c hmem hc => hedit.mem_children (hsame.symm ▸ hmem) (stays_iff.1 (hstays c hc)).2) hd
    rw [List.map_cons, hdrop, List.filter_cons, List.filter_cons, ← hahead,
      ih hended hafter hP' hm hedits hkeep hkept]

/-- A node ahead is passed at most as often as it stands there and is inserted. -/
theorem count_le_ahead (h : Iterates P k f log ended g) (hf : f.Numbered) (hP : P < f.size)
    (hk : (f.cursors P).get? k = some ⟨.sequential, n, v⟩)
    (hedits : ∀ p ∈ log, Performed none p.before (edits p) p.after) (c : NodeId)
    {stretch : List (Pass σ)} (hstretch : stretch <+: log) :
    (stretch.map Pass.child).count c ≤
      ((f.children P).drop n).count c + (arrivalsOf P (stretch.flatMap edits)).count c := by
  induction h generalizing n stretch with
  | done | cut =>
    rw [List.prefix_nil.1 hstretch]
    exact Nat.zero_le _
  | pass hnext _ _ ih =>
    rcases List.prefix_cons_iff.1 hstretch with rfl | ⟨rest, rfl, hrest⟩
    · exact Nat.zero_le _
    obtain ⟨hedit, hedits⟩ := List.forall_mem_cons.1 hedits
    obtain ⟨hdrop, -, hafter, hP', m, hm, hcarried⟩ := pass_of_sequential hf hP hk hnext hedit
    have hcount := hcarried.count c
    have hih := ih hafter hP' hm hedits hrest
    rw [List.map_cons, hdrop, List.flatMap_cons, arrivalsOf_append, List.count_append,
      List.count_cons, List.count_cons]
    omega

/-- **No node is passed more often than it stood in the list or was inserted since.** -/
theorem count_le (h : Iterates P k f log ended g) (hf : f.Numbered) (hP : P < f.size)
    (hk : (f.cursors P).get? k = some ⟨.sequential, n, v⟩)
    (hedits : ∀ p ∈ log, Performed none p.before (edits p) p.after) (c : NodeId) {p : Pass σ}
    {more : List (Pass σ)} (hstretch : p :: more <:+: log) :
    ((p :: more).map Pass.child).count c ≤
      (p.before.children P).count c + (arrivalsOf P ((p :: more).flatMap edits)).count c := by
  induction h generalizing n with
  | done | cut => cases List.infix_nil.1 hstretch
  | @pass f _ _ _ _ hnext hdone rest ih =>
    obtain ⟨hedit, hlater⟩ := List.forall_mem_cons.1 hedits
    obtain ⟨-, hsame, hafter, hP', m, hm, -⟩ := pass_of_sequential hf hP hk hnext hedit
    rcases List.infix_cons_iff.1 hstretch with hhead | htail
    · have hle := (Iterates.pass hnext hdone rest).count_le_ahead hf hP hk hedits c hhead
      have hdrop := (List.drop_sublist n (f.children P)).count_le c
      obtain ⟨rfl, -⟩ := List.cons_prefix_cons.1 hhead
      rw [hsame]
      omega
    · exact ih hafter hP' hm hlater htail

end Iterates

/-! ## Iterations and walks -/

/-- An iteration over the children of `P`, from `f` by the calls in `log` to `g`, leaves no cursor
open and passes over no child that stays. The edits that the calls make may be listed in any way. -/
structure PassesOnce (P : NodeId) (f : Forest) (log : List (Pass σ)) (ended : WalkEnd)
    (g : Forest) : Prop where
  /-- An iteration is one of the things that a visitor may do. -/
  performed : ∃ edits, Performed none f edits g
  passes : ∀ p ∈ log, ∃ edits, Performed none p.before edits p.after
  /-- The children that stay are passed once and in their order. -/
  once : ended = .completed → ∀ edits : Pass σ → List (Forest × Edit),
    (∀ p ∈ log, Performed none p.before (edits p) p.after) →
      (log.map Pass.child).filter (stays P (log.flatMap edits)) =
        (f.children P).filter (stays P (log.flatMap edits))
  /-- From any pass on a node is passed at most as often as it stands in the list and is
  inserted. -/
  often : ∀ edits : Pass σ → List (Forest × Edit),
    (∀ p ∈ log, Performed none p.before (edits p) p.after) →
      ∀ (p : Pass σ) (more : List (Pass σ)) (c : NodeId), p :: more <:+: log →
        ((p :: more).map Pass.child).count c ≤
          (p.before.children P).count c + (arrivalsOf P ((p :: more).flatMap edits)).count c
  sameOpen : SameOpen f g

theorem stays_of_mem {edits : Pass σ → List (Forest × Edit)} {c : NodeId} {p : Pass σ}
    (h : stays P (log.flatMap edits) c = true) (hp : p ∈ log) : stays P (edits p) c = true := by
  rw [stays_iff] at h ⊢
  constructor
  · intro hc
    obtain ⟨x, hx, hc⟩ := List.mem_flatMap.1 hc
    exact h.1 (List.mem_flatMap.2 ⟨x, List.mem_flatMap.2 ⟨p, hp, hx⟩, hc⟩)
  · intro x hx
    exact h.2 x (List.mem_flatMap.2 ⟨p, hp, hx⟩)

theorem Iterates.passes (h : Iterates P k f log ended g) :
    ∀ p ∈ log, ∃ edits, Performed none p.before edits p.after := by
  induction h with
  | done | cut => exact fun _ hp => by cases hp
  | pass _ hdone _ ih => exact List.forall_mem_cons.2 ⟨hdone, ih⟩

/-- An iteration with a cursor that is opened for it and closed behind it. -/
theorem Iterates.passesOnce (hf : f.Numbered) (hP : P < f.size) (hd : (f.children P).Nodup)
    (h : Iterates P (f.openCursor P .sequential).1 (f.openCursor P .sequential).2 log ended g) :
    PassesOnce P f log ended (g.closeCursor P (f.openCursor P .sequential).1) := by
  have hopen := alike_openCursor f P .sequential
  have hf' := hf.openCursor hP .sequential
  have hP' : P < (f.openCursor P .sequential).2.size := by rwa [hopen.size]
  have hk : ((f.openCursor P .sequential).2.cursors P).get? (f.openCursor P .sequential).1 =
      some ⟨.sequential, 0, []⟩ := by
    rw [cursors_openCursor hP, if_pos rfl]
    exact Cursors.get?_open_self (hf P) .sequential
  obtain ⟨edits, hedits⟩ := h.performed
  have hperformed : Performed none f edits _ := hedits.visited .sequential hP
  refine ⟨⟨edits, hperformed⟩, h.passes, ?_, ?_, (hperformed.sameOpen hf).2.2⟩
  · intro hended edits hedits
    rw [h.filter_children hended hf' hP' hk hedits (fun p hp c hc => stays_of_mem hc hp),
      hopen.children, List.drop_zero]
    rw [hopen.children]
    exact hd.filter _
  · intro edits hedits p more c hstretch
    exact h.count_le hf' hP' hk hedits c hstretch

theorem passesOnce_nothing (hb : (f.node P).hasBlock = false) :
    PassesOnce P f ([] : List (Pass σ)) .completed f where
  performed := ⟨[], .nothing⟩
  passes _ hp := by cases hp
  once _ _ _ := by
    rw [Node.hasBlock, Option.isSome_eq_false_iff, Option.isNone_iff_eq_none] at hb
    rw [children, Node.nodes, hb]
    rfl
  often _ _ p more _ hstretch := by cases List.infix_nil.1 hstretch
  sameOpen := .refl f

theorem each_noting (hvisit : visit.Performs) (hf : f.Numbered) (hd : (f.children P).Nodup)
    (fuel : Nat) (s : σ) :
    let noted := f.each visit.noting P fuel (s, [])
    f.each visit P fuel s = (noted.1, noted.2.1, noted.2.2.1) ∧
      PassesOnce P f noted.2.2.2 noted.1 noted.2.1 := by
  cases hb : (f.node P).hasBlock with
  | false =>
    rw [each, each, hb]
    exact ⟨rfl, passesOnce_nothing hb⟩
  | true =>
    obtain ⟨log, hlog, hiterates⟩ := iterates_eachFrom hvisit P (f.openCursor P .sequential).1 fuel
      (f.openCursor P .sequential).2 s []
    rw [List.nil_append] at hlog
    have heach {τ : Type} (v : Visitor τ) (t : τ) : f.each v P fuel t =
        ((eachFrom v P (f.openCursor P .sequential).1 fuel (f.openCursor P .sequential).2 t).1,
          (eachFrom v P (f.openCursor P .sequential).1 fuel
            (f.openCursor P .sequential).2 t).2.1.closeCursor P (f.openCursor P .sequential).1,
          (eachFrom v P (f.openCursor P .sequential).1 fuel
            (f.openCursor P .sequential).2 t).2.2) := by
      rw [each, hb]
      rfl
    rw [heach, heach, hlog]
    exact ⟨rfl, hiterates.passesOnce hf (lt_size_of_hasBlock hb) hd⟩

/-- **Every level of a walk is an iteration.** -/
theorem walkFrom_level (visit : Visitor σ) (P : NodeId) (k fuel : Nat) (f : Forest) (s : σ) :
    let r := eachFrom visit.level P k fuel f (fuel, s)
    (walkFrom visit P k fuel f s).2 = (r.2.1, r.2.2.2) ∧
      ((walkFrom visit P k fuel f s).1 = .completed ↔ r.1 = .completed) := by
  induction fuel generalizing f s with
  | zero =>
    rw [walkFrom, eachFrom]
    simp
  | succ fuel ih =>
    rw [walkFrom, eachFrom]
    rcases f.nextChild P k with ⟨_ | ⟨child, index⟩, g⟩
    · simp
    · simp only [Visitor.level]
      rcases visit g s child index with ⟨_ | _, h, t⟩ <;> simp only [Nat.add_sub_cancel]
      · simp
      · rcases walk visit child fuel h t with ⟨_ | _ | _, h', t'⟩
        · exact ih h' t'
        · simp
        · simp

theorem performs_level (hvisit : visit.Performs) : visit.level.Performs := by
  intro f s child index
  obtain ⟨edits, hedits⟩ := hvisit f s.2 child index
  unfold Visitor.level
  rcases hr : visit f s.2 child index with ⟨_ | _, g, t⟩ <;> rw [hr] at hedits
  · exact ⟨edits, hedits⟩
  · obtain ⟨edits', hwalk⟩ := (performed_walk hvisit (s.1 - 1)).1 child g t
    exact ⟨_, hedits.append hwalk⟩

end Forest

/-- **Iterations and walks pass the children that stay once.** The visitor may do what can be
performed, to the list it is called for as well. An iteration that ends has then passed every child
that no edit took out or put in once and in their order; no node is passed more often than it stood
in the list or was inserted; and the cursors that are open behind it are those that were open before
it. Each level of a walk is such an iteration, by a visitor that walks below each child. -/
theorem passesOnce_each_and_walk (hvisit : visit.Performs) (hf : f.Numbered)
    (hd : (f.children P).Nodup) (fuel : Nat) (s : σ) :
    (let noted := f.each visit.noting P fuel (s, []);
      f.each visit P fuel s = (noted.1, noted.2.1, noted.2.2.1) ∧
        PassesOnce P f noted.2.2.2 noted.1 noted.2.1) ∧
    (let noted := f.each visit.level.noting P fuel ((fuel, s), []);
      (f.walk visit P (fuel + 1) s).2 = (noted.2.1, noted.2.2.1.2) ∧
        ((f.walk visit P (fuel + 1) s).1 = .completed ↔ noted.1 = .completed) ∧
        PassesOnce P f noted.2.2.2 noted.1 noted.2.1) := by
  refine ⟨each_noting hvisit hf hd fuel s, ?_⟩
  obtain ⟨hlevel, hpasses⟩ := each_noting (performs_level hvisit) hf hd fuel (fuel, s)
  have hwalk : (f.walk visit P (fuel + 1) s).2 = ((f.each visit.level P fuel (fuel, s)).2.1,
        (f.each visit.level P fuel (fuel, s)).2.2.2) ∧
      ((f.walk visit P (fuel + 1) s).1 = .completed ↔
        (f.each visit.level P fuel (fuel, s)).1 = .completed) := by
    rw [walk, each]
    split
    · exact ⟨rfl, Iff.rfl⟩
    · obtain ⟨hsame, hended⟩ := walkFrom_level visit P (f.openCursor P .sequential).1 fuel
        (f.openCursor P .sequential).2 s
      refine ⟨?_, hended⟩
      simp only [hsame]
  rw [hlevel] at hwalk
  exact ⟨hwalk.1, hwalk.2, hpasses⟩

/-- At the first child the visitor visits the children itself, takes one out and moves one to the
front; later that one is moved to the end. -/
theorem passesOnce_moved :
    let inner : Visitor Unit := fun f s child _ => (child ≠ 2, f, s)
    let visit : Visitor Unit := fun f s child _ =>
      if child = 1 then
        (true, (Edit.insert 0 .start [3]).run ((Edit.detach 2).run (f.each inner 0 9 s).2.1), s)
      else if child = 4 then (true, (Edit.insert 0 .stop [3]).run f, s)
      else (true, f, s)
    let f := Act.runAll .empty [.edit (.new .root), .edit (.new (.rule "a")),
      .edit (.new (.rule "b")), .edit (.new (.rule "c")), .edit (.new (.rule "d")),
      .edit (.new (.rule "e")), .edit (.insert 0 .stop [1, 2, 3, 4, 5])]
    let noted := f.each visit.noting 0 9 ((), [])
    visit.Performs ∧ f.Numbered ∧ f.children 0 = [1, 2, 3, 4, 5] ∧ noted.1 = .completed ∧
      noted.2.2.2.map Pass.child = [1, 4, 5, 3] ∧ noted.2.1.children 0 = [1, 4, 5, 3] ∧
      PassesOnce 0 f noted.2.2.2 noted.1 noted.2.1 := by
  intro inner visit f
  have hinner : inner.Performs := fun f _ _ _ => ⟨[], .nothing⟩
  have hvisit : visit.Performs := by
    intro f s child index
    simp only [visit]
    split
    · obtain ⟨edits, hedits⟩ := performed_each hinner 0 9 f s
      exact ⟨_, hedits.append (.edit (.detach 2) (.edit (.insert 0 .start [3]) .nothing))⟩
    · split
      · exact ⟨_, .edit (.insert 0 .stop [3]) .nothing⟩
      · exact ⟨[], .nothing⟩
  have hf : f.Numbered := (Act.sound_runAll sound_empty (by decide +kernel)).numbered
  have hchildren : f.children 0 = [1, 2, 3, 4, 5] := by decide +kernel
  have hd : (f.children 0).Nodup := by
    rw [hchildren]
    decide
  obtain ⟨⟨-, hpasses⟩, -⟩ := passesOnce_each_and_walk hvisit hf hd 9 ()
  exact ⟨hvisit, hf, hchildren, by decide +kernel, by decide +kernel, by decide +kernel, hpasses⟩

end Stylesheet
