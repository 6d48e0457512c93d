import Stylesheet.Proofs.Cursor.Steady
import Stylesheet.Proofs.Forest.Stable

/-!
# Open cursors

`SameOpen` says that the same cursors are open in two forests. Edits move cursors along (`Adjusts`),
but neither open nor close one, whatever the forest is like (`Edit.adjusts_run`); a cursor that was
opened and closed again leaves no trace (`SameOpen.closeCursor`).
-/

set_option autoImplicit false

namespace Stylesheet

namespace Forest

variable {f g h : Forest} {id parent : NodeId}

/-! ## The same cursors are open -/

/-- The same cursors are open. -/
def SameOpen (f g : Forest) : Prop :=
  ∀ id, (g.cursors id).active.map Prod.fst = (f.cursors id).active.map Prod.fst

theorem SameOpen.refl (f : Forest) : SameOpen f f := fun _ => rfl

theorem SameOpen.trans (hfg : SameOpen f g) (hgh : SameOpen g h) : SameOpen f h :=
  fun id => (hgh id).trans (hfg id)

theorem sameOpen_nextChild (f : Forest) (parent : NodeId) (k : Nat) :
    SameOpen f (f.nextChild parent k).2 := by
  unfold nextChild
  split
  · exact .refl f
  · refine node_modify_congr (fun n => n.cursors.active.map Prod.fst) ?_
    simp [Cursors.put, Function.comp_def]

/-- A cursor that was opened is closed again. -/
theorem SameOpen.closeCursor {mode : CursorMode} (hid : id < f.size) (hf : f.Numbered)
    (hs : id < g.size) (h : SameOpen (f.openCursor id mode).2 g) :
    SameOpen f (g.closeCursor id (f.openCursor id mode).1) := by
  intro p
  have hp := h p
  rw [cursors_openCursor hid] at hp
  rw [cursors_closeCursor hs]
  split
  · next hpid =>
    rw [if_pos hpid, hpid] at hp
    rw [hpid]
    -- closing looks at numbers only, so it does the same to the cursors as they were opened
    have hfilter (cs : Cursors) (k : Nat) : (cs.close k).active.map Prod.fst =
        (cs.active.map Prod.fst).filter (· ≠ k) := by
      rw [Cursors.close, List.filter_map]
      rfl
    have hopen := Cursors.close_open (hf id) mode
    rw [hfilter, hp, ← hfilter]
    exact congrArg (List.map Prod.fst) hopen
  · next hpid => rwa [if_neg hpid] at hp

/-! ## Cursors are moved along -/

/-- No node is lost, and the cursors over the children of each are moved along. -/
structure Adjusts (f g : Forest) : Prop where
  size : f.size ≤ g.size
  cursors : ∀ id, ∃ m, g.cursors id = (f.cursors id).mapCursors m

theorem mapCursors_mapCursors (cs : Cursors) (m m' : Cursor → Cursor) :
    (cs.mapCursors m).mapCursors m' = cs.mapCursors (m' ∘ m) := by
  simp [Cursors.mapCursors]

theorem Adjusts.of_cursors (hs : f.size ≤ g.size) (hc : ∀ id, g.cursors id = f.cursors id) :
    Adjusts f g :=
  ⟨hs, fun id => ⟨fun c => c, by rw [hc, Cursors.mapCursors_same]⟩⟩

theorem Adjusts.refl (f : Forest) : Adjusts f f := .of_cursors (Nat.le_refl _) fun _ => rfl

theorem Adjusts.trans (hfg : Adjusts f g) (hgh : Adjusts g h) : Adjusts f h := by
  refine ⟨Nat.le_trans hfg.size hgh.size, fun id => ?_⟩
  obtain ⟨m, hm⟩ := hfg.cursors id
  obtain ⟨m', hm'⟩ := hgh.cursors id
  exact ⟨m' ∘ m, by rw [hm', hm, mapCursors_mapCursors]⟩

theorem Adjusts.sameOpen (h : Adjusts f g) : SameOpen f g := by
  intro id
  obtain ⟨m, hm⟩ := h.cursors id
  rw [hm]
  simp [Cursors.mapCursors, Function.comp_def]

theorem Adjusts.numbered (h : Adjusts f g) (hf : f.Numbered) : g.Numbered := by
  intro id
  obtain ⟨m, hm⟩ := h.cursors id
  rw [hm]
  exact Cursors.numbered_mapCursors (hf id) m

/-- A change of one node that moves its cursors along. -/
theorem adjusts_modify (f : Forest) (id : NodeId) {k : Node → Node} (m : Cursor → Cursor)
    (hk : ∀ n, (k n).cursors = n.cursors.mapCursors m) : Adjusts f (f.modify id k) := by
  refine ⟨Nat.le_of_eq (size_modify ..).symm, fun p => ?_⟩
  unfold Forest.cursors
  rw [node_modify]
  split
  · next hp => exact ⟨m, by rw [hk, hp.1]⟩
  · exact ⟨fun c => c, (Cursors.mapCursors_same _).symm⟩

theorem stable_adjusts (f : Forest) : Stable (Adjusts f) :=
  fun g id _ m _ hk h => h.trans (adjusts_modify g id m hk)

/-! ## New nodes -/

/-- A node that is added has no cursors, as one that is not there. -/
theorem adjusts_add (f : Forest) {n : Node} (hn : n.cursors = .empty) :
    Adjusts f (f.add n).2 := by
  refine .of_cursors (by simp) fun p => ?_
  rcases Nat.lt_trichotomy p f.size with hp | rfl | hp
  · unfold Forest.cursors
    rw [node_add_of_lt n hp]
  · rw [cursors_of_le (Nat.le_refl _), Forest.cursors]
    rw [show f.size = (f.add n).1 from rfl, node_add_self, hn]
  · rw [cursors_of_le (Nat.le_of_lt hp), cursors_of_le (by rw [size_add]; exact hp)]

end Forest

/-- **No edit opens or closes a cursor**. -/
theorem Edit.adjusts_run (f : Forest) (e : Edit) : f.Adjusts (e.run f) := by
  have hP := Forest.stable_adjusts f
  have hadd (g : Forest) (n : Node) (hn : n.cursors = .empty) (_ : True) (h : f.Adjusts g) :
      f.Adjusts (g.add n).2 := h.trans (Forest.adjusts_add g hn)
  refine stable_run hP (fun g data => hadd g _ rfl trivial) ?_ ?_ (.refl f) e
  · intro g files text file setting id k hk h
    exact hP.parse (Q := fun _ => True) hadd (fun _ _ => trivial)
      (fun _ => h.trans (.of_cursors (Nat.le_refl _) fun _ => rfl)) hk
  · intro g id options h
    exact hP.plant (Q := fun _ => True) hadd none _ (fun _ _ => trivial) h

end Stylesheet
