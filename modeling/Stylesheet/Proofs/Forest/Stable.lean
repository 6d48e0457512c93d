import Stylesheet.Proofs.Forest.Edits

/-!
# What edits keep node by node

Apart from new nodes, an edit is a sequence of changes of single nodes. Each of these leaves the
input of the node alone and moves the cursors over its children along. What is kept by such changes
(`Stable`) and by new nodes is kept by all edits (`Edit.stable_run`), whatever the forest is like.
-/

set_option autoImplicit false

namespace Stylesheet

theorem Cursors.mapCursors_same (cs : Cursors) : (cs.mapCursors fun c => c) = cs := by
  simp [mapCursors]

namespace Forest

/-- What is kept by the changes of single nodes that edits make. -/
def Stable (P : Forest → Prop) : Prop :=
  ∀ (f : Forest) (id : NodeId) (k : Node → Node) (m : Cursor → Cursor),
    (∀ n, (k n).source.input = n.source.input) →
    (∀ n, (k n).cursors = n.cursors.mapCursors m) → P f → P (f.modify id k)

namespace Stable

variable {P : Forest → Prop} {f g : Forest}

/-- Changes that leave the cursors alone. -/
theorem rest (hP : Stable P) (id : NodeId) {k : Node → Node}
    (hs : ∀ n, (k n).source.input = n.source.input) (hc : ∀ n, (k n).cursors = n.cursors)
    (h : P f) : P (f.modify id k) :=
  hP f id k (fun c => c) hs (fun n => by rw [hc, Cursors.mapCursors_same]) h

theorem foldl {step : Forest → NodeId → Forest} (hstep : ∀ f id, P f → P (step f id))
    (ids : List NodeId) (h : P f) : P (ids.foldl step f) := by
  induction ids generalizing f with
  | nil => exact h
  | cons id ids ih => exact ih (hstep f id h)

theorem removeAt (hP : Stable P) (parent : NodeId) (index : Nat) (h : P f) :
    P (f.removeAt parent index).2 := by
  unfold Forest.removeAt
  split
  · exact h
  · exact hP.rest _ (fun _ => rfl) (fun _ => rfl)
      (hP f parent _ (·.removed index) (fun _ => rfl) (fun _ => rfl) h)

theorem detach (hP : Stable P) (id : NodeId) (h : P f) : P (f.detach id).2 := by
  unfold Forest.detach
  split
  · exact hP.removeAt _ _ h
  · exact hP.rest id (fun _ => rfl) (fun _ => rfl) h

theorem clear (hP : Stable P) (parent : NodeId) (h : P f) : P (f.clear parent).2 := by
  unfold Forest.clear
  exact foldl (fun _ _ => hP.rest _ (by intro _; rfl) (by intro _; rfl)) _
    (hP f parent _ Cursor.cleared (fun _ => rfl) (fun _ => rfl) h)

theorem flatten (hP : Stable P) (reference : Option NodeId) (incoming : List NodeId) (h : P f) :
    P (f.flatten reference incoming).2 := by
  induction incoming generalizing f with
  | nil => exact h
  | cons id rest ih =>
    by_cases hr : f.kind id = .root
    · rw [flatten_root hr]
      exact ih (hP.clear id h)
    · rw [flatten_single hr]
      exact ih h

theorem adopt (hP : Stable P) (parent : NodeId) (sample : Option String) (id : NodeId) (h : P f) :
    P (f.adopt parent sample id) :=
  hP.rest id (fun _ => rfl) (fun _ => rfl) (hP.detach id h)

theorem insert (hP : Stable P) {parent : NodeId} {anchor : Anchor} {incoming : List NodeId}
    (h : P f) (hg : f.insert parent anchor incoming = .ok g) : P g := by
  have hflat := hP.flatten anchor.reference? incoming h
  rcases insert_cases hg with ⟨-, rfl⟩ | ⟨sample, g', -, rfl, -, rfl⟩
  · exact hflat
  · exact hP _ parent _ (·.inserted _ _) (fun _ => rfl) (fun _ => rfl)
      (foldl (fun _ id => hP.adopt parent _ id) _ hflat)

theorem keptByReplacing (hP : Stable P) (Q parent : NodeId) :
    KeptByReplacing Q parent (fun f _ => P f) (fun _ _ => True) (fun _ _ => True) where
  clear h _ _ := ⟨hP.clear _ h, fun _ _ => trivial, fun _ _ => trivial⟩
  single _ _ _ := trivial
  insert _ h _ hg := ⟨hP.insert h hg, fun _ _ => trivial, fun _ _ => trivial⟩
  detach c h := hP.detach c h

theorem replace (hP : Stable P) (id : NodeId) (ids : List NodeId) (h : P f) :
    P (f.replace id ids).1 :=
  KeptByReplacing.replace_forest (hP.keptByReplacing id) h fun _ _ => .inr trivial

theorem moveTo (hP : Stable P) (id container : NodeId) (h : P f) : P (f.moveTo id container).1 := by
  unfold Forest.moveTo
  simp only
  split
  · exact h
  · have hclean : P (f.cleanRaws id (f.top id = f.top container)) :=
      foldl (fun _ _ => hP.rest _ (by intro _; rfl) (by intro _; rfl)) _ h
    split
    · exact hclean
    · next hg => exact hP.insert hclean hg

/-! ## New trees -/

section

variable {Q : Element → Prop}

mutual

/-- Planting adds nodes one by one. -/
theorem plant (hP : Stable P)
    (hadd : ∀ f n, n.cursors = .empty → Q n.toElement → P f → P (f.add n).2) {f : Forest}
    (parent : Option NodeId) : (t : Tree Element) → (∀ e ∈ t.preorder, Q e) → P f →
    P (f.plant parent t).2
  | .leaf e, ht, h => hadd f _ rfl (ht e (by simp [Tree.preorder])) h
  | .block e ts, ht, h => by
    rw [Tree.preorder] at ht
    exact hP.rest _ (fun _ => rfl) (fun _ => rfl) (hP.plantAll hadd _ ts
      (fun e he => ht e (List.mem_cons_of_mem _ he)) (hadd f _ rfl (ht e List.mem_cons_self) h))

theorem plantAll (hP : Stable P)
    (hadd : ∀ f n, n.cursors = .empty → Q n.toElement → P f → P (f.add n).2) {f : Forest}
    (parent : NodeId) : (ts : List (Tree Element)) → (∀ e ∈ Tree.preorderAll ts, Q e) → P f →
    P (f.plantAll parent ts).2
  | [], _, h => h
  | t :: ts, ht, h => by
    rw [Tree.preorderAll] at ht
    exact hP.plantAll hadd _ ts (fun e he => ht e (List.mem_append_right _ he))
      (hP.plant hadd _ t (fun e he => ht e (List.mem_append_left _ he)) h)

end

/-- Reading adds an input and the nodes that come from it. -/
theorem parse (hP : Stable P)
    (hadd : ∀ f n, n.cursors = .empty → Q n.toElement → P f → P (f.add n).2)
    (hQ : ∀ (i : Input) n, Q (i.element f.inputs.size n)) (hinput : ∀ i, P (f.addInput i).2)
    {files : Files} {text : String} {file : Option String} {setting : MapSetting} {id : NodeId}
    (hg : f.parse files text file setting = .ok (id, g)) : P g := by
  unfold Forest.parse at hg
  split at hg
  · cases hg
  · next i _ =>
    simp only at hg
    unfold parseInput at hg
    split at hg
    · cases hg
    · next hr =>
      split at hr
      · cases hr
      · next t _ =>
        cases hr
        cases hg
        refine hP.rest _ (by intro _; rfl) (by intro _; rfl)
          (hP.plant hadd none _ (fun e he => ?_) (hinput i))
        rw [Tree.preorder_map, List.mem_map] at he
        obtain ⟨n, -, rfl⟩ := he
        exact hQ i n

end

end Stable

end Forest

namespace Edit

open Forest (Stable)

variable {P : Forest → Prop}

theorem stable_orElse {ε : Type} {f : Forest} {r : Except ε Forest} (h : P f)
    (hr : ∀ g, r = .ok g → P g) : P (orElse f r) := by
  cases r with
  | error e => exact h
  | ok g => exact hr g rfl

theorem stable_beside (hP : Stable P) (anchor : Anchor) {f g : Forest} {id added : NodeId}
    (h : P f) (hg : beside f id anchor added = .ok g) : P g := by
  unfold beside at hg
  split at hg
  · cases hg
  · exact hP.insert h hg

/-- **What edits keep node by node** they keep altogether, if new nodes keep it. -/
theorem stable_run (hP : Stable P) (hnew : ∀ f data, P f → P (f.add (Node.new data)).2)
    (hread : ∀ (f : Forest) (files : Files) (text : String) (file : Option String)
      (setting : MapSetting) (id : NodeId) (g : Forest),
      f.parse files text file setting = .ok (id, g) → P f → P g)
    (hcopy : ∀ (f : Forest) (id : NodeId) (options : Forest.CopyOptions),
      P f → P (f.copy id options).2)
    {f : Forest} (h : P f) (e : Edit) : P (e.run f) := by
  cases e with
  | new data => exact hnew f data h
  | withBlock id => exact hP.rest id (fun _ => rfl) (fun _ => rfl) h
  | read files text file setting =>
    refine stable_orElse h fun g hg => ?_
    rcases hr : f.parse files text file setting with e | ⟨id, g'⟩ <;> rw [hr] at hg <;> cases hg
    exact hread f files text file setting id _ hr h
  | copy id options => exact hcopy f id options h
  | insert parent anchor incoming => exact stable_orElse h fun _ => hP.insert h
  | insertBefore id added =>
    exact stable_orElse h fun _ => stable_beside hP (.before id) h
  | insertAfter id added =>
    exact stable_orElse h fun _ => stable_beside hP (.after id) h
  | replace id replacements => exact hP.replace id replacements h
  | detach id => exact hP.detach id h
  | removeChild parent child =>
    refine stable_orElse h fun g hg => ?_
    unfold Forest.removeChild at hg
    split at hg <;> cases hg
    exact hP.removeAt _ _ h
  | removeAt parent index => exact hP.removeAt parent index h
  | clear parent => exact hP.clear parent h
  | moveTo id container => exact hP.moveTo id container h
  | copyBefore id =>
    rw [run_copyBefore]
    exact stable_orElse h fun _ => stable_beside hP _ (hcopy f id {} h)
  | copyAfter id =>
    rw [run_copyAfter]
    exact stable_orElse h fun _ => stable_beside hP _ (hcopy f id {} h)

end Edit

end Stylesheet
