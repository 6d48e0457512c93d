import Stylesheet.Proofs.Forest.Growth
import Stylesheet.Proofs.Forest.Replacing

/-!
# Sequences of edits

An `Edit` makes a node or edits a tree, and `trail` are the forests that a sequence of edits goes
through, from `Forest.empty` on. `wellFormed_trail_iff`: all of them are well-formed exactly if no
list is inserted that names a node twice, or a root and one of its children.
-/

set_option autoImplicit false

namespace Stylesheet

/-- What can be done to a forest. -/
inductive Edit where
  | new (data : NodeData)
  | withBlock (id : NodeId)
  | read (files : Files) (text : String) (file : Option String) (setting : MapSetting)
  | copy (id : NodeId) (options : Forest.CopyOptions)
  | insert (parent : NodeId) (anchor : Anchor) (incoming : List NodeId)
  | insertBefore (id added : NodeId)
  | insertAfter (id added : NodeId)
  | replace (id : NodeId) (replacements : List NodeId)
  | detach (id : NodeId)
  | removeChild (parent child : NodeId)
  | removeAt (parent : NodeId) (index : Nat)
  | clear (parent : NodeId)
  | moveTo (id container : NodeId)
  | copyBefore (id : NodeId)
  | copyAfter (id : NodeId)

namespace Edit

/-- A step that fails leaves the forest as it was. -/
def orElse {ε : Type} (f : Forest) : Except ε Forest → Forest
  | .ok g => g
  | .error _ => f

/-- The forest behind an edit. -/
def run (f : Forest) : Edit → Forest
  | new data => (f.add (Node.new data)).2
  | withBlock id => f.ensureBlock id
  | read files text file setting => orElse f ((f.parse files text file setting).map (·.2))
  | copy id options => (f.copy id options).2
  | insert parent anchor incoming => orElse f (f.insert parent anchor incoming)
  | insertBefore id added => orElse f (f.insertBefore id added)
  | insertAfter id added => orElse f (f.insertAfter id added)
  | replace id replacements => (f.replace id replacements).1
  | detach id => (f.detach id).2
  | removeChild parent child => orElse f (f.removeChild parent child)
  | removeAt parent index => (f.removeAt parent index).2
  | clear parent => (f.clear parent).2
  | moveTo id container => (f.moveTo id container).1
  | copyBefore id => orElse f ((f.copyBefore id).map (·.2))
  | copyAfter id => orElse f ((f.copyAfter id).map (·.2))

/-- A new sibling of `id`, as `insertBefore` and `insertAfter` put it. -/
def beside (f : Forest) (id : NodeId) (anchor : Anchor) (added : NodeId) :
    Except TreeError Forest :=
  match f.parent? id with
  | none => .error .detached
  | some parent => f.insert parent anchor [added]

theorem run_copyBefore (f : Forest) (id : NodeId) : run f (copyBefore id) =
    orElse f (beside (f.copy id {}).2 id (.before id) (f.copy id {}).1) := by
  simp only [run, Forest.copyBefore]
  rw [show (f.copy id {}).2.insertBefore id (f.copy id {}).1 =
    beside (f.copy id {}).2 id (.before id) (f.copy id {}).1 from rfl]
  cases beside (f.copy id {}).2 id (.before id) (f.copy id {}).1 <;> rfl

theorem run_copyAfter (f : Forest) (id : NodeId) : run f (copyAfter id) =
    orElse f (beside (f.copy id {}).2 id (.after id) (f.copy id {}).1) := by
  simp only [run, Forest.copyAfter]
  rw [show (f.copy id {}).2.insertAfter id (f.copy id {}).1 =
    beside (f.copy id {}).2 id (.after id) (f.copy id {}).1 from rfl]
  cases beside (f.copy id {}).2 id (.after id) (f.copy id {}).1 <;> rfl

/-- The nodes that an edit names. -/
def names : Edit → List NodeId
  | new _ => []
  | withBlock id => [id]
  | read _ _ _ _ => []
  | copy id _ => [id]
  | insert parent anchor incoming => parent :: anchor.reference?.toList ++ incoming
  | insertBefore id added => [id, added]
  | insertAfter id added => [id, added]
  | replace id replacements => id :: replacements
  | detach id => [id]
  | removeChild parent child => [parent, child]
  | removeAt parent _ => [parent]
  | clear parent => [parent]
  | moveTo id container => [id, container]
  | copyBefore id => [id]
  | copyAfter id => [id]

/-- A list that is inserted and not refused is distinct. -/
def Clean (f : Forest) : Edit → Prop
  | insert parent anchor incoming =>
    f.refusal? parent anchor incoming = none → f.Distinct anchor.reference? incoming
  | _ => True

end Edit

namespace Forest

variable {f g : Forest} {id parent : NodeId} {ids : List NodeId}

/-! ## Edits of several steps -/

/-- The forest stays well-formed and keeps its nodes. -/
def Stays (f g : Forest) : Prop := g.WellFormed ∧ g.size = f.size

/-- Any node can be inserted by itself. -/
theorem WellFormed.insert_one (h : f.WellFormed) {anchor : Anchor} (hid : id < f.size)
    (hg : f.insert parent anchor [id] = .ok g) : Stays f g := by
  have hs : ∀ c ∈ [id], c < f.size := by
    intro c hc
    rw [List.mem_singleton.1 hc]
    exact hid
  have hr := refusal?_of_insert hg
  refine ⟨(h.insert_iff hs hr hg).2 ⟨?_, ?_⟩, (h.insert_joins hs hr hg).size⟩
  · exact (List.nodup_singleton id).filter _
  · intro c hc r hmem hroot
    obtain ⟨hc, hkind⟩ := List.mem_filter.1 hc
    rw [List.mem_singleton.1 hmem, ← List.mem_singleton.1 hc] at hroot
    simp [hroot] at hkind

theorem WellFormed.beside (h : f.WellFormed) {added : NodeId} {anchor : Anchor}
    (ha : added < f.size) (hg : Edit.beside f id anchor added = .ok g) : Stays f g := by
  unfold Edit.beside at hg
  split at hg
  · cases hg
  · exact h.insert_one ha hg

theorem keptByReplacing_wellFormed (P parent : NodeId) :
    KeptByReplacing P parent (fun f _ => f.WellFormed) (fun f c => c < f.size)
      (fun f c => c < f.size) where
  clear h _ _ := ⟨h.clear _, fun c hc => by rw [size_clear]; exact h.lt_size hc,
    fun c hc => by rwa [size_clear]⟩
  single _ hr _ := hr
  insert _ h hc hg := by
    obtain ⟨hwf, hsize⟩ := h.insert_one hc hg
    exact ⟨hwf, fun c hc => by rwa [hsize], fun c hc => by rwa [hsize]⟩
  detach c h := h.detach c

theorem WellFormed.replace (h : f.WellFormed) (hs : ∀ c ∈ ids, c < f.size) (id : NodeId) :
    (f.replace id ids).1.WellFormed :=
  KeptByReplacing.replace_forest (keptByReplacing_wellFormed id) h fun r hr => .inr (hs r hr)

theorem WellFormed.cleanRaws (h : f.WellFormed) (id : NodeId) (keepBetween : Bool) :
    (f.cleanRaws id keepBetween).WellFormed :=
  h.same (size_cleanRaws ..) (node_cleanRaws Node.kind (fun _ _ => rfl) f id keepBetween)
    (node_cleanRaws Node.nodes (fun _ _ => rfl) f id keepBetween)
    (node_cleanRaws Node.parent (fun _ _ => rfl) f id keepBetween)

theorem WellFormed.moveTo (h : f.WellFormed) (hid : id < f.size) (container : NodeId) :
    (f.moveTo id container).1.WellFormed := by
  unfold Forest.moveTo
  simp only
  split
  · exact h
  · have hclean := h.cleanRaws id (f.top id = f.top container)
    have hsize := size_cleanRaws f id (f.top id = f.top container)
    split
    · exact hclean
    · next hg => exact (hclean.insert_one (by rwa [hsize]) hg).1

theorem WellFormed.ensureBlock (h : f.WellFormed) (id : NodeId) : (f.ensureBlock id).WellFormed :=
  h.same (size_modify ..) (node_modify_congr Node.kind rfl) (node_modify_congr Node.nodes rfl)
    (node_modify_congr Node.parent rfl)

theorem copy_lt_size (f : Forest) (id : NodeId) (options : CopyOptions) :
    (f.copy id options).1 < (f.copy id options).2.size := by
  obtain ⟨hid, hext, -⟩ := plant_spec f none ((f.outline id).map (f.copiedElement options))
  unfold copy
  rw [hid, hext.size]
  cases (f.outline id).map (f.copiedElement options) <;> simp

theorem WellFormed.copy (h : f.WellFormed) (id : NodeId) (options : CopyOptions) :
    (f.copy id options).2.WellFormed :=
  h.grown (grown_copy h.root h.leaf id options)

end Forest

/-! ## One edit -/

namespace Edit

variable {f : Forest} {e : Edit}

theorem wellFormed_orElse {ε : Type} {r : Except ε Forest} (h : f.WellFormed)
    (hr : ∀ g, r = .ok g → g.WellFormed) : (orElse f r).WellFormed := by
  cases r with
  | error e => exact h
  | ok g => exact hr g rfl

theorem wellFormed_beside (h : f.WellFormed) {id added : NodeId} (anchor : Anchor)
    (ha : added < f.size) : (orElse f (beside f id anchor added)).WellFormed :=
  wellFormed_orElse h fun _ hg => (h.beside ha hg).1

theorem wellFormed_copy_beside (h : f.WellFormed) (id : NodeId) (anchor : Anchor) :
    (orElse f (beside (f.copy id {}).2 id anchor (f.copy id {}).1)).WellFormed :=
  wellFormed_orElse h fun _ hg => ((h.copy id {}).beside (Forest.copy_lt_size f id {}) hg).1

/-- **What one edit keeps**: a well-formed forest stays so, unless a list is inserted that is not
distinct. -/
theorem wellFormed_run (h : f.WellFormed) (hn : ∀ id ∈ e.names, id < f.size) :
    (e.run f).WellFormed ↔ e.Clean f := by
  cases e with
  | insert parent anchor incoming =>
    have hs : ∀ id ∈ incoming, id < f.size := fun id hid => hn id (by simp [names, hid])
    simp only [run, Clean]
    cases hr : f.refusal? parent anchor incoming with
    | some e =>
      rw [Forest.insert_of_refusal? hr]
      exact ⟨fun _ he => (by cases he), fun _ => h⟩
    | none =>
      have hg := Forest.insert_of_accepted hr
      rw [hg]
      exact (h.insert_iff hs hr hg).trans ⟨fun hd _ => hd, fun hd => hd rfl⟩
  | new data => exact iff_of_true (h.grown (Forest.grown_add f data)) trivial
  | withBlock id => exact iff_of_true (h.ensureBlock id) trivial
  | read files text file setting =>
    refine iff_of_true ?_ trivial
    simp only [run]
    cases hr : f.parse files text file setting with
    | error e => exact h
    | ok r => exact h.grown (Forest.grown_parse hr)
  | copy id options => exact iff_of_true (h.copy id options) trivial
  | insertBefore id added =>
    exact iff_of_true (wellFormed_beside h (.before id) (hn added (by simp [names]))) trivial
  | insertAfter id added =>
    exact iff_of_true (wellFormed_beside h (.after id) (hn added (by simp [names]))) trivial
  | replace id replacements =>
    exact iff_of_true (h.replace (fun c hc => hn c (.tail _ hc)) id) trivial
  | detach id => exact iff_of_true (h.detach id) trivial
  | removeChild parent child =>
    refine iff_of_true (wellFormed_orElse h fun g hg => ?_) trivial
    unfold Forest.removeChild at hg
    split at hg
    · cases hg
    · cases hg
      exact h.removeAt parent _
  | removeAt parent index => exact iff_of_true (h.removeAt parent index) trivial
  | clear parent => exact iff_of_true (h.clear parent) trivial
  | moveTo id container =>
    exact iff_of_true (h.moveTo (hn id (by simp [names])) container) trivial
  | copyBefore id =>
    rw [run_copyBefore]
    exact iff_of_true (wellFormed_copy_beside h id (.before id)) trivial
  | copyAfter id =>
    rw [run_copyAfter]
    exact iff_of_true (wellFormed_copy_beside h id (.after id)) trivial

/-! ## All edits -/

/-- The forests that a sequence of edits goes through. -/
def trail (f : Forest) : List Edit → List Forest
  | [] => [f]
  | e :: es => f :: trail (e.run f) es

/-- Every edit names nodes that are there. -/
def Named (f : Forest) : List Edit → Prop
  | [] => True
  | e :: es => (∀ id ∈ e.names, id < f.size) ∧ Named (e.run f) es

/-- Every list that is inserted and not refused is distinct. -/
def AllClean (f : Forest) : List Edit → Prop
  | [] => True
  | e :: es => e.Clean f ∧ AllClean (e.run f) es

instance (f : Forest) (reference : Option NodeId) (incoming : List NodeId) :
    Decidable (f.Distinct reference incoming) :=
  inferInstanceAs (Decidable (_ ∧ _))

instance (f : Forest) : (e : Edit) → Decidable (e.Clean f)
  | insert _ _ _ => inferInstanceAs (Decidable (_ → _))
  | new _ | withBlock _ | read _ _ _ _ | copy _ _ | insertBefore _ _ | insertAfter _ _
  | replace _ _ | detach _ | removeChild _ _ | removeAt _ _ | clear _ | moveTo _ _
  | copyBefore _ | copyAfter _ => inferInstanceAs (Decidable True)

instance decidableNamed : (f : Forest) → (es : List Edit) → Decidable (Named f es)
  | _, [] => inferInstanceAs (Decidable True)
  | f, e :: es =>
    have := decidableNamed (e.run f) es
    inferInstanceAs (Decidable (_ ∧ _))

instance decidableAllClean : (f : Forest) → (es : List Edit) → Decidable (AllClean f es)
  | _, [] => inferInstanceAs (Decidable True)
  | f, e :: es =>
    have := decidableAllClean (e.run f) es
    inferInstanceAs (Decidable (_ ∧ _))

end Edit

open Edit

theorem Forest.WellFormed.trail_iff {f : Forest} (h : f.WellFormed) {es : List Edit}
    (hn : Named f es) : (∀ g ∈ trail f es, g.WellFormed) ↔ AllClean f es := by
  induction es generalizing f with
  | nil => simp [trail, AllClean, h]
  | cons e es ih =>
    have hstep := wellFormed_run h hn.1
    rw [trail, List.forall_mem_cons, AllClean, ← hstep]
    constructor
    · rintro ⟨-, hall⟩
      have hrun : (e.run f).WellFormed := by
        apply hall
        cases es <;> exact .head _
      exact ⟨hrun, (ih hrun hn.2).1 hall⟩
    · rintro ⟨hrun, hclean⟩
      exact ⟨h, (ih hrun hn.2).2 hclean⟩

theorem Forest.wellFormed_empty : Forest.empty.WellFormed where
  once := List.nodup_nil
  parent _ _ := by simp [Forest.children_of_le, Forest.parent?_of_le, Forest.empty, Forest.size]
  root _ _ hc := by rw [Forest.children_of_le (Nat.zero_le _)] at hc; cases hc
  leaf _ _ := Forest.children_of_le (Nat.zero_le _)
  acyclic id h := by
    obtain ⟨p, hc, -⟩ := Relation.TransGen.head'_iff.1 h
    unfold Forest.Child at hc
    rw [Forest.children_of_le (Nat.zero_le _)] at hc
    cases hc

theorem Edit.foldl_mem_trail (es : List Edit) (f : Forest) :
    es.foldl Edit.run f ∈ trail f es := by
  induction es generalizing f with
  | nil => exact .head _
  | cons e es ih => exact .tail _ (ih (e.run f))

/-- The forest that edits without refused lists lead to is well-formed, and is what it evaluates
to. -/
theorem Edit.exists_last (es : List Edit) (p : Forest → Prop) (hn : Named .empty es)
    (hclean : AllClean .empty es) (hp : p (es.foldl Edit.run .empty)) :
    ∃ f ∈ trail .empty es, f.WellFormed ∧ p f :=
  ⟨_, foldl_mem_trail es _,
    (Forest.wellFormed_empty.trail_iff hn).2 hclean _ (foldl_mem_trail es _), hp⟩

/-- **The links along any sequence of edits**: the forests that nodes made by constructors, texts
and copies and edits of any kind lead to are well-formed, exactly as long as no list is inserted
that names a node twice or together with its root. -/
theorem wellFormed_trail_iff {es : List Edit} (hn : Named .empty es) :
    (∀ g ∈ trail .empty es, g.WellFormed) ↔ AllClean .empty es :=
  Forest.wellFormed_empty.trail_iff hn

theorem wellFormed_trail_moved :
    let es := [.read .empty "a\x7bb:c\x7d" none .auto, .new (.comment "d"), .copy 1 {},
      .insert 0 .start [3, 1, 4], .replace 1 [2, 1, 3, 3], .moveTo 2 4, .clear 0]
    Named .empty es ∧ AllClean .empty es ∧ ∀ g ∈ trail .empty es, g.WellFormed := by
  intro es
  have hn : Named .empty es := by decide +kernel
  have hclean : AllClean .empty es := by decide +kernel
  exact ⟨hn, hclean, (wellFormed_trail_iff hn).2 hclean⟩

/-- A rule that a list names twice ends up twice among the children. -/
theorem not_wellFormed_repeated :
    ¬ ∀ es, Named .empty es → ∀ g ∈ trail .empty es, g.WellFormed := by
  intro h
  have := h [.new .root, .new (.rule "a"), .insert 0 .stop [1, 1]] (by decide +kernel)
    _ (List.getLast_mem (by simp [trail]))
  have hn := this.nodup 0
  revert hn
  decide +kernel

end Stylesheet
