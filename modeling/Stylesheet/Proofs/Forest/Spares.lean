import Stylesheet.Proofs.Cursor.Follows
import Stylesheet.Proofs.Forest.Outline

/-!
# Edits that spare some nodes

`Spares old f g` says that a step from `f` to `g` does no more to the nodes `old` than to take some
of them out of the lists that they stand in. `Edit.Avoids` says of an edit that it puts no node of
`old` anywhere, and nothing into one that has no block. `Edit.spares_run`: such an edit spares the
nodes, and so does a sequence of such edits (`Edit.spares_trail`).

That other nodes hold none of `old` (`Apart`) is what keeps the edits that move all children of a
node, or change all nodes below one, away from them.
-/

set_option autoImplicit false

namespace Stylesheet

namespace Forest

variable {f g h : Forest} {old ids incoming : List NodeId} {id parent : NodeId} {anchor : Anchor}

/-- The nodes `old` are there, and no other node has one of them as a child. -/
structure Apart (f : Forest) (old : List NodeId) : Prop where
  bound : ∀ id ∈ old, id < f.size
  children : ∀ p ∉ old, ∀ c ∈ f.children p, c ∉ old

/-- A step that keeps all of the nodes `old`, but for the places where they stand. -/
structure Spares (old : List NodeId) (f g : Forest) : Prop where
  size : f.size ≤ g.size
  element : ∀ id ∈ old, (g.node id).toElement = (f.node id).toElement
  hasBlock : ∀ id ∈ old, (g.node id).hasBlock = (f.node id).hasBlock
  children : ∀ p, ((g.children p).filter (· ∈ old)).Sublist ((f.children p).filter (· ∈ old))

theorem Spares.refl (old : List NodeId) (f : Forest) : Spares old f f :=
  ⟨Nat.le_refl _, fun _ _ => rfl, fun _ _ => rfl, fun _ => .refl _⟩

theorem Spares.trans (hfg : Spares old f g) (hgh : Spares old g h) : Spares old f h where
  size := Nat.le_trans hfg.size hgh.size
  element id hid := (hgh.element id hid).trans (hfg.element id hid)
  hasBlock id hid := (hgh.hasBlock id hid).trans (hfg.hasBlock id hid)
  children p := (hgh.children p).trans (hfg.children p)

theorem Apart.step (ha : f.Apart old) (hs : Spares old f g) : g.Apart old where
  bound id hid := Nat.lt_of_lt_of_le (ha.bound id hid) hs.size
  children p hp c hc hold := by
    have hmem := (hs.children p).subset (List.mem_filter.2 ⟨hc, decide_eq_true hold⟩)
    exact ha.children p hp c (List.mem_of_mem_filter hmem) hold

/-! ## Nodes -/

theorem spares_modify (f : Forest) (id : NodeId) {k : Node → Node}
    (hnodes : ((k (f.node id)).nodes.filter (· ∈ old)).Sublist
      ((f.node id).nodes.filter (· ∈ old)))
    (hold : id ∈ old → (k (f.node id)).toElement = (f.node id).toElement ∧
      (k (f.node id)).hasBlock = (f.node id).hasBlock) :
    Spares old f (f.modify id k) where
  size := Nat.le_of_eq (size_modify ..).symm
  element p hp := by
    rw [node_modify]
    split
    · next h =>
      obtain ⟨rfl, -⟩ := h
      exact (hold hp).1
    · rfl
  hasBlock p hp := by
    rw [node_modify]
    split
    · next h =>
      obtain ⟨rfl, -⟩ := h
      exact (hold hp).2
    · rfl
  children p := by
    unfold children
    rw [node_modify]
    split
    · next h =>
      obtain ⟨rfl, -⟩ := h
      exact hnodes
    · exact .refl _

theorem spares_unlink (f : Forest) (id : NodeId) :
    Spares old f (f.modify id fun n => { n with parent := none }) :=
  spares_modify f id (.refl _) fun _ => ⟨rfl, rfl⟩

theorem spares_modifyRaws (f : Forest) (hid : id ∉ old) (k : Raws → Raws) :
    Spares old f (f.modifyRaws id k) :=
  spares_modify f id (.refl _) fun hold => absurd hold hid

/-- What a fold over nodes spares if each step does. -/
theorem spares_foldl {step : Forest → NodeId → Forest}
    (hstep : ∀ f id, id ∈ ids → Spares old f (step f id)) : Spares old f (ids.foldl step f) := by
  induction ids generalizing f with
  | nil => exact .refl old f
  | cons id ids ih =>
    exact (hstep f id (.head _)).trans (ih fun f c hc => hstep f c (.tail _ hc))

theorem hasBlock_of_mem {c : NodeId} (h : c ∈ f.children id) : (f.node id).hasBlock = true := by
  rw [Node.hasBlock, Option.isSome_iff_ne_none]
  intro hnone
  rw [children_of_leaf hnone] at h
  cases h

/-! ## Taking nodes out -/

theorem spares_removeAt (f : Forest) (parent : NodeId) (index : Nat) :
    Spares old f (f.removeAt parent index).2 := by
  cases hc : (f.children parent)[index]? with
  | none =>
    rw [removeAt_of_none hc]
    exact .refl old f
  | some child =>
    rw [removeAt_of_some hc]
    refine (spares_modify f parent ?_ fun _ => ⟨rfl, ?_⟩).trans (spares_unlink _ child)
    · exact (List.eraseIdx_sublist _ _).filter _
    · exact (hasBlock_of_mem (List.mem_of_getElem? hc)).symm

theorem spares_detach (f : Forest) (id : NodeId) : Spares old f (f.detach id).2 := by
  obtain ⟨p, i, -, -, hd⟩ | ⟨-, hd⟩ := detach_cases f id
  · rw [hd]
    exact spares_removeAt f p i
  · rw [hd]
    exact spares_unlink f id

theorem spares_clear (f : Forest) (parent : NodeId) : Spares old f (f.clear parent).2 := by
  refine (spares_modify f parent ?_ fun _ => ⟨rfl, ?_⟩).trans
    (spares_foldl fun f id _ => spares_unlink f id)
  · rw [show (Node.nodes { f.node parent with
        children := (f.node parent).children.map fun _ => []
        cursors := (f.node parent).cursors.mapCursors Cursor.cleared }) = [] by
      unfold Node.nodes
      cases (f.node parent).children <;> rfl]
    exact List.nil_sublist _
  · exact Option.isSome_map

/-! ## Putting nodes in -/

theorem spares_flatten (f : Forest) (reference : Option NodeId) (incoming : List NodeId) :
    Spares old f (f.flatten reference incoming).2 := by
  induction incoming generalizing f with
  | nil => exact .refl old f
  | cons id rest ih =>
    by_cases hr : f.kind id = .root
    · rw [flatten_root hr]
      exact (spares_clear f id).trans (ih _)
    · rw [flatten_single hr]
      exact ih f

/-- What is put in for nodes that are apart is apart as well. -/
theorem Apart.not_mem_flatten (ha : f.Apart old) (hin : ∀ c ∈ incoming, c ∉ old)
    {reference : Option NodeId} {c : NodeId} (hc : c ∈ (f.flatten reference incoming).1) :
    c ∉ old := by
  induction incoming generalizing f with
  | nil => cases hc
  | cons id rest ih =>
    obtain ⟨hid, hin⟩ := List.forall_mem_cons.1 hin
    by_cases hr : f.kind id = .root
    · rw [flatten_root hr, List.mem_append] at hc
      rcases hc with hc | hc
      · exact ha.children id hid c hc
      · exact ih (ha.step (spares_clear f id)) hin hc
    · rw [flatten_single hr] at hc
      split at hc
      · exact ih ha hin hc
      · rcases List.mem_cons.1 hc with rfl | hc
        · exact hid
        · exact ih ha hin hc

theorem spares_adopt (f : Forest) (parent : NodeId) (sample : Option String) (hid : id ∉ old) :
    Spares old f (f.adopt parent sample id) :=
  (spares_detach f id).trans (spares_modify _ id (.refl _) fun hold => absurd hold hid)

theorem spares_splice (f : Forest) (index : Nat) (hids : ∀ c ∈ ids, c ∉ old)
    (hp : parent ∈ old → (f.node parent).hasBlock = true) :
    Spares old f (f.splice parent index ids) := by
  refine spares_modify f parent ?_ fun hold => ⟨rfl, (hp hold).symm⟩
  have hnone : ids.filter (· ∈ old) = [] := by
    rw [List.filter_eq_nil_iff]
    simpa using hids
  show (((f.node parent).nodes.take index ++ ids ++ (f.node parent).nodes.drop index).filter
    (· ∈ old)).Sublist _
  rw [List.filter_append, List.filter_append, hnone, List.append_nil, ← List.filter_append,
    List.take_append_drop]

/-- **What an insertion spares**: all nodes that are not inserted, unless one of them gets its block
by it. -/
theorem spares_insert (ha : f.Apart old) (hin : ∀ c ∈ incoming, c ∉ old)
    (hp : parent ∈ old → (f.node parent).hasBlock = true)
    (hg : f.insert parent anchor incoming = .ok g) : Spares old f g := by
  have hflat : Spares old f (f.flatten anchor.reference? incoming).2 :=
    spares_flatten f anchor.reference? incoming
  have hids : ∀ c ∈ (f.flatten anchor.reference? incoming).1, c ∉ old :=
    fun c hc => ha.not_mem_flatten hin hc
  rcases insert_cases hg with ⟨-, rfl⟩ | ⟨sample, g', -, rfl, -, rfl⟩
  · exact hflat
  · have hall := hflat.trans (spares_foldl fun g c hc => spares_adopt g parent sample (hids c hc))
    exact hall.trans (spares_splice _ _ hids fun hold => by rw [hall.hasBlock _ hold, hp hold])

/-- The reference of an insertion stands in a block. -/
theorem spares_insert_by (ha : f.Apart old) (hin : ∀ c ∈ incoming, c ∉ old)
    {reference : NodeId} (href : anchor.reference? = some reference)
    (hg : f.insert parent anchor incoming = .ok g) : Spares old f g := by
  have hr := refusal?_of_insert hg
  obtain ⟨-, hchild, -⟩ := refusal?_eq_none hr
  exact spares_insert ha hin (fun _ => hasBlock_of_mem (hchild reference href)) hg

/-! ## Replacing and moving -/

theorem not_mem_singleton (h : id ∉ old) : ∀ c ∈ [id], c ∉ old := by
  intro c hc
  rwa [List.mem_singleton.1 hc]

theorem keptByReplacing_spares (P parent : NodeId) : KeptByReplacing P parent
    (fun g _ => Spares old f g ∧ g.Apart old) (fun _ c => c ∉ old) (fun _ c => c ∉ old) where
  clear := fun ⟨hs, ha⟩ hr _ =>
    ⟨⟨hs.trans (spares_clear _ _), ha.step (spares_clear _ _)⟩, ha.children _ hr, fun _ hc => hc⟩
  single _ hr _ := hr
  insert := fun href ⟨hs, ha⟩ hc hg => by
    have hstep := spares_insert_by ha (not_mem_singleton hc) href hg
    exact ⟨⟨hs.trans hstep, ha.step hstep⟩, fun _ hc => hc, fun _ hc => hc⟩
  detach := fun c ⟨hs, ha⟩ =>
    ⟨hs.trans (spares_detach _ c), ha.step (spares_detach _ c)⟩

theorem spares_replace (ha : f.Apart old) (hids : ∀ r ∈ ids, r = id ∨ r ∉ old) :
    Spares old f (f.replace id ids).1 :=
  (KeptByReplacing.replace_forest (keptByReplacing_spares id) ⟨.refl old f, ha⟩ hids).1

/-- Below a node that is apart all nodes are. -/
theorem Apart.not_mem_outlineWithin (ha : f.Apart old) : ∀ (n : Nat) (p : NodeId), p ∉ old →
    ∀ c ∈ (f.outlineWithin n p).preorder, c ∉ old := by
  intro n
  induction n with
  | zero => exact fun p hp => not_mem_singleton hp
  | succ n ih =>
    intro p hp c hc
    rw [outlineWithin] at hc
    rcases hids : (f.node p).children with _ | ids
    · rw [hids] at hc
      exact not_mem_singleton hp c hc
    · rw [hids] at hc
      rcases List.mem_cons.1 hc with rfl | hc
      · exact hp
      · obtain ⟨t, ht, hc⟩ := Tree.mem_preorderAll.1 hc
        obtain ⟨d, hd, rfl⟩ := List.mem_map.1 ht
        exact ih d (ha.children p hp d (by rwa [children_of_block hids])) c hc

theorem spares_cleanRaws (ha : f.Apart old) (hid : id ∉ old) (keepBetween : Bool) :
    Spares old f (f.cleanRaws id keepBetween) :=
  spares_foldl fun g c hc =>
    spares_modifyRaws g (ha.not_mem_outlineWithin f.size id hid c hc) _

theorem spares_moveTo (ha : f.Apart old) (hid : id ∉ old)
    (hp : parent ∈ old → (f.node parent).hasBlock = true) :
    Spares old f (f.moveTo id parent).1 := by
  unfold moveTo
  simp only
  split
  · exact .refl old f
  · have hclean := spares_cleanRaws ha hid (f.top id = f.top parent)
    split
    · exact hclean
    · next hg =>
      refine hclean.trans (spares_insert (ha.step hclean) (not_mem_singleton hid) ?_ hg)
      exact fun hold => by rw [hclean.hasBlock _ hold, hp hold]

/-! ## New nodes -/

/-- What is added is neither one of the nodes nor above one. -/
theorem spares_grown (ha : f.Apart old) (hg : Grown f g) : Spares old f g where
  size := Nat.le_of_lt hg.size
  element id hid := by rw [hg.node id (ha.bound id hid)]
  hasBlock id hid := by rw [hg.node id (ha.bound id hid)]
  children p := by
    rcases hg.cases p with hp | ⟨h1, h2⟩ | hp
    · rw [hg.children_eq hp]
    · rw [List.filter_eq_nil_iff.2]
      · exact List.nil_sublist _
      · intro c hc hold
        have hlt := ha.bound c (of_decide_eq_true hold)
        exact Nat.lt_irrefl c (Nat.lt_trans (Nat.lt_of_lt_of_le hlt h1)
          (hg.spans.child p c h1 h2 hc).1)
    · rw [children_of_le hp]
      exact List.nil_sublist _

end Forest

/-! ## One edit -/

namespace Edit

open Forest

variable {f : Forest} {old : List NodeId} {e : Edit}

/-- The edit puts no node of `old` anywhere, and nothing into one that has no block. A node may be
replaced, and then also stay. -/
def Avoids (old : List NodeId) (f : Forest) : Edit → Prop
  | withBlock id => id ∉ old
  | insert parent _ incoming =>
    (parent ∈ old → (f.node parent).hasBlock = true) ∧ ∀ c ∈ incoming, c ∉ old
  | insertBefore _ added | insertAfter _ added => added ∉ old
  | replace id replacements => ∀ r ∈ replacements, r = id ∨ r ∉ old
  | moveTo id container => (container ∈ old → (f.node container).hasBlock = true) ∧ id ∉ old
  | _ => True

theorem spares_orElse {ε : Type} {r : Except ε Forest}
    (hr : ∀ g, r = .ok g → Spares old f g) : Spares old f (orElse f r) := by
  cases r with
  | error e => exact .refl old f
  | ok g => exact hr g rfl

theorem spares_beside (ha : f.Apart old) {id added : NodeId} {anchor : Anchor}
    (hadded : added ∉ old) (href : anchor.reference? = some id) {g : Forest}
    (hg : beside f id anchor added = .ok g) : Spares old f g := by
  unfold beside at hg
  split at hg
  · cases hg
  · exact spares_insert_by ha (not_mem_singleton hadded) href hg

theorem spares_copy (ha : f.Apart old) (hf : f.Sound) (id : NodeId) (options : CopyOptions) :
    Spares old f (f.copy id options).2 :=
  spares_grown ha (grown_copy hf.root hf.leaf id options)

theorem spares_copy_beside (ha : f.Apart old) (hf : f.Sound) {id : NodeId} {anchor : Anchor}
    (href : anchor.reference? = some id) :
    Spares old f (orElse f (beside (f.copy id {}).2 id anchor (f.copy id {}).1)) := by
  have hcopy := spares_copy ha hf id {}
  have hnew : (f.copy id {}).1 ∉ old := by
    intro hold
    have := ha.bound _ hold
    rw [show (f.copy id {}).1 = f.size from (plant_spec f none _).1] at this
    exact Nat.lt_irrefl _ this
  exact spares_orElse fun g hg => hcopy.trans (spares_beside (ha.step hcopy) hnew href hg)

/-- **What one edit spares.** -/
theorem spares_run (ha : f.Apart old) (hf : f.Sound) (he : e.Avoids old f) :
    Spares old f (e.run f) := by
  cases e with
  | new data => exact spares_grown ha (grown_add f data)
  | withBlock id => exact spares_modify f id (.refl _) fun hold => absurd hold he
  | read files text file setting =>
    refine spares_orElse fun g hg => ?_
    cases hr : f.parse files text file setting with
    | error e => rw [hr] at hg; cases hg
    | ok r =>
      rw [hr] at hg
      cases hg
      exact spares_grown ha (grown_parse hr)
  | copy id options => exact spares_copy ha hf id options
  | insert parent anchor incoming =>
    exact spares_orElse fun g hg => spares_insert ha he.2 he.1 hg
  | insertBefore id added => exact spares_orElse fun g hg => spares_beside ha he rfl hg
  | insertAfter id added => exact spares_orElse fun g hg => spares_beside ha he rfl hg
  | replace id replacements => exact spares_replace ha he
  | detach id => exact spares_detach f id
  | removeChild parent child =>
    refine spares_orElse fun g hg => ?_
    unfold Forest.removeChild at hg
    split at hg
    · cases hg
    · cases hg
      exact spares_removeAt f parent _
  | removeAt parent index => exact spares_removeAt f parent index
  | clear parent => exact spares_clear f parent
  | moveTo id container => exact spares_moveTo ha he.2 he.1
  | copyBefore id =>
    rw [run_copyBefore]
    exact spares_copy_beside ha hf rfl
  | copyAfter id =>
    rw [run_copyAfter]
    exact spares_copy_beside ha hf rfl

/-! ## All edits -/

/-- Every edit avoids the nodes. -/
def AllAvoid (old : List NodeId) (f : Forest) : List Edit → Prop
  | [] => True
  | e :: es => e.Avoids old f ∧ AllAvoid old (e.run f) es

instance (old : List NodeId) (f : Forest) : (e : Edit) → Decidable (e.Avoids old f)
  | withBlock _ | insertBefore _ _ | insertAfter _ _ => inferInstanceAs (Decidable (¬ _))
  | insert _ _ _ | moveTo _ _ => inferInstanceAs (Decidable ((_ → _) ∧ _))
  | replace _ _ => inferInstanceAs (Decidable (∀ r ∈ _, _ ∨ _))
  | new _ | read _ _ _ _ | copy _ _ | detach _ | removeChild _ _ | removeAt _ _ | clear _
  | copyBefore _ | copyAfter _ => inferInstanceAs (Decidable True)

instance decidableAllAvoid (old : List NodeId) : (f : Forest) → (es : List Edit) →
    Decidable (AllAvoid old f es)
  | _, [] => inferInstanceAs (Decidable True)
  | f, e :: es =>
    have := decidableAllAvoid old (e.run f) es
    inferInstanceAs (Decidable (_ ∧ _))

/-- **What a sequence of edits spares**, all along. -/
theorem spares_trail {g : Forest} {es : List Edit} (ha : f.Apart old) (hf : f.Sound)
    (hn : Named f es) (hs : AllAvoid old f es) (hg : g ∈ trail f es) :
    Spares old f g ∧ g.Sound := by
  induction es generalizing f with
  | nil =>
    rw [trail, List.mem_singleton] at hg
    rw [hg]
    exact ⟨.refl old f, hf⟩
  | cons e es ih =>
    rw [trail, List.mem_cons] at hg
    rcases hg with rfl | hg
    · exact ⟨.refl old g, hf⟩
    · have hrun := spares_run ha hf hs.1
      obtain ⟨hrest, hsound⟩ := ih (ha.step hrun) (sound_run hf hn.1) hn.2 hs.2 hg
      exact ⟨hrun.trans hrest, hsound⟩

end Edit

end Stylesheet
