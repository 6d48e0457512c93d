import Stylesheet.Proofs.Cursor.Sequential

/-!
# Cursors in mode `traversal` while much is done

Of a sequence of edits, `insertedBy` are the nodes that it puts into lists of children, a node that
is moved included. As long as every edit finds a well-formed forest and leaves one (`Sane`), a
cursor in mode `traversal` that stays open can still be told what it has handed out
(`Performed.tracked`). Where nothing is inserted, that stays the same, lists of children only lose
nodes, and nothing comes to stand below a node (`Performed.reach`).
-/

set_option autoImplicit false

namespace Stylesheet

open Forest Relation

/-- The nodes that an edit puts into lists of children. -/
def Edit.inserted (f : Forest) (e : Edit) : List NodeId :=
  (List.range f.size).flatMap fun P => e.arrivals P f

namespace Edit

variable {f : Forest}

theorem inserted_eq_nil {e : Edit} (h : ∀ P, e.arrivals P f = []) : e.inserted f = [] :=
  List.flatMap_eq_nil_iff.2 fun P _ => h P

/-- An insertion that is not refused puts the flattened list among the children of one node. -/
theorem inserted_insert {parent : NodeId} (hparent : parent < f.size) (anchor : Anchor)
    (incoming : List NodeId) : (insert parent anchor incoming).inserted f =
      if f.refusal? parent anchor incoming = none then (f.flatten anchor.reference? incoming).1
      else [] := by
  have hone (n : Nat) (hn : parent < n) (xs : List NodeId) :
      (List.range n).flatMap (fun P => if parent = P then xs else []) = xs := by
    induction n with
    | zero => cases hn
    | succ n ih =>
      rw [List.range_succ, List.flatMap_append, List.flatMap_singleton]
      rcases Nat.lt_or_eq_of_le (Nat.le_of_lt_succ hn) with hless | rfl
      · rw [ih hless, if_neg (Nat.ne_of_lt hless), List.append_nil]
      · rw [List.flatMap_eq_nil_iff.2 fun P hP => if_neg (Nat.ne_of_gt (List.mem_range.1 hP)),
          if_pos rfl, List.nil_append]
  by_cases hr : f.refusal? parent anchor incoming = none
  · rw [if_pos hr, inserted, ← hone f.size hparent (f.flatten anchor.reference? incoming).1]
    simp only [arrivals, Forest.arrivals, hr, and_true]
  · rw [if_neg hr]
    exact inserted_eq_nil fun P => if_neg fun h => hr h.2

theorem length_inserted_insert_le {parent id : NodeId} (hparent : parent < f.size)
    (hid : f.kind id ≠ .root) (anchor : Anchor) :
    ((insert parent anchor [id]).inserted f).length ≤ 1 := by
  rw [inserted_insert hparent]
  split
  · rw [Forest.flatten_single hid, Forest.flatten]
    split <;> simp
  · exact Nat.zero_le 1

theorem kind_run_insert (f : Forest) (parent : NodeId) (anchor : Anchor) (incoming : List NodeId)
    (id : NodeId) : ((insert parent anchor incoming).run f).kind id = f.kind id := by
  rw [run]
  cases hg : f.insert parent anchor incoming with
  | error e => rfl
  | ok g => exact Forest.kind_insert hg id

end Edit

namespace Forest

variable {f g : Forest} {P id x : NodeId} {k : Nat} {own : Option (NodeId × Nat)}
  {edits edits' : List (Forest × Edit)} {handed : List NodeId}

/-- The nodes that edits put into lists of children. -/
def insertedBy (edits : List (Forest × Edit)) : List NodeId :=
  edits.flatMap fun x => x.2.inserted x.1

theorem insertedBy_append (edits edits' : List (Forest × Edit)) :
    insertedBy (edits ++ edits') = insertedBy edits ++ insertedBy edits' :=
  List.flatMap_append ..

/-- Every edit names nodes that are there, finds a well-formed forest and leaves one. -/
def Sane (edits : List (Forest × Edit)) : Prop :=
  ∀ x ∈ edits, (∀ id ∈ x.2.names, id < x.1.size) ∧ x.1.WellFormed ∧ (x.2.run x.1).WellFormed

theorem sane_append : Sane (edits ++ edits') ↔ Sane edits ∧ Sane edits' := List.forall_mem_append

theorem WellFormed.sound (h : f.WellFormed) (hf : f.Numbered) : f.Sound where
  bound _ _ hc := h.lt_size hc
  root := h.root
  leaf := h.leaf
  numbered := hf

theorem Alike.wellFormed (hfg : Alike f g) (h : f.WellFormed) : g.WellFormed :=
  h.same hfg.size hfg.kind hfg.children hfg.parent?

/-- An edit that keeps a forest well-formed. -/
theorem follows_sane {e : Edit} (hs : Sane ((f, e) :: edits)) (hf : f.Numbered) :
    Follows P f (e.run f) (e.arrivals P f) := by
  obtain ⟨hnames, hbefore, hbehind⟩ := hs _ (.head _)
  exact Edit.follows_run (hbefore.sound hf) hnames (hbefore.nodup P) (hbehind.nodup P)

/-- Only one cursor and one list of children matter. -/
theorem Tracks.congr (h : f.Tracks P k handed) (hchildren : g.children P = f.children P)
    (hk : (g.cursors P).get? k = (f.cursors P).get? k) : g.Tracks P k handed := by
  unfold Tracks at h ⊢
  rwa [hchildren, hk]

/-- **A cursor that stays open** can be told what it has handed out since it was put into the list:
what it had, where nothing is inserted. -/
theorem Performed.tracked (h : Performed own f edits g) (hs : Sane edits) (hf : f.Numbered)
    (hown : own ≠ some (P, k)) (ht : f.Tracks P k handed) :
    ∃ handed', g.Tracks P k handed' ∧ (insertedBy edits = [] → handed' = handed) := by
  induction h generalizing handed with
  | nothing => exact ⟨handed, ht, fun _ => rfl⟩
  | @edit _ f _ edits e _ ih =>
    have hfollows := follows_sane (P := P) hs hf
    obtain ⟨handed', ht', hsame⟩ := ih (fun x hx => hs x (.tail _ hx))
      ((e.adjusts_run f).numbered hf) hown (hfollows.tracks k handed ht)
    refine ⟨handed', ht', fun hnone => ?_⟩
    obtain ⟨hfirst, hrest⟩ := List.append_eq_nil_iff.1 (hnone : e.inserted f ++ _ = [])
    have harrivals : e.arrivals P f = [] :=
      List.flatMap_eq_nil_iff.1 hfirst P (List.mem_range.2 ht.lt_size)
    rw [hsame hrest, harrivals, filter_not_mem_nil]
  | @change _ f _ _ id k' hnodes hcursors _ ih =>
    refine ih hs ((adjusts_change id hcursors).numbered hf) hown (ht.congr ?_ ?_)
    · exact node_modify_congr Node.nodes (hnodes _) P
    · exact congrArg (Cursors.get? · k) (node_modify_congr Node.cursors (hcursors _) P)
  | @next p j f _ _ _ ih =>
    exact ih hs (hf.nextChild p j) hown (ht.congr ((alike_nextChild f p j).children P)
      (get?_nextChild_of_ne fun he => hown (congrArg some he)))
  | @visit _ f g _ edits edits' p mode hp inner _ ihinner ihrest =>
    obtain ⟨hinner, hrest⟩ := sane_append.1 hs
    have hopen := ht
    obtain ⟨next, hk, -⟩ := hopen
    have hne := hf.openCursor_ne p mode hk
    obtain ⟨hgrown, hnumbered, -⟩ := inner.sameOpen (hf.openCursor hp mode)
    rw [(alike_openCursor f p mode).size] at hgrown
    have hp' := Nat.lt_of_lt_of_le hp hgrown
    obtain ⟨handed', ht', hsame⟩ := ihinner hinner (hf.openCursor hp mode)
      (fun he => hne (Option.some.inj he)) (ht.congr ((alike_openCursor f p mode).children P)
        ((get?_openCursor_of_some hp mode hk).trans hk.symm))
    obtain ⟨handed'', ht'', hsame'⟩ := ihrest hrest (hnumbered.closeCursor hp' _) hown
      (ht'.congr ((alike_closeCursor ..).children P) (get?_closeCursor_of_ne hp' hne))
    refine ⟨handed'', ht'', fun hnone => ?_⟩
    rw [insertedBy_append, List.append_eq_nil_iff] at hnone
    rw [hsame' hnone.2, hsame hnone.1]

/-- Where nothing is inserted, lists of children only lose nodes. -/
theorem Performed.children_subset (h : Performed own f edits g) (hs : Sane edits)
    (hf : f.Numbered) (hnone : insertedBy edits = []) (hP : P < f.size) :
    g.children P ⊆ f.children P := by
  induction h with
  | nothing => exact List.Subset.refl _
  | @edit _ f _ edits e _ ih =>
    have hfollows := follows_sane (P := P) hs hf
    obtain ⟨hfirst, hrest⟩ := List.append_eq_nil_iff.1 (hnone : e.inserted f ++ _ = [])
    have harrivals : e.arrivals P f = [] :=
      List.flatMap_eq_nil_iff.1 hfirst P (List.mem_range.2 hP)
    have hstep : (e.run f).children P ⊆ f.children P := by
      intro c hc
      have := hfollows.arrived hP c hc
      rw [harrivals] at this
      exact this.resolve_right List.not_mem_nil
    exact List.Subset.trans (ih (fun x hx => hs x (.tail _ hx)) ((e.adjusts_run f).numbered hf)
      hrest (Nat.lt_of_lt_of_le hP hfollows.size)) hstep
  | @change _ f _ _ id k' hnodes hcursors _ ih =>
    have hstep : (f.modify id k').children P = f.children P :=
      node_modify_congr Node.nodes (hnodes _) P
    rw [← hstep]
    exact ih hs ((adjusts_change id hcursors).numbered hf) hnone (by rwa [size_modify])
  | @next p j f _ _ _ ih =>
    rw [← (alike_nextChild f p j).children P]
    exact ih hs (hf.nextChild p j) hnone (by rwa [(alike_nextChild f p j).size])
  | @visit _ f g _ edits edits' p mode hp inner _ ihinner ihrest =>
    obtain ⟨hinner, hrest⟩ := sane_append.1 hs
    rw [insertedBy_append, List.append_eq_nil_iff] at hnone
    obtain ⟨hgrown, hnumbered, -⟩ := inner.sameOpen (hf.openCursor hp mode)
    have hsize := (alike_openCursor f p mode).size
    rw [hsize] at hgrown
    have hbefore := ihinner hinner (hf.openCursor hp mode) hnone.1 (hsize.symm ▸ hP)
    have hbehind := ihrest hrest (hnumbered.closeCursor (Nat.lt_of_lt_of_le hp hgrown) _) hnone.2
      (by rw [(alike_closeCursor ..).size]; exact Nat.lt_of_lt_of_le hP hgrown)
    rw [(alike_openCursor f p mode).children] at hbefore
    rw [(alike_closeCursor ..).children] at hbehind
    exact List.Subset.trans hbehind hbefore

/-- Where nothing is inserted, nothing comes to stand below a node. -/
theorem Performed.reach (h : Performed own f edits g) (hs : Sane edits) (hw : f.WellFormed)
    (hf : f.Numbered) (hnone : insertedBy edits = []) (hid : id < f.size)
    (hx : ReflTransGen g.Child id x) : ReflTransGen f.Child id x := by
  have hboth : ReflTransGen f.Child id x ∧ x < f.size := by
    induction hx with
    | refl => exact ⟨.refl, hid⟩
    | tail _ hc ih =>
      have hchild : f.Child _ _ := h.children_subset hs hf hnone ih.2 hc
      exact ⟨ih.1.tail hchild, hw.lt_size hchild⟩
  exact hboth.1

end Forest

end Stylesheet
