import Stylesheet.Proofs.Cursor.Follows

/-!
# Sequential cursors while trees are edited

A cursor in mode `sequential` keeps nothing but an index. `Carried` says what is left of a list and
an index when the list was edited and the index moved along: apart from the nodes that were added,
what stands behind the cursor stood there before, what stands ahead stood ahead, and both keep their
order. It is shown for one removal and one insertion, then for the steps of an edit, and so for all
edits (`Edit.carries_run`). Unlike for a cursor in mode `traversal` nothing is assumed of the forest.
-/

set_option autoImplicit false

namespace Stylesheet

variable {xs ys zs ids added added' : List NodeId} {i l m n : Nat}

/-! ## One list and one index -/

/-- The list `ys` with the index `m` is what an edit that adds `added` makes of `xs` and `n`. -/
structure Carried (added xs : List NodeId) (n : Nat) (ys : List NodeId) (m : Nat) : Prop where
  behind : ((ys.take m).filter (· ∉ added)).Sublist (xs.take n)
  ahead : ((ys.drop m).filter (· ∉ added)).Sublist (xs.drop n)
  count : ∀ x, (ys.drop m).count x ≤ (xs.drop n).count x + added.count x

theorem filter_not_mem_of_subset (h : xs ⊆ ids) : xs.filter (· ∉ ids) = [] := by
  rw [List.filter_eq_nil_iff]
  intro x hx
  simpa using h hx

theorem Carried.of_sublists (hbehind : (ys.take m).Sublist (xs.take n))
    (hahead : (ys.drop m).Sublist (xs.drop n)) : Carried [] xs n ys m where
  behind := List.filter_sublist.trans hbehind
  ahead := List.filter_sublist.trans hahead
  count x := Nat.le_trans (hahead.count_le x) (Nat.le_add_right ..)

theorem Carried.refl (xs : List NodeId) (n : Nat) : Carried [] xs n xs n :=
  .of_sublists (.refl _) (.refl _)

theorem Carried.trans (h : Carried added xs l ys m) (h' : Carried added' ys m zs n) :
    Carried (added ++ added') xs l zs n where
  behind := by
    rw [Forest.filter_not_mem_append, List.filter_comm]
    exact (h'.behind.filter _).trans h.behind
  ahead := by
    rw [Forest.filter_not_mem_append, List.filter_comm]
    exact (h'.ahead.filter _).trans h.ahead
  count x := by
    have := h.count x
    have := h'.count x
    rw [List.count_append]
    omega

theorem Carried.removed (xs : List NodeId) (n : Nat) (hi : i < xs.length) :
    Carried [] xs n (xs.eraseIdx i) (if i < n then n - 1 else n) := by
  have hlen : (xs.take i).length = i := by rw [List.length_take]; omega
  have hsplit : xs = xs.take i ++ xs[i] :: xs.drop (i + 1) := by simp
  rw [List.eraseIdx_eq_take_drop_succ]
  generalize xs.take i = a, xs[i] = y, xs.drop (i + 1) = b at hlen hsplit ⊢
  subst hsplit hlen
  by_cases hn : a.length < n
  · obtain ⟨d, rfl⟩ := Nat.exists_eq_add_of_lt hn
    rw [if_pos hn]
    have hbehind : (a ++ y :: b).take (a.length + d + 1) = a ++ y :: b.take d := by
      rw [Nat.add_assoc, List.take_length_add_append, List.take_succ_cons]
    have hahead : (a ++ y :: b).drop (a.length + d + 1) = b.drop d := by
      rw [Nat.add_assoc, List.drop_length_add_append, List.drop_succ_cons]
    refine .of_sublists ?_ ?_
    · rw [hbehind, Nat.add_sub_cancel, List.take_length_add_append]
      exact (List.sublist_cons_self y _).append_left a
    · rw [hahead, Nat.add_sub_cancel, List.drop_length_add_append]
  · have hle := Nat.not_lt.1 hn
    rw [if_neg hn]
    refine .of_sublists ?_ ?_
    · rw [List.take_append_of_le_length hle, List.take_append_of_le_length hle]
    · rw [List.drop_append_of_le_length hle, List.drop_append_of_le_length hle]
      exact (List.sublist_cons_self y b).append_left _

theorem Carried.cleared (xs : List NodeId) (n : Nat) : Carried [] xs n [] 0 :=
  .of_sublists (List.nil_sublist _) (List.nil_sublist _)

/-- An index beyond the end stands for the end. -/
theorem Carried.inserted (xs : List NodeId) (n i : Nat) (ids : List NodeId) :
    Carried ids xs n (xs.take i ++ ids ++ xs.drop i) (if i < n then n + ids.length else n) := by
  have hids : ids.filter (· ∉ ids) = [] := filter_not_mem_of_subset fun _ h => h
  have hpart {as : List NodeId} (h : as.Sublist ids) : as.filter (· ∉ ids) = [] :=
    filter_not_mem_of_subset h.subset
  by_cases hi : i ≤ xs.length
  · have hlen : (xs.take i).length = i := by rw [List.length_take]; omega
    have hsplit : xs = xs.take i ++ xs.drop i := (List.take_append_drop i xs).symm
    generalize xs.take i = a, xs.drop i = b at hlen hsplit ⊢
    subst hsplit hlen
    by_cases hn : a.length < n
    · obtain ⟨d, rfl⟩ := Nat.exists_eq_add_of_le (Nat.le_of_lt hn)
      rw [if_pos hn, show a.length + d + ids.length = (a ++ ids).length + d by
        rw [List.length_append]; omega]
      refine ⟨?_, ?_, fun x => ?_⟩
      · rw [List.take_length_add_append, List.take_length_add_append, List.filter_append,
          List.filter_append, hids, List.append_nil]
        exact List.filter_sublist.append List.filter_sublist
      · rw [List.drop_length_add_append, List.drop_length_add_append]
        exact List.filter_sublist
      · rw [List.drop_length_add_append, List.drop_length_add_append]
        exact Nat.le_add_right ..
    · have hle := Nat.not_lt.1 hn
      rw [if_neg hn, List.append_assoc]
      refine ⟨?_, ?_, fun x => ?_⟩
      · rw [List.take_append_of_le_length hle, List.take_append_of_le_length hle]
        exact List.filter_sublist
      · rw [List.drop_append_of_le_length hle, List.drop_append_of_le_length hle,
          List.filter_append, List.filter_append, hids, List.nil_append]
        exact List.filter_sublist.append List.filter_sublist
      · rw [List.drop_append_of_le_length hle, List.drop_append_of_le_length hle]
        simp only [List.count_append]
        omega
  · have hlt := Nat.not_le.1 hi
    rw [List.take_of_length_le (Nat.le_of_lt hlt), List.drop_of_length_le (Nat.le_of_lt hlt),
      List.append_nil]
    by_cases hn : n ≤ xs.length
    · rw [if_neg (by omega)]
      refine ⟨?_, ?_, fun x => ?_⟩
      · rw [List.take_append_of_le_length hn]
        exact List.filter_sublist
      · rw [List.drop_append_of_le_length hn, List.filter_append, hids, List.append_nil]
        exact List.filter_sublist
      · rw [List.drop_append_of_le_length hn]
        exact Nat.le_of_eq List.count_append
    · -- the cursor is beyond the end, so all that was there is behind it
      obtain ⟨d, hd⟩ : ∃ d, (if i < n then n + ids.length else n) = xs.length + d := by
        split <;> exact ⟨_, (Nat.add_sub_of_le (by omega)).symm⟩
      rw [hd]
      refine ⟨?_, ?_, fun x => ?_⟩
      · rw [List.take_length_add_append, List.filter_append, hpart (List.take_sublist ..),
          List.append_nil, List.take_of_length_le (by omega)]
        exact List.filter_sublist
      · rw [List.drop_length_add_append, hpart (List.drop_sublist ..)]
        exact List.nil_sublist _
      · rw [List.drop_length_add_append]
        exact Nat.le_trans ((List.drop_sublist ..).count_le x) (Nat.le_add_left ..)

/-- What is kept and not added stays on its side of the index. -/
theorem Carried.filter_drop (h : Carried added xs n ys m) {keep : NodeId → Bool}
    (hkeep : ∀ c, keep c = true → c ∉ added) (hall : ∀ c ∈ xs, keep c = true → c ∈ ys)
    (hd : (xs.filter keep).Nodup) :
    (ys.drop m).filter keep = (xs.drop n).filter keep ∧ (ys.filter keep).Nodup := by
  have hnew (cs : List NodeId) : (cs.filter (· ∉ added)).filter keep = cs.filter keep := by
    rw [List.filter_filter]
    refine List.filter_congr fun c _ => ?_
    cases hc : keep c with
    | false => rfl
    | true => simpa using hkeep c hc
  have hsplit (cs : List NodeId) (i : Nat) :
      cs.filter keep = (cs.take i).filter keep ++ (cs.drop i).filter keep := by
    rw [← List.filter_append, List.take_append_drop]
  have hbehind := h.behind.filter keep
  have hahead := h.ahead.filter keep
  rw [hnew] at hbehind hahead
  have hxs := hd
  rw [hsplit xs n, List.nodup_append] at hxs
  refine ⟨hahead.eq_of_length_le (List.Nodup.length_le_of_subset hxs.2.1 fun c hc => ?_), ?_⟩
  · -- a kept node ahead is still there, and cannot have come behind
    obtain ⟨hmem, hc'⟩ := List.mem_filter.1 hc
    have hys : c ∈ ys.filter keep :=
      List.mem_filter.2 ⟨hall c (List.mem_of_mem_drop hmem) hc', hc'⟩
    rw [hsplit ys m, List.mem_append] at hys
    rcases hys with hys | hys
    · exact absurd rfl (hxs.2.2 c (hbehind.subset hys) c hc)
    · exact hys
  · rw [hsplit xs n] at hd
    rw [hsplit ys m]
    exact (hbehind.append hahead).nodup hd

namespace Forest

variable {f g h : Forest} {P id parent : NodeId} {incoming : List NodeId} {anchor : Anchor}

/-! ## Steps -/

/-- The sequential cursors over the children of `P` are carried along by a step that puts `added`
among them. -/
structure Carries (P : NodeId) (f g : Forest) (added : List NodeId) : Prop where
  size : f.size ≤ g.size
  carried : P < f.size → ∀ k n v, (f.cursors P).get? k = some ⟨.sequential, n, v⟩ →
    ∃ m, (g.cursors P).get? k = some ⟨.sequential, m, v⟩ ∧
      Carried added (f.children P) n (g.children P) m

theorem Carries.trans (hfg : Carries P f g added) (hgh : Carries P g h added') :
    Carries P f h (added ++ added') where
  size := Nat.le_trans hfg.size hgh.size
  carried hP k n v hk := by
    obtain ⟨m, hm, hcarried⟩ := hfg.carried hP k n v hk
    obtain ⟨l, hl, hcarried'⟩ := hgh.carried (Nat.lt_of_lt_of_le hP hfg.size) k m v hm
    exact ⟨l, hl, hcarried.trans hcarried'⟩

/-- A step that leaves the children of `P` and their cursors alone. -/
theorem Carries.frame (hs : f.size ≤ g.size)
    (h : P < f.size → g.children P = f.children P ∧ g.cursors P = f.cursors P) :
    Carries P f g [] where
  size := hs
  carried hP k n v hk := by
    obtain ⟨hchildren, hcursors⟩ := h hP
    rw [hchildren, hcursors]
    exact ⟨n, hk, .refl _ n⟩

theorem Carries.refl (P : NodeId) (f : Forest) : Carries P f f [] :=
  .frame (Nat.le_refl _) fun _ => ⟨rfl, rfl⟩

/-- Changes of what a node says. -/
theorem carries_modify (f : Forest) (id : NodeId) {k : Node → Node}
    (hn : ∀ n, (k n).nodes = n.nodes) (hc : ∀ n, (k n).cursors = n.cursors) :
    Carries P f (f.modify id k) [] := by
  refine .frame (Nat.le_of_eq (size_modify ..).symm) fun _ => ⟨?_, ?_⟩
  · exact node_modify_congr Node.nodes (hn _) P
  · exact node_modify_congr Node.cursors (hc _) P

theorem carries_extends {count : Nat} (h : Extends f g count) : Carries P f g [] := by
  refine .frame (by rw [h.size]; exact Nat.le_add_right ..) fun hP => ⟨?_, ?_⟩
  · rw [children, children, h.node P hP]
  · rw [cursors, cursors, h.node P hP]

theorem carries_grown (h : Grown f g) : Carries P f g [] :=
  .frame (Nat.le_of_lt h.size) fun hP => ⟨h.children_eq hP, h.cursors_eq hP⟩

theorem carries_removeAt (f : Forest) (parent : NodeId) (index : Nat) :
    Carries P f (f.removeAt parent index).2 [] := by
  by_cases hi : index < (f.children parent).length
  · refine ⟨Nat.le_of_eq (size_removeAt ..).symm, fun _ k n v hk => ?_⟩
    rw [children_removeAt, cursors_removeAt hi]
    by_cases hP : P = parent
    · subst hP
      rw [if_pos rfl, if_pos rfl, Cursors.get?_mapCursors, hk]
      refine ⟨if index < n then n - 1 else n, ?_, Carried.removed _ n hi⟩
      by_cases hn : index < n <;> simp [Cursor.removed, hn]
    · rw [if_neg hP, if_neg hP]
      exact ⟨n, hk, .refl _ n⟩
  · rw [removeAt_of_none (List.getElem?_eq_none (Nat.not_lt.1 hi))]
    exact .refl P f

theorem carries_detach (f : Forest) (id : NodeId) : Carries P f (f.detach id).2 [] := by
  obtain ⟨p, i, -, -, hd⟩ | ⟨-, hd⟩ := detach_cases f id
  · rw [hd]
    exact carries_removeAt f p i
  · rw [hd]
    exact carries_modify f id (fun _ => rfl) fun _ => rfl

theorem carries_clear (f : Forest) (parent : NodeId) : Carries P f (f.clear parent).2 [] := by
  refine ⟨Nat.le_of_eq (size_clear ..).symm, fun _ k n v hk => ?_⟩
  rw [children_clear, cursors_clear]
  by_cases hP : P = parent
  · subst hP
    rw [if_pos rfl, if_pos rfl, Cursors.get?_mapCursors, hk]
    exact ⟨0, rfl, Carried.cleared _ n⟩
  · rw [if_neg hP, if_neg hP]
    exact ⟨n, hk, .refl _ n⟩

theorem carries_flatten (f : Forest) (reference : Option NodeId) (incoming : List NodeId) :
    Carries P f (f.flatten reference incoming).2 [] := by
  induction incoming generalizing f with
  | nil => exact .refl P f
  | cons id rest ih =>
    by_cases hr : f.kind id = .root
    · rw [flatten_root hr]
      exact (carries_clear f id).trans (ih _)
    · rw [flatten_single hr]
      exact ih f

theorem carries_adopt (f : Forest) (parent : NodeId) (sample : Option String) (id : NodeId) :
    Carries P f (f.adopt parent sample id) [] :=
  (carries_detach f id).trans (carries_modify _ id (fun _ => rfl) fun _ => rfl)

theorem carries_adoptAll (f : Forest) (parent : NodeId) (sample : Option String)
    (ids : List NodeId) :
    Carries P f (ids.foldl (fun f id => f.adopt parent sample id) f) [] := by
  induction ids generalizing f with
  | nil => exact .refl P f
  | cons id ids ih => exact (carries_adopt f parent sample id).trans (ih _)

theorem carries_splice (hlt : parent < f.size) (index : Nat) (ids : List NodeId) :
    Carries P f (f.splice parent index ids) (if parent = P then ids else []) := by
  refine ⟨Nat.le_of_eq (size_splice f parent index ids).symm, fun _ k n v hk => ?_⟩
  rw [children_splice hlt, cursors_splice hlt]
  by_cases hP : parent = P
  · subst hP
    rw [if_pos rfl, if_pos rfl, if_pos rfl, Cursors.get?_mapCursors, hk]
    refine ⟨if index < n then n + ids.length else n, ?_, Carried.inserted _ n index ids⟩
    by_cases hn : index < n <;> simp [Cursor.inserted, hn]
  · rw [if_neg hP, if_neg (Ne.symm hP), if_neg (Ne.symm hP)]
    exact ⟨n, hk, .refl _ n⟩

/-! ## Edits -/

theorem carries_insert (hg : f.insert parent anchor incoming = .ok g) :
    Carries P f g (arrivals P f parent anchor incoming) := by
  have hflat := carries_flatten (P := P) f anchor.reference? incoming
  unfold arrivals
  simp only [refusal?_of_insert hg, and_true]
  rcases insert_cases hg with ⟨hids, rfl⟩ | ⟨sample, g', -, rfl, hlt, rfl⟩
  · rw [hids, ite_self]
    exact hflat
  · exact (hflat.trans (carries_adoptAll _ parent sample _)).trans (carries_splice hlt _ _)

theorem keptByReplacing_carries (f : Forest) (P parent : NodeId) :
    KeptByReplacing P parent (Carries P f) (fun _ _ => True) (fun _ _ => True) where
  clear {g l r} hf _ _ := by
    refine ⟨?_, fun _ _ => trivial, fun _ _ => trivial⟩
    rw [← List.append_nil l]
    exact hf.trans (carries_clear g r)
  single _ _ _ := trivial
  insert _ hf _ hg := ⟨hf.trans (carries_insert hg), fun _ _ => trivial, fun _ _ => trivial⟩
  detach {g l} c hf := by
    rw [← List.append_nil l]
    exact hf.trans (carries_detach g c)

theorem carries_replace (ids : List NodeId) (hp : f.parent? id = some parent) :
    Carries P f (f.replace id ids).1 (arrivalsReplacing P parent id f none ids) :=
  (keptByReplacing_carries f P parent).replace hp (.refl P f) fun _ _ => .inr trivial

theorem carries_orElse_insert (f : Forest) (parent : NodeId) (anchor : Anchor)
    (incoming : List NodeId) :
    Carries P f (Edit.orElse f (f.insert parent anchor incoming))
      (arrivals P f parent anchor incoming) := by
  cases hg : f.insert parent anchor incoming with
  | error e =>
    rw [arrivals_of_error hg]
    exact .refl P f
  | ok g => exact carries_insert hg

theorem carries_cleanRaws (f : Forest) (id : NodeId) (keepBetween : Bool) :
    Carries P f (f.cleanRaws id keepBetween) [] :=
  .frame (Nat.le_of_eq (size_cleanRaws ..).symm) fun _ =>
    ⟨node_cleanRaws Node.nodes (fun _ _ => rfl) f id keepBetween P,
      node_cleanRaws Node.cursors (fun _ _ => rfl) f id keepBetween P⟩

end Forest

namespace Edit

open Forest

variable {P : NodeId}

theorem carries_beside (f : Forest) (id : NodeId) (anchor : Anchor) (added : NodeId) :
    Carries P f (orElse f (beside f id anchor added)) (arrivalsBeside P f id anchor added) := by
  unfold beside arrivalsBeside
  cases f.parent? id with
  | none => exact .refl P f
  | some parent => exact carries_orElse_insert f parent anchor [added]

/-- A copy beside its original. -/
theorem carries_copy_beside (f : Forest) (id : NodeId) (anchor : Anchor) :
    Carries P f (orElse f (beside (f.copy id {}).2 id anchor (f.copy id {}).1))
      (arrivalsBeside P (f.copy id {}).2 id anchor (f.copy id {}).1) := by
  have hcopy : Carries P f (f.copy id {}).2 [] := carries_extends (plant_spec f none _).2.1
  generalize f.copy id {} = copied at *
  obtain ⟨added, g⟩ := copied
  simp only at hcopy ⊢
  cases hb : beside g id anchor added with
  | error e =>
    rw [arrivalsBeside_of_error hb]
    exact .refl P f
  | ok k =>
    have hbeside := carries_beside (P := P) g id anchor added
    rw [hb] at hbeside
    exact hcopy.trans hbeside

theorem carries_moveTo (f : Forest) (id container : NodeId) :
    Carries P f (f.moveTo id container).1 (arrivals P f (moveTo id container)) := by
  unfold arrivals Forest.moveTo
  simp only
  split
  · exact .refl P f
  · have hclean := carries_cleanRaws (P := P) f id (f.top id = f.top container)
    generalize f.cleanRaws id (f.top id = f.top container) = g at *
    have hinsert := carries_orElse_insert (P := P) g container .stop [id]
    cases hg : g.insert container .stop [id] with
    | error e =>
      rw [hg] at hinsert
      exact hclean.trans hinsert
    | ok k =>
      rw [hg] at hinsert
      exact hclean.trans hinsert

/-- **What edits tell sequential cursors.** -/
theorem carries_run (P : NodeId) (f : Forest) (e : Edit) :
    Carries P f (e.run f) (e.arrivals P f) := by
  cases e with
  | new data => exact carries_grown (grown_add f data)
  | withBlock id => exact carries_modify f id (fun _ => rfl) fun _ => rfl
  | read files text file setting =>
    simp only [run]
    cases hr : f.parse files text file setting with
    | error e => exact .refl P f
    | ok r => exact carries_grown (grown_parse hr)
  | copy id options => exact carries_extends (plant_spec f none _).2.1
  | insert parent anchor incoming => exact carries_orElse_insert f parent anchor incoming
  | insertBefore id added => exact carries_beside f id (.before id) added
  | insertAfter id added => exact carries_beside f id (.after id) added
  | replace id replacements =>
    simp only [run, arrivals]
    cases hp : f.parent? id with
    | none =>
      unfold Forest.replace
      rw [hp]
      exact .refl P f
    | some parent => exact carries_replace replacements hp
  | detach id => exact carries_detach f id
  | removeChild parent child =>
    simp only [run, Forest.removeChild]
    cases f.indexOf? parent child with
    | none => exact .refl P f
    | some index => exact carries_removeAt f parent index
  | removeAt parent index => exact carries_removeAt f parent index
  | clear parent => exact carries_clear f parent
  | moveTo id container => exact carries_moveTo f id container
  | copyBefore id =>
    rw [run_copyBefore]
    exact carries_copy_beside f id (.before id)
  | copyAfter id =>
    rw [run_copyAfter]
    exact carries_copy_beside f id (.after id)

end Edit

end Stylesheet
