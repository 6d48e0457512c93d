import Stylesheet.Forest.Cursor

/-!
# One list of children and one cursor

`due` is the rule that a cursor in mode `traversal` follows: hand out the first child that is not
among `handed`. `Passed` is what the index of the cursor says about the list: the children before it
were handed out. It survives removals and insertions, and as long as it holds of a list without
repetitions, `advance` does what `due` says (`advance_eq_due`).
-/

set_option autoImplicit false

namespace Stylesheet

variable {handed children ids : List NodeId} {next i k : Nat} {c : Cursor} {cs : Cursors}

/-- The first child that was not handed out, with its index. -/
def due (handed children : List NodeId) : Option (NodeId × Nat) :=
  children.zipIdx.find? fun x => x.1 ∉ handed

theorem due_eq_none_iff : due handed children = none ↔ ∀ x ∈ children, x ∈ handed := by
  unfold due
  rw [List.find?_eq_none]
  constructor
  · intro h x hx
    obtain ⟨i, hi, rfl⟩ := List.getElem_of_mem hx
    simpa using h (children[i], i) (List.mk_mem_zipIdx_iff_getElem?.2 (by simp))
  · intro h x hx
    simpa using h x.1 (List.fst_mem_of_mem_zipIdx hx)

theorem due_eq_some_iff {x : NodeId} : due handed children = some (x, i) ↔
    children[i]? = some x ∧ x ∉ handed ∧ ∀ y ∈ children.take i, y ∈ handed := by
  unfold due
  rw [List.find?_eq_some_iff_getElem]
  constructor
  · rintro ⟨hx, j, hj, he, hbefore⟩
    rw [List.getElem_zipIdx, Prod.mk.injEq, Nat.zero_add] at he
    obtain ⟨he, rfl⟩ := he
    rw [List.length_zipIdx] at hj
    refine ⟨List.getElem?_eq_some_iff.2 ⟨hj, he⟩, by simpa using hx, ?_⟩
    intro y hy
    obtain ⟨m, hm, rfl⟩ := List.mem_take_iff_getElem.1 hy
    simpa using hbefore m (by omega)
  · rintro ⟨hget, hx, hbefore⟩
    obtain ⟨hi, he⟩ := List.getElem?_eq_some_iff.1 hget
    refine ⟨by simpa using hx, i, by rwa [List.length_zipIdx], by simp [he], ?_⟩
    intro m hm
    simpa using hbefore children[m] (List.mem_take_iff_getElem.2 ⟨m, by omega, rfl⟩)

/-- The nodes handed out once a child is handed out. -/
def hand : Option (NodeId × Nat) → List NodeId → List NodeId
  | some (x, _), handed => x :: handed
  | none, handed => handed

/-! ## The list and the index -/

/-- Every child before `next` was handed out, or it stands behind `next` as well. -/
def Passed (handed : List NodeId) (next : Nat) (children : List NodeId) : Prop :=
  ∀ x ∈ children.take next, x ∈ handed ∨ x ∈ children.drop next

theorem Passed.erase_before {a b : List NodeId} {y : NodeId} (h : Passed handed next (a ++ y :: b))
    (hn : a.length < next) : Passed handed (next - 1) (a ++ b) := by
  obtain ⟨m, rfl⟩ := Nat.exists_eq_add_of_lt hn
  intro x hx
  have htake : (a ++ b).take (a.length + m) = a ++ b.take m := List.take_length_add_append m
  have htake' : (a ++ y :: b).take (a.length + m + 1) = a ++ y :: b.take m := by
    rw [Nat.add_assoc, List.take_length_add_append, List.take_succ_cons]
  have hdrop : (a ++ y :: b).drop (a.length + m + 1) = b.drop m := by
    rw [Nat.add_assoc, List.drop_length_add_append, List.drop_succ_cons]
  have hdrop' : (a ++ b).drop (a.length + m) = b.drop m := List.drop_length_add_append m
  rw [Nat.add_sub_cancel, htake] at hx
  rw [Nat.add_sub_cancel, hdrop', ← hdrop]
  apply h x
  rw [htake']
  rcases List.mem_append.1 hx with hx | hx
  · exact List.mem_append_left _ hx
  · exact List.mem_append_right _ (.tail _ hx)

theorem Passed.erase_behind {a b : List NodeId} {y : NodeId} (h : Passed handed next (a ++ y :: b))
    (hn : next ≤ a.length) (hy : y ∉ a.take next) : Passed handed next (a ++ b) := by
  intro x hx
  rw [List.take_append_of_le_length hn] at hx
  rw [List.drop_append_of_le_length hn]
  have := h x
  rw [List.take_append_of_le_length hn, List.drop_append_of_le_length hn] at this
  rcases this hx with hmem | hmem
  · exact .inl hmem
  · right
    rcases List.mem_append.1 hmem with hmem | hmem
    · exact List.mem_append_left _ hmem
    · rcases List.mem_cons.1 hmem with rfl | hmem
      · exact absurd hx hy
      · exact List.mem_append_right _ hmem

theorem Passed.removed (h : Passed handed next children) (hi : i < children.length)
    (hfirst : next ≤ i → children[i] ∉ children.take next) :
    Passed handed (if i < next then next - 1 else next) (children.eraseIdx i) := by
  have hlen : (children.take i).length = i := by rw [List.length_take]; omega
  have hsplit : children.take i ++ children[i] :: children.drop (i + 1) = children := by simp
  rw [List.eraseIdx_eq_take_drop_succ]
  rw [← hsplit] at h
  by_cases hn : i < next
  · rw [if_pos hn]
    exact h.erase_before (by rwa [hlen])
  · rw [if_neg hn]
    refine h.erase_behind (by rw [hlen]; omega) ?_
    rw [List.take_take, Nat.min_eq_left (Nat.not_lt.1 hn)]
    exact hfirst (Nat.not_lt.1 hn)

theorem Passed.inserted (h : Passed handed next children) (hi : i ≤ children.length)
    (ids : List NodeId) :
    Passed (handed.filter (· ∉ ids)) (if i < next then i else next)
      (children.take i ++ ids ++ children.drop i) := by
  have hlen : (children.take i).length = i := by rw [List.length_take]; omega
  -- a child that was handed out is forgotten if it is among the new ones, which stand behind
  have hforget : ∀ (x : NodeId) (behind : List NodeId), x ∈ handed ∨ x ∈ behind →
      x ∈ handed.filter (· ∉ ids) ∨ x ∈ ids ∨ x ∈ behind := by
    intro x behind hx
    by_cases hmem : x ∈ ids
    · exact .inr (.inl hmem)
    · rcases hx with hx | hx
      · exact .inl (by simp [hx, hmem])
      · exact .inr (.inr hx)
  intro x
  by_cases hn : i < next
  · rw [if_pos hn, List.append_assoc, List.take_left' hlen, List.drop_left' hlen,
      List.mem_append]
    intro hx
    refine hforget x _ ((h x (List.take_subset_take_left _ (Nat.le_of_lt hn) hx)).imp_right ?_)
    exact fun hmem => List.drop_subset_drop_left _ (Nat.le_of_lt hn) hmem
  · have hle : next ≤ (children.take i).length := by omega
    rw [if_neg hn, List.append_assoc, List.take_append_of_le_length hle,
      List.drop_append_of_le_length hle, List.take_take, Nat.min_eq_left (Nat.not_lt.1 hn)]
    intro hx
    have hold := h x hx
    rw [← List.take_append_drop i children, List.drop_append_of_le_length hle] at hold
    simp only [List.mem_append] at hold ⊢
    rcases hforget x ((children.take i).drop next ++ children.drop i) (by simpa using hold) with
      hx | hx | hx
    · exact .inl hx
    · exact .inr (.inr (.inl hx))
    · rcases List.mem_append.1 hx with hx | hx
      · exact .inr (.inl hx)
      · exact .inr (.inr (.inr hx))

/-! ## Handing out -/

theorem advance_eq (ahead : List NodeId) (next : Nat) (visited : List NodeId) :
    (⟨.traversal, next, visited⟩ : Cursor).advance ahead =
      match (ahead.zipIdx next).find? fun x => x.1 ∉ visited with
      | some (x, i) => (some (x, i), ⟨.traversal, i + 1, x :: visited⟩)
      | none => (none, ⟨.traversal, next + ahead.length + 1, visited⟩) := by
  induction ahead generalizing next with
  | nil => rfl
  | cons x ahead ih =>
    rw [Cursor.advance, List.zipIdx_cons, List.find?_cons]
    by_cases hx : x ∈ visited
    · have hlen : next + (ahead.length + 1) + 1 = next + 1 + ahead.length + 1 := by omega
      simp [Cursor.skips, hx, ih, hlen]
    · simp [Cursor.skips, hx]

/-- **What a cursor hands out** is what is due. -/
theorem advance_eq_due (h : Passed handed next children) (hd : children.Nodup) :
    ((⟨.traversal, next, handed⟩ : Cursor).advance (children.drop next)).1 = due handed children ∧
      ∃ next', ((⟨.traversal, next, handed⟩ : Cursor).advance (children.drop next)).2 =
          ⟨.traversal, next', hand (due handed children) handed⟩ ∧
        Passed (hand (due handed children) handed) next' children := by
  -- the children before `next` are not due
  have hbefore : ∀ x ∈ children.take next, x ∈ handed := by
    intro x hx
    rcases h x hx with hmem | hmem
    · exact hmem
    · rw [← List.take_append_drop next children, List.nodup_append] at hd
      exact absurd rfl (hd.2.2 x hx x hmem)
  have hfind : ((children.drop next).zipIdx next).find? (fun x => x.1 ∉ handed) =
      due handed children := by
    have hnone : ((children.take next).zipIdx).find? (fun x => x.1 ∉ handed) = none :=
      due_eq_none_iff.2 hbefore
    unfold due
    conv => rhs; rw [← List.take_append_drop next children]
    rw [List.zipIdx_append, List.find?_append, hnone, Option.none_or, List.length_take]
    by_cases hn : next ≤ children.length
    · rw [Nat.min_eq_left hn, Nat.zero_add]
    · rw [List.drop_eq_nil_of_le (by omega)]
      rfl
  rw [advance_eq, hfind]
  cases hdue : due handed children with
  | none =>
    refine ⟨rfl, _, rfl, ?_⟩
    intro x hx
    exact .inl (due_eq_none_iff.1 hdue x (List.mem_of_mem_take hx))
  | some found =>
    obtain ⟨x, i⟩ := found
    obtain ⟨hget, -, hall⟩ := due_eq_some_iff.1 hdue
    refine ⟨rfl, _, rfl, ?_⟩
    intro y hy
    left
    rw [List.take_add_one, hget] at hy
    rcases List.mem_append.1 hy with hy | hy
    · exact .tail _ (hall y hy)
    · rw [List.mem_singleton.1 hy]
      exact .head _

/-! ## The cursors of a list -/

namespace Cursors

theorem get?_mapCursors (cs : Cursors) (g : Cursor → Cursor) (k : Nat) :
    (cs.mapCursors g).get? k = (cs.get? k).map g := by
  unfold mapCursors get?
  simp only
  induction cs.active with
  | nil => rfl
  | cons x xs ih =>
    rw [List.map_cons, List.lookup_cons, List.lookup_cons]
    split
    · rfl
    · exact ih

theorem get?_put_self {c' : Cursor} (h : cs.get? k = some c') (c : Cursor) :
    (cs.put k c).get? k = some c := by
  unfold put get? at *
  revert h
  simp only
  induction cs.active with
  | nil => exact fun h => by cases h
  | cons x xs ih =>
    intro h
    rw [List.lookup_cons] at h
    rw [List.map_cons, List.lookup_cons]
    by_cases hx : k = x.1
    · simp [hx]
    · rw [beq_false_of_ne hx] at h ⊢
      exact ih h

theorem get?_put_of_ne {j : Nat} (h : k ≠ j) (c : Cursor) :
    (cs.put j c).get? k = cs.get? k := by
  unfold put get?
  simp only
  induction cs.active with
  | nil => rfl
  | cons x xs ih =>
    rw [List.map_cons, List.lookup_cons, List.lookup_cons]
    by_cases hx : k = x.1
    · simp only [hx, beq_self_eq_true]
      rw [if_neg fun he => h (hx.trans he)]
    · simp only [beq_false_of_ne hx]
      exact ih

theorem get?_close_of_ne {j : Nat} (h : k ≠ j) : (cs.close j).get? k = cs.get? k := by
  unfold close get?
  simp only
  induction cs.active with
  | nil => rfl
  | cons x xs ih =>
    rw [List.filter_cons, List.lookup_cons]
    by_cases hx : k = x.1
    · rw [if_pos (by simpa using hx ▸ h), List.lookup_cons]
      simp [hx]
    · rw [beq_false_of_ne hx]
      split
      · rw [List.lookup_cons, beq_false_of_ne hx]
        exact ih
      · exact ih

theorem get?_open_of_some (h : cs.get? k = some c) (mode : CursorMode) :
    (cs.open mode).2.get? k = some c := by
  unfold «open» get? at *
  simp only
  rw [List.lookup_append, h]
  rfl

/-- Every cursor has a number that was given out. -/
def Numbered (cs : Cursors) : Prop := ∀ x ∈ cs.active, x.1 ≤ cs.lastId

/-- The number that is given out next is not taken. -/
theorem get?_fresh (h : cs.Numbered) (mode : CursorMode) : cs.get? (cs.open mode).1 = none := by
  unfold «open» get?
  rw [List.lookup_eq_none_iff]
  intro x hx
  have := h x hx
  have hne : cs.lastId + 1 ≠ x.1 := by omega
  simpa using hne

theorem get?_open_self (h : cs.Numbered) (mode : CursorMode) :
    (cs.open mode).2.get? (cs.open mode).1 = some (.start mode) := by
  have hnone := get?_fresh h mode
  unfold «open» get? at *
  simp only at *
  rw [List.lookup_append, hnone, Option.none_or, List.lookup_cons, beq_self_eq_true]

theorem numbered_empty : empty.Numbered := by
  intro x hx
  cases hx

theorem numbered_mapCursors (h : cs.Numbered) (g : Cursor → Cursor) :
    (cs.mapCursors g).Numbered := by
  intro x hx
  obtain ⟨y, hy, rfl⟩ := List.mem_map.1 hx
  exact h y hy

theorem numbered_put (h : cs.Numbered) (k : Nat) (c : Cursor) : (cs.put k c).Numbered := by
  intro x hx
  obtain ⟨y, hy, rfl⟩ := List.mem_map.1 hx
  exact h y hy

theorem numbered_close (h : cs.Numbered) (k : Nat) : (cs.close k).Numbered := by
  intro x hx
  exact h x (List.mem_filter.1 hx).1

theorem numbered_open (h : cs.Numbered) (mode : CursorMode) : (cs.open mode).2.Numbered := by
  intro x hx
  rcases List.mem_append.1 hx with hx | hx
  · exact Nat.le_succ_of_le (h x hx)
  · rw [List.mem_singleton.1 hx]
    exact Nat.le_refl _

end Cursors

end Stylesheet
