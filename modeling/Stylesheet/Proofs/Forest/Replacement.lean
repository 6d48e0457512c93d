import Stylesheet.Proofs.Forest.Insertion

/-!
# What a replacement does

`Forest.replace` inserts the replacements of a node one by one, right before the node and, from
where the node itself is named on, behind the one inserted last. `Movable` is what lets such a loop
go on: no node that is left stands around the container or is named twice. Each insertion keeps it
(`Movable.joins`), so none is refused, and `replace_children` says where the nodes end up.
-/

set_option autoImplicit false

namespace Stylesheet

namespace Forest

open Relation

variable {f g k : Forest} {P n b r : NodeId} {A B xs ys rs : List NodeId} {anchor : Anchor}

/-! ## Moves that follow each other -/

theorem Joins.trans (h : Joins f g P xs) (h' : Joins g k P ys) (hd : xs.Disjoint ys) :
    Joins f k P (xs ++ ys) where
  size := h'.size.trans h.size
  kind p := (h'.kind p).trans (h.kind p)
  perm := by
    have hkept : xs.filter (· ∉ ys) = xs := by
      rw [List.filter_eq_self]
      intro x hx
      rw [decide_eq_true_iff]
      exact fun hy => hd hx hy
    have hrest := h.perm.filter (· ∉ ys)
    rw [List.filter_append, hkept, ← filter_not_mem_append] at hrest
    refine h'.perm.trans ((hrest.append_left ys).trans ?_)
    rw [← List.append_assoc]
    exact List.perm_append_comm.append_right _
  children q hq := by rw [h'.children q hq, h.children q hq, filter_not_mem_append]
  parent c := by
    rw [h'.parent, h.parent]
    by_cases hx : c ∈ xs <;> by_cases hy : c ∈ ys <;> simp [hx, hy]

/-- A child may be counted among the nodes that are moved below its parent. -/
theorem WellFormed.joins_self (h : f.WellFormed) (hn : n ∈ f.children P) : Joins f f P [n] where
  size := rfl
  kind _ := rfl
  perm := by
    rw [← h.erase_eq]
    exact List.perm_cons_erase hn
  children q hq := (h.filter_self hn hq).symm
  parent c := by
    split
    · next hc => rw [List.mem_singleton.1 hc, ← h.parent]; exact hn
    · rfl

/-- A node that does not stand around `P` is not moved around it. -/
theorem Joins.outside (h : Joins f g P xs) (hxs : ∀ x ∈ xs, ¬ ReflTransGen f.Child x P)
    (hr : ¬ ReflTransGen f.Child r P) : ¬ ReflTransGen g.Child r P := by
  intro hreach
  rcases reflTransGen_iff_eq_or_transGen.1 hreach with rfl | hreach
  · exact hr .refl
  · rcases h.transGen hreach with hold | ⟨x, hx, -, hdown⟩
    · exact hr hold.to_reflTransGen
    · exact hxs x hx hdown

theorem Joins.flattened (h : Joins f g P xs) (hP : P ∉ rs) (hd : xs.Disjoint (f.flattened rs)) :
    g.flattened rs = f.flattened rs := by
  refine List.flatMap_congr fun r hr => ?_
  rw [h.kind]
  by_cases hk : f.kind r = .root
  · have hne : r ≠ P := fun he => hP (he ▸ hr)
    rw [if_pos hk, if_pos hk, h.children r hne, List.filter_eq_self]
    intro c hc
    rw [decide_eq_true_iff]
    exact fun hx => hd hx (mem_flattened.2 (.inr ⟨r, hr, hk, hc⟩))
  · rw [if_neg hk, if_neg hk]

/-! ## Nodes that can be moved one by one -/

/-- What a list stands for can be moved below `P`, one node after the other. -/
structure Movable (f : Forest) (P : NodeId) (rs : List NodeId) : Prop where
  lt : ∀ r ∈ rs, r < f.size
  outside : ∀ r ∈ rs, ¬ ReflTransGen f.Child r P
  nodup : (f.flattened rs).Nodup

theorem flattened_cons (f : Forest) (r : NodeId) (rs : List NodeId) :
    f.flattened (r :: rs) = f.flattened [r] ++ f.flattened rs := by
  simp [Forest.flattened]

/-- Nodes that are no roots stand for themselves. -/
theorem flattened_eq_self (h : ∀ x ∈ xs, f.kind x ≠ .root) : f.flattened xs = xs := by
  induction xs with
  | nil => rfl
  | cons x xs ih =>
    rw [flattened_cons, ih fun y hy => h y (.tail _ hy)]
    simp [Forest.flattened, h x (.head _)]

namespace Movable

theorem not_mem (h : Movable f P rs) : P ∉ rs := fun hP => h.outside P hP .refl

theorem head (h : Movable f P (r :: rs)) : Movable f P [r] where
  lt := by simpa using h.lt r (.head _)
  outside := by simpa using h.outside r (.head _)
  nodup := by
    have := h.nodup
    rw [flattened_cons] at this
    exact (List.nodup_append.1 this).1

/-- What a movable list stands for does not stand around `P` either. -/
theorem outside_flattened (h : Movable f P rs) {x : NodeId} (hx : x ∈ f.flattened rs) :
    ¬ ReflTransGen f.Child x P := by
  rcases mem_flattened.1 hx with ⟨hmem, -⟩ | ⟨r, hr, -, hc⟩
  · exact h.outside x hmem
  · exact fun hreach => h.outside r hr (.head hc hreach)

/-- **A step of the loop**: what is left stays movable and stands for the same nodes. -/
theorem joins (h : Movable f P (r :: rs)) (hg : Joins f g P (f.flattened [r])) :
    Movable g P rs ∧ g.flattened rs = f.flattened rs ∧
      (f.flattened [r]).Disjoint (f.flattened rs) := by
  have hnodup := h.nodup
  rw [flattened_cons] at hnodup
  obtain ⟨-, hrest, hapart⟩ := List.nodup_append.1 hnodup
  have hd : (f.flattened [r]).Disjoint (f.flattened rs) := fun x hx hx' => hapart x hx x hx' rfl
  have hP : P ∉ rs := fun hP => h.not_mem (.tail _ hP)
  have hsame := hg.flattened hP hd
  refine ⟨⟨?_, ?_, ?_⟩, hsame, hd⟩
  · intro c hc
    rw [hg.size]
    exact h.lt c (.tail _ hc)
  · intro c hc
    exact hg.outside (fun x hx => h.head.outside_flattened hx) (h.outside c (.tail _ hc))
  · rwa [hsame]

end Movable

/-! ## One insertion -/

/-- In a list without repeats, a place next to a node is one place. -/
theorem cut_unique {ahead behind : List NodeId} (hd : (A ++ r :: B).Nodup)
    (h : A ++ r :: B = ahead ++ r :: behind) : ahead = A ∧ behind = B := by
  have hcut := List.append_eq_append_iff.1 h
  rcases hcut with ⟨ms, rfl, hB⟩ | ⟨ms, rfl, hB⟩
  · cases ms with
    | nil => simpa using hB.symm
    | cons m ms =>
      rw [List.cons_append, List.cons.injEq] at hB
      simp [hB.2, List.nodup_append] at hd
  · cases ms with
    | nil => simpa using hB
    | cons m ms =>
      rw [List.cons_append, List.cons.injEq] at hB
      simp [← hB.1, List.nodup_append] at hd

theorem filter_not_mem_of_disjoint {xs ys : List NodeId} (hd : xs.Disjoint ys) :
    xs.filter (· ∉ ys) = xs :=
  List.filter_eq_self.2 fun _ hx => decide_eq_true fun hy => hd hx hy

theorem filter_apart (hd : (A ++ r :: B).Nodup) :
    A.filter (· ∉ [r]) = A ∧ B.filter (· ∉ [r]) = B := by
  obtain ⟨-, hB, hA⟩ := List.nodup_append.1 hd
  constructor <;> refine filter_not_mem_of_disjoint (List.disjoint_singleton.2 ?_)
  · exact fun hr => hA r hr r (.head _) rfl
  · exact (List.nodup_cons.1 hB).1

theorem WellFormed.isContainer_of_mem (h : f.WellFormed) (hr : r ∈ f.children P) :
    (f.kind P).isContainer = true := by
  cases hc : (f.kind P).isContainer with
  | true => rfl
  | false =>
    rw [h.leaf P hc] at hr
    cases hr

/-- Below a container, at a place that is there, only nodes around it are refused. -/
theorem refusal?_eq_ite (hc : (f.kind P).isContainer = true)
    (ha : ∀ r, anchor.reference? = some r → r ∈ f.children P) (incoming : List NodeId) :
    f.refusal? P anchor incoming =
      if incoming.any fun id => f.isInside id P then some .cycle else none := by
  have href : (anchor.reference?.any fun r => (f.indexOf? P r).isNone) = false := by
    cases hr : anchor.reference? with
    | none => rfl
    | some r =>
      rw [Option.any_some, ← Bool.not_eq_true, Option.isNone_iff_eq_none, indexOf?_eq_none_iff,
        not_not]
      exact ha r hr
  simp [refusal?, hc, href]

/-- A node by itself that does not stand around `P` is inserted below it. -/
theorem WellFormed.exists_insert (h : f.WellFormed) (hm : Movable f P [n])
    (hk : f.kind n ≠ .root) (hr : r ∈ f.children P) (hne : r ≠ n)
    (ha : anchor.reference? = some r) :
    ∃ g, f.insert P anchor [n] = .ok g ∧ Inserts f g P anchor [n] ∧ g.WellFormed := by
  have hinside : f.isInside n P = false := by
    rw [← Bool.not_eq_true, h.isInside_iff]
    exact hm.outside n (.head _)
  have haccepted : f.refusal? P anchor [n] = none := by
    rw [refusal?_eq_ite (h.isContainer_of_mem hr)]
    · simp [hinside]
    · rw [ha]
      rintro c ⟨⟩
      exact hr
  obtain ⟨g, hg⟩ : ∃ g, f.insert P anchor [n] = .ok g := ⟨_, insert_of_accepted haccepted⟩
  have hinserts := h.inserts hm.lt hg
  rw [flatten_single hk, ha, if_neg (by simpa using hne)] at hinserts
  exact ⟨g, hg, hinserts, (h.insert_one (hm.lt n (.head _)) hg).1⟩

theorem filter_cut (hr : r ∉ xs) : (A ++ r :: B).filter (· ∉ xs) =
    A.filter (· ∉ xs) ++ r :: B.filter (· ∉ xs) := by
  rw [List.filter_append, List.filter_cons_of_pos (by simpa using hr)]

theorem WellFormed.children_before (h : f.WellFormed) (hg : Inserts f g P (.before r) xs)
    (hc : f.children P = A ++ r :: B) (hr : r ∉ xs) :
    g.children P = A.filter (· ∉ xs) ++ xs ++ r :: B.filter (· ∉ xs) := by
  have hd := (h.nodup P).filter (· ∉ xs)
  obtain ⟨ahead, behind, hcut, hchildren⟩ := hg.places
  rw [hc, filter_cut hr] at hd hcut
  obtain ⟨rfl, rfl⟩ := cut_unique hd hcut
  exact hchildren

theorem WellFormed.children_after (h : f.WellFormed) (hg : Inserts f g P (.after r) xs)
    (hc : f.children P = A ++ r :: B) (hr : r ∉ xs) :
    g.children P = A.filter (· ∉ xs) ++ r :: xs ++ B.filter (· ∉ xs) := by
  have hd := (h.nodup P).filter (· ∉ xs)
  obtain ⟨ahead, behind, hcut, hchildren⟩ := hg.places
  rw [hc, filter_cut hr] at hd hcut
  obtain ⟨rfl, rfl⟩ := cut_unique hd hcut
  exact hchildren

/-! ## The loops -/

theorem Joins.refl (f : Forest) (P : NodeId) : Joins f f P [] where
  size := rfl
  kind _ := rfl
  perm := by simp
  children q _ := by simp
  parent c := by simp

/-- The first of some nodes is inserted; the others can still be. -/
theorem Movable.insert_first {x : NodeId} (h : f.WellFormed) (hm : Movable f P (x :: xs))
    (hk : ∀ y ∈ x :: xs, f.kind y ≠ .root) (anchor : Anchor) (hr : r ∈ f.children P) (hne : r ≠ x)
    (ha : anchor.reference? = some r) :
    ∃ g, f.insert P anchor [x] = .ok g ∧ Inserts f g P anchor [x] ∧ g.WellFormed ∧
      Movable g P xs ∧ (∀ y ∈ xs, g.kind y ≠ .root) ∧ x ∉ xs := by
  have hone : f.flattened [x] = [x] := flattened_eq_self (by simpa using hk x (.head _))
  have hrest : f.flattened xs = xs := flattened_eq_self fun y hy => hk y (.tail _ hy)
  obtain ⟨g, hg, hinserts, hgwf⟩ := h.exists_insert hm.head (hk x (.head _)) hr hne ha
  obtain ⟨hleft, -, hd⟩ := hm.joins (hone.symm ▸ hinserts.toJoins)
  rw [hone, hrest, List.singleton_disjoint] at hd
  refine ⟨g, hg, hinserts, hgwf, hleft, fun y hy => ?_, hd⟩
  rw [hinserts.kind]
  exact hk y (.tail _ hy)

/-- Nodes inserted one by one before `n` stand there in their order. -/
theorem Movable.insertAhead (h : f.WellFormed) (hm : Movable f P xs)
    (hk : ∀ x ∈ xs, f.kind x ≠ .root) (hc : f.children P = A ++ n :: B) (hn : n ∉ xs) :
    ∃ g, insertAhead P n f xs = .ok g ∧ Joins f g P xs ∧ g.WellFormed ∧
      g.children P = A.filter (· ∉ xs) ++ xs ++ n :: B.filter (· ∉ xs) := by
  induction xs generalizing f A B with
  | nil => exact ⟨f, rfl, .refl f P, h, by simpa using hc⟩
  | cons x xs ih =>
    obtain ⟨hnx, hnxs⟩ := not_or.1 (List.mem_cons.not.1 hn)
    obtain ⟨g, hg, hinserts, hgwf, hleft, hkinds, hx⟩ :=
      hm.insert_first h hk (.before n) (by simp [hc]) hnx rfl
    have hchildren := h.children_before hinserts hc (by simpa using hnx)
    obtain ⟨k, hall, hjoins, hkwf, hlist⟩ := ih hgwf hleft hkinds hchildren hnxs
    refine ⟨k, ?_, hinserts.toJoins.trans hjoins (by simpa using hx), hkwf, ?_⟩
    · rw [Forest.insertAhead, hg]
      exact hall
    · rw [hlist, List.filter_append, ← filter_not_mem_append, ← filter_not_mem_append]
      simp [hx]

/-- Nodes inserted one by one behind `b` stand there in their order; the last of them is the next
bookmark. -/
theorem Movable.insertBehind (h : f.WellFormed) (hm : Movable f P xs)
    (hk : ∀ x ∈ xs, f.kind x ≠ .root) (hc : f.children P = A ++ b :: B) (hb : b ∉ xs) :
    ∃ g last ahead, insertBehind P f b xs = .ok (g, last) ∧ Joins f g P xs ∧ g.WellFormed ∧
      g.children P = ahead ++ last :: B.filter (· ∉ xs) ∧
      ahead ++ [last] = A.filter (· ∉ xs) ++ b :: xs ∧ last ∈ b :: xs := by
  induction xs generalizing f A B b with
  | nil => exact ⟨f, b, A, rfl, .refl f P, h, by simpa using hc, by simp, .head _⟩
  | cons x xs ih =>
    obtain ⟨hbx, hbxs⟩ := not_or.1 (List.mem_cons.not.1 hb)
    obtain ⟨g, hg, hinserts, hgwf, hleft, hkinds, hx⟩ :=
      hm.insert_first h hk (.after b) (by simp [hc]) hbx rfl
    have hchildren : g.children P =
        (A.filter (· ∉ [x]) ++ [b]) ++ x :: B.filter (· ∉ [x]) := by
      simpa using h.children_after hinserts hc (by simpa using hbx)
    obtain ⟨k, last, ahead, hall, hjoins, hkwf, hlist, hahead, hlast⟩ :=
      ih hgwf hleft hkinds hchildren hx
    refine ⟨k, last, ahead, ?_, hinserts.toJoins.trans hjoins (by simpa using hx), hkwf, ?_, ?_,
      .tail _ hlast⟩
    · rw [Forest.insertBehind, hg]
      exact hall
    · rw [hlist, ← filter_not_mem_append]
      rfl
    · rw [hahead, List.filter_append, ← filter_not_mem_append]
      simp [hbxs]

/-- One replacement: what it stands for, and the forest behind a root being emptied. -/
theorem Movable.sent (h : f.WellFormed) (hm : Movable f P (r :: rs)) :
    let sent := if f.kind r = .root then f.clear r else ([r], f)
    sent.1 = f.flattened [r] ∧ sent.2.WellFormed ∧ sent.2.children P = f.children P ∧
      Movable sent.2 P sent.1 ∧ (∀ x ∈ sent.1, sent.2.kind x ≠ .root) ∧
      ∀ g, Joins sent.2 g P sent.1 → Joins f g P sent.1 := by
  by_cases hk : f.kind r = .root
  · have hne : P ≠ r := fun he => hm.not_mem (he ▸ .head _)
    have hids : f.flattened [r] = f.children r := by simp [Forest.flattened, hk]
    have hkinds : ∀ x ∈ f.children r, (f.clear r).2.kind x ≠ .root := by
      intro x hx
      rw [kind_clear]
      exact h.root r x hx
    rw [if_pos hk]
    refine ⟨hids.symm, h.clear r, ?_, ⟨?_, ?_, ?_⟩, hkinds, ?_⟩
    · rw [children_clear, if_neg hne]
    · intro x hx
      rw [size_clear]
      exact h.lt_size hx
    · intro x hx hreach
      have hold : ∀ p c, (f.clear r).2.Child p c → f.Child p c := by
        intro p c hc
        rw [Child, (h.clear_without r).children, List.mem_filter] at hc
        exact hc.1
      exact hm.outside r (.head _) (.head hx (ReflTransGen.mono hold _ _ hreach))
    · rw [show (f.clear r).1 = f.children r from rfl, flattened_eq_self hkinds]
      exact h.nodup r
    · intro g hg
      have hflat : f.flatten none [r] = f.clear r := by simp [flatten, hk]
      rw [← hflat] at hg ⊢
      exact hg.of_flatten
  · have hids : f.flattened [r] = [r] := flattened_eq_self (by simpa using hk)
    rw [if_neg hk]
    exact ⟨hids.symm, h, rfl, hm.head, by simpa using hk, fun g hg => hg⟩

/-- A child of `P` is no child of a root in a movable list. -/
theorem Movable.mem_flattened_iff (h : f.WellFormed) (hm : Movable f P rs)
    (hn : n ∈ f.children P) : n ∈ f.flattened rs ↔ n ∈ rs := by
  rw [mem_flattened]
  constructor
  · rintro (⟨hmem, -⟩ | ⟨r, hr, -, hc⟩)
    · exact hmem
    · exact absurd (h.eq_of_mem hc hn ▸ hr) hm.not_mem
  · exact fun hmem => .inl ⟨hmem, h.root P n hn⟩

/-- The replacements that are left, once `n` came by, go behind the bookmark. More of them may
follow. -/
theorem Movable.replaceBehind (h : f.WellFormed) (hm : Movable f P rs)
    (hc : f.children P = A ++ b :: B) (hb : b ∉ f.flattened rs) (hn : n ∉ rs) :
    ∃ g last, (∀ more, insertReplacements P n f (some b) (rs ++ more) =
        insertReplacements P n g (some last) more) ∧
      last ∈ g.children P ∧ Joins f g P (f.flattened rs) ∧ g.WellFormed ∧
      g.children P = A.filter (· ∉ f.flattened rs) ++ b :: f.flattened rs ++
        B.filter (· ∉ f.flattened rs) := by
  induction rs generalizing f A B b with
  | nil =>
    exact ⟨f, b, fun _ => rfl, by simp [hc], .refl f P, h, by simpa [Forest.flattened] using hc⟩
  | cons r rs ih =>
    rw [flattened_cons, List.mem_append, not_or] at hb
    obtain ⟨hnr, hnrs⟩ := not_or.1 (List.mem_cons.not.1 hn)
    obtain ⟨hids, hwf, hsame, hmove, hk, hjoins⟩ := hm.sent h
    generalize hsent : (if f.kind r = .root then f.clear r else ([r], f)) = sent at *
    obtain ⟨ids, f'⟩ := sent
    simp only at *
    obtain ⟨g, last, ahead, hg, hput, hgwf, hlist, hahead, hlast⟩ :=
      hmove.insertBehind hwf hk (hsame.trans hc) (by rw [hids]; exact hb.1)
    have hfirst := hjoins g hput
    rw [hids] at hfirst hlist hahead hlast
    obtain ⟨hleft, hrest, hd⟩ := hm.joins hfirst
    have hbookmark : last ∉ f.flattened rs := by
      rcases List.mem_cons.1 hlast with rfl | hmem
      · exact hb.2
      · exact fun hmem' => hd hmem hmem'
    obtain ⟨k, last', hall, hlast', hothers, hkwf, hchildren⟩ :=
      ih hgwf hleft hlist (hrest ▸ hbookmark) hnrs
    rw [hrest] at hothers hchildren
    rw [flattened_cons]
    refine ⟨k, last', fun more => ?_, hlast', hfirst.trans hothers hd, hkwf, ?_⟩
    · rw [List.cons_append, insertReplacements, if_neg (Ne.symm hnr)]
      simp only [hsent, hg]
      exact hall more
    · have hsplit : ahead.filter (· ∉ f.flattened rs) ++ [last] =
          A.filter (· ∉ f.flattened [r] ++ f.flattened rs) ++ b :: f.flattened [r] := by
        have := congrArg (List.filter (· ∉ f.flattened rs)) hahead
        rw [filter_cut hbookmark, filter_cut hb.2, ← filter_not_mem_append] at this
        rw [show [] = ([] : List NodeId).filter (· ∉ f.flattened rs) from rfl, this]
        congr 2
        exact filter_not_mem_of_disjoint hd
      rw [hchildren, ← filter_not_mem_append, List.append_assoc, List.cons_append, List.append_cons,
        hsplit]
      simp

/-- The replacements up to `n` go right before it, those from there on behind it. More of them may
follow. -/
theorem Movable.replaceAhead (h : f.WellFormed) (hm : Movable f P rs)
    (hc : f.children P = A ++ n :: B) :
    ∃ g bookmark, (∀ more, insertReplacements P n f none (rs ++ more) =
        insertReplacements P n g bookmark more) ∧
      bookmark.isSome = decide (n ∈ rs) ∧ (∀ b, bookmark = some b → b ∈ g.children P) ∧
      Joins f g P (f.flattened rs) ∧ g.WellFormed ∧
      g.children P = A.filter (· ∉ f.flattened rs) ++ f.flattened rs ++
        (if n ∈ rs then [] else [n]) ++ B.filter (· ∉ f.flattened rs) := by
  induction rs generalizing f A B with
  | nil =>
    exact ⟨f, none, fun _ => rfl, by simp, by simp, .refl f P, h,
      by simpa [Forest.flattened] using hc⟩
  | cons r rs ih =>
    have hn : n ∈ f.children P := by simp [hc]
    rw [flattened_cons]
    by_cases hr : r = n
    · subst hr
      have hone : f.flattened [r] = [r] := flattened_eq_self (by simpa using h.root P r hn)
      obtain ⟨hleft, -, hd⟩ := hm.joins (hone.symm ▸ h.joins_self hn)
      rw [hone, List.singleton_disjoint] at hd
      obtain ⟨g, last, hg, hlast, hothers, hgwf, hchildren⟩ := hleft.replaceBehind h hc hd
        fun hmem => hd ((hleft.mem_flattened_iff h hn).2 hmem)
      refine ⟨g, some last, fun more => ?_, by simp, ?_, ?_, hgwf, ?_⟩
      · rw [List.cons_append, insertReplacements, if_pos rfl, Option.getD_none, hg]
      · rintro b ⟨⟩
        exact hlast
      · rw [hone]
        exact (h.joins_self hn).trans hothers (by simpa using hd)
      · obtain ⟨hAr, hBr⟩ := filter_apart (hc ▸ h.nodup P)
        rw [hone, filter_not_mem_append, filter_not_mem_append, hAr, hBr, hchildren]
        simp
    · obtain ⟨hids, hwf, hsame, hmove, hk, hjoins⟩ := hm.sent h
      generalize hsent : (if f.kind r = .root then f.clear r else ([r], f)) = sent at *
      obtain ⟨ids, f'⟩ := sent
      simp only at *
      have hnids : n ∉ ids := by
        rw [hids, hm.head.mem_flattened_iff h hn, List.mem_singleton]
        exact Ne.symm hr
      obtain ⟨g, hg, hput, hgwf, hlist⟩ := hmove.insertAhead hwf hk (hsame.trans hc) hnids
      have hfirst := hjoins g hput
      rw [hids] at hfirst hlist
      obtain ⟨hleft, hrest, hd⟩ := hm.joins hfirst
      obtain ⟨k, bookmark, hall, hfound, hbookmark, hothers, hkwf, hchildren⟩ := ih hgwf hleft hlist
      rw [hrest] at hothers hchildren
      refine ⟨k, bookmark, fun more => ?_, ?_, hbookmark, hfirst.trans hothers hd, hkwf, ?_⟩
      · rw [List.cons_append, insertReplacements, if_neg hr]
        simp only [hsent, hg]
        exact hall more
      · simp only [hfound, List.mem_cons, Ne.symm hr, false_or]
      · rw [hchildren, List.filter_append, filter_not_mem_of_disjoint hd, ← filter_not_mem_append,
          ← filter_not_mem_append]
        simp [Ne.symm hr]

/-! ## The replacement -/

/-- **A node is replaced** by what the list stands for, at its place: the others keep their order,
and the node stays only if it is named itself. -/
theorem replace_children {L R : List NodeId} (h : f.WellFormed) (hs : ∀ r ∈ rs, r < f.size)
    (hn : f.children P = L ++ n :: R) (ho : ∀ r ∈ rs, ¬ ReflTransGen f.Child r P)
    (hd : (f.flattened rs).Nodup) :
    ∃ g, f.replace n rs = (g, .ok ()) ∧
      g.children P = L.filter (· ∉ f.flattened rs) ++ f.flattened rs ++
        R.filter (· ∉ f.flattened rs) ∧
      (n ∈ g.children P ↔ n ∈ rs) ∧
      (∀ r ∈ rs, f.kind r = .root → g.children r = []) ∧
      (∀ q, q ≠ P → g.children q = (f.children q).filter (· ∉ f.flattened rs)) ∧
      (∀ c ∈ f.flattened rs, g.parent? c = some P) ∧ (n ∉ rs → g.parent? n = none) ∧
      g.WellFormed := by
  have hm : Movable f P rs := ⟨hs, ho, hd⟩
  have hmem : n ∈ f.children P := by simp [hn]
  have hflat := hm.mem_flattened_iff h hmem
  have hroots : ∀ r ∈ rs, f.kind r = .root →
      r ≠ P ∧ (f.children r).filter (· ∉ f.flattened rs) = [] := by
    intro r hr hk
    refine ⟨fun he => hm.not_mem (he ▸ hr), List.filter_eq_nil_iff.2 fun c hc => ?_⟩
    rw [decide_eq_true_iff, not_not]
    exact mem_flattened.2 (.inr ⟨r, hr, hk, hc⟩)
  obtain ⟨g, bookmark, hg, hfound, -, hjoins, hgwf, hchildren⟩ := hm.replaceAhead h hn
  have hall : insertReplacements P n f none rs = .ok (g, decide (n ∈ rs)) := by
    have := hg []
    rw [List.append_nil] at this
    rw [this, insertReplacements, hfound]
  rw [replace, (h.parent P n).1 hmem]
  simp only [hall]
  by_cases hnr : n ∈ rs
  · simp only [hnr, if_true, decide_true, List.append_nil] at hchildren ⊢
    refine ⟨g, rfl, hchildren, ?_, ?_, hjoins.children, ?_, by simp, hgwf⟩
    · simp [hchildren, hflat.2 hnr]
    · intro r hr hk
      rw [hjoins.children r (hroots r hr hk).1, (hroots r hr hk).2]
    · intro c hc
      rw [hjoins.parent, if_pos hc]
  · simp only [hnr, if_false, decide_false] at hchildren ⊢
    rw [List.append_assoc, List.singleton_append] at hchildren
    have hlast : n ∈ g.children P := by simp [hchildren]
    have hout := hgwf.detach_without n
    obtain ⟨hahead, hbehind⟩ := filter_apart (hchildren ▸ hgwf.nodup P)
    have hlist : (g.detach n).2.children P = L.filter (· ∉ f.flattened rs) ++ f.flattened rs ++
        R.filter (· ∉ f.flattened rs) := by
      rw [hout.children, hchildren, List.filter_append, hahead, List.filter_cons_of_neg (by simp),
        hbehind]
    have hothers : ∀ q, q ≠ P →
        (g.detach n).2.children q = (f.children q).filter (· ∉ f.flattened rs) := by
      intro q hq
      rw [hout.children, hgwf.filter_self hlast hq, hjoins.children q hq]
    refine ⟨_, rfl, hlist, ?_, ?_, hothers, ?_, ?_, hgwf.detach n⟩
    · rw [hout.children, List.mem_filter]
      simp
    · intro r hr hk
      rw [hothers r (hroots r hr hk).1, (hroots r hr hk).2]
    · intro c hc
      have hne : c ∉ [n] := by
        rw [List.mem_singleton]
        rintro rfl
        exact hnr (hflat.1 hc)
      rw [hout.parent, if_neg hne, hjoins.parent, if_pos hc]
    · intro _
      rw [hout.parent, if_pos (List.mem_singleton_self n)]

/-- The list names siblings on both sides, a node below the replaced one and a root, once with the
node itself among them. -/
theorem replace_children_mixed :
    let es := [.read .empty "a\x7b\x7d n\x7bd\x7b\x7d e\x7b\x7d\x7d c\x7b\x7d z\x7b\x7d" none .auto,
      .read .empty "x\x7b\x7d y\x7b\x7d" none .auto]
    ∃ f ∈ Edit.trail .empty es, f.WellFormed ∧ f.children 0 = [1] ++ 2 :: [5, 6] ∧
      (∃ g, f.replace 2 [5, 3, 7, 1] = (g, .ok ()) ∧ g.children 0 = [5, 3, 8, 9, 1, 6] ∧
        g.children 2 = [4] ∧ g.children 7 = [] ∧ g.parent? 2 = none ∧ g.WellFormed) ∧
      ∃ g, f.replace 2 [5, 2, 3, 7] = (g, .ok ()) ∧ g.children 0 = [1, 5, 2, 3, 8, 9, 6] ∧
        g.children 7 = [] ∧ g.WellFormed := by
  intro es
  obtain ⟨f, hmem, hf, hsize, hc, hc2, hk, hflat, hflat', hinside⟩ := Edit.exists_last es
    (fun f => f.size = 10 ∧ f.children 0 = [1] ++ 2 :: [5, 6] ∧ f.children 2 = [3, 4] ∧
      f.kind 7 = .root ∧
      f.flattened [5, 3, 7, 1] = [5, 3, 8, 9, 1] ∧ f.flattened [5, 2, 3, 7] = [5, 2, 3, 8, 9] ∧
      ∀ r ∈ ([5, 2, 3, 7, 1] : List NodeId), f.isInside r 0 = false)
    (by decide +kernel) (by decide +kernel) (by decide +kernel)
  have ho : ∀ r ∈ ([5, 2, 3, 7, 1] : List NodeId), ¬ ReflTransGen f.Child r 0 := by
    intro r hr
    rw [← hf.isInside_iff, hinside r hr]
    exact Bool.false_ne_true
  obtain ⟨g, hg, hchildren, -, hroots, hothers, -, hparent, hgwf⟩ :=
    @replace_children f 0 2 [5, 3, 7, 1] [1] [5, 6] hf (by rw [hsize]; decide) hc
      (fun r hr => ho r (by revert r; decide)) (by rw [hflat]; decide)
  obtain ⟨k, hk, hchildren', -, hroots', -, -, -, hkwf⟩ :=
    @replace_children f 0 2 [5, 2, 3, 7] [1] [5, 6] hf (by rw [hsize]; decide) hc
      (fun r hr => ho r (by revert r; decide)) (by rw [hflat']; decide)
  rw [hflat] at hchildren hothers
  rw [hflat'] at hchildren'
  exact ⟨f, hmem, hf, hc, ⟨g, hg, hchildren, by rw [hothers 2 (by decide), hc2]; rfl,
    hroots 7 (by decide) ‹_›, hparent (by decide), hgwf⟩,
    k, hk, hchildren', hroots' 7 (by decide) ‹_›, hkwf⟩

end Forest

end Stylesheet
