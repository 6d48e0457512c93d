import Stylesheet.Proofs.Forest.Replacement

/-!
# What an edit of several steps leaves when it is refused

`insert` looks at all that it is given before it changes anything. `replace` and `moveTo` do not:
each takes steps before one that can still be refused. `replace` goes by the list of replacements,
so nothing is changed if the first of them is refused (`RefusesFirst`), and a later refusal leaves
those before it moved (`replace_refused`). `moveTo` drops formatting before it asks whether the
target can have children. `unchanged_of_error` says when all is as before.
-/

set_option autoImplicit false

namespace Stylesheet

namespace Forest

open Relation

variable {f g : Forest} {P id n r : NodeId} {L R xs rs ids : List NodeId} {e : TreeError}

/-! ## Replacing -/

/-- The node has no parent, or the first replacement apart from the node is no root and cannot be
inserted beside it. -/
def RefusesFirst (f : Forest) (id : NodeId) (rs : List NodeId) : Prop :=
  f.parent? id = none ∨ ∃ r e, (rs.filter (· ≠ id)).head? = some r ∧ f.kind r ≠ .root ∧
    f.insertBefore id r = .error e

/-- Where a node goes before or behind another one, it is refused alike. -/
theorem insertReplacements_refused {bookmark : Option NodeId}
    (hb : ∀ b, bookmark = some b → b = id) (hr : (rs.filter (· ≠ id)).head? = some r)
    (hk : f.kind r ≠ .root) (he : f.refusal? P (.before id) [r] = some e) :
    insertReplacements P id f bookmark rs = .error (f, e) := by
  induction rs generalizing bookmark with
  | nil => cases hr
  | cons c rs ih =>
    rw [insertReplacements]
    by_cases hc : c = id
    · rw [if_pos hc]
      refine ih ?_ (by simpa [hc] using hr)
      rintro b ⟨⟩
      cases bookmark with
      | none => rfl
      | some b => exact hb b rfl
    · rw [List.filter_cons_of_pos (by simpa using hc), List.head?_cons, Option.some.injEq] at hr
      subst hr
      rw [if_neg hc, if_neg hk]
      cases bookmark with
      | none => simp only [insertAhead, insert_of_refusal? he]
      | some b =>
        obtain rfl := hb b rfl
        have he' : f.refusal? P (.after b) [c] = some e := he
        simp only [insertBehind, insert_of_refusal? he']

/-- A node that is refused at once leaves all as it was. -/
theorem RefusesFirst.replace (h : f.RefusesFirst id rs) : ∃ e, f.replace id rs = (f, .error e) := by
  unfold Forest.replace
  cases hp : f.parent? id with
  | none => exact ⟨.detached, rfl⟩
  | some parent =>
    rcases h with hnone | ⟨r, e, hr, hk, he⟩
    · rw [hp] at hnone
      cases hnone
    · unfold insertBefore at he
      rw [hp] at he
      simp only at he ⊢
      cases href : f.refusal? parent (.before id) [r] with
      | none =>
        rw [insert_of_accepted href] at he
        cases he
      | some e =>
        rw [insertReplacements_refused (by simp) hr hk href]
        exact ⟨e, rfl⟩

/-- Moving nodes below `P` that do not stand around it leaves those around it there. -/
theorem Joins.around (h : Joins f g P xs) (hxs : ∀ x ∈ xs, ¬ ReflTransGen f.Child x P)
    (hr : ReflTransGen f.Child r P) : ReflTransGen g.Child r P := by
  induction hr using ReflTransGen.head_induction_on with
  | refl => exact .refl
  | head hc hdown ih => exact .head ((h.child_iff _ _).2 (.inr ⟨fun hx => hxs _ hx hdown, hc⟩)) ih

/-- **A refusal on the way**: where a replacement stands around the parent, those before it have
been moved next to the node, which keeps its place. -/
theorem WellFormed.replace_refused (h : f.WellFormed) (hm : Movable f P rs)
    (hn : f.children P = L ++ n :: R) (hk : f.kind r ≠ .root) (hr : ReflTransGen f.Child r P)
    (more : List NodeId) :
    ∃ g, f.replace n (rs ++ r :: more) = (g, .error .cycle) ∧ Joins f g P (f.flattened rs) ∧
      g.children P = L.filter (· ∉ f.flattened rs) ++ f.flattened rs ++
        (if n ∈ rs then [] else [n]) ++ R.filter (· ∉ f.flattened rs) ∧ g.WellFormed := by
  have hmem : n ∈ f.children P := by simp [hn]
  have hne : r ≠ n := by
    rintro rfl
    exact h.acyclic r (.tail' hr hmem)
  obtain ⟨g, bookmark, hg, hfound, hbookmark, hjoins, hgwf, hchildren⟩ := hm.replaceAhead h hn
  have haround := hjoins.around (fun x hx => hm.outside_flattened hx) hr
  have hkg : g.kind r ≠ .root := by rwa [hjoins.kind]
  have hrefused : ∀ anchor c, anchor.reference? = some c → c ∈ g.children P →
      g.insert P anchor [r] = .error .cycle := by
    intro anchor c ha hc
    apply insert_of_refusal?
    rw [refusal?_eq_ite (hgwf.isContainer_of_mem hc)]
    · simp [hgwf.isInside_of_reach haround]
    · rw [ha]
      rintro d ⟨⟩
      exact hc
  have hstop : Forest.insertReplacements P n g bookmark (r :: more) = .error (g, .cycle) := by
    rw [Forest.insertReplacements, if_neg hne, if_neg hkg]
    cases bookmark with
    | some b => simp only [Forest.insertBehind, hrefused (.after b) b rfl (hbookmark b rfl)]
    | none =>
      have hstays : n ∈ g.children P := by
        rw [hchildren, if_neg (by simpa using hfound)]
        simp
      simp only [Forest.insertAhead, hrefused (.before n) n rfl hstays]
  refine ⟨g, ?_, hjoins, hchildren, hgwf⟩
  rw [Forest.replace, (h.parent P n).1 hmem]
  simp only [hg (r :: more), hstop]

/-! ## Moving -/

theorem Raws.clean_clean (r : Raws) (keepBetween : Bool) :
    (r.clean keepBetween).clean keepBetween = r.clean keepBetween := by
  simp [Raws.clean, Raws.retain]

theorem modify_eq_self {k : Node → Node} (h : k (f.node id) = f.node id) : f.modify id k = f := by
  have hall : f.all.modify id k = f.all := by
    apply Array.ext
    · simp
    · intro i hi hi'
      rw [Array.getElem_modify]
      split
      · next hid =>
        subst hid
        have hnode : f.node id = f.all[id] := by simp [node, hi']
        rw [← hnode, h]
      · rfl
  unfold modify
  rw [hall]

theorem raws_modifyRaws (f : Forest) (id : NodeId) (keepBetween : Bool) (c : NodeId) :
    (f.modifyRaws id (·.clean keepBetween)).raws c =
      if c = id then (f.raws c).clean keepBetween else f.raws c :=
  node_modify_map (fun n => n.raws) (·.clean keepBetween) (fun _ => rfl) rfl f id c

theorem raws_cleanAll (keepBetween : Bool) (ids : List NodeId) (f : Forest) (c : NodeId) :
    (ids.foldl (fun f n => f.modifyRaws n (·.clean keepBetween)) f).raws c =
      if c ∈ ids then (f.raws c).clean keepBetween else f.raws c := by
  induction ids generalizing f with
  | nil => simp
  | cons id ids ih =>
    rw [List.foldl_cons, ih, raws_modifyRaws]
    by_cases hc : c = id <;> by_cases hmem : c ∈ ids <;> simp [hc, hmem, Raws.clean_clean]

/-- Cleaning changes nothing exactly if no node has formatting to drop. -/
theorem cleanRaws_eq_self_iff (f : Forest) (id : NodeId) (keepBetween : Bool) :
    f.cleanRaws id keepBetween = f ↔
      ∀ x ∈ (f.outline id).preorder, (f.raws x).clean keepBetween = f.raws x := by
  unfold cleanRaws
  generalize (f.outline id).preorder = ids
  constructor
  · intro h x hx
    have := raws_cleanAll keepBetween ids f x
    rw [h, if_pos hx] at this
    exact this.symm
  · intro h
    induction ids with
    | nil => rfl
    | cons x ids ih =>
      have hx : (f.node x).raws.clean keepBetween = (f.node x).raws := h x (.head _)
      have hsame : f.modifyRaws x (·.clean keepBetween) = f := modify_eq_self (by simp only [hx])
      rw [List.foldl_cons, hsame]
      exact ih fun y hy => h y (.tail _ hy)

theorem ancestorsWithin_congr (h : ∀ c, g.parent? c = f.parent? c) (steps : Nat) (id : NodeId) :
    g.ancestorsWithin steps id = f.ancestorsWithin steps id := by
  induction steps generalizing id with
  | zero => rfl
  | succ steps ih =>
    rw [ancestorsWithin, ancestorsWithin, h]
    cases f.parent? id with
    | none => rfl
    | some p => simp only [ih]

theorem isInside_cleanRaws (f : Forest) (id : NodeId) (keepBetween : Bool) (a c : NodeId) :
    (f.cleanRaws id keepBetween).isInside a c = f.isInside a c := by
  unfold isInside ancestors
  rw [size_cleanRaws,
    ancestorsWithin_congr (node_cleanRaws Node.parent (fun _ _ => rfl) f id keepBetween)]

/-- A move is refused in two ways: before anything is done, or behind the cleaning because the
target cannot have children. -/
theorem moveTo_error {container : NodeId} (hg : f.moveTo id container = (g, .error e)) :
    (e = .cycle ∧ g = f) ∨ (e = .notAContainer (f.kind container) ∧
      g = f.cleanRaws id (f.top id = f.top container)) := by
  unfold moveTo at hg
  simp only at hg
  split at hg
  · cases hg
    exact .inl ⟨rfl, rfl⟩
  · next hinside =>
    rw [Bool.not_eq_true] at hinside
    have hkind : (f.cleanRaws id (f.top id = f.top container)).kind container = f.kind container :=
      node_cleanRaws Node.kind (fun _ _ => rfl) f id _ container
    by_cases hc : (f.kind container).isContainer = true
    · rw [insert_of_accepted] at hg
      · cases hg
      · rw [refusal?_eq_ite (by rwa [hkind]) (by simp [Anchor.reference?])]
        simp [isInside_cleanRaws, hinside]
    · rw [insert_of_refusal? (e := .notAContainer (f.kind container))] at hg
      · cases hg
        exact .inr ⟨rfl, rfl⟩
      · simp [refusal?, hkind, hc]

/-! ## Both -/

/-- **What an error leaves**. A replacement whose first step is refused leaves all as it was, one
that is refused later has moved what comes before in the list. A move that is refused leaves all as
it was exactly if the target stands below the node or no node has formatting to drop. -/
theorem unchanged_of_error (f : Forest) :
    (∀ id rs, f.RefusesFirst id rs → ∃ e, f.replace id rs = (f, .error e)) ∧
      (∀ P L n R rs r more, f.WellFormed → Movable f P rs → f.children P = L ++ n :: R →
        f.kind r ≠ .root → ReflTransGen f.Child r P →
        ∃ g, f.replace n (rs ++ r :: more) = (g, .error .cycle) ∧ Joins f g P (f.flattened rs) ∧
          g.children P = L.filter (· ∉ f.flattened rs) ++ f.flattened rs ++
            (if n ∈ rs then [] else [n]) ++ R.filter (· ∉ f.flattened rs)) ∧
      ∀ id container g e, f.moveTo id container = (g, .error e) →
        (g = f ↔ e = .cycle ∨ ∀ x ∈ (f.outline id).preorder,
          (f.raws x).clean (f.top id = f.top container) = f.raws x) := by
  refine ⟨fun id rs h => h.replace, ?_, ?_⟩
  · intro P L n R rs r more h hm hn hk hr
    obtain ⟨g, hg, hjoins, hchildren, -⟩ := h.replace_refused hm hn hk hr more
    exact ⟨g, hg, hjoins, hchildren⟩
  · intro id container g e hg
    rcases moveTo_error hg with ⟨rfl, rfl⟩ | ⟨rfl, rfl⟩
    · simp
    · rw [cleanRaws_eq_self_iff, or_iff_right (by simp)]

/-- The rule around a node is named at once, and behind a comment that is new; the node is moved
into that comment. -/
theorem unchanged_of_error_nested :
    let es := [.read .empty "p\x7b a\x7b\x7d\x7d" none .auto, .new (.comment "y")]
    ∃ f ∈ Edit.trail .empty es, (∃ e, f.replace 2 [2, 1, 3] = (f, .error e)) ∧
      (∃ g, f.replace 2 [3, 1] = (g, .error .cycle) ∧ g.children 1 = [3, 2]) ∧
      ∃ g e, f.moveTo 2 3 = (g, .error e) ∧ g ≠ f := by
  intro es
  obtain ⟨f, hmem, hf, hsize, hc, hk, hflat, hinside, hpre, hraws, hbefore, hmove, hcycle⟩ :=
    Edit.exists_last es
      (fun f => f.size = 4 ∧ f.children 1 = [2] ∧ f.kind 1 ≠ .root ∧ f.flattened [3] = [3] ∧
        f.isInside 3 1 = false ∧ 2 ∈ (f.outline 2).preorder ∧
        (f.raws 2).clean (f.top 2 = f.top 3) ≠ f.raws 2 ∧
        (f.insertBefore 2 1).isOk = false ∧ (f.moveTo 2 3).2.isOk = false ∧
        (f.moveTo 2 3).2 ≠ .error .cycle)
      (by decide +kernel) (by decide +kernel) (by decide +kernel)
  obtain ⟨hfirst, hlater, hmoved⟩ := unchanged_of_error f
  refine ⟨f, hmem, hfirst 2 [2, 1, 3] (.inr ?_), ?_, ?_⟩
  · cases hb : f.insertBefore 2 1 with
    | error e => exact ⟨1, e, rfl, hk, hb⟩
    | ok g => rw [hb] at hbefore; cases hbefore
  · have hm : Movable f 1 [3] := by
      refine ⟨?_, ?_, by rw [hflat]; decide⟩
      · rw [hsize]
        decide
      · intro r hr
        rw [List.mem_singleton.1 hr, ← hf.isInside_iff, hinside]
        exact Bool.false_ne_true
    obtain ⟨g, hg, -, hchildren⟩ := hlater 1 [] 2 [] [3] 1 [] hf hm hc hk .refl
    rw [hflat] at hchildren
    exact ⟨g, hg, hchildren⟩
  · cases hr : f.moveTo 2 3 with
    | mk g result =>
      rw [hr] at hmove hcycle
      cases result with
      | ok _ => cases hmove
      | error e =>
        refine ⟨g, e, rfl, fun he => ?_⟩
        rcases (hmoved 2 3 g e hr).1 he with rfl | hsame
        · exact hcycle rfl
        · exact hraws (hsame 2 hpre)

/-- A refusal behind the first replacement leaves that one moved. -/
theorem not_unchanged_of_error : ¬ ∀ es, Edit.Named .empty es → ∀ f ∈ Edit.trail .empty es,
    ∀ id rs g e, f.replace id rs = (g, .error e) → ∀ p, g.children p = f.children p := by
  intro h
  let es : List Edit := [.new (.rule "p"), .new (.rule "a"), .insert 0 .stop [1],
    .new (.comment "y")]
  obtain ⟨f, hlast⟩ : ∃ f, (Edit.trail .empty es).getLast? = some f := ⟨_, rfl⟩
  have hok : (Edit.trail .empty es).getLast?.any (fun f : Forest => decide
      ((f.replace 1 [2, 0]).1.children 0 ≠ f.children 0 ∧
        (f.replace 1 [2, 0]).2.isOk = false)) = true := by
    decide +kernel
  rw [hlast] at hok
  obtain ⟨hchildren, herror⟩ := of_decide_eq_true hok
  cases hr : f.replace 1 [2, 0] with
  | mk g result =>
    rw [hr] at hchildren herror
    cases result with
    | ok _ => cases herror
    | error e =>
      exact hchildren (h es (by decide +kernel) f (List.mem_of_getLast? hlast) _ _ _ _ hr 0)

end Forest

end Stylesheet
