import Stylesheet.Proofs.Cursor.Follows

/-!
# Cursors follow the naive rule

An `Act` edits a forest or opens, advances or closes a cursor. `handedAll` keeps account of the
children that a cursor has handed out since they were last put into the list. `nextChild_eq_due`:
whatever happens in between, a cursor in mode `traversal` hands out the first child that is not
among them.
-/

set_option autoImplicit false

namespace Stylesheet

/-- What can happen while cursors are open. -/
inductive Act where
  | edit (e : Edit)
  | «open» (parent : NodeId) (mode : CursorMode)
  | next (parent : NodeId) (cursor : Nat)
  | close (parent : NodeId) (cursor : Nat)

namespace Forest

variable {f : Forest} {P parent : NodeId} {k : Nat} {handed : List NodeId}

/-! ## Acts on cursors -/

theorem cursors_modifyCursors (g : Cursors → Cursors) (h : parent < f.size) (p : NodeId) :
    (f.modify parent fun n => { n with cursors := g n.cursors }).cursors p =
      if p = parent then g (f.cursors parent) else f.cursors p := by
  unfold cursors
  rw [node_modify]
  by_cases hp : p = parent
  · simp [hp, h]
  · simp [hp]

theorem sound_modifyCursors (h : f.Sound) (hp : parent < f.size) (g : Cursors → Cursors)
    (hg : (f.cursors parent).Numbered → (g (f.cursors parent)).Numbered) :
    (f.modify parent fun n => { n with cursors := g n.cursors }).Sound := by
  refine h.shrink (size_modify ..) (node_modify_congr Node.kind rfl) ?_ ?_
  · intro p c hc
    have hsame : (f.modify parent fun n => { n with cursors := g n.cursors }).children p =
        f.children p := node_modify_congr Node.nodes rfl p
    rwa [hsame] at hc
  · intro p
    rw [cursors_modifyCursors g hp]
    split
    · exact hg (h.numbered parent)
    · exact h.numbered p

/-- Only the cursor `k` over the children of `P` matters. -/
theorem Tracks.modifyCursors (h : f.Tracks P k handed) (hp : parent < f.size)
    (g : Cursors → Cursors) {now : List NodeId}
    (hg : parent = P → ∀ next, (f.cursors P).get? k = some ⟨.traversal, next, handed⟩ →
      Passed handed next (f.children P) →
      ∃ next', (g (f.cursors P)).get? k = some ⟨.traversal, next', now⟩ ∧
        Passed now next' (f.children P))
    (hnow : parent ≠ P → now = handed) :
    (f.modify parent fun n => { n with cursors := g n.cursors }).Tracks P k now := by
  obtain ⟨next, hget, hpassed⟩ := h
  have hchildren : (f.modify parent fun n => { n with cursors := g n.cursors }).children P =
      f.children P := node_modify_congr Node.nodes rfl P
  unfold Tracks
  rw [cursors_modifyCursors g hp, hchildren]
  by_cases hP : parent = P
  · subst hP
    rw [if_pos rfl]
    exact hg rfl next hget hpassed
  · rw [if_neg (Ne.symm hP), hnow hP]
    exact ⟨next, hget, hpassed⟩

theorem Tracks.lt_size (h : f.Tracks P k handed) : P < f.size := by
  obtain ⟨next, hget, -⟩ := h
  apply Nat.lt_of_not_le
  intro hle
  rw [cursors_of_le hle] at hget
  cases hget

/-- **One step of a cursor** hands out the first child that is due. -/
theorem nextChild_of_tracks (h : f.Tracks P k handed) (hd : (f.children P).Nodup) :
    (f.nextChild P k).1 = due handed (f.children P) ∧
      (f.nextChild P k).2.Tracks P k (hand (due handed (f.children P)) handed) := by
  have hP := h.lt_size
  obtain ⟨next, hget, hpassed⟩ := h
  obtain ⟨hfound, next', hcursor, hpassed'⟩ := advance_eq_due hpassed hd
  generalize hr : (⟨.traversal, next, handed⟩ : Cursor).advance ((f.children P).drop next) = r at *
  obtain ⟨found, c⟩ := r
  simp only at hfound hcursor
  have hnext : f.nextChild P k =
      (found, f.modify P fun n => { n with cursors := n.cursors.put k c }) := by
    unfold nextChild
    rw [show (f.node P).cursors.get? k = _ from hget]
    simp only [hr]
  rw [hnext, ← hfound]
  refine ⟨rfl, Tracks.modifyCursors ⟨next, hget, hpassed⟩ hP (·.put k c) ?_ fun hne => ?_⟩
  · intro _ _ _ _
    rw [Cursors.get?_put_self hget, hcursor, hfound]
    exact ⟨next', rfl, hpassed'⟩
  · exact absurd rfl hne

theorem nextChild_snd (f : Forest) (parent : NodeId) (k : Nat) :
    (f.nextChild parent k).2 = f ∨
      ∃ c, (f.nextChild parent k).2 = f.modify parent fun n => { n with
        cursors := n.cursors.put k c } := by
  unfold nextChild
  cases (f.node parent).cursors.get? k with
  | none => exact .inl rfl
  | some c => exact .inr ⟨_, rfl⟩

end Forest

namespace Act

open Forest

variable {f : Forest} {P : NodeId} {k : Nat} {hs : List NodeId} {a : Act}

/-- The forest behind an act. -/
def run (f : Forest) : Act → Forest
  | edit e => e.run f
  | «open» parent mode => (f.openCursor parent mode).2
  | next parent cursor => (f.nextChild parent cursor).2
  | close parent cursor => f.closeCursor parent cursor

/-- The nodes that an act names. -/
def names : Act → List NodeId
  | edit e => e.names
  | «open» parent _ | next parent _ | close parent _ => [parent]

/-- The nodes that the cursor `k` over the children of `P` has handed out since they were last put
there, behind an act and in terms of those before it. -/
def handed (P : NodeId) (k : Nat) (f : Forest) (before : List NodeId) : Act → List NodeId
  | edit e => before.filter (· ∉ e.arrivals P f)
  | next parent cursor =>
    if parent = P ∧ cursor = k then hand (f.nextChild P k).1 before else before
  | «open» _ _ | close _ _ => before

theorem sound_run (h : f.Sound) (hn : ∀ id ∈ a.names, id < f.size) : (a.run f).Sound := by
  cases a with
  | edit e => exact Edit.sound_run h hn
  | «open» parent mode =>
    exact sound_modifyCursors h (hn parent (.head _)) (fun _ => ((f.cursors parent).open mode).2)
      fun hc => Cursors.numbered_open hc mode
  | next parent cursor =>
    simp only [run]
    rcases nextChild_snd f parent cursor with hr | ⟨c, hr⟩
    · rw [hr]
      exact h
    · rw [hr]
      exact sound_modifyCursors h (hn parent (.head _)) (·.put cursor c)
        fun hc => Cursors.numbered_put hc cursor c
  | close parent cursor =>
    exact sound_modifyCursors h (hn parent (.head _)) (·.close cursor)
      fun hc => Cursors.numbered_close hc cursor

/-- **What one act does to the account of a cursor.** -/
theorem tracks_run (h : f.Sound) (ht : f.Tracks P k hs) (hn : ∀ id ∈ a.names, id < f.size)
    (hc : a ≠ .close P k) (hbefore : (f.children P).Nodup)
    (hbehind : ((a.run f).children P).Nodup) :
    (a.run f).Tracks P k (a.handed P k f hs) := by
  cases a with
  | edit e => exact (Edit.follows_run h hn hbefore hbehind).tracks k hs ht
  | «open» parent mode =>
    refine ht.modifyCursors (hn parent (.head _)) (fun _ => ((f.cursors parent).open mode).2) ?_
      fun _ => rfl
    rintro rfl next hget hpassed
    exact ⟨next, Cursors.get?_open_of_some hget mode, hpassed⟩
  | next parent cursor =>
    simp only [run, handed]
    by_cases hsame : parent = P ∧ cursor = k
    · obtain ⟨rfl, rfl⟩ := hsame
      obtain ⟨hfound, htracks⟩ := nextChild_of_tracks ht hbefore
      rw [if_pos ⟨rfl, rfl⟩, hfound]
      exact htracks
    · rw [if_neg hsame]
      rcases nextChild_snd f parent cursor with hr | ⟨c, hr⟩
      · rw [hr]
        exact ht
      · rw [hr]
        refine ht.modifyCursors (hn parent (.head _)) (·.put cursor c) ?_ fun _ => rfl
        rintro rfl next hget hpassed
        have hne : k ≠ cursor := fun he => hsame ⟨rfl, he.symm⟩
        exact ⟨next, (Cursors.get?_put_of_ne hne c).trans hget, hpassed⟩
  | close parent cursor =>
    refine ht.modifyCursors (hn parent (.head _)) (·.close cursor) ?_ fun _ => rfl
    rintro rfl next hget hpassed
    have hne : k ≠ cursor := by
      rintro rfl
      exact hc rfl
    exact ⟨next, (Cursors.get?_close_of_ne hne).trans hget, hpassed⟩

/-! ## All acts -/

/-- The forest behind a sequence of acts. -/
def runAll (f : Forest) : List Act → Forest
  | [] => f
  | a :: as => runAll (a.run f) as

/-- The forests that a sequence of acts goes through. -/
def trail (f : Forest) : List Act → List Forest
  | [] => [f]
  | a :: as => f :: trail (a.run f) as

/-- Every act names nodes that are there. -/
def Named (f : Forest) : List Act → Prop
  | [] => True
  | a :: as => (∀ id ∈ a.names, id < f.size) ∧ Named (a.run f) as

/-- The nodes that the cursor `k` over the children of `P` has handed out since they were last put
there, behind a sequence of acts. -/
def handedAll (P : NodeId) (k : Nat) (f : Forest) (before : List NodeId) : List Act → List NodeId
  | [] => before
  | a :: as => handedAll P k (a.run f) (a.handed P k f before) as

instance decidableNamed : (f : Forest) → (as : List Act) → Decidable (Named f as)
  | _, [] => inferInstanceAs (Decidable True)
  | f, a :: as =>
    have := decidableNamed (a.run f) as
    inferInstanceAs (Decidable (_ ∧ _))

theorem sound_runAll {as : List Act} (h : f.Sound) (hn : Named f as) : (runAll f as).Sound := by
  induction as generalizing f with
  | nil => exact h
  | cons a as ih => exact ih (sound_run h hn.1) hn.2

theorem mem_trail_self (f : Forest) (as : List Act) : f ∈ trail f as := by
  cases as <;> exact .head _

theorem mem_trail_runAll (f : Forest) (as : List Act) : runAll f as ∈ trail f as := by
  induction as generalizing f with
  | nil => exact .head _
  | cons a as ih => exact .tail _ (ih _)

theorem tracks_runAll {as : List Act} (h : f.Sound) (ht : f.Tracks P k hs) (hn : Named f as)
    (hc : .close P k ∉ as) (hd : ∀ g ∈ trail f as, (g.children P).Nodup) :
    (runAll f as).Tracks P k (handedAll P k f hs as) := by
  induction as generalizing f hs with
  | nil => exact ht
  | cons a as ih =>
    rw [trail, List.forall_mem_cons] at hd
    have hne : a ≠ .close P k := fun he => hc (he ▸ .head _)
    refine ih (sound_run h hn.1) ?_ hn.2 (fun hmem => hc (.tail _ hmem)) hd.2
    exact tracks_run h ht hn.1 hne hd.1 (hd.2 _ (mem_trail_self _ as))

/-- A cursor in mode `traversal` that was just opened. -/
theorem tracks_open (h : f.Sound) (hP : P < f.size) :
    (f.openCursor P .traversal).2.Tracks P (f.openCursor P .traversal).1 [] := by
  refine ⟨0, ?_, ?_⟩
  · have hcursors := cursors_modifyCursors (fun _ => ((f.cursors P).open .traversal).2) hP P
    rw [if_pos rfl] at hcursors
    exact (congrArg (Cursors.get? · _) hcursors).trans
      (Cursors.get?_open_self (h.numbered P) .traversal)
  · intro x hx
    cases hx

end Act

open Act

/-- **A cursor in mode `traversal` follows the naive rule.** It was opened over the children of `P`
in a forest that any acts lead to, and any others follow that do not close it and leave these
children distinct. It then hands out the first child that it has not handed out since that child
was last put there, and none exactly if there is no such child. -/
theorem nextChild_eq_due {before behind : List Act} {P : NodeId} {k : Nat} {f : Forest}
    (hbefore : Named .empty before) (hP : P < (runAll .empty before).size)
    (hopen : (runAll .empty before).openCursor P .traversal = (k, f)) (hbehind : Named f behind)
    (hclose : .close P k ∉ behind) (hd : ∀ g ∈ trail f behind, (g.children P).Nodup) :
    let g := runAll f behind
    let handed := handedAll P k f [] behind
    (g.nextChild P k).1 = due handed (g.children P) ∧
      ((g.nextChild P k).1 = none ↔ ∀ c ∈ g.children P, c ∈ handed) ∧
      ∀ c i, (g.nextChild P k).1 = some (c, i) → (g.children P)[i]? = some c ∧ c ∉ handed ∧
        ∀ d ∈ (g.children P).take i, d ∈ handed := by
  intro g handed
  have hsound := sound_runAll Forest.sound_empty hbefore
  have hopened : f.Sound := by
    have := sound_run (a := .open P .traversal) hsound fun id hid => by
      rw [List.mem_singleton.1 hid]
      exact hP
    rwa [run, hopen] at this
  have htracks := tracks_open hsound hP
  rw [hopen] at htracks
  have hall := tracks_runAll hopened htracks hbehind hclose hd
  have hdue := (Forest.nextChild_of_tracks hall (hd _ (mem_trail_runAll f behind))).1
  refine ⟨hdue, ?_, ?_⟩
  · rw [hdue]
    exact due_eq_none_iff
  · intro c i hfound
    rw [hdue] at hfound
    exact due_eq_some_iff.1 hfound

theorem nextChild_eq_due_moved :
    let before := [.edit (.new .root), .edit (.new (.rule "a")), .edit (.new (.rule "b")),
      .edit (.new (.rule "c")), .edit (.insert 0 .stop [1, 2, 3])]
    let behind := [.next 0 1, .open 0 .sequential, .next 0 1, .edit (.insert 0 .start [2]),
      .edit (.detach 3), .close 0 2]
    let f := ((runAll .empty before).openCursor 0 .traversal).2
    handedAll 0 1 f [] behind = [1] ∧
      ((runAll f behind).nextChild 0 1).1 = due [1] ((runAll f behind).children 0) := by
  intro before behind f
  have hhanded : handedAll 0 1 f [] behind = [1] := by decide +kernel
  have h := (@nextChild_eq_due before behind 0 1 f (by decide +kernel) (by decide +kernel) rfl
    (by decide +kernel) (by simp [behind]) (by decide +kernel)).1
  rw [hhanded] at h
  exact ⟨hhanded, h⟩

end Stylesheet
