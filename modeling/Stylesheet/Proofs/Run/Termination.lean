import Stylesheet.Proofs.Cursor.Arrivals
import Stylesheet.Proofs.Run.Failure

/-!
# Traversals that come to an end

A traversal goes on for as long as handlers keep inserting nodes. `traverse_halts`: if the calls of
a traversal together insert no more than a fixed number of nodes, however much fuel it is given, and
keep the forest well-formed, then it ends, with any fuel from some amount on.

The induction is on three numbers: the insertions that are left, the nodes that stand below the one
at hand (`AtMost`), and its children that the cursor has not handed out. A call that inserts nothing
lets neither of the last two grow (`Performed.reach`, `Performed.tracked`); a call that inserts
something may let both grow, at the expense of the first.

That the calls insert no more than a fixed number is shown of handlers that pay for what they insert
(`Pays.leads`).
-/

set_option autoImplicit false

namespace Stylesheet

open Forest Relation

variable {σ α : Type}

/-- What a handler does is made of edits that keep the forest well-formed. -/
structure Call.Makes (c : Call σ) (edits : List (Forest × Edit)) : Prop where
  performed : Performed none c.before.forest edits c.after.forest
  sane : Sane edits
  wellFormed : c.after.forest.WellFormed

namespace Call

variable {c : Call σ}

theorem makes_nothing (h : c.before.forest.WellFormed) (hafter : c.after = c.before) :
    c.Makes [] where
  performed := hafter ▸ .nothing
  sane x hx := by cases hx
  wellFormed := hafter ▸ h

theorem makes_edit {e : Edit} (h : c.before.forest.WellFormed)
    (hn : ∀ id ∈ e.names, id < c.before.forest.size) (hclean : e.Clean c.before.forest)
    (hafter : c.after.forest = e.run c.before.forest) : c.Makes [(c.before.forest, e)] := by
  have hrun : (e.run c.before.forest).WellFormed := (Edit.wellFormed_run h hn).2 hclean
  refine ⟨hafter ▸ .edit e .nothing, fun x hx => ?_, hafter ▸ hrun⟩
  rw [List.mem_singleton.1 hx]
  exact ⟨hn, h, hrun⟩

end Call

/-! ## Runs that end -/

/-- With enough fuel a run ends, and in the same way with more. -/
def Halts (run : Nat → RunEnd × α) : Prop :=
  ∃ enough r, r.1 ≠ .outOfFuel ∧ ∀ fuel, enough ≤ fuel → run fuel = r

namespace Halts

variable {run inner : Nat → RunEnd × α}

theorem of_eq {r : RunEnd × α} (hr : r.1 ≠ .outOfFuel) (h : ∀ fuel, run (fuel + 1) = r) :
    Halts run := by
  refine ⟨1, r, hr, fun fuel hfuel => ?_⟩
  obtain ⟨fuel, rfl⟩ := Nat.exists_eq_add_of_le' hfuel
  exact h fuel

/-- A step comes first. -/
theorem step (h : Halts inner) {enough : Nat}
    (hrun : ∀ fuel, enough ≤ fuel → run (fuel + 1) = inner fuel) : Halts run := by
  obtain ⟨enough', r, hr, hinner⟩ := h
  refine ⟨max enough enough' + 1, r, hr, fun fuel hfuel => ?_⟩
  obtain ⟨fuel, rfl⟩ := Nat.exists_eq_add_of_le' (Nat.le_trans (Nat.le_add_left 1 _) hfuel)
  rw [hrun fuel (by omega), hinner fuel (by omega)]

/-- Something that ends comes behind. -/
theorem behind {β : Type} {run : Nat → RunEnd × β} (h : Halts inner) (g : RunEnd × α → RunEnd × β)
    (hg : ∀ r, r.1 ≠ .outOfFuel → (g r).1 ≠ .outOfFuel) (hrun : ∀ fuel, run fuel = g (inner fuel)) :
    Halts run := by
  obtain ⟨enough, r, hr, hinner⟩ := h
  refine ⟨enough, g r, hg r hr, fun fuel hfuel => ?_⟩
  rw [hrun, hinner fuel hfuel]

end Halts

namespace Forest

variable {f g : Forest} {P c id : NodeId} {b : Nat}

/-- At most `b` nodes stand below a node, the node itself included. -/
def AtMost (f : Forest) (id : NodeId) (b : Nat) : Prop :=
  ∃ below : List NodeId, below.length ≤ b ∧ ∀ x, ReflTransGen f.Child id x → x ∈ below

theorem WellFormed.atMost (h : f.WellFormed) (hid : id < f.size) : f.AtMost id f.size := by
  refine ⟨List.range f.size, by simp, fun x hx => ?_⟩
  rw [List.mem_range]
  rcases ReflTransGen.cases_tail hx with rfl | ⟨p, -, hc⟩
  · exact hid
  · exact h.lt_size hc

theorem AtMost.pos (h : f.AtMost id b) : 0 < b := by
  obtain ⟨below, hb, hall⟩ := h
  exact Nat.lt_of_lt_of_le (List.length_pos_of_mem (hall id .refl)) hb

theorem AtMost.of_reach (h : f.AtMost id b)
    (hg : ∀ x, ReflTransGen g.Child id x → ReflTransGen f.Child id x) : g.AtMost id b := by
  obtain ⟨below, hb, hall⟩ := h
  exact ⟨below, hb, fun x hx => hall x (hg x hx)⟩

theorem AtMost.alike (h : f.AtMost id b) (hg : Alike f g) : g.AtMost id b := by
  refine h.of_reach fun x hx => ReflTransGen.mono (fun p c hc => ?_) _ _ hx
  rwa [Child, hg.children] at hc

/-- The parent does not stand below its child. -/
theorem AtMost.child (h : f.AtMost P (b + 1)) (hw : f.WellFormed) (hc : c ∈ f.children P) :
    f.AtMost c b := by
  obtain ⟨below, hb, hall⟩ := h
  refine ⟨below.erase P, ?_, fun x hx => ?_⟩
  · rw [List.length_erase_of_mem (hall P .refl)]
    omega
  · refine (List.mem_erase_of_ne ?_).2 (hall x (.head hc hx))
    rintro rfl
    exact hw.acyclic x (.head' hc hx)

end Forest

namespace Run

variable {mode : RunMode} {plugins : List (Plugin σ)} {edits : Call σ → List (Forest × Edit)}
  {N n b : Nat} {own : Option (NodeId × Nat)} {s s₁ s₂ : RunState (Recording σ)}

/-! ## How a traversal goes on -/

/-- What a visit does behind the walk through the children. -/
def behindChildren (mode : RunMode) (plugins : List (Plugin σ)) (id : NodeId) (cursor : Nat)
    (r : RunEnd × RunState σ) : RunEnd × RunState σ :=
  match r with
  | (.finished, s) => leave mode plugins id (closed s id cursor)
  | (e, s) => (e, closed s id cursor)

/-- What a walk through children does behind the visit of one. -/
def behindChild (mode : RunMode) (plugins : List (Plugin σ)) (parent : NodeId) (cursor fuel : Nat)
    (r : RunEnd × RunState σ) : RunEnd × RunState σ :=
  match r with
  | (.finished, s) => visitChildren mode plugins parent cursor fuel s
  | ended => ended

/-- What a traversal does behind the visit of the root. -/
def behindRoot (mode : RunMode) (plugins : List (Plugin σ)) (root : NodeId)
    (r : RunEnd × RunState σ) : RunEnd × RunState σ :=
  match r with
  | (.finished, s) =>
    match dispatch mode .onceExit root plugins s with
    | (.error e, s) => (.failed e, s)
    | (.ok _, s) => (.finished, finished s)
  | ended => ended

section

variable {s s₁ : RunState σ} {id parent child root : NodeId} {cursor index : Nat}

theorem visit_eq_behindChildren (henter : dispatch mode .enter id plugins s = (.ok (), s₁))
    (hin : goesInto s₁.forest id = true) (fuel : Nat) :
    visit mode plugins id (fuel + 1) s = behindChildren mode plugins id (cursorFor s₁ id)
      (visitChildren mode plugins id (cursorFor s₁ id) fuel (opened s₁ id)) := by
  rw [visit_succ, henter]
  simp only [hin, if_true]
  rfl

theorem visit_eq_leave (henter : dispatch mode .enter id plugins s = (.ok (), s₁))
    (hin : ¬ goesInto s₁.forest id = true) (fuel : Nat) :
    visit mode plugins id (fuel + 1) s = leave mode plugins id s₁ := by
  rw [visit_succ, henter]
  simp only [hin]
  rfl

theorem visitChildren_eq_behindChild
    (hnext : (s.forest.nextChild parent cursor).1 = some (child, index)) (fuel : Nat) :
    visitChildren mode plugins parent cursor (fuel + 1) s =
      behindChild mode plugins parent cursor fuel
        (visit mode plugins child fuel (advanced s parent cursor)) := by
  rw [visitChildren_succ, hnext]
  simp only
  rcases visit mode plugins child fuel (advanced s parent cursor) with ⟨_ | _ | _, s₁⟩ <;> rfl

theorem traverse_eq_behindRoot
    (honce : dispatch mode .once s.session.root plugins s = (.ok (), s₁)) (fuel : Nat) :
    traverse mode plugins fuel s = behindRoot mode plugins s.session.root
      (visit mode plugins s.session.root fuel s₁) := by
  unfold traverse
  simp only [honce]
  rcases visit mode plugins s.session.root fuel s₁ with ⟨_ | _ | _, s₂⟩
  · rcases hexit : dispatch mode .onceExit s.session.root plugins s₂ with ⟨_ | _, s₃⟩ <;>
      simp only [behindRoot, hexit, finished]
  · rfl
  · rfl

theorem ending_ne_outOfFuel (o : Except RunError Unit) : ending o ≠ .outOfFuel := by
  cases o <;> simp [ending]

theorem behindChildren_ne_outOfFuel {r : RunEnd × RunState σ} (hr : r.1 ≠ .outOfFuel) :
    (behindChildren mode plugins id cursor r).1 ≠ .outOfFuel := by
  obtain ⟨_ | _ | _, s⟩ := r
  · exact ending_ne_outOfFuel _
  · exact hr
  · exact hr

theorem behindRoot_ne_outOfFuel {r : RunEnd × RunState σ} (hr : r.1 ≠ .outOfFuel) :
    (behindRoot mode plugins root r).1 ≠ .outOfFuel := by
  obtain ⟨_ | _ | _, s⟩ := r
  · rcases hexit : dispatch mode .onceExit root plugins s with ⟨_ | _, s₁⟩ <;>
      simp [behindRoot, hexit]
  · exact hr
  · exact hr

end

/-! ## What the steps of a traversal do -/

/-- A step notes its calls, and does what they make. -/
def Does (edits : Call σ → List (Forest × Edit)) (own : Option (NodeId × Nat))
    (s s₁ : RunState (Recording σ)) : Prop :=
  ∃ calls, s₁.log = s.log ++ calls ∧ ((∀ c ∈ calls, c.Makes (edits c)) →
    Performed own s.forest (calls.flatMap edits) s₁.forest ∧
      (s.forest.WellFormed → s₁.forest.WellFormed))

namespace Does

theorem trans (h : Does edits own s s₁) (h' : Does edits own s₁ s₂) : Does edits own s s₂ := by
  obtain ⟨calls, hlog, hmade⟩ := h
  obtain ⟨calls', hlog', hmade'⟩ := h'
  refine ⟨calls ++ calls', by rw [hlog', hlog, List.append_assoc], fun hall => ?_⟩
  rw [List.forall_mem_append] at hall
  obtain ⟨hdone, hwf⟩ := hmade hall.1
  obtain ⟨hdone', hwf'⟩ := hmade' hall.2
  rw [List.flatMap_append]
  exact ⟨hdone.append hdone', fun hw => hwf' (hwf hw)⟩

theorem within (h : Does edits none s s₁) (own : Option (NodeId × Nat)) : Does edits own s s₁ := by
  obtain ⟨calls, hlog, hmade⟩ := h
  exact ⟨calls, hlog, fun hall => ⟨(hmade hall).1.within own, (hmade hall).2⟩⟩

theorem logged (h : Does edits own s s₁) : s.log <+: s₁.log := by
  obtain ⟨calls, hlog, -⟩ := h
  exact ⟨calls, hlog.symm⟩

theorem refl (s : RunState (Recording σ)) : Does edits own s s :=
  ⟨[], by simp, fun _ => ⟨.nothing, fun hw => hw⟩⟩

theorem advanced (s : RunState (Recording σ)) (parent : NodeId) (cursor : Nat) :
    Does edits (some (parent, cursor)) s (advanced s parent cursor) :=
  ⟨[], by rw [List.append_nil]; rfl, fun _ => ⟨.next .nothing, (alike_nextChild ..).wellFormed⟩⟩

/-- A cursor is opened for the visits of children and closed behind them. -/
theorem visited {id : NodeId} (hid : id < s.forest.size)
    (h : Does edits (some (id, cursorFor s id)) (opened s id) s₁) :
    Does edits none s (closed s₁ id (cursorFor s id)) := by
  obtain ⟨calls, hlog, hmade⟩ := h
  refine ⟨calls, hlog, fun hall => ?_⟩
  obtain ⟨hdone, hwf⟩ := hmade hall
  refine ⟨hdone.visited .traversal hid, fun hw => ?_⟩
  exact (alike_closeCursor ..).wellFormed (hwf ((alike_openCursor ..).wellFormed hw))

end Does

theorem dispatch_does {phase : Phase} {id : NodeId} {o : Except RunError Unit}
    (ps : List (Plugin σ)) (k : Nat) (h : dispatch mode phase id (recordFrom k ps) s = (o, s₁)) :
    Does edits none s s₁ := by
  induction ps generalizing k s with
  | nil =>
    cases h
    exact .refl _
  | cons p ps ih =>
    rw [recordFrom, dispatch_cons, show (p.recorded k).name = p.name from rfl,
      settle_recorded_cons] at h
    rcases hr : (p.handle phase id (atWork s.erased p.name)).settle mode p.name id with
      ⟨e | _, t⟩ <;> rw [hr] at h
    all_goals
      have hcall : Does edits none s
          (t.withLog (s.log ++ [⟨k, phase, id, atWork s.erased p.name, t⟩])) := by
        refine ⟨[_], rfl, fun hall => ?_⟩
        have hmade := hall _ (List.mem_singleton_self _)
        rw [List.flatMap_singleton]
        exact ⟨hmade.performed, fun _ => hmade.wellFormed⟩
    · cases h
      exact hcall
    · exact hcall.trans (ih (k + 1) h)

/-- **What a visit does** is what its calls make. -/
theorem visit_does (mode : RunMode) (plugins : List (Plugin σ))
    (edits : Call σ → List (Forest × Edit)) (fuel : Nat) :
    (∀ id s, Does edits none s (visit mode (recordFrom 0 plugins) id fuel s).2) ∧
      ∀ parent cursor s, Does edits (some (parent, cursor)) s
        (visitChildren mode (recordFrom 0 plugins) parent cursor fuel s).2 := by
  refine visit_induct (P := fun _ s r => Does edits none s r.2)
    (Q := fun parent cursor s r => Does edits (some (parent, cursor)) s r.2)
    ?out ?outAll ?refused ?passed ?entered ?broken ?last ?next ?stuck fuel
  case out => exact fun _ s => .refl s
  case outAll => exact fun _ _ s => .refl s
  case refused => exact fun _ _ _ _ henter => dispatch_does plugins 0 henter
  case passed =>
    intro id s s₁ o s₂ henter _ hexit
    exact (dispatch_does plugins 0 henter).trans (dispatch_does plugins 0 hexit)
  case entered =>
    intro id s s₁ s₂ o s₃ henter hin hchildren hexit
    have hbelow := Does.visited (lt_size_of_goesInto hin) hchildren
    exact ((dispatch_does plugins 0 henter).trans hbelow).trans (dispatch_does plugins 0 hexit)
  case broken =>
    intro id s s₁ e s₂ henter hin hchildren _
    exact (dispatch_does plugins 0 henter).trans (.visited (lt_size_of_goesInto hin) hchildren)
  case last => exact fun parent cursor s _ => .advanced s parent cursor
  case next =>
    intro parent cursor s child index s₁ r _ hvisit hrest
    exact ((Does.advanced s parent cursor).trans (hvisit.within _)).trans hrest
  case stuck =>
    intro parent cursor s child index e s₁ _ hvisit _
    exact (Does.advanced s parent cursor).trans (hvisit.within _)

section

variable {r : RunEnd × RunState (Recording σ)} {id parent root : NodeId} {cursor fuel : Nat}

theorem log_behindChildren :
    r.2.log <+: (behindChildren mode (recordFrom 0 plugins) id cursor r).2.log := by
  obtain ⟨_ | _ | _, s⟩ := r
  · have hdoes : Does (fun _ => []) none (closed s id cursor)
        (leave mode (recordFrom 0 plugins) id (closed s id cursor)).2 := dispatch_does plugins 0 rfl
    exact hdoes.logged
  · exact List.prefix_refl _
  · exact List.prefix_refl _

theorem log_behindChild :
    r.2.log <+: (behindChild mode (recordFrom 0 plugins) parent cursor fuel r).2.log := by
  obtain ⟨_ | _ | _, s⟩ := r
  · exact ((visit_does mode plugins (fun _ => []) fuel).2 parent cursor s).logged
  · exact List.prefix_refl _
  · exact List.prefix_refl _

theorem log_behindRoot :
    r.2.log <+: (behindRoot mode (recordFrom 0 plugins) root r).2.log := by
  obtain ⟨_ | _ | _, s⟩ := r
  · rcases hexit : dispatch mode .onceExit root (recordFrom 0 plugins) s with ⟨_ | _, s₁⟩
    all_goals
      have hdoes : Does (fun _ => []) none s s₁ := dispatch_does plugins 0 hexit
      simp only [behindRoot, hexit]
      exact hdoes.logged
  · exact List.prefix_refl _
  · exact List.prefix_refl _

end

/-! ## What is left to be inserted -/

/-- The calls so far make what `edits` says, and insert no more than `N` nodes. -/
structure Calm (edits : Call σ → List (Forest × Edit)) (N : Nat)
    (s : RunState (Recording σ)) : Prop where
  makes : ∀ c ∈ s.log, c.Makes (edits c)
  few : (insertedBy (s.log.flatMap edits)).length ≤ N

/-- Of `N` insertions at most `n` are left. -/
structure Ready (edits : Call σ → List (Forest × Edit)) (N n : Nat)
    (s : RunState (Recording σ)) : Prop where
  wellFormed : s.forest.WellFormed
  numbered : s.forest.Numbered
  left : N ≤ (insertedBy (s.log.flatMap edits)).length + n

theorem Calm.earlier (h : Calm edits N s₁) (hlog : s.log <+: s₁.log) : Calm edits N s := by
  obtain ⟨calls, hcalls⟩ := hlog
  refine ⟨fun c hc => h.makes c (hcalls ▸ List.mem_append_left _ hc), ?_⟩
  have hfew := h.few
  rw [← hcalls, List.flatMap_append, insertedBy_append, List.length_append] at hfew
  omega

theorem Ready.alike (h : Ready edits N n s) (hf : Forest.Alike s.forest s₁.forest)
    (hn : s₁.forest.Numbered) (hlog : s₁.log = s.log) : Ready edits N n s₁ :=
  ⟨hf.wellFormed h.wellFormed, hn, by rw [hlog]; exact h.left⟩

/-- A step inserts nothing, or fewer insertions are left behind it. -/
theorem Does.ready (h : Does edits own s s₁) (hs : Ready edits N n s) (hc : Calm edits N s₁) :
    ∃ made, Performed own s.forest made s₁.forest ∧ Sane made ∧
      (insertedBy made = [] ∧ Ready edits N n s₁ ∨ ∃ m < n, Ready edits N m s₁) := by
  obtain ⟨calls, hlog, hmade⟩ := h
  have hall : ∀ c ∈ calls, c.Makes (edits c) := fun c hmem =>
    hc.makes c (hlog ▸ List.mem_append_right _ hmem)
  obtain ⟨hdone, hwf⟩ := hmade hall
  obtain ⟨-, hnumbered, -⟩ := hdone.sameOpen hs.numbered
  have hsane : Sane (calls.flatMap edits) := by
    intro x hx
    obtain ⟨c, hmem, hx⟩ := List.mem_flatMap.1 hx
    exact (hall c hmem).sane x hx
  have hfew := hc.few
  have hleft := hs.left
  have htotal : (insertedBy (s₁.log.flatMap edits)).length =
      (insertedBy (s.log.flatMap edits)).length + (insertedBy (calls.flatMap edits)).length := by
    rw [hlog, List.flatMap_append, insertedBy_append, List.length_append]
  refine ⟨_, hdone, hsane, ?_⟩
  cases hnone : insertedBy (calls.flatMap edits) with
  | nil =>
    rw [hnone, List.length_nil] at htotal
    exact .inl ⟨rfl, hwf hs.wellFormed, hnumbered, by omega⟩
  | cons x xs =>
    rw [hnone, List.length_cons] at htotal
    refine .inr ⟨n - (xs.length + 1), by omega, hwf hs.wellFormed, hnumbered, by omega⟩

/-- With enough fuel a run stays calm. -/
def StaysCalm (edits : Call σ → List (Forest × Edit)) (N : Nat)
    (run : Nat → RunEnd × RunState (Recording σ)) : Prop :=
  ∃ enough, ∀ fuel, enough ≤ fuel → Calm edits N (run fuel).2

/-- What a run goes through. -/
theorem StaysCalm.inner {run inner : Nat → RunEnd × RunState (Recording σ)}
    (h : StaysCalm edits N run) {enough : Nat}
    (hlog : ∀ fuel, enough ≤ fuel → (inner fuel).2.log <+: (run (fuel + 1)).2.log) :
    StaysCalm edits N inner := by
  obtain ⟨enough', hcalm⟩ := h
  exact ⟨max enough enough', fun fuel hfuel =>
    (hcalm (fuel + 1) (by omega)).earlier (hlog fuel (by omega))⟩

/-- Where a walk through children sets out. -/
theorem StaysCalm.start {P : NodeId} {k : Nat}
    (h : StaysCalm edits N (visitChildren mode (recordFrom 0 plugins) P k · s)) :
    Calm edits N s := by
  obtain ⟨enough, hall⟩ := h
  exact (hall enough (Nat.le_refl _)).earlier
    ((visit_does mode plugins edits enough).2 P k s).logged

/-! ## The induction -/

/-- With `n` insertions left, visits of nodes with at most `b` nodes below them end. -/
def VisitsHalt (mode : RunMode) (plugins : List (Plugin σ)) (edits : Call σ → List (Forest × Edit))
    (N n b : Nat) : Prop :=
  ∀ id s, Ready edits N n s → id < s.forest.size → s.forest.AtMost id b →
    StaysCalm edits N (visit mode (recordFrom 0 plugins) id · s) →
    Halts (visit mode (recordFrom 0 plugins) id · s)

/-- With `n` insertions left, a cursor over the children of a node with at most `b` nodes below it
comes to the end. -/
def CursorsHalt (mode : RunMode) (plugins : List (Plugin σ)) (edits : Call σ → List (Forest × Edit))
    (N n b : Nat) : Prop :=
  ∀ P k handed s, Ready edits N n s → s.forest.Tracks P k handed → s.forest.AtMost P b →
    StaysCalm edits N (visitChildren mode (recordFrom 0 plugins) P k · s) →
    Halts (visitChildren mode (recordFrom 0 plugins) P k · s)

/-- The cursor that a visit opens. -/
theorem CursorsHalt.opened {id : NodeId} (h : CursorsHalt mode plugins edits N n b)
    (hready : Ready edits N n s) (hid : id < s.forest.size) (hb : s.forest.AtMost id b)
    (hcalm : StaysCalm edits N
      (visitChildren mode (recordFrom 0 plugins) id (cursorFor s id) · (opened s id))) :
    Halts (visitChildren mode (recordFrom 0 plugins) id (cursorFor s id) · (opened s id)) := by
  have halike := alike_openCursor s.forest id .traversal
  exact h id _ [] (Run.opened s id)
    (hready.alike halike (hready.numbered.openCursor hid .traversal) rfl)
    (Act.tracks_open (hready.wellFormed.sound hready.numbered) hid) (hb.alike halike) hcalm

/-- A visit ends if the cursor over the children comes to the end. -/
theorem visitsHalt (hless : ∀ m < n, ∀ b, CursorsHalt mode plugins edits N m b)
    (hsame : CursorsHalt mode plugins edits N n b) : VisitsHalt mode plugins edits N n b := by
  intro id s hready hid hb hcalm
  rcases henter : dispatch mode .enter id (recordFrom 0 plugins) s with ⟨e | _, s₁⟩
  · exact Halts.of_eq (r := (.failed e, s₁)) (by simp) fun fuel => by rw [visit_succ, henter]
  by_cases hin : goesInto s₁.forest id = true
  · have hrun := visit_eq_behindChildren henter hin
    have hid₁ := lt_size_of_goesInto hin
    have hbelow : StaysCalm edits N
        (visitChildren mode (recordFrom 0 plugins) id (cursorFor s₁ id) · (opened s₁ id)) :=
      hcalm.inner fun fuel (_ : 0 ≤ fuel) => by
        rw [hrun]
        exact log_behindChildren
    have hdoes : Does edits none s s₁ := dispatch_does plugins 0 henter
    have hentered : Calm edits N s₁ := hbelow.start.earlier (List.prefix_refl _)
    have hchildren : Halts
        (visitChildren mode (recordFrom 0 plugins) id (cursorFor s₁ id) · (opened s₁ id)) := by
      obtain ⟨made, hdone, hsane, ⟨hnone, hready₁⟩ | ⟨m, hm, hready₁⟩⟩ :=
        hdoes.ready hready hentered
      · have hreach := fun x =>
          hdone.reach (x := x) hsane hready.wellFormed hready.numbered hnone hid
        exact hsame.opened hready₁ hid₁ (hb.of_reach hreach) hbelow
      · exact (hless m hm _).opened hready₁ hid₁ (hready₁.wellFormed.atMost hid₁) hbelow
    have hbehind := hchildren.behind
      (behindChildren mode (recordFrom 0 plugins) id (cursorFor s₁ id))
      (fun _ hr => behindChildren_ne_outOfFuel hr) fun _ => rfl
    exact hbehind.step fun fuel (_ : 0 ≤ fuel) => hrun fuel
  · exact Halts.of_eq (ending_ne_outOfFuel _) (visit_eq_leave henter hin)

/-- A child that is handed out leaves fewer that are not. -/
theorem length_filter_lt {xs ys handed : List NodeId} {c : NodeId} (hd : xs.Nodup) (hsub : xs ⊆ ys)
    (hc : c ∈ ys) (hnew : c ∉ handed) :
    (xs.filter (· ∉ c :: handed)).length < (ys.filter (· ∉ handed)).length := by
  have hcons : (c :: xs.filter (· ∉ c :: handed)).Nodup :=
    List.nodup_cons.2 ⟨by simp, hd.filter _⟩
  refine hcons.length_le_of_subset fun x hx => ?_
  rcases List.mem_cons.1 hx with rfl | hx
  · exact List.mem_filter.2 ⟨hc, by simpa using hnew⟩
  · obtain ⟨hmem, hout⟩ := List.mem_filter.1 hx
    rw [decide_eq_true_iff, List.mem_cons, not_or] at hout
    exact List.mem_filter.2 ⟨hsub hmem, by simpa using hout.2⟩

/-- **Behind the visit of a child** the cursor has fewer children to hand out, or fewer insertions
are left. -/
theorem Does.progress {P child : NodeId} {k index : Nat} {handed : List NodeId}
    (h : Does edits none (Run.advanced s P k) s₁) (hready : Ready edits N n s)
    (htracks : s.forest.Tracks P k handed) (hb : s.forest.AtMost P b)
    (hdue : due handed (s.forest.children P) = some (child, index)) (hc : Calm edits N s₁) :
    ∃ handed', s₁.forest.Tracks P k handed' ∧
      ((Ready edits N n s₁ ∧ s₁.forest.AtMost P b ∧
          ((s₁.forest.children P).filter (· ∉ handed')).length <
            ((s.forest.children P).filter (· ∉ handed)).length) ∨
        ∃ m < n, Ready edits N m s₁) := by
  obtain ⟨hindex, hnew, -⟩ := due_eq_some_iff.1 hdue
  have htracks' := (nextChild_of_tracks htracks (hready.wellFormed.nodup P)).2
  rw [hdue] at htracks'
  have halike := alike_nextChild s.forest P k
  have hnumbered := hready.numbered.nextChild P k
  have hready' : Ready edits N n (Run.advanced s P k) := hready.alike halike hnumbered rfl
  obtain ⟨made, hdone, hsane, hcases⟩ := h.ready hready' hc
  obtain ⟨handed', htracks₁, hsame⟩ := hdone.tracked hsane hnumbered (by simp) htracks'
  refine ⟨handed', htracks₁, hcases.imp_left fun ⟨hnone, hready₁⟩ => ⟨hready₁, ?_, ?_⟩⟩
  · exact (hb.alike halike).of_reach fun x =>
      hdone.reach (x := x) hsane hready'.wellFormed hnumbered hnone htracks'.lt_size
  · have hsub : s₁.forest.children P ⊆ s.forest.children P := by
      rw [← halike.children P]
      exact hdone.children_subset hsane hnumbered hnone htracks'.lt_size
    rw [hsame hnone]
    exact length_filter_lt (hready₁.wellFormed.nodup P) hsub (List.mem_of_getElem? hindex) hnew

/-- A cursor comes to the end if the visits of the children end. -/
theorem cursorsHalt_succ (hless : ∀ m < n, ∀ b, CursorsHalt mode plugins edits N m b)
    (hvisits : VisitsHalt mode plugins edits N n b) :
    CursorsHalt mode plugins edits N n (b + 1) := by
  intro P k handed s hready htracks hb hcalm
  -- on the number of children that are due
  generalize hd : ((s.forest.children P).filter (· ∉ handed)).length = d
  induction d using Nat.strongRecOn generalizing handed s with
  | ind d ih =>
    have hnext := (nextChild_of_tracks htracks (hready.wellFormed.nodup P)).1
    rcases hdue : due handed (s.forest.children P) with _ | ⟨child, index⟩
    · refine Halts.of_eq (r := (.finished, advanced s P k)) (by simp) fun fuel => ?_
      rw [visitChildren_succ, hnext, hdue]
    have hchild := List.mem_of_getElem? (due_eq_some_iff.1 hdue).1
    have hrun (fuel : Nat) : visitChildren mode (recordFrom 0 plugins) P k (fuel + 1) s =
        behindChild mode (recordFrom 0 plugins) P k fuel
          (visit mode (recordFrom 0 plugins) child fuel (advanced s P k)) :=
      visitChildren_eq_behindChild (hnext.trans hdue) fuel
    have hvisit : Halts (visit mode (recordFrom 0 plugins) child · (advanced s P k)) := by
      have halike := alike_nextChild s.forest P k
      refine hvisits child _ (hready.alike halike (hready.numbered.nextChild P k) rfl) ?_
        ((hb.child hready.wellFormed hchild).alike halike) ?_
      · rw [show (advanced s P k).forest.size = s.forest.size from halike.size]
        exact hready.wellFormed.lt_size hchild
      · refine hcalm.inner fun fuel (_ : 0 ≤ fuel) => ?_
        rw [hrun]
        exact log_behindChild
    obtain ⟨enough, ⟨e, s₁⟩, he, hfuel⟩ := hvisit
    simp only at hfuel
    cases e with
    | outOfFuel => exact absurd rfl he
    | failed e =>
      have hfailed : Halts fun _ => (RunEnd.failed e, s₁) := ⟨0, _, he, fun _ _ => rfl⟩
      exact hfailed.step fun fuel (hle : enough ≤ fuel) => by
        rw [hrun, hfuel fuel hle]
        rfl
    | finished =>
      have hshift : ∀ fuel, enough ≤ fuel →
          visitChildren mode (recordFrom 0 plugins) P k (fuel + 1) s =
            visitChildren mode (recordFrom 0 plugins) P k fuel s₁ := by
        intro fuel hle
        rw [hrun, hfuel fuel hle, behindChild]
      have hrest : StaysCalm edits N (visitChildren mode (recordFrom 0 plugins) P k · s₁) :=
        hcalm.inner fun fuel hle => hshift fuel hle ▸ List.prefix_refl _
      have hdoes : Does edits none (advanced s P k) s₁ := by
        have := (visit_does mode plugins edits enough).1 child (advanced s P k)
        rwa [hfuel enough (Nat.le_refl _)] at this
      obtain ⟨handed', htracks₁, ⟨hready₁, hb₁, hfewer⟩ | ⟨m, hm, hready₁⟩⟩ :=
        hdoes.progress hready htracks hb hdue hrest.start
      · exact (ih _ (hd ▸ hfewer) handed' s₁ hready₁ htracks₁ hb₁ hrest rfl).step hshift
      · exact (hless m hm _ P k handed' s₁ hready₁ htracks₁
          (hready₁.wellFormed.atMost htracks₁.lt_size) hrest).step hshift

theorem cursorsHalt (mode : RunMode) (plugins : List (Plugin σ))
    (edits : Call σ → List (Forest × Edit)) (N n b : Nat) :
    CursorsHalt mode plugins edits N n b := by
  induction n using Nat.strongRecOn generalizing b with
  | ind n ihn =>
    induction b with
    | zero => exact fun P k handed s _ _ hb => absurd hb.pos (Nat.lt_irrefl 0)
    | succ b ihb => exact cursorsHalt_succ ihn (visitsHalt ihn ihb)

/-! ## Handlers that pay -/

/-- Where `I` holds, handlers make what `edits` says, keep `I`, and pay for what they insert out of
what is left. -/
structure Pays (mode : RunMode) (plugins : List (Plugin σ)) (edits : Call σ → List (Forest × Edit))
    (I : RunState σ → Prop) (left : RunState σ → Nat) : Prop where
  alike : ∀ s s₁, Alike s s₁ → I s → I s₁ ∧ left s₁ = left s
  call : ∀ c o, c.Answered mode plugins o → I c.before → c.Makes (edits c) ∧ I c.after ∧
    (insertedBy (edits c)).length + left c.after ≤ left c.before

/-- The calls of a run are paid for out of what is left at its start. -/
theorem Pays.leads {I : RunState σ → Prop} {left : RunState σ → Nat} {s s₁ : RunState σ}
    {calls : List (Call σ)} {o : Except RunError Unit} (h : Pays mode plugins edits I left)
    (hleads : Leads mode plugins s calls o s₁) (hs : I s) :
    (∀ c ∈ calls, c.Makes (edits c)) ∧ (insertedBy (calls.flatMap edits)).length ≤ left s := by
  induction hleads with
  | quiet => exact ⟨fun c hc => (by cases hc), Nat.zero_le _⟩
  | @call s s₁ c calls o ha hc _ ih =>
    obtain ⟨hbefore, hleft⟩ := h.alike _ _ ha hs
    obtain ⟨hmakes, hafter, hpaid⟩ := h.call c _ hc hbefore
    obtain ⟨hrest, hspent⟩ := ih hafter
    refine ⟨List.forall_mem_cons.2 ⟨hmakes, hrest⟩, ?_⟩
    rw [List.flatMap_cons, insertedBy_append, List.length_append]
    omega
  | @fails s s₁ c e ha hc _ =>
    obtain ⟨hbefore, hleft⟩ := h.alike _ _ ha hs
    obtain ⟨hmakes, -, hpaid⟩ := h.call c _ hc hbefore
    refine ⟨List.forall_mem_singleton.2 hmakes, ?_⟩
    rw [List.flatMap_singleton]
    omega

/-! ## The result -/

/-- **A traversal ends** if its calls together insert no more than a fixed number of nodes, a node
that is moved included, and keep the forest well-formed. How many nodes they remove, or make without
inserting them, and what they change in nodes does not matter. -/
theorem traverse_halts {s : RunState σ} (hw : s.forest.WellFormed) (hs : s.forest.Numbered)
    (hroot : s.session.root < s.forest.size)
    (hmade : ∀ fuel, ∀ c ∈ callsOf mode plugins fuel s, c.Makes (edits c))
    (hfew : ∀ fuel, (insertedBy ((callsOf mode plugins fuel s).flatMap edits)).length ≤ N) :
    Halts (traverse mode plugins · s) := by
  let s₀ := s.withLog []
  have hcalm : ∀ fuel, Calm edits N (traverse mode (recordFrom 0 plugins) fuel s₀).2 :=
    fun fuel => ⟨hmade fuel, hfew fuel⟩
  suffices h : Halts (traverse mode (recordFrom 0 plugins) · s₀) from
    h.behind erased (fun _ hr => hr) fun fuel => (erased_traverse mode plugins fuel s₀).symm
  rcases honce : dispatch mode .once s.session.root (recordFrom 0 plugins) s₀ with ⟨e | _, s₁⟩
  · refine Halts.of_eq (r := (.failed e, s₁)) (by simp) fun fuel => ?_
    unfold traverse
    simp only [show s₀.session.root = s.session.root from rfl, honce]
  have hrun := traverse_eq_behindRoot (s := s₀) honce
  have hvisit : ∀ fuel,
      Calm edits N (visit mode (recordFrom 0 plugins) s.session.root fuel s₁).2 := by
    intro fuel
    refine (hcalm fuel).earlier ?_
    rw [hrun]
    exact log_behindRoot
  have hready : Ready edits N N s₀ := ⟨hw, hs, Nat.le_add_left ..⟩
  have hstarted : Calm edits N s₁ :=
    (hvisit 0).earlier ((visit_does mode plugins edits 0).1 s.session.root s₁).logged
  obtain ⟨made, hdone, -, hcases⟩ := (dispatch_does plugins 0 honce).ready hready hstarted
  obtain ⟨n, hready₁⟩ : ∃ n, Ready edits N n s₁ := by
    rcases hcases with ⟨-, h⟩ | ⟨m, -, h⟩
    · exact ⟨N, h⟩
    · exact ⟨m, h⟩
  have hroot₁ : s.session.root < s₁.forest.size :=
    Nat.lt_of_lt_of_le hroot (hdone.sameOpen hs).1
  have hhalts := visitsHalt (fun m _ => cursorsHalt mode plugins edits N m)
    (cursorsHalt mode plugins edits N n _) s.session.root s₁ hready₁ hroot₁
    (hready₁.wellFormed.atMost hroot₁) ⟨0, fun fuel _ => hvisit fuel⟩
  exact hhalts.behind _ (fun _ hr => behindRoot_ne_outOfFuel hr) hrun

/-- A handler moves the rule behind its siblings when it is left, so that the rule is visited again.
It does so twice. -/
theorem traverse_halts_moving :
    let f := Edit.run .empty (.read .empty "a\x7bb:c\x7d/*d*/" none .auto)
    let turn : Plugin Nat := ⟨"turn", fun phase id s =>
      if phase = .exit ∧ id = 1 ∧ s.user < 2 then
        .done (.ok ())
          { s with forest := (Edit.insert 0 .stop [1]).run s.forest, user := s.user + 1 }
      else .done (.ok ()) s⟩
    let s : RunState Nat := ⟨f, .start 0 default, 0⟩
    f.WellFormed ∧ Halts (traverse .immediate [turn] · s) ∧
      nodesTold 0 .enter (callsOf .immediate [turn] 16 s) = [0, 1, 2, 3, 1, 2, 1, 2] := by
  intro f turn s
  let edits : Call Nat → List (Forest × Edit) := fun c =>
    if c.phase = .exit ∧ c.node = 1 ∧ c.before.user < 2 then
      [(c.before.forest, .insert 0 .stop [1])]
    else []
  have hw : f.WellFormed :=
    (Edit.wellFormed_run Forest.wellFormed_empty (by decide +kernel)).2 trivial
  have hs : f.Numbered := (Edit.sound_run Forest.sound_empty (by decide +kernel)).numbered
  have hpays : Pays .immediate [turn] edits
      (fun s => s.forest.WellFormed ∧ 1 < s.forest.size ∧ s.forest.kind 1 ≠ .root)
      (fun s => 2 - s.user) := by
    refine ⟨fun s s₁ ha ⟨hw, hsize, hkind⟩ => ?_, ?_⟩
    · refine ⟨⟨ha.forest.wellFormed hw, ?_, ?_⟩, by rw [ha.user]⟩
      · rwa [ha.forest.size]
      · rwa [ha.forest.kind]
    rintro c o ⟨p, hp, -, ho⟩ ⟨hw, hsize, hkind⟩
    rw [List.mem_singleton.1 (List.mem_of_getElem? hp)] at ho
    simp only [turn] at ho
    by_cases hturn : c.phase = .exit ∧ c.node = 1 ∧ c.before.user < 2
    · rw [if_pos hturn] at ho
      obtain ⟨-, hafter⟩ := Prod.mk.inj ho
      have hclean : (Edit.insert 0 .stop [1]).Clean c.before.forest := fun _ =>
        ⟨(List.nodup_singleton 1).filter _, by simp [hkind]⟩
      have hnames : ∀ id ∈ (Edit.insert 0 .stop [1]).names, id < c.before.forest.size := by
        simp [Edit.names, Anchor.reference?, hsize, Nat.lt_of_succ_lt hsize]
      have hmakes := Call.makes_edit hw hnames hclean (by rw [← hafter])
      rw [show edits c = [(c.before.forest, .insert 0 .stop [1])] from if_pos hturn]
      refine ⟨hmakes, ⟨hmakes.wellFormed, ?_, ?_⟩, ?_⟩
      · rw [← hafter]
        exact Nat.lt_of_lt_of_le hsize (Edit.adjusts_run _ _).size
      · rw [← hafter]
        rwa [Edit.kind_run_insert]
      · have hone := Edit.length_inserted_insert_le (Nat.lt_of_succ_lt hsize) hkind .stop
        rw [insertedBy, List.flatMap_singleton, ← hafter]
        simp only
        omega
    · rw [if_neg hturn] at ho
      obtain ⟨-, hafter⟩ := Prod.mk.inj ho
      rw [show edits c = [] from if_neg hturn]
      exact ⟨Call.makes_nothing hw hafter.symm, hafter ▸ ⟨hw, hsize, hkind⟩, by
        rw [← hafter]
        exact Nat.le_of_eq (Nat.zero_add _)⟩
  have hpaid := fun fuel => hpays.leads (callsOf_leads .immediate [turn] fuel s)
    ⟨hw, by decide +kernel, by decide +kernel⟩
  refine ⟨hw, ?_, by decide +kernel⟩
  exact traverse_halts hw hs (by decide +kernel) (fun fuel => (hpaid fuel).1)
    fun fuel => (hpaid fuel).2

end Run

end Stylesheet
