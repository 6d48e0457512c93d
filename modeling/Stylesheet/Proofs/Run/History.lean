import Stylesheet.Proofs.Cursor.Steady
import Stylesheet.Proofs.Run.Calls

/-!
# What the calls of a run lead to

`Leads` says of a list of calls that every handler finds what the one before it left, that each call
is answered by the handler of its plugin, and that none but the last fails. `IsVisit` says in which
order a node and the nodes below it are told of. `visit_leads` shows both for a visit,
`traverse_leads` for a traversal. Between the calls a run only moves its cursors and notes which
plugin is at work (`Alike`).
-/

set_option autoImplicit false

namespace Stylesheet

/-! ## What a run itself changes -/

variable {σ : Type} {mode : RunMode} {plugins : List (Plugin σ)} {s s₁ s₂ : RunState σ}
  {calls more : List (Call σ)} {c : Call σ} {o : Except RunError Unit}

/-- The states differ only in what a run does by itself: the cursors, and which plugin is at
work. -/
structure Alike (s s₁ : RunState σ) : Prop where
  forest : Forest.Alike s.forest s₁.forest
  session : { s₁.session with lastPlugin := none } = { s.session with lastPlugin := none }
  user : s₁.user = s.user

namespace Alike

theorem refl (s : RunState σ) : Alike s s := ⟨.refl _, rfl, rfl⟩

theorem trans (h : Alike s s₁) (h' : Alike s₁ s₂) : Alike s s₂ :=
  ⟨h.forest.trans h'.forest, h'.session.trans h.session, h'.user.trans h.user⟩

theorem onForest {g : Forest → Forest} (h : Forest.Alike s.forest (g s.forest)) :
    Alike s (s.onForest g) := ⟨h, rfl, rfl⟩

theorem atWork (s : RunState σ) (plugin : String) : Alike s (Run.atWork s plugin) :=
  ⟨.refl _, rfl, rfl⟩

theorem opened (s : RunState σ) (id : NodeId) : Alike s (Run.opened s id) :=
  onForest (Forest.alike_openCursor ..)

theorem advanced (s : RunState σ) (parent : NodeId) (cursor : Nat) :
    Alike s (Run.advanced s parent cursor) := onForest (Forest.alike_nextChild ..)

theorem closed (s : RunState σ) (parent : NodeId) (cursor : Nat) :
    Alike s (Run.closed s parent cursor) := onForest (Forest.alike_closeCursor ..)

end Alike

/-! ## Calls one after the other -/

/-- The plugin of a call answers it with `o`. -/
def Call.Answered (mode : RunMode) (plugins : List (Plugin σ)) (c : Call σ)
    (o : Except RunError Unit) : Prop :=
  ∃ p, plugins[c.plugin]? = some p ∧ c.before.session.lastPlugin = some p.name ∧
    (p.handle c.phase c.node c.before).settle mode p.name c.node = (o, c.after)

/-- A call has one answer. -/
theorem Call.Answered.unique {o' : Except RunError Unit} (h : c.Answered mode plugins o)
    (h' : c.Answered mode plugins o') : o = o' := by
  obtain ⟨p, hp, -, ho⟩ := h
  obtain ⟨p', hp', -, ho'⟩ := h'
  rw [hp, Option.some.injEq] at hp'
  rw [← hp', ho, Prod.mk.injEq] at ho'
  exact ho'.1

/-- The calls lead from one state to another: each handler finds what the one before it left, all
but the last succeed, and the last one ends in `o`. -/
inductive Leads (mode : RunMode) (plugins : List (Plugin σ)) :
    RunState σ → List (Call σ) → Except RunError Unit → RunState σ → Prop
  | quiet {s s₁ : RunState σ} : Alike s s₁ → Leads mode plugins s [] (.ok ()) s₁
  | call {s s₁ : RunState σ} {c : Call σ} {calls : List (Call σ)} {o : Except RunError Unit} :
      Alike s c.before → c.Answered mode plugins (.ok ()) →
      Leads mode plugins c.after calls o s₁ → Leads mode plugins s (c :: calls) o s₁
  | fails {s s₁ : RunState σ} {c : Call σ} {e : RunError} :
      Alike s c.before → c.Answered mode plugins (.error e) → Alike c.after s₁ →
      Leads mode plugins s [c] (.error e) s₁

namespace Leads

theorem alike (ha : Alike s s₁) (h : Leads mode plugins s₁ calls o s₂) :
    Leads mode plugins s calls o s₂ := by
  cases h with
  | quiet hs => exact .quiet (ha.trans hs)
  | call hs hc h => exact .call (ha.trans hs) hc h
  | fails hs hc hs' => exact .fails (ha.trans hs) hc hs'

theorem trans (h : Leads mode plugins s calls (.ok ()) s₁)
    (h' : Leads mode plugins s₁ more o s₂) : Leads mode plugins s (calls ++ more) o s₂ := by
  generalize ho : (Except.ok () : Except RunError Unit) = o' at h
  induction h with
  | quiet hs => exact h'.alike hs
  | call hs hc _ ih => exact .call hs hc (ih h' ho)
  | fails => cases ho

theorem then_alike (h : Leads mode plugins s calls o s₁) (ha : Alike s₁ s₂) :
    Leads mode plugins s calls o s₂ := by
  induction h with
  | quiet hs => exact .quiet (hs.trans ha)
  | call hs hc _ ih => exact .call hs hc (ih ha)
  | fails hs hc hs' => exact .fails hs hc (hs'.trans ha)

/-- Without plugins there are no calls. -/
theorem alike_of_nil (h : Leads mode [] s calls o s₁) : Alike s s₁ := by
  have hnone (c : Call σ) (r : Except RunError Unit) : ¬c.Answered mode [] r := by
    rintro ⟨p, hp, -⟩
    cases hp
  cases h with
  | quiet ha => exact ha
  | call _ hc _ => exact absurd hc (hnone _ _)
  | fails _ hc _ => exact absurd hc (hnone _ _)

/-- The first handler finds the state at the start. -/
theorem head (h : Leads mode plugins s calls o s₁) (hc : c ∈ calls.head?) : Alike s c.before := by
  cases h with
  | quiet => cases hc
  | call hs => cases hc; exact hs
  | fails hs => cases hc; exact hs

/-- The last handler leaves the state at the end. -/
theorem last (h : Leads mode plugins s calls o s₁) (hc : c ∈ calls.getLast?) :
    Alike c.after s₁ := by
  induction h with
  | quiet => cases hc
  | fails _ _ hs => cases hc; exact hs
  | @call _ _ d calls _ _ _ h ih =>
    cases calls with
    | nil =>
      cases h with
      | quiet hs => cases hc; exact hs
    | cons d' calls => exact ih (by rwa [List.getLast?_cons_cons] at hc)

/-- A call that fails is the last one. -/
theorem failing {k : Nat} {e : RunError} (h : Leads mode plugins s calls o s₁)
    (hk : calls[k]? = some c) (hc : c.Answered mode plugins (.error e)) :
    o = .error e ∧ calls.length = k + 1 ∧
      Leads mode plugins s (calls.take k) (.ok ()) c.before ∧ Alike c.after s₁ := by
  induction h generalizing k with
  | quiet => simp at hk
  | fails hs hd hs' =>
    cases k with
    | zero =>
      cases hk
      have := hd.unique hc
      exact ⟨this, rfl, .quiet hs, hs'⟩
    | succ k => simp at hk
  | call hs hd h ih =>
    cases k with
    | zero =>
      cases hk
      have := hd.unique hc
      cases this
    | succ k =>
      obtain ⟨ho, hlen, hled, hlast⟩ := ih (by simpa using hk)
      exact ⟨ho, by rw [List.length_cons, hlen], .call hs hd hled, hlast⟩

/-- Every call is answered. -/
theorem answered (h : Leads mode plugins s calls o s₁) (hc : c ∈ calls) :
    ∃ o, c.Answered mode plugins o := by
  induction h with
  | quiet => cases hc
  | call _ hd _ ih =>
    rcases List.mem_cons.1 hc with rfl | hc
    · exact ⟨_, hd⟩
    · exact ih hc
  | fails _ hd =>
    rw [List.mem_singleton.1 hc]
    exact ⟨_, hd⟩

/-- Calls that end in a failure end in a call that fails. -/
theorem of_error {e : RunError} (h : Leads mode plugins s calls (.error e) s₁) :
    ∃ c ∈ calls.getLast?, c.Answered mode plugins (.error e) := by
  generalize ho : (Except.error e : Except RunError Unit) = o at h
  induction h with
  | quiet => cases ho
  | fails _ hc => cases ho; exact ⟨_, rfl, hc⟩
  | @call _ _ d calls _ _ _ _ ih =>
    obtain ⟨c, hc, hfail⟩ := ih ho
    refine ⟨c, ?_, hfail⟩
    cases calls with
    | nil => cases hc
    | cons d' calls => rwa [List.getLast?_cons_cons]

end Leads

/-! ## Who is told of what, in order -/

/-- All plugins are told of a phase of a node, in their order. -/
def tellings (n : Nat) (phase : Phase) (id : NodeId) : List (Nat × Phase × NodeId) :=
  (List.range n).map (·, phase, id)

/-- The visit of a node by `n` plugins: they are told of entering it, the children are visited one
after the other, and they are told of leaving it. A node that is no root is left at once if it has no
parent when it was entered. -/
inductive IsVisit (n : Nat) : NodeId → List (Call σ) → Prop
  | visit {id : NodeId} {enter exit : List (Call σ)} {parts : List (NodeId × List (Call σ))}
      (entering : enter.map Call.told = tellings n .enter id)
      (visits : ∀ v ∈ parts, IsVisit n v.1 v.2)
      (children : ∀ v ∈ parts, ∀ c ∈ v.2.head?, v.1 ∈ c.before.forest.children id)
      (inside : parts ≠ [] → ∀ c ∈ enter.getLast?,
        c.after.forest.kind id = .root ∨ (c.after.forest.parent? id).isSome = true)
      (leaving : exit.map Call.told = tellings n .exit id) :
      IsVisit n id (enter ++ parts.flatMap Prod.snd ++ exit)

/-- The outcome of a traversal that has come to an end. -/
def RunEnd.outcome : RunEnd → Except RunError Unit
  | failed e => .error e
  | finished | outOfFuel => .ok ()

namespace Run

theorem outcome_ending (o : Except RunError Unit) : (ending o).outcome = o := by
  cases o <;> rfl

theorem ending_finished {o : Except RunError Unit} (h : ending o = .finished) : o = .ok () := by
  cases o with
  | error e => cases h
  | ok => rfl

/-- What recorded plugins are told of one event. -/
theorem dispatch_leads {phase : Phase} {id : NodeId} {s s₁ : RunState (Recording σ)}
    {o : Except RunError Unit} (ps : List (Plugin σ)) (k : Nat) (hps : plugins.drop k = ps)
    (h : dispatch mode phase id (recordFrom k ps) s = (o, s₁)) :
    ∃ calls, s₁.log = s.log ++ calls ∧ Leads mode plugins s.erased calls o s₁.erased ∧
      (o = .ok () → calls.map Call.told = (List.range' k ps.length).map (·, phase, id)) := by
  induction ps generalizing k s with
  | nil =>
    cases h
    exact ⟨[], by simp, .quiet (.refl _), fun _ => rfl⟩
  | cons p ps ih =>
    have hp : plugins[k]? = some p := by
      have := congrArg List.head? hps
      rwa [List.head?_drop] at this
    rw [recordFrom, dispatch_cons, show (p.recorded k).name = p.name from rfl,
      settle_recorded_cons] at h
    have hwork := Alike.atWork s.erased p.name
    rcases hr : (p.handle phase id (atWork s.erased p.name)).settle mode p.name id with
      ⟨e | _, s₂⟩ <;> rw [hr] at h
    · cases h
      refine ⟨[⟨k, phase, id, atWork s.erased p.name, s₂⟩], rfl, ?_, fun ho => by cases ho⟩
      exact .fails hwork ⟨p, hp, rfl, hr⟩ (.refl _)
    · have hps' : plugins.drop (k + 1) = ps := by
        rw [← List.drop_drop, hps, List.drop_one, List.tail_cons]
      obtain ⟨calls, hlog, hleads, htold⟩ := ih (k + 1) hps' h
      refine ⟨⟨k, phase, id, atWork s.erased p.name, s₂⟩ :: calls, ?_, ?_, fun ho => ?_⟩
      · rw [hlog]
        simp
      · exact .call hwork ⟨p, hp, rfl, hr⟩ hleads
      · rw [List.map_cons, htold ho]
        rfl

/-- The calls noted between two states. -/
def Noted (mode : RunMode) (plugins : List (Plugin σ)) (s : RunState (Recording σ))
    (calls : List (Call σ)) (r : RunEnd × RunState (Recording σ)) : Prop :=
  r.2.log = s.log ++ calls ∧ Leads mode plugins s.erased calls r.1.outcome r.2.erased

/-- What recorded plugins are told of one event, the first of them having index 0. -/
theorem dispatch_noted {phase : Phase} {id : NodeId} {s s₁ : RunState (Recording σ)}
    {o : Except RunError Unit}
    (h : dispatch mode phase id (recordFrom 0 plugins) s = (o, s₁)) :
    ∃ calls, Noted mode plugins s calls (ending o, s₁) ∧
      (o = .ok () → calls.map Call.told = tellings plugins.length phase id) := by
  obtain ⟨calls, hlog, hleads, htold⟩ := dispatch_leads plugins 0 rfl h
  refine ⟨calls, ⟨hlog, ?_⟩, fun ho => ?_⟩
  · rwa [outcome_ending]
  · rw [htold ho, tellings, List.range_eq_range']

theorem Noted.trans {s s₁ : RunState (Recording σ)} {calls more : List (Call σ)}
    {r : RunEnd × RunState (Recording σ)} {e : RunEnd} (he : e.outcome = .ok ())
    (h : Noted mode plugins s calls (e, s₁)) (h' : Noted mode plugins s₁ more r) :
    Noted mode plugins s (calls ++ more) r := by
  obtain ⟨hlog, hleads⟩ := h
  rw [he] at hleads
  refine ⟨?_, hleads.trans h'.2⟩
  rw [h'.1, hlog, List.append_assoc]

/-- A step that notes no call comes first. -/
theorem Noted.alike {s s₁ : RunState (Recording σ)} {calls : List (Call σ)}
    {r : RunEnd × RunState (Recording σ)} (h : Noted mode plugins s₁ calls r)
    (hlog : s₁.log = s.log) (ha : Alike s.erased s₁.erased) : Noted mode plugins s calls r :=
  ⟨h.1.trans (by rw [hlog]), h.2.alike ha⟩

/-- A step that notes no call comes last. -/
theorem Noted.then_alike {s s₁ : RunState (Recording σ)} {calls : List (Call σ)} {e : RunEnd}
    (h : Noted mode plugins s calls (e, s₁)) (s₂ : RunState (Recording σ)) (hlog : s₂.log = s₁.log)
    (ha : Alike s₁.erased s₂.erased) : Noted mode plugins s calls (e, s₂) :=
  ⟨hlog.trans h.1, h.2.then_alike ha⟩

/-- The calls of the visits that a cursor over the children of `parent` leads to. -/
def AreVisits (n : Nat) (parent : NodeId) (calls : List (Call σ)) : Prop :=
  ∃ parts : List (NodeId × List (Call σ)), calls = parts.flatMap Prod.snd ∧
    (∀ v ∈ parts, IsVisit n v.1 v.2) ∧
    ∀ v ∈ parts, ∀ c ∈ v.2.head?, v.1 ∈ c.before.forest.children parent

/-- **The calls of a visit** lead from its start to its end. Those of a visit that finishes are told
in the order of `IsVisit`. -/
theorem visit_leads (mode : RunMode) (plugins : List (Plugin σ)) (fuel : Nat) :
    (∀ id s, ∃ calls, Noted mode plugins s calls (visit mode (recordFrom 0 plugins) id fuel s) ∧
      ((visit mode (recordFrom 0 plugins) id fuel s).1 = .finished →
        IsVisit plugins.length id calls)) ∧
    ∀ parent cursor s, ∃ calls,
      Noted mode plugins s calls (visitChildren mode (recordFrom 0 plugins) parent cursor fuel s) ∧
      ((visitChildren mode (recordFrom 0 plugins) parent cursor fuel s).1 = .finished →
        AreVisits plugins.length parent calls) := by
  have quiet (s s₁ : RunState (Recording σ)) (e : RunEnd) (he : e.outcome = .ok ())
      (hlog : s₁.log = s.log) (ha : Alike s.erased s₁.erased) :
      Noted mode plugins s [] (e, s₁) := by
    refine ⟨by rw [hlog, List.append_nil], ?_⟩
    rw [he]
    exact .quiet ha
  refine visit_induct (P := fun id s r => ∃ calls, Noted mode plugins s calls r ∧
      (r.1 = .finished → IsVisit plugins.length id calls))
    (Q := fun parent _ s r => ∃ calls, Noted mode plugins s calls r ∧
      (r.1 = .finished → AreVisits plugins.length parent calls))
    ?out ?outAll ?refused ?passed ?entered ?broken ?last ?next ?stuck fuel
  case out => exact fun _ s => ⟨[], quiet s s _ rfl rfl (.refl _), fun h => by cases h⟩
  case outAll => exact fun _ _ s => ⟨[], quiet s s _ rfl rfl (.refl _), fun h => by cases h⟩
  case refused =>
    intro id s e s₁ henter
    obtain ⟨calls, hcalls, -⟩ := dispatch_noted henter
    exact ⟨calls, hcalls, fun h => by cases h⟩
  case passed =>
    intro id s s₁ o s₂ henter _ hexit
    obtain ⟨enter, henter, hentering⟩ := dispatch_noted henter
    obtain ⟨exit, hexit, hleaving⟩ := dispatch_noted hexit
    refine ⟨enter ++ exit, henter.trans rfl hexit, fun ho => ?_⟩
    have hnone : ∀ v ∈ ([] : List (NodeId × List (Call σ))), IsVisit plugins.length v.1 v.2 := by
      simp
    have := IsVisit.visit (hentering rfl) hnone (by simp) (by simp) (hleaving (ending_finished ho))
    simpa using this
  case entered =>
    intro id s s₁ s₂ o s₃ henter hin ⟨calls, hcalls, hparts⟩ hexit
    obtain ⟨enter, henter, hentering⟩ := dispatch_noted henter
    obtain ⟨exit, hexit, hleaving⟩ := dispatch_noted hexit
    obtain ⟨parts, rfl, hvisits, hchildren⟩ := hparts rfl
    have hbelow := hcalls.alike (s := s₁) rfl (.opened ..)
    have hclosed := hbelow.then_alike (closed s₂ id (cursorFor s₁ id)) rfl (.closed ..)
    refine ⟨enter ++ parts.flatMap Prod.snd ++ exit,
      (henter.trans rfl hclosed).trans rfl hexit, fun ho => ?_⟩
    refine .visit (hentering rfl) hvisits hchildren (fun _ c hc => ?_)
      (hleaving (ending_finished ho))
    have ha := henter.2.last hc
    rw [goesInto, Bool.and_eq_true, Bool.or_eq_true, decide_eq_true_iff] at hin
    rw [← ha.forest.kind, ← ha.forest.parent?]
    exact hin.1
  case broken =>
    intro id s s₁ e s₂ henter _ ⟨calls, hcalls, _⟩ he
    obtain ⟨enter, henter, -⟩ := dispatch_noted henter
    have hbelow := hcalls.alike (s := s₁) rfl (.opened ..)
    have hclosed := hbelow.then_alike (closed s₂ id (cursorFor s₁ id)) rfl (.closed ..)
    exact ⟨enter ++ calls, henter.trans rfl hclosed, fun h => absurd h he⟩
  case last =>
    intro parent cursor s _
    exact ⟨[], quiet s _ _ rfl rfl (.advanced ..), fun _ => ⟨[], by simp⟩⟩
  case next =>
    intro parent cursor s child index s₁ r hchild ⟨calls, hcalls, hvisit⟩ ⟨more, hmore, hrest⟩
    have hcalls := hcalls.alike (s := s) rfl (.advanced ..)
    refine ⟨calls ++ more, hcalls.trans rfl hmore, fun ho => ?_⟩
    obtain ⟨parts, rfl, hvisits, hchildren⟩ := hrest ho
    refine ⟨(child, calls) :: parts, rfl, ?_, ?_⟩
    · exact List.forall_mem_cons.2 ⟨hvisit rfl, hvisits⟩
    · refine List.forall_mem_cons.2 ⟨fun c hc => ?_, hchildren⟩
      rw [(hcalls.2.head hc).forest.children]
      exact Forest.mem_of_nextChild hchild
  case stuck =>
    intro parent cursor s child index e s₁ _ ⟨calls, hcalls, _⟩ he
    exact ⟨calls, hcalls.alike (s := s) rfl (.advanced ..), fun h => absurd h he⟩

/-- **The calls of a traversal** lead from its start to its end. A traversal that finishes tells all
plugins of its start, visits the root and tells all plugins of its end. -/
theorem traverse_leads (mode : RunMode) (plugins : List (Plugin σ)) (fuel : Nat)
    (s : RunState (Recording σ)) :
    ∃ calls, Noted mode plugins s calls (traverse mode (recordFrom 0 plugins) fuel s) ∧
      ((traverse mode (recordFrom 0 plugins) fuel s).1 = .finished →
        ∃ once visits onceExit, calls = once ++ visits ++ onceExit ∧
          once.map Call.told = tellings plugins.length .once s.session.root ∧
          IsVisit plugins.length s.session.root visits ∧
          onceExit.map Call.told = tellings plugins.length .onceExit s.session.root) := by
  obtain ⟨e, s₁, honce, hr⟩ | ⟨s₁, honce, h⟩ :=
    traverse_cases mode (recordFrom 0 plugins) fuel s
  · obtain ⟨once, honce, -⟩ := dispatch_noted honce
    rw [hr]
    exact ⟨once, honce, fun h => by cases h⟩
  obtain ⟨once, honce, hstart⟩ := dispatch_noted honce
  obtain ⟨visits, hvisits, hvisit⟩ :=
    (visit_leads mode plugins fuel).1 s.session.root s₁
  obtain ⟨e, s₂, hv, he, hr⟩ | ⟨s₂, o, s₃, hv, hexit, hr⟩ := h <;> rw [hv] at hvisits hvisit
  · rw [hr]
    exact ⟨once ++ visits, honce.trans rfl hvisits, fun h => absurd h he⟩
  obtain ⟨exit, hexit, hend⟩ := dispatch_noted hexit
  rw [hr]
  refine ⟨once ++ visits ++ exit, ((honce.trans rfl hvisits).trans rfl hexit).then_alike _ ?_ ?_,
    fun h => ⟨once, visits, exit, rfl, hstart rfl, hvisit rfl, hend (ending_finished h)⟩⟩
  · cases o <;> rfl
  · cases o
    · exact .refl _
    · exact ⟨.refl _, rfl, rfl⟩

end Run

end Stylesheet
