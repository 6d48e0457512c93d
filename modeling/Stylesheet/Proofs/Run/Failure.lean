import Stylesheet.Proofs.Cursor.Open
import Stylesheet.Proofs.Run.Order

/-!
# Runs that fail

The first call that fails ends a run: no other call follows it, the run ends with its error, which
names its plugin (`RunError.Names`), and no cursor stays open (`traverse_tidy`). A run that does
not wait fails at the first handler that suspends itself; where none does, it is the run that waits
(`traverse_waiting`). `traverse_failure` puts this together.
-/

set_option autoImplicit false

namespace Stylesheet

variable {σ : Type} {mode : RunMode} {plugins : List (Plugin σ)} {s s₁ s₂ : RunState σ}

/-! ## What a run makes of a reply -/

namespace Reply

/-- What a handler ends in; nothing if the run does not wait for it. -/
def outcome (mode : RunMode) : Reply σ → Option (Except HandlerError Unit)
  | done o _ => some o
  | suspended _ later =>
    match mode with
    | .waiting => outcome mode later
    | .immediate => none

/-- Every state that the handler leaves, when it suspends itself and at the end. -/
def All (P : RunState σ → Prop) : Reply σ → Prop
  | done _ s => P s
  | suspended s later => P s ∧ later.All P

theorem All.settle {P : RunState σ → Prop} {r : Reply σ} (h : r.All P) (mode : RunMode)
    (plugin : String) (id : NodeId) : P (r.settle mode plugin id).2 := by
  induction r with
  | done o s => cases o <;> exact h
  | suspended s later ih =>
    cases mode with
    | waiting => exact ih h.2
    | immediate => exact h.1

end Reply

/-- The error of a run that fails with a reply names the plugin. An error in the text that names a
plugin already is left as it is. -/
inductive RunError.Names (mode : RunMode) (plugin : String) (r : Reply σ) : RunError → Prop
  | located {contexts : List String} {e : SourceError} :
      r.outcome mode = some (.error ⟨contexts, .located e⟩) →
      Names mode plugin r (.text { e with plugin := some (e.plugin.getD plugin) })
  | other {contexts : List String} {text : String} {fault : PluginFault} :
      r.outcome mode = some (.error ⟨contexts, .other text⟩) → fault.plugin = plugin →
      fault.text = ": ".intercalate (contexts ++ [text]) → Names mode plugin r (.plugin fault)
  | suspended : mode = .immediate → r.outcome mode = none →
      Names mode plugin r (.suspended plugin)

theorem RunError.names_ofHandler {plugin : String} {r : Reply σ} {e : HandlerError}
    (h : r.outcome mode = some (.error e)) (f : Forest) (id : NodeId) :
    (RunError.ofHandler plugin f id e).Names mode plugin r := by
  obtain ⟨contexts, se | text⟩ := e
  · have hname : se.plugin.or (some plugin) = some (se.plugin.getD plugin) := by
      cases se.plugin <;> rfl
    simp only [ofHandler, hname]
    exact .located h
  · exact .other h rfl rfl

theorem RunError.Names.not_ok {plugin : String} {r : Reply σ} {e : RunError}
    (h : e.Names mode plugin r) : r.outcome mode ≠ some (.ok ()) := by
  intro hok
  cases h with
  | located ho => rw [hok] at ho; cases ho
  | other ho => rw [hok] at ho; cases ho
  | suspended _ ho => rw [hok] at ho; cases ho

/-- **The error of a reply** names the plugin. -/
theorem Reply.settle_error {r : Reply σ} {plugin : String} {id : NodeId} {e : RunError}
    (h : r.settle mode plugin id = (.error e, s)) : e.Names mode plugin r := by
  induction r with
  | done o s₁ =>
    cases o with
    | ok => cases h
    | error he =>
      cases h
      exact RunError.names_ofHandler rfl _ id
  | suspended s₁ later ih =>
    cases mode with
    | waiting =>
      cases ih h with
      | located ho => exact .located ho
      | other ho hp ht => exact .other ho hp ht
      | suspended hm => cases hm
    | immediate =>
      cases h
      exact .suspended rfl rfl

theorem Reply.settle_ok {r : Reply σ} {plugin : String} {id : NodeId}
    (h : r.settle mode plugin id = (.ok (), s)) : r.outcome mode = some (.ok ()) := by
  induction r with
  | done o s₁ =>
    cases o with
    | ok => rfl
    | error => cases h
  | suspended s₁ later ih =>
    cases mode with
    | waiting => exact ih h
    | immediate => cases h

/-! ## Handlers by name -/

/-- Handlers are called one after the other; all but the last succeed, and the last one ends in
`o`. -/
inductive Performs (id : NodeId) :
    RunState σ → List (Handler σ) → Except HandlerError Unit → RunState σ → Prop
  | nil {s : RunState σ} : Performs id s [] (.ok ()) s
  | cons {s s₁ s₂ : RunState σ} {h : Handler σ} {hs : List (Handler σ)}
      {o : Except HandlerError Unit} :
      h id s = (.ok (), s₁) → Performs id s₁ hs o s₂ → Performs id s (h :: hs) o s₂
  | fails {s s₁ : RunState σ} {h : Handler σ} {e : HandlerError} :
      h id s = (.error e, s₁) → Performs id s [h] (.error e) s₁

theorem Performs.trans {id : NodeId} {hs more : List (Handler σ)} {o : Except HandlerError Unit}
    (h : Performs id s hs (.ok ()) s₁) (h' : Performs id s₁ more o s₂) :
    Performs id s (hs ++ more) o s₂ := by
  generalize ho : (Except.ok () : Except HandlerError Unit) = o' at h
  induction h with
  | nil => exact h'
  | cons hh _ ih => exact .cons hh (ih h' ho)
  | fails => cases ho

namespace Hooks

variable {id : NodeId}

/-- All handlers of the hooks. -/
def all (h : Hooks σ) : List (Handler σ) :=
  [h.once, h.onceExit, h.root, h.rootExit, h.atRule, h.atRuleExit, h.rule, h.ruleExit,
    h.declaration, h.declarationExit, h.comment, h.commentExit].flatMap Option.toList ++
  [h.atRulesNamed, h.atRulesNamedExit, h.declarationsNamed, h.declarationsNamedExit].flatMap
    (·.map Prod.snd)

theorem callAll_performs (id : NodeId) (hs : List (Handler σ)) (s : RunState σ) :
    ∃ called, called <+: hs ∧
      Performs id s called (callAll hs id s).1 (callAll hs id s).2 := by
  induction hs generalizing s with
  | nil => exact ⟨[], List.prefix_rfl, .nil⟩
  | cons h hs ih =>
    rw [callAll]
    rcases hr : h id s with ⟨e | _, s₁⟩
    · exact ⟨[h], by simp, .fails hr⟩
    · obtain ⟨called, hsome, hcalled⟩ := ih s₁
      exact ⟨h :: called, by simpa using hsome, .cons hr hcalled⟩

theorem callAll_performs_of_ok {hs : List (Handler σ)} (h : callAll hs id s = (.ok (), s₁)) :
    Performs id s hs (.ok ()) s₁ := by
  induction hs generalizing s with
  | nil =>
    cases h
    exact .nil
  | cons g hs ih =>
    rw [callAll] at h
    rcases hr : g id s with ⟨e | _, s₂⟩ <;> rw [hr] at h
    · cases h
    · exact .cons hr (ih h)

theorem callNamed_performs (id : NodeId) (general : Option (Handler σ))
    (table : List (String × Handler σ)) (nameOf : NodeData → String) (s : RunState σ) :
    ∃ called, (∀ h ∈ called, h ∈ general.toList ∨ h ∈ table.map Prod.snd) ∧
      Performs id s called (callNamed general table nameOf id s).1
        (callNamed general table nameOf id s).2 := by
  unfold callNamed
  obtain ⟨called, hsome, hcalled⟩ := callAll_performs id general.toList s
  rcases hr : callAll general.toList id s with ⟨e | _, s₁⟩
  · rw [hr] at hcalled
    exact ⟨called, fun h hh => .inl (hsome.subset hh), hcalled⟩
  · obtain ⟨named, hmore, hnamed⟩ :=
      callAll_performs id (handlersFor table (nameOf (s₁.forest.data id))) s₁
    refine ⟨general.toList ++ named, fun h hh => ?_, (callAll_performs_of_ok hr).trans hnamed⟩
    rcases List.mem_append.1 hh with hh | hh
    · exact .inl hh
    · obtain ⟨x, hx, rfl⟩ := List.mem_map.1 (hmore.subset hh)
      exact .inr (List.mem_map_of_mem (List.mem_filter.1 hx).1)

/-- **A plugin of hooks** calls its handlers one after the other, up to the first one that fails. -/
theorem toPlugin_performs (h : Hooks σ) (phase : Phase) (id : NodeId) (s : RunState σ) :
    ∃ called o s₁, h.toPlugin.handle phase id s = .done o s₁ ∧ (∀ g ∈ called, g ∈ h.all) ∧
      Performs id s called o s₁ := by
  have plain (general : Option (Handler σ)) (hg : ∀ g ∈ general.toList, g ∈ h.all) :
      ∃ called, (∀ g ∈ called, g ∈ h.all) ∧ Performs id s called
        (callAll general.toList id s).1 (callAll general.toList id s).2 := by
    obtain ⟨called, hsome, hcalled⟩ := callAll_performs id general.toList s
    exact ⟨called, fun g hmem => hg g (hsome.subset hmem), hcalled⟩
  have named (general : Option (Handler σ)) (table : List (String × Handler σ))
      (nameOf : NodeData → String) (hg : ∀ g, g ∈ general.toList ∨ g ∈ table.map Prod.snd →
        g ∈ h.all) : ∃ called, (∀ g ∈ called, g ∈ h.all) ∧ Performs id s called
        (callNamed general table nameOf id s).1 (callNamed general table nameOf id s).2 := by
    obtain ⟨called, hmem, hcalled⟩ := callNamed_performs id general table nameOf s
    exact ⟨called, fun g hg' => hg g (hmem g hg'), hcalled⟩
  have hall : ∃ called, (∀ g ∈ called, g ∈ h.all) ∧ Performs id s called
      (h.handler phase (s.forest.kind id) id s).1 (h.handler phase (s.forest.kind id) id s).2 := by
    unfold handler
    generalize s.forest.kind id = kind
    cases phase <;> cases kind
    all_goals first
      | exact plain _ (by simp +contextual [all])
      | exact named _ _ _ (by rintro g (hg | hg) <;> simp [all, hg])
  obtain ⟨called, hmem, hcalled⟩ := hall
  exact ⟨called, _, _, rfl, hmem, hcalled⟩

end Hooks

/-! ## Open cursors -/

/-- Between the states no cursor was left open, and none was closed. -/
structure Tidy (s s₁ : RunState σ) : Prop where
  sameOpen : s.forest.SameOpen s₁.forest
  size : s.forest.size ≤ s₁.forest.size
  numbered : s₁.forest.Numbered

theorem Tidy.refl (hs : s.forest.Numbered) : Tidy s s := ⟨.refl _, Nat.le_refl _, hs⟩

theorem Tidy.trans (h : Tidy s s₁) (h' : Tidy s₁ s₂) : Tidy s s₂ :=
  ⟨h.sameOpen.trans h'.sameOpen, Nat.le_trans h.size h'.size, h'.numbered⟩

/-- Edits are tidy. -/
theorem Forest.Adjusts.tidy (hs : s.forest.Numbered) (h : s.forest.Adjusts s₁.forest) :
    Tidy s s₁ := ⟨h.sameOpen, h.size, h.numbered hs⟩

/-- Whenever a handler of the plugin suspends itself or ends, the cursors are open that were open
before. -/
def Plugin.IsTidy (p : Plugin σ) : Prop :=
  ∀ phase id s, s.forest.Numbered → (p.handle phase id s).All (Tidy s)

namespace Run

theorem dispatch_tidy (hps : ∀ p ∈ plugins, p.IsTidy) {phase : Phase} {id : NodeId}
    {o : Except RunError Unit} (hs : s.forest.Numbered)
    (h : dispatch mode phase id plugins s = (o, s₁)) : Tidy s s₁ := by
  induction plugins generalizing s with
  | nil =>
    cases h
    exact .refl hs
  | cons p ps ih =>
    obtain ⟨hp, hps⟩ := List.forall_mem_cons.1 hps
    have hone := (hp phase id (atWork s p.name) hs).settle mode p.name id
    -- which plugin is at work does not matter
    replace hone : Tidy s _ := ⟨hone.sameOpen, hone.size, hone.numbered⟩
    rw [dispatch_cons] at h
    rcases hr : (p.handle phase id (atWork s p.name)).settle mode p.name id with ⟨e | _, s₂⟩ <;>
      rw [hr] at h hone
    · cases h
      exact hone
    · exact hone.trans (ih hps hone.numbered h)

theorem lt_size_of_goesInto {f : Forest} {id : NodeId} (h : goesInto f id = true) :
    id < f.size := by
  rw [goesInto, Bool.and_eq_true] at h
  exact Forest.lt_size_of_hasBlock h.2

/-- **No visit leaves a cursor open**, however it ends. -/
theorem visit_tidy (mode : RunMode) (hps : ∀ p ∈ plugins, p.IsTidy) (fuel : Nat) :
    (∀ id s, s.forest.Numbered → Tidy s (visit mode plugins id fuel s).2) ∧
    ∀ parent cursor s, s.forest.Numbered →
      Tidy s (visitChildren mode plugins parent cursor fuel s).2 := by
  have hopen {s₁ s₂ : RunState σ} {id : NodeId} (hin : goesInto s₁.forest id = true)
      (hs₁ : s₁.forest.Numbered) (h : (opened s₁ id).forest.Numbered → Tidy (opened s₁ id) s₂) :
      Tidy s₁ (closed s₂ id (cursorFor s₁ id)) := by
    have hid := lt_size_of_goesInto hin
    have hbelow := h (hs₁.openCursor hid .traversal)
    have hsize : s₁.forest.size ≤ s₂.forest.size := by
      rw [← (Forest.alike_openCursor s₁.forest id .traversal).size]
      exact hbelow.size
    have hid₂ := Nat.lt_of_lt_of_le hid hsize
    refine ⟨hbelow.sameOpen.closeCursor hid hs₁ hid₂, ?_, hbelow.numbered.closeCursor hid₂ _⟩
    rw [show (closed s₂ id (cursorFor s₁ id)).forest.size = s₂.forest.size from
      (Forest.alike_closeCursor ..).size]
    exact hsize
  have hadvance (s : RunState σ) (parent : NodeId) (cursor : Nat) (hs : s.forest.Numbered) :
      Tidy s (advanced s parent cursor) :=
    ⟨Forest.sameOpen_nextChild s.forest parent cursor,
      Nat.le_of_eq (Forest.alike_nextChild ..).size.symm, hs.nextChild parent cursor⟩
  refine visit_induct (P := fun _ s r => s.forest.Numbered → Tidy s r.2)
    (Q := fun _ _ s r => s.forest.Numbered → Tidy s r.2)
    ?out ?outAll ?refused ?passed ?entered ?broken ?last ?next ?stuck fuel
  case out => exact fun _ _ hs => .refl hs
  case outAll => exact fun _ _ _ hs => .refl hs
  case refused => exact fun _ s _ s₁ henter hs => dispatch_tidy hps hs henter
  case passed =>
    intro id s s₁ o s₂ henter _ hexit hs
    have h₁ := dispatch_tidy hps hs henter
    exact h₁.trans (dispatch_tidy hps h₁.numbered hexit)
  case entered =>
    intro id s s₁ s₂ o s₃ henter hin hchildren hexit hs
    have h₁ := dispatch_tidy hps hs henter
    have h₂ := h₁.trans (hopen hin h₁.numbered hchildren)
    exact h₂.trans (dispatch_tidy hps h₂.numbered hexit)
  case broken =>
    intro id s s₁ e s₂ henter hin hchildren _ hs
    have h₁ := dispatch_tidy hps hs henter
    exact h₁.trans (hopen hin h₁.numbered hchildren)
  case last => exact fun parent cursor s _ hs => hadvance s parent cursor hs
  case next =>
    intro parent cursor s child index s₁ r _ hvisit hrest hs
    have h₁ := hadvance s parent cursor hs
    have h₂ := h₁.trans (hvisit h₁.numbered)
    exact h₂.trans (hrest h₂.numbered)
  case stuck =>
    intro parent cursor s child index e s₁ _ hvisit _ hs
    have h₁ := hadvance s parent cursor hs
    exact h₁.trans (hvisit h₁.numbered)

/-- **No traversal leaves a cursor open**, however it ends. -/
theorem traverse_tidy (mode : RunMode) (hps : ∀ p ∈ plugins, p.IsTidy) (fuel : Nat)
    (hs : s.forest.Numbered) : Tidy s (traverse mode plugins fuel s).2 := by
  obtain ⟨e, s₁, honce, hr⟩ | ⟨s₁, honce, h⟩ := traverse_cases mode plugins fuel s
  · rw [hr]
    exact dispatch_tidy hps hs honce
  have h₁ := dispatch_tidy hps hs honce
  have h₂ := h₁.trans ((visit_tidy mode hps fuel).1 s.session.root s₁ h₁.numbered)
  obtain ⟨e, s₂, hvisit, -, hr⟩ | ⟨s₂, o, s₃, hvisit, hexit, hr⟩ := h <;> rw [hvisit] at h₂
  · rw [hr]
    exact h₂
  · have h₃ := h₂.trans (dispatch_tidy hps h₂.numbered hexit)
    rw [hr]
    cases o
    · exact h₃
    · exact ⟨h₃.sameOpen, h₃.size, h₃.numbered⟩

/-! ## Runs that do not wait -/

theorem settle_waiting {r : Reply σ} {plugin : String} {id : NodeId} {o : Except RunError Unit}
    (h : r.settle .immediate plugin id = (o, s)) (ho : ∀ n, o ≠ .error (.suspended n)) :
    r.settle .waiting plugin id = (o, s) := by
  cases r with
  | done o' s' => cases o' <;> exact h
  | suspended s' later =>
    cases h
    exact absurd rfl (ho plugin)

theorem dispatch_waiting {phase : Phase} {id : NodeId} {o : Except RunError Unit}
    (h : dispatch .immediate phase id plugins s = (o, s₁))
    (ho : ∀ n, o ≠ .error (.suspended n)) : dispatch .waiting phase id plugins s = (o, s₁) := by
  induction plugins generalizing s with
  | nil => exact h
  | cons p ps ih =>
    rw [dispatch_cons] at h ⊢
    rcases hr : (p.handle phase id (atWork s p.name)).settle .immediate p.name id with ⟨e | _, s₂⟩
      <;> rw [hr] at h
    · cases h
      rw [settle_waiting hr ho]
    · rw [settle_waiting hr (by simp)]
      exact ih h

theorem leave_waiting {id : NodeId} {e : RunEnd}
    (h : leave .immediate plugins id s = (e, s₁)) (he : ∀ n, e ≠ .failed (.suspended n)) :
    leave .waiting plugins id s = (e, s₁) := by
  unfold leave at h ⊢
  rcases hr : dispatch .immediate .exit id plugins s with ⟨o, s₂⟩
  rw [hr] at h
  rw [dispatch_waiting hr, h]
  rintro n rfl
  cases h
  exact he n rfl

/-- A visit in which no handler suspends itself is the same in both modes. -/
theorem visit_waiting (plugins : List (Plugin σ)) (fuel : Nat) :
    (∀ id s e s₁, visit .immediate plugins id fuel s = (e, s₁) →
      (∀ n, e ≠ .failed (.suspended n)) → visit .waiting plugins id fuel s = (e, s₁)) ∧
    ∀ parent cursor s e s₁, visitChildren .immediate plugins parent cursor fuel s = (e, s₁) →
      (∀ n, e ≠ .failed (.suspended n)) →
      visitChildren .waiting plugins parent cursor fuel s = (e, s₁) := by
  induction fuel with
  | zero =>
    refine ⟨fun id s e s₁ h _ => ?_, fun parent cursor s e s₁ h _ => ?_⟩
    · rw [visit] at h ⊢
      exact h
    · rw [visitChildren] at h ⊢
      exact h
  | succ fuel ih =>
    obtain ⟨ihVisit, ihChildren⟩ := ih
    refine ⟨fun id s e s₁ h he => ?_, fun parent cursor s e s₁ h he => ?_⟩
    · rw [visit_succ] at h ⊢
      rcases henter : dispatch .immediate .enter id plugins s with ⟨e' | _, s₂⟩ <;>
        rw [henter] at h <;> simp only at h
      · rw [dispatch_waiting henter]
        · exact h
        · rintro n ⟨⟩
          cases h
          exact he n rfl
      · rw [dispatch_waiting henter (by simp)]
        simp only
        split at h
        · next hin =>
          rw [if_pos hin]
          rcases hr : visitChildren .immediate plugins id (cursorFor s₂ id) fuel (opened s₂ id)
            with ⟨_ | e' | _, s₃⟩ <;> rw [hr] at h <;> simp only at h
          · rw [ihChildren _ _ _ _ _ hr (by simp)]
            exact leave_waiting h he
          · rw [ihChildren _ _ _ _ _ hr]
            · exact h
            · rintro n ⟨⟩
              cases h
              exact he n rfl
          · rw [ihChildren _ _ _ _ _ hr (by simp)]
            exact h
        · next hin =>
          rw [if_neg hin]
          exact leave_waiting h he
    · rw [visitChildren_succ] at h ⊢
      rcases hnext : (s.forest.nextChild parent cursor).1 with _ | ⟨child, index⟩ <;>
        rw [hnext] at h
      · exact h
      simp only at h ⊢
      rcases hr : visit .immediate plugins child fuel (advanced s parent cursor) with
        ⟨_ | e' | _, s₂⟩ <;> rw [hr] at h <;> simp only at h
      · rw [ihVisit _ _ _ _ hr (by simp)]
        exact ihChildren _ _ _ _ _ h he
      · rw [ihVisit _ _ _ _ hr]
        · exact h
        · rintro n ⟨⟩
          cases h
          exact he n rfl
      · rw [ihVisit _ _ _ _ hr (by simp)]
        exact h

/-- **A traversal in which no handler suspends itself** is the same in both modes. -/
theorem traverse_waiting {fuel : Nat}
    (h : ∀ n, (traverse .immediate plugins fuel s).1 ≠ .failed (.suspended n)) :
    traverse .waiting plugins fuel s = traverse .immediate plugins fuel s := by
  obtain ⟨e, s₁, honce, hr⟩ | ⟨s₁, honce, hrest⟩ := traverse_cases .immediate plugins fuel s
  · rw [hr] at h ⊢
    unfold traverse
    simp only
    rw [dispatch_waiting honce (by rintro n ⟨⟩; exact h n rfl)]
  have honce' := dispatch_waiting honce (by simp)
  obtain ⟨e, s₂, hvisit, he, hr⟩ | ⟨s₂, o, s₃, hvisit, hexit, hr⟩ := hrest <;> rw [hr] at h ⊢ <;>
    unfold traverse <;> simp only <;> rw [honce'] <;> simp only
  · rw [(visit_waiting plugins fuel).1 _ _ _ _ hvisit h]
    cases e with
    | finished => exact absurd rfl he
    | failed e => rfl
    | outOfFuel => rfl
  · rw [(visit_waiting plugins fuel).1 _ _ _ _ hvisit (by simp)]
    simp only
    rw [dispatch_waiting hexit]
    · cases o <;> rfl
    · rintro n rfl
      exact h n rfl

/-! ## The first failure -/

theorem failed_of_outcome {e : RunEnd} {err : RunError} (h : e.outcome = .error err) :
    e = .failed err := by
  cases e with
  | failed err' =>
    cases h
    rfl
  | finished => cases h
  | outOfFuel => cases h

/-- A run that does not wait ends in a suspension only if a handler suspended itself. -/
theorem suspends_of_failed {fuel : Nat} {n : String}
    (h : (traverse .immediate plugins fuel s).1 = .failed (.suspended n)) :
    ∃ c ∈ callsOf .immediate plugins fuel s, ∃ p, plugins[c.plugin]? = some p ∧
      (p.handle c.phase c.node c.before).outcome .immediate = none := by
  have hleads := callsOf_leads .immediate plugins fuel s
  rw [h] at hleads
  obtain ⟨c, hc, p, hp, -, hsettle⟩ := hleads.of_error
  refine ⟨c, List.mem_of_getLast? hc, p, hp, ?_⟩
  cases Reply.settle_error hsettle with
  | suspended _ ho => exact ho

/-- **The first failure ends a run.** The calls of a traversal are answered one after the other. One
that fails, or suspends itself where the run does not wait, is the last one: the calls before it lead
to what it was given, nothing but cursors differs between what it left and what the run leaves, and
the error of the run is its error, which names its plugin. A run that fails has such a call. No
cursor is left open, however the run ends. If no handler suspends itself, the run that waits is the
same. Handlers that are called by name keep to this as well. -/
theorem traverse_failure (mode : RunMode) (plugins : List (Plugin σ)) (fuel : Nat)
    (s : RunState σ) :
    erased (traverse mode (recordFrom 0 plugins) fuel (s.withLog [])) =
      traverse mode plugins fuel s ∧
    (∀ k c, (callsOf mode plugins fuel s)[k]? = some c → ∃ p, plugins[c.plugin]? = some p ∧
      ((p.handle c.phase c.node c.before).outcome mode ≠ some (.ok ()) → ∃ e,
        (traverse mode plugins fuel s).1 = .failed e ∧
        e.Names mode p.name (p.handle c.phase c.node c.before) ∧
        (callsOf mode plugins fuel s).length = k + 1 ∧
        Leads mode plugins s ((callsOf mode plugins fuel s).take k) (.ok ()) c.before ∧
        (p.handle c.phase c.node c.before).settle mode p.name c.node = (.error e, c.after) ∧
        Alike c.after (traverse mode plugins fuel s).2)) ∧
    (∀ e, (traverse mode plugins fuel s).1 = .failed e →
      ∃ c ∈ (callsOf mode plugins fuel s).getLast?, c.Answered mode plugins (.error e)) ∧
    (s.forest.Numbered → (∀ p ∈ plugins, p.IsTidy) →
      s.forest.SameOpen (traverse mode plugins fuel s).2.forest) ∧
    ((∀ c ∈ callsOf .immediate plugins fuel s, ∀ p, plugins[c.plugin]? = some p →
        (p.handle c.phase c.node c.before).outcome .immediate ≠ none) →
      traverse .waiting plugins fuel s = traverse .immediate plugins fuel s ∧
      callsOf .waiting plugins fuel s = callsOf .immediate plugins fuel s) ∧
    ∀ (h : Hooks σ) phase id s, ∃ called o s₁, h.toPlugin.handle phase id s = .done o s₁ ∧
      (∀ g ∈ called, g ∈ h.all) ∧ Performs id s called o s₁ := by
  have hleads := callsOf_leads mode plugins fuel s
  refine ⟨erased_traverse mode plugins fuel (s.withLog []), fun k c hc => ?_, fun e he => ?_,
    fun hs hps => (traverse_tidy mode hps fuel hs).sameOpen, fun hall => ?_,
    Hooks.toPlugin_performs⟩
  · obtain ⟨o, p, hp, hwork, ho⟩ := hleads.answered (List.mem_of_getElem? hc)
    refine ⟨p, hp, fun hfails => ?_⟩
    rcases o with e | _
    · obtain ⟨hend, hlength, hbefore, hafter⟩ := hleads.failing hc ⟨p, hp, hwork, ho⟩
      exact ⟨e, failed_of_outcome hend, Reply.settle_error ho, hlength, hbefore, ho, hafter⟩
    · exact absurd (Reply.settle_ok ho) hfails
  · rw [he] at hleads
    exact hleads.of_error
  · have hend : ∀ n, (traverse .immediate plugins fuel s).1 ≠ .failed (.suspended n) := by
      intro n hn
      obtain ⟨c, hc, p, hp, ho⟩ := suspends_of_failed hn
      exact hall c hc p hp ho
    have herased := erased_traverse .immediate plugins fuel (s.withLog [])
    rw [RunState.erased_withLog] at herased
    have hrecorded : ∀ n,
        (traverse .immediate (recordFrom 0 plugins) fuel (s.withLog [])).1 ≠
          .failed (.suspended n) := by
      rw [← herased] at hend
      exact hend
    exact ⟨traverse_waiting hend, by rw [callsOf, traverse_waiting hrecorded, callsOf]⟩

/-- A handler takes the rule around a declaration out of the tree and fails. -/
theorem traverse_failure_detached :
    let f := Edit.run .empty (.read .empty "a\x7bb:c;d:e\x7d" none .auto)
    let cut : Plugin Nat := ⟨"cut", fun phase id s =>
      if phase = .enter ∧ id = 2 then
        .done (.error (.ofFault (.located (.unlocated "no"))))
          { s with forest := (Edit.detach 1).run s.forest, user := s.user + 1 }
      else .done (.ok ()) { s with user := s.user + 1 }⟩
    let s : RunState Nat := ⟨f, .start 0 default, 0⟩
    let r := traverse .immediate [cut] 8 s
    r.1 = .failed (.text { SourceError.unlocated "no" with plugin := some "cut" }) ∧
      r.2.forest.children 0 = [] ∧ (∃ c, (callsOf .immediate [cut] 8 s)[3]? = some c ∧
        Leads .immediate [cut] s ((callsOf .immediate [cut] 8 s).take 3) (.ok ()) c.before ∧
        Alike c.after r.2) ∧
      f.SameOpen r.2.forest ∧ traverse .waiting [cut] 8 s = r := by
  intro f cut s r
  have hs : f.Numbered := (Edit.adjusts_run .empty _).numbered fun id => by
    rw [Forest.cursors_of_le (Nat.zero_le _)]
    exact Cursors.numbered_empty
  have htidy : ∀ p ∈ [cut], p.IsTidy := by
    simp only [List.mem_singleton, forall_eq]
    intro phase id s hs
    simp only [cut]
    split
    · exact (Edit.adjusts_run s.forest (.detach 1)).tidy hs
    · exact (Forest.Adjusts.refl s.forest).tidy hs
  have hwaits : ∀ phase id s, (cut.handle phase id s).outcome .immediate ≠ none := by
    intro phase id s
    simp only [cut]
    split <;> simp [Reply.outcome]
  have hend : r.1 = .failed (.text { SourceError.unlocated "no" with plugin := some "cut" }) ∧
      (callsOf .immediate [cut] 8 s).length = 4 ∧ r.2.forest.children 0 = [] := by
    decide +kernel
  obtain ⟨hfailed, hlength, hempty⟩ := hend
  obtain ⟨-, hcalls, hfails, hopen, hmodes, -⟩ := traverse_failure .immediate [cut] 8 s
  obtain ⟨c, hlast, hanswered⟩ := hfails _ hfailed
  have hc : (callsOf .immediate [cut] 8 s)[3]? = some c := by
    rwa [Option.mem_def, List.getLast?_eq_getElem?, hlength] at hlast
  obtain ⟨p, hp, hfirst⟩ := hcalls 3 c hc
  obtain ⟨q, hq, -, hsettle⟩ := hanswered
  rw [hp, Option.some.injEq] at hq
  rw [← hq] at hsettle
  obtain ⟨-, -, -, -, hbefore, -, hafter⟩ := hfirst (Reply.settle_error hsettle).not_ok
  refine ⟨hfailed, hempty, ⟨c, hc, hbefore, hafter⟩, hopen hs htidy, (hmodes ?_).1⟩
  intro c _ p hp
  rw [List.mem_singleton.1 (List.mem_of_getElem? hp)]
  exact hwaits c.phase c.node c.before

end Run

end Stylesheet
