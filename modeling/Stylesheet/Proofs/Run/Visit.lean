import Stylesheet.Run.Traversal

/-!
# Inductions over a traversal

`Run.visit_induct` is the induction that every fact about a visit goes by: `P` is kept by what can
happen to a node, `Q` by what can happen to a cursor over its children. `Run.traverse_cases` says
what a traversal is made of.
-/

set_option autoImplicit false

namespace Stylesheet

variable {σ : Type}

/-- The state with its forest changed. -/
def RunState.onForest (s : RunState σ) (g : Forest → Forest) : RunState σ :=
  { s with forest := g s.forest }

namespace Run

variable {mode : RunMode} {plugins : List (Plugin σ)}

/-- The number of the cursor that a visit of `id` opens. -/
def cursorFor (s : RunState σ) (id : NodeId) : Nat := (s.forest.openCursor id .traversal).1

/-- The state once a visit of `id` has opened its cursor. -/
def opened (s : RunState σ) (id : NodeId) : RunState σ :=
  s.onForest fun f => (f.openCursor id .traversal).2

/-- The state once a cursor has moved on. -/
def advanced (s : RunState σ) (parent : NodeId) (cursor : Nat) : RunState σ :=
  s.onForest fun f => (f.nextChild parent cursor).2

/-- The state once a cursor is closed. -/
def closed (s : RunState σ) (parent : NodeId) (cursor : Nat) : RunState σ :=
  s.onForest fun f => f.closeCursor parent cursor

/-- A node is left. -/
def leave (mode : RunMode) (plugins : List (Plugin σ)) (id : NodeId) (s : RunState σ) :
    RunEnd × RunState σ :=
  (ending (dispatch mode .exit id plugins s).1, (dispatch mode .exit id plugins s).2)

theorem visit_succ (mode : RunMode) (plugins : List (Plugin σ)) (id : NodeId) (fuel : Nat)
    (s : RunState σ) :
    visit mode plugins id (fuel + 1) s =
      match dispatch mode .enter id plugins s with
      | (.error e, s₁) => (.failed e, s₁)
      | (.ok _, s₁) =>
        if goesInto s₁.forest id then
          match visitChildren mode plugins id (cursorFor s₁ id) fuel (opened s₁ id) with
          | (.finished, s₂) => leave mode plugins id (closed s₂ id (cursorFor s₁ id))
          | (e, s₂) => (e, closed s₂ id (cursorFor s₁ id))
        else leave mode plugins id s₁ := by
  rw [visit]
  rcases dispatch mode .enter id plugins s with ⟨_ | _, s₁⟩
  · rfl
  · simp only
    rw [show visitChildren mode plugins id (s₁.forest.openCursor id .traversal).1 fuel
      { s₁ with forest := (s₁.forest.openCursor id .traversal).2 } =
        visitChildren mode plugins id (cursorFor s₁ id) fuel (opened s₁ id) from rfl]
    rcases visitChildren mode plugins id (cursorFor s₁ id) fuel (opened s₁ id) with
      ⟨_ | _ | _, s₂⟩ <;> rfl

theorem visitChildren_succ (mode : RunMode) (plugins : List (Plugin σ)) (parent : NodeId)
    (cursor fuel : Nat) (s : RunState σ) :
    visitChildren mode plugins parent cursor (fuel + 1) s =
      match (s.forest.nextChild parent cursor).1 with
      | none => (.finished, advanced s parent cursor)
      | some (child, _) =>
        match visit mode plugins child fuel (advanced s parent cursor) with
        | (.finished, s₁) => visitChildren mode plugins parent cursor fuel s₁
        | ended => ended := by
  rw [visitChildren, advanced, RunState.onForest]
  rcases s.forest.nextChild parent cursor with ⟨_ | ⟨child, index⟩, f⟩
  · rfl
  · rcases hv : visit mode plugins child fuel { s with forest := f } with ⟨_ | _ | _, s₁⟩ <;>
      simp only [hv]

/-- **Induction over visits.** A visit fails on entering its node, passes over the children, or goes
through them; a walk through children ends behind the last one or with the visit of one. -/
theorem visit_induct {P : NodeId → RunState σ → RunEnd × RunState σ → Prop}
    {Q : NodeId → Nat → RunState σ → RunEnd × RunState σ → Prop}
    (out : ∀ id s, P id s (.outOfFuel, s))
    (outAll : ∀ parent cursor s, Q parent cursor s (.outOfFuel, s))
    (refused : ∀ id s e s₁, dispatch mode .enter id plugins s = (.error e, s₁) →
      P id s (.failed e, s₁))
    (passed : ∀ id s s₁ o s₂, dispatch mode .enter id plugins s = (.ok (), s₁) →
      goesInto s₁.forest id = false → dispatch mode .exit id plugins s₁ = (o, s₂) →
      P id s (ending o, s₂))
    (entered : ∀ id s s₁ s₂ o s₃, dispatch mode .enter id plugins s = (.ok (), s₁) →
      goesInto s₁.forest id = true → Q id (cursorFor s₁ id) (opened s₁ id) (.finished, s₂) →
      dispatch mode .exit id plugins (closed s₂ id (cursorFor s₁ id)) = (o, s₃) →
      P id s (ending o, s₃))
    (broken : ∀ id s s₁ e s₂, dispatch mode .enter id plugins s = (.ok (), s₁) →
      goesInto s₁.forest id = true → Q id (cursorFor s₁ id) (opened s₁ id) (e, s₂) →
      e ≠ .finished → P id s (e, closed s₂ id (cursorFor s₁ id)))
    (last : ∀ parent cursor s, (s.forest.nextChild parent cursor).1 = none →
      Q parent cursor s (.finished, advanced s parent cursor))
    (next : ∀ parent cursor s child index s₁ r,
      (s.forest.nextChild parent cursor).1 = some (child, index) →
      P child (advanced s parent cursor) (.finished, s₁) → Q parent cursor s₁ r →
      Q parent cursor s r)
    (stuck : ∀ parent cursor s child index e s₁,
      (s.forest.nextChild parent cursor).1 = some (child, index) →
      P child (advanced s parent cursor) (e, s₁) → e ≠ .finished → Q parent cursor s (e, s₁))
    (fuel : Nat) :
    (∀ id s, P id s (visit mode plugins id fuel s)) ∧
      ∀ parent cursor s, Q parent cursor s (visitChildren mode plugins parent cursor fuel s) := by
  induction fuel with
  | zero =>
    refine ⟨fun id s => ?_, fun parent cursor s => ?_⟩
    · rw [visit]
      exact out id s
    · rw [visitChildren]
      exact outAll parent cursor s
  | succ fuel ih =>
    obtain ⟨ihVisit, ihChildren⟩ := ih
    refine ⟨fun id s => ?_, fun parent cursor s => ?_⟩
    · rw [visit_succ]
      rcases henter : dispatch mode .enter id plugins s with ⟨_ | _, s₁⟩
      · exact refused id s _ s₁ henter
      simp only
      split
      · next hin =>
        have hchildren := ihChildren id (cursorFor s₁ id) (opened s₁ id)
        rcases hr : visitChildren mode plugins id (cursorFor s₁ id) fuel (opened s₁ id) with
          ⟨_ | _ | _, s₂⟩ <;> rw [hr] at hchildren
        · exact entered id s s₁ s₂ _ _ henter hin hchildren rfl
        · exact broken id s s₁ _ s₂ henter hin hchildren (by simp)
        · exact broken id s s₁ _ s₂ henter hin hchildren (by simp)
      · next hin => exact passed id s s₁ _ _ henter (by simpa using hin) rfl
    · rw [visitChildren_succ]
      rcases hnext : (s.forest.nextChild parent cursor).1 with _ | ⟨child, index⟩
      · exact last parent cursor s hnext
      simp only
      have hvisit := ihVisit child (advanced s parent cursor)
      rcases hr : visit mode plugins child fuel (advanced s parent cursor) with ⟨_ | _ | _, s₁⟩ <;>
        rw [hr] at hvisit
      · exact next parent cursor s child index s₁ _ hnext hvisit (ihChildren ..)
      · exact stuck parent cursor s child index _ s₁ hnext hvisit (by simp)
      · exact stuck parent cursor s child index _ s₁ hnext hvisit (by simp)

/-- The state behind a traversal that has finished. -/
def finished (s : RunState σ) : RunState σ :=
  { s with session := { s.session with lastPlugin := none } }

/-- **What a traversal is made of**: the start, the visit of the root and the end. The first of
them that does not succeed is the last one. -/
theorem traverse_cases (mode : RunMode) (plugins : List (Plugin σ)) (fuel : Nat)
    (s : RunState σ) :
    (∃ e s₁, dispatch mode .once s.session.root plugins s = (.error e, s₁) ∧
      traverse mode plugins fuel s = (.failed e, s₁)) ∨
    ∃ s₁, dispatch mode .once s.session.root plugins s = (.ok (), s₁) ∧
      ((∃ e s₂, visit mode plugins s.session.root fuel s₁ = (e, s₂) ∧ e ≠ .finished ∧
        traverse mode plugins fuel s = (e, s₂)) ∨
      ∃ s₂ o s₃, visit mode plugins s.session.root fuel s₁ = (.finished, s₂) ∧
        dispatch mode .onceExit s.session.root plugins s₂ = (o, s₃) ∧
        traverse mode plugins fuel s =
          (ending o, match o with | .ok _ => finished s₃ | .error _ => s₃)) := by
  unfold traverse
  simp only
  rcases honce : dispatch mode .once s.session.root plugins s with ⟨_ | _, s₁⟩
  · exact .inl ⟨_, s₁, rfl, rfl⟩
  refine .inr ⟨s₁, rfl, ?_⟩
  simp only
  rcases hvisit : visit mode plugins s.session.root fuel s₁ with ⟨_ | _ | _, s₂⟩
  · refine .inr ?_
    simp only
    rcases hexit : dispatch mode .onceExit s.session.root plugins s₂ with ⟨_ | _, s₃⟩
    · exact ⟨s₂, _, s₃, rfl, hexit, rfl⟩
    · exact ⟨s₂, _, s₃, rfl, hexit, rfl⟩
  · exact .inl ⟨_, s₂, rfl, by simp, rfl⟩
  · exact .inl ⟨_, s₂, rfl, by simp, rfl⟩

end Run

end Stylesheet
