import Stylesheet.Proofs.Forest.Replacement

/-!
# Edits of a list of children, step by step

An insertion is carried out in place here: each step changes the forest that the next one finds, and
a step that fails leaves what was done until then. `InPlace.insert` asks all its questions before its
first change, so behind a failure the forest is the one it found (`run_insert`).

`Forest.WellFormed.refused_iff` says for every edit of a single list when it is refused, in terms of
children and parents only, and that the nodes that were there are then as they were.
-/

set_option autoImplicit false

namespace Stylesheet

/-- An edit in place: what it leaves stays, also if it fails. -/
abbrev InPlace (α : Type) := EStateM TreeError Forest α

namespace InPlace

variable {f g : Forest} {P id child : NodeId} {anchor : Anchor} {incoming ids : List NodeId}

/-! ## The steps -/

/-- The checks of an insertion; the incoming nodes are looked at one after the other. -/
def check (parent : NodeId) (anchor : Anchor) (incoming : List NodeId) : InPlace Unit := do
  let kind := (← get).kind parent
  if !kind.isContainer then throw (.notAContainer kind)
  anchor.reference?.toList.forM fun r => do
    if ((← get).indexOf? parent r).isNone then throw .notAChild
  incoming.forM fun id => do
    if (← get).isInside id parent then throw .cycle

/-- Empties the roots among the nodes and gathers what is inserted. -/
def flatten (reference : Option NodeId) : List NodeId → InPlace (List NodeId)
  | [] => return []
  | id :: rest => do
    if (← get).kind id = .root then
      let sent ← modifyGet (·.clear id)
      let ids ← flatten reference rest
      return sent ++ ids
    else
      let ids ← flatten reference rest
      return if reference = some id then ids else id :: ids

/-- Takes nodes out of their parents one by one, and puts them into the list of `parent`. -/
def link (parent : NodeId) (anchor : Anchor) (ids : List NodeId) : InPlace Unit := do
  let sample := (← get).sampleBefore parent anchor
  ids.forM fun id => modify (·.adopt parent sample id)
  modify fun f => f.splice parent (f.insertionIndex parent anchor) ids

/-- Inserts nodes into a list of children. -/
def insert (parent : NodeId) (anchor : Anchor) (incoming : List NodeId) : InPlace Unit := do
  check parent anchor incoming
  let ids ← flatten anchor.reference? incoming
  if !ids.isEmpty then link parent anchor ids

/-- Inserts a sibling of a node. -/
def beside (id : NodeId) (anchor : Anchor) (new : NodeId) : InPlace Unit := do
  match (← get).parent? id with
  | none => throw .detached
  | some parent => insert parent anchor [new]

/-- Copies a node and inserts the copy as its sibling. -/
def copyBeside (id : NodeId) (anchor : Anchor) : InPlace NodeId := do
  let new ← modifyGet (·.copy id {})
  beside id anchor new
  return new

/-- Removes a child that is named. -/
def removeChild (parent child : NodeId) : InPlace Unit := do
  match (← get).indexOf? parent child with
  | none => throw .notAChild
  | some index => modify fun f => (f.removeAt parent index).2

/-! ## What the steps leave -/

section
variable {α β : Type}

@[simp] theorem run_pure (a : α) (f : Forest) : (pure a : InPlace α).run f = .ok a f := rfl

@[simp] theorem run_throw (e : TreeError) (f : Forest) :
    (throw e : InPlace α).run f = .error e f := rfl

@[simp] theorem run_get (f : Forest) : (get : InPlace Forest).run f = .ok f f := rfl

@[simp] theorem run_modify (k : Forest → Forest) (f : Forest) :
    (modify k : InPlace Unit).run f = .ok () (k f) := rfl

@[simp] theorem run_modifyGet (k : Forest → α × Forest) (f : Forest) :
    (modifyGet k : InPlace α).run f = .ok (k f).1 (k f).2 := rfl

@[simp] theorem run_bind (a : InPlace α) (b : α → InPlace β) (f : Forest) :
    (a >>= b).run f = match a.run f with
      | .ok x g => (b x).run g
      | .error e g => .error e g := by
  simp only [EStateM.run, bind, EStateM.bind]
  cases a f <;> rfl

@[simp] theorem run_map (k : α → β) (a : InPlace α) (f : Forest) :
    (k <$> a).run f = match a.run f with
      | .ok x g => .ok (k x) g
      | .error e g => .error e g := by
  simp only [EStateM.run, Functor.map, EStateM.map]
  cases a f <;> rfl

end

/-- A check of all nodes of a list fails at the first one it refuses. -/
theorem run_forM_throw (p : Forest → NodeId → Bool) (e : TreeError) (ids : List NodeId)
    (f : Forest) :
    (ids.forM (fun id => do if p (← get) id then throw e) : InPlace Unit).run f =
      if ids.any (p f) then .error e f else .ok () f := by
  induction ids with
  | nil => simp [List.forM_eq_forM]
  | cons id ids ih =>
    rw [List.forM_eq_forM] at ih ⊢
    cases h : p f id <;> simp [h, ih]

theorem run_check (f : Forest) (P : NodeId) (anchor : Anchor) (incoming : List NodeId) :
    (check P anchor incoming).run f =
      match f.refusal? P anchor incoming with
      | some e => .error e f
      | none => .ok () f := by
  have href := run_forM_throw (fun f r => (f.indexOf? P r).isNone) .notAChild
    anchor.reference?.toList f
  have hcycle := run_forM_throw (fun f id => f.isInside id P) .cycle incoming f
  have hany : (anchor.reference?.toList.any fun r => (f.indexOf? P r).isNone) =
      anchor.reference?.any fun r => (f.indexOf? P r).isNone := by
    cases anchor.reference? <;> simp
  unfold check Forest.refusal?
  rw [hany] at href
  cases hc : (f.kind P).isContainer with
  | false => simp [hc]
  | true =>
    simp only [run_bind, run_get, hc, Bool.not_true, Bool.false_eq_true, if_false, href]
    by_cases hr : (anchor.reference?.any fun r => (f.indexOf? P r).isNone) = true
    · simp only [hr, if_true]
    · simp only [hr, Bool.false_eq_true, if_false, hcycle]
      cases incoming.any fun id => f.isInside id P <;> rfl

theorem run_flatten (reference : Option NodeId) (incoming : List NodeId) (f : Forest) :
    (flatten reference incoming).run f =
      .ok (f.flatten reference incoming).1 (f.flatten reference incoming).2 := by
  induction incoming generalizing f with
  | nil => rfl
  | cons id rest ih =>
    by_cases hr : f.kind id = .root
    · simp [flatten, Forest.flatten, hr, ih]
    · by_cases he : reference = some id
      · subst he
        simp [flatten, Forest.flatten, hr, ih]
      · simp [flatten, Forest.flatten, hr, he, ih]

theorem run_forM_modify (k : NodeId → Forest → Forest) (ids : List NodeId) (f : Forest) :
    (ids.forM (fun id => modify (k id)) : InPlace Unit).run f =
      .ok () (ids.foldl (fun f id => k id f) f) := by
  rw [List.forM_eq_forM]
  induction ids generalizing f with
  | nil => rfl
  | cons id ids ih => simp [ih]

/-- **Nothing is changed before the last check**: an insertion in place does what `insert` does, or
leaves the forest that it found. -/
theorem run_insert (f : Forest) (P : NodeId) (anchor : Anchor) (incoming : List NodeId) :
    (insert P anchor incoming).run f =
      match f.insert P anchor incoming with
      | .ok g => .ok () g
      | .error e => .error e f := by
  unfold insert Forest.insert
  rw [run_bind, run_check]
  cases f.refusal? P anchor incoming with
  | some e => rfl
  | none =>
    simp only [run_bind, run_flatten]
    generalize f.flatten anchor.reference? incoming = sent
    obtain ⟨ids, f⟩ := sent
    cases ids with
    | nil => rfl
    | cons id ids =>
      simp only [List.isEmpty_cons, Bool.not_false, if_true, link, run_bind, run_get,
        run_forM_modify, run_modify, Bool.false_eq_true, if_false]

/-! ## When an edit is refused -/

section
variable {α : Type}

/-- An edit in place does what `plain` does. It is refused exactly if `offends`, and then the nodes
that were there are as they were: their children, parents, raws and cursors. -/
structure Guarded (edit : InPlace α) (f : Forest) (plain : Except TreeError (α × Forest))
    (offends : Prop) : Prop where
  ok : ∀ x g, edit.run f = .ok x g ↔ plain = .ok (x, g)
  refused : (∃ e g, edit.run f = .error e g) ↔ offends
  kept : ∀ e g, edit.run f = .error e g →
    plain = .error e ∧ ∀ c < f.size, g.node c = f.node c

variable {edit : InPlace α} {plain : Except TreeError (α × Forest)} {offends : Prop} {x : α}
  {e : TreeError}

theorem Guarded.done (hrun : edit.run f = .ok x g) (ho : ¬ offends) :
    Guarded edit f (.ok (x, g)) offends where
  ok y k := by simp [hrun]
  refused := by simp [hrun, ho]
  kept e k he := by simp [hrun] at he

theorem Guarded.error (hrun : edit.run f = .error e g) (ho : offends)
    (hkept : ∀ c < f.size, g.node c = f.node c) : Guarded edit f (.error e) offends where
  ok y k := by simp [hrun]
  refused := by simp [hrun, ho]
  kept e' k he := by
    rw [hrun] at he
    cases he
    exact ⟨rfl, hkept⟩

theorem Guarded.congr {edit' : InPlace α} (h : Guarded edit f plain offends)
    (hrun : edit'.run f = edit.run f) : Guarded edit' f plain offends where
  ok x g := by rw [hrun, h.ok]
  refused := by rw [hrun, h.refused]
  kept e g he := h.kept e g (hrun ▸ he)

end

/-- What is wrong with an insertion below `P`, in terms of kinds, children and parents. -/
def Offends (f : Forest) (P : NodeId) (reference : Option NodeId) (incoming : List NodeId) : Prop :=
  (f.kind P = .declaration ∨ f.kind P = .comment) ∨
    (∃ r, reference = some r ∧ r ∉ f.children P) ∨
    ∃ id ∈ incoming, Relation.ReflTransGen f.Child id P

theorem isContainer_eq_false_iff {k : NodeKind} :
    k.isContainer = false ↔ k = .declaration ∨ k = .comment := by
  cases k <;> simp [NodeKind.isContainer]

theorem isSome_refusal?_iff (h : f.WellFormed) :
    (∃ e, f.refusal? P anchor incoming = some e) ↔
      Offends f P anchor.reference? incoming := by
  unfold Offends
  rw [← isContainer_eq_false_iff]
  cases hc : (f.kind P).isContainer with
  | false => simp [Forest.refusal?, hc]
  | true =>
    rw [or_iff_right (by simp)]
    by_cases hr : ∀ r, anchor.reference? = some r → r ∈ f.children P
    · rw [Forest.refusal?_eq_ite hc hr, or_iff_right (by simpa using hr)]
      simp only [← h.isInside_iff]
      cases hany : incoming.any fun id => f.isInside id P <;> simpa using hany
    · refine iff_of_true ?_ (.inl (by simpa using hr))
      obtain ⟨r, hr⟩ := not_forall.1 hr
      obtain ⟨ha, hr⟩ := Classical.not_imp.1 hr
      have hi := Forest.indexOf?_eq_none_iff.2 hr
      exact ⟨.notAChild, by simp [Forest.refusal?, hc, ha, hi]⟩

theorem guarded_insert (h : f.WellFormed) (P : NodeId) (anchor : Anchor) (incoming : List NodeId) :
    Guarded (insert P anchor incoming) f ((f.insert P anchor incoming).map ((), ·))
      (Offends f P anchor.reference? incoming) := by
  have hrun := run_insert f P anchor incoming
  have hiff : (∃ e, f.refusal? P anchor incoming = some e) ↔
      Offends f P anchor.reference? incoming := isSome_refusal?_iff h
  cases href : f.refusal? P anchor incoming with
  | some e =>
    rw [Forest.insert_of_refusal? href] at hrun ⊢
    exact .error hrun (hiff.1 ⟨e, href⟩) fun _ _ => rfl
  | none =>
    rw [Forest.insert_of_accepted href] at hrun ⊢
    exact .done hrun fun hoff => by simp [href] at hiff; exact hiff hoff

theorem run_beside (f : Forest) (id : NodeId) (anchor : Anchor) (new : NodeId) :
    (beside id anchor new).run f = match f.parent? id with
      | none => .error .detached f
      | some parent => (insert parent anchor [new]).run f := by
  change ((match f.parent? id with
    | none => throw .detached
    | some parent => insert parent anchor [new]) : InPlace Unit).run f = _
  cases f.parent? id <;> rfl

/-- Beside a child there is nothing wrong but a node that stands around it. -/
theorem offends_beside_iff (h : f.WellFormed) (hp : f.parent? id = some P)
    (ha : anchor.reference? = some id) (new : NodeId) :
    Offends f P anchor.reference? [new] ↔ Relation.ReflTransGen f.Child new P := by
  have hid : id ∈ f.children P := (h.parent P id).2 hp
  unfold Offends
  rw [← isContainer_eq_false_iff, h.isContainer_of_mem hid, ha]
  simp [hid]

theorem guarded_beside (h : f.WellFormed) (id new : NodeId) (ha : anchor.reference? = some id) :
    Guarded (beside id anchor new) f ((Edit.beside f id anchor new).map ((), ·))
      (f.parent? id = none ∨
        ∃ p, f.parent? id = some p ∧ Relation.ReflTransGen f.Child new p) := by
  have hrun := run_beside f id anchor new
  unfold Edit.beside
  cases hp : f.parent? id with
  | none =>
    rw [hp] at hrun
    exact Guarded.error hrun (.inl rfl) fun _ _ => rfl
  | some P =>
    rw [hp] at hrun
    have hg := guarded_insert h P anchor [new]
    rw [offends_beside_iff h hp ha] at hg
    simpa using hg.congr hrun

/-- A copy is new, so nothing stands in its way beside a child. -/
theorem guarded_copyBeside (h : f.WellFormed) (hid : id < f.size)
    (ha : anchor.reference? = some id) :
    Guarded (copyBeside id anchor) f
      ((Edit.beside (f.copy id {}).2 id anchor (f.copy id {}).1).map ((f.copy id {}).1, ·))
      (f.parent? id = none) := by
  have hgrown := Forest.grown_copy h.root h.leaf id {}
  have hnew : (f.copy id {}).1 = f.size := (Forest.plant_spec f none _).1
  have hcopy := h.copy id {}
  have hrun : (copyBeside id anchor).run f =
      match (beside id anchor (f.copy id {}).1).run (f.copy id {}).2 with
      | .ok _ g => .ok (f.copy id {}).1 g
      | .error e g => .error e g := by
    unfold copyBeside
    simp only [run_bind, run_modifyGet]
    cases (beside id anchor (f.copy id {}).1).run (f.copy id {}).2 <;> rfl
  rw [run_beside, hgrown.parent?_eq hid] at hrun
  unfold Edit.beside
  rw [hgrown.parent?_eq hid]
  generalize f.copy id {} = copied at *
  obtain ⟨new, g⟩ := copied
  simp only at *
  cases hp : f.parent? id with
  | none =>
    rw [hp] at hrun
    exact Guarded.error hrun rfl hgrown.node
  | some P =>
    rw [hp] at hrun
    have hP : P < f.size := Forest.lt_size_of_mem ((h.parent P id).2 hp)
    have haccepted : ¬ Offends g P anchor.reference? [new] := by
      rw [offends_beside_iff hcopy (by rw [hgrown.parent?_eq hid, hp]) ha, hnew]
      intro hreach
      rcases Relation.reflTransGen_iff_eq_or_transGen.1 hreach with rfl | hreach
      · exact Nat.lt_irrefl _ hP
      · rcases h.grown_transGen hgrown hreach with hold | ⟨-, hlt⟩
        · obtain ⟨c, hc, -⟩ := Relation.TransGen.head'_iff.1 hold
          exact Nat.lt_irrefl _ (Forest.lt_size_of_mem hc)
        · exact Nat.lt_asymm hP hlt
    have href : g.refusal? P anchor [new] = none := by
      rw [← isSome_refusal?_iff hcopy] at haccepted
      exact Option.eq_none_iff_forall_ne_some.2 (not_exists.1 haccepted)
    simp only [run_insert, Forest.insert_of_accepted href] at hrun
    simp only [Forest.insert_of_accepted href]
    exact Guarded.done hrun (by simp)

theorem guarded_removeChild (h : f.WellFormed) (P child : NodeId) :
    Guarded (removeChild P child) f ((f.removeChild P child).map ((), ·))
      (Offends f P (some child) []) := by
  have hoff : Offends f P (some child) [] ↔ child ∉ f.children P := by
    unfold Offends
    rw [← isContainer_eq_false_iff]
    refine ⟨?_, fun hc => .inr (.inl ⟨child, rfl, hc⟩)⟩
    rintro (hleaf | ⟨r, hr, hc⟩ | ⟨id, hid, -⟩)
    · simp [h.leaf P hleaf]
    · cases hr
      exact hc
    · cases hid
  have hrun : (removeChild P child).run f = match f.indexOf? P child with
      | none => .error .notAChild f
      | some index => .ok () (f.removeAt P index).2 := by
    change ((match f.indexOf? P child with
      | none => throw .notAChild
      | some index => modify fun f => (f.removeAt P index).2) : InPlace Unit).run f = _
    cases f.indexOf? P child <;> rfl
  unfold Forest.removeChild
  cases hi : f.indexOf? P child with
  | none =>
    rw [hi] at hrun
    exact Guarded.error hrun (hoff.2 (Forest.indexOf?_eq_none_iff.1 hi)) fun _ _ => rfl
  | some index =>
    rw [hi] at hrun
    refine Guarded.done hrun fun ho => ?_
    rw [Forest.indexOf?_eq_none_iff.2 (hoff.1 ho)] at hi
    cases hi

open Relation in
/-- **When an edit is refused**: exactly for an insertion into a declaration or a comment, for a
reference that is no child, for a node without a parent beside which something is to go, and for a
node that is put below itself, wherever in a list it stands. Then the nodes that were there are as
they were. A copy is new, so only a missing parent is in its way. -/
theorem refused_iff (h : f.WellFormed) :
    (∀ P anchor incoming, Guarded (insert P anchor incoming) f
      ((f.insert P anchor incoming).map ((), ·)) (Offends f P anchor.reference? incoming)) ∧
    (∀ id new, Guarded (beside id (.before id) new) f ((f.insertBefore id new).map ((), ·))
      (f.parent? id = none ∨ ∃ p, f.parent? id = some p ∧ ReflTransGen f.Child new p)) ∧
    (∀ id new, Guarded (beside id (.after id) new) f ((f.insertAfter id new).map ((), ·))
      (f.parent? id = none ∨ ∃ p, f.parent? id = some p ∧ ReflTransGen f.Child new p)) ∧
    (∀ id < f.size, Guarded (copyBeside id (.before id)) f (f.copyBefore id)
      (f.parent? id = none)) ∧
    (∀ id < f.size, Guarded (copyBeside id (.after id)) f (f.copyAfter id)
      (f.parent? id = none)) ∧
    ∀ P child, Guarded (removeChild P child) f ((f.removeChild P child).map ((), ·))
      (Offends f P (some child) []) :=
  ⟨guarded_insert h, fun id new => guarded_beside h id new rfl,
    fun id new => guarded_beside h id new rfl, fun _ hid => guarded_copyBeside h hid rfl,
    fun _ hid => guarded_copyBeside h hid rfl, guarded_removeChild h⟩

/-- A rule with a nested one and a comment, and a comment of its own. A list is refused for its last
member, which stands around the nested rule, and the root in front of it keeps its children. -/
theorem refused_iff_nested :
    let es := [.read .empty "p\x7b a\x7b\x7d/**/\x7d" none .auto,
      .read .empty "b\x7b\x7d" none .auto]
    ∃ f ∈ Edit.trail .empty es, f.WellFormed ∧
      (∃ e g, (insert 2 .stop [4, 3, 1]).run f = .error e g ∧ ∀ c < f.size, g.node c = f.node c) ∧
      (∃ e g, (beside 2 (.before 2) 1).run f = .error e g ∧ ∀ c < f.size, g.node c = f.node c) ∧
      (∃ new g, (copyBeside 2 (.after 2)).run f = .ok new g) ∧
      ∃ e g, (removeChild 2 3).run f = .error e g ∧ ∀ c < f.size, g.node c = f.node c := by
  intro es
  obtain ⟨f, hmem, hf, hsize, h1, h2, hp⟩ := Edit.exists_last es
    (fun f => f.size = 6 ∧ f.children 1 = [2, 3] ∧ f.children 2 = [] ∧ f.parent? 2 = some 1)
    (by decide +kernel) (by decide +kernel) (by decide +kernel)
  obtain ⟨hinsert, hbefore, -, -, hcopy, hremove⟩ := refused_iff hf
  have hkept : ∀ {α : Type} {edit : InPlace α} {plain offends},
      Guarded edit f plain offends → offends →
        ∃ e g, edit.run f = .error e g ∧ ∀ c < f.size, g.node c = f.node c := by
    intro α edit plain offends hg ho
    obtain ⟨e, g, he⟩ := hg.refused.2 ho
    exact ⟨e, g, he, (hg.kept e g he).2⟩
  have hdown : f.Child 1 2 := by simp [Forest.Child, h1]
  refine ⟨f, hmem, hf, hkept (hinsert 2 .stop [4, 3, 1]) (.inr (.inr ⟨1, by simp, .single hdown⟩)),
    hkept (hbefore 2 1) (.inr ⟨1, hp, .refl⟩), ?_,
    hkept (hremove 2 3) (.inr (.inl ⟨3, rfl, by simp [h2]⟩))⟩
  have hg := hcopy 2 (by rw [hsize]; decide)
  cases hrun : (copyBeside 2 (.after 2)).run f with
  | error e g => exact absurd (hg.refused.1 ⟨e, g, hrun⟩) (by simp [hp])
  | ok x g =>
    exact ⟨x, g, rfl⟩

end InPlace

end Stylesheet
