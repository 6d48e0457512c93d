import Stylesheet.Output
import Stylesheet.Proofs.SourceMap.Tokens
import Stylesheet.Proofs.Forest.Stable
import Mathlib.Data.List.Nodup

/-!
# The tokens of any tree

Every mapping of a printed tree can be carried on to a source (`mappings_leadOn`), so none is
dropped: each fragment has the tokens of its start and of its end (`forall₂_mappings`), in the order
of the text. `origin?_iff` says where a node without a place of its own comes from. Nodes name
inputs that are there, whatever is done to the trees (`HasInputs.runs`). `output_marked` puts this
together for the map of an output.
-/

set_option autoImplicit false

namespace Stylesheet

namespace Forest

variable {f : Forest} {id : NodeId} {policy : UnmappedPolicy} {o : InputId × Position}

/-! ## Where nodes come from -/

/-- Nodes name inputs that are there. -/
def HasInputs (f : Forest) : Prop :=
  ∀ id i, (f.source id).input = some i → (f.input? i).isSome = true

theorem input?_isSome {i : InputId} : (f.input? i).isSome = true ↔ i < f.inputs.size := by
  simp [input?]

/-- There are `n` inputs, and nodes name these only. -/
def HasOf (n : Nat) (f : Forest) : Prop := f.HasInputs ∧ f.inputs.size = n

theorem stable_hasOf (n : Nat) : Stable (HasOf n) := by
  rintro f id k - hk - ⟨hf, hn⟩
  refine ⟨fun p i hi => hf p i ?_, hn⟩
  rwa [source, node_modify_congr (fun n => n.source.input) (hk _)] at hi

/-- If the element names an input, its number is below `n`. -/
def NamesBelow (n : Nat) (e : Element) : Prop := ∀ i, e.source.input = some i → i < n

/-- A node that is added may name an input that is there. -/
theorem hasOf_add (n : Nat) (f : Forest) (x : Node) (hx : NamesBelow n x.toElement)
    (h : HasOf n f) : HasOf n (f.add x).2 := by
  refine ⟨fun p i hi => ?_, h.2⟩
  rcases Nat.lt_trichotomy p f.size with hp | rfl | hp
  · rw [source, node_add_of_lt x hp] at hi
    exact h.1 p i hi
  · rw [source, show f.size = (f.add x).1 from rfl, node_add_self] at hi
    rw [input?_isSome, show (f.add x).2.inputs = f.inputs from rfl, h.2]
    exact hx i hi
  · rw [source, node_of_le (by rw [size_add]; exact hp)] at hi
    cases hi

theorem hasInputs_empty : empty.HasInputs := by
  intro id i hi
  rw [source, node_of_le (Nat.zero_le id)] at hi
  cases hi

/-- Edits lead to nodes of inputs that are there. -/
theorem HasInputs.run (hf : f.HasInputs) (e : Edit) : (e.run f).HasInputs := by
  have hadd (n : Nat) (g : Forest) (x : Node) (_ : x.cursors = .empty) := hasOf_add n g x
  have hself {g : Forest} (h : g.HasInputs) : HasOf g.inputs.size g := ⟨h, rfl⟩
  refine Edit.stable_run (P := HasInputs) ?_ ?_ ?_ ?_ hf e
  · intro g id k m hk hm h
    exact (stable_hasOf _ g id k m hk hm (hself h)).1
  · intro g data h
    exact (hasOf_add _ g _ (fun i hi => by cases hi) (hself h)).1
  · intro g files text file setting id k hk h
    refine ((stable_hasOf (g.inputs.size + 1)).parse (hadd _) (fun i n => ?_) ?_ hk).1
    · rintro j ⟨⟩
      exact Nat.lt_succ_self _
    · refine fun i => ⟨fun p j hj => ?_, by simp [addInput]⟩
      have hlt := input?_isSome.1 (h p j hj)
      rw [input?_isSome, addInput, Array.size_push]
      exact Nat.lt_succ_of_lt hlt
  · intro g id options h
    refine ((stable_hasOf _).plant (hadd _) none _ (fun x hx i hi => ?_) (hself h)).1
    rw [Tree.preorder_map, List.mem_map] at hx
    obtain ⟨p, -, rfl⟩ := hx
    unfold copiedElement at hi
    simp only at hi
    split at hi
    · cases hi
    · exact input?_isSome.1 (h p i hi)

theorem HasInputs.runs (hf : f.HasInputs) (es : List Edit) : (es.foldl Edit.run f).HasInputs := by
  induction es generalizing f with
  | nil => exact hf
  | cons e es ih => exact ih (hf.run e)

/-- The start of the closest ancestor that leads to a source. -/
inductive TracedAbove (f : Forest) : NodeId → InputId × Position → Prop
  | here {id p : NodeId} {o : InputId × Position} :
      f.parent? id = some p → f.resolved? p Source.start = some o → TracedAbove f id o
  | above {id p : NodeId} {o : InputId × Position} :
      f.parent? id = some p → f.resolved? p Source.start = none → TracedAbove f p o →
      TracedAbove f id o

/-- The node so many steps up. -/
def up (f : Forest) : Nat → NodeId → Option NodeId
  | 0, id => some id
  | n + 1, id => (f.parent? id).bind (up f n)

theorem up_add (f : Forest) (m n : Nat) (id : NodeId) :
    f.up (m + n) id = (f.up m id).bind (f.up n) := by
  induction m generalizing id with
  | zero => simp [up]
  | succ m ih =>
    rw [Nat.add_right_comm, up, up]
    cases f.parent? id with
    | none => rfl
    | some p => exact ih p

/-- The closest ancestor that leads to a source is `n` steps up. -/
structure ClosestAt (f : Forest) (id : NodeId) (n : Nat) (o : InputId × Position) : Prop where
  pos : 0 < n
  found : ∃ a, f.up n id = some a ∧ f.resolved? a Source.start = some o
  before : ∀ m, 0 < m → m < n → ∀ b, f.up m id = some b → f.resolved? b Source.start = none

theorem not_closestAt (hp : f.parent? id = none) (n : Nat) : ¬ f.ClosestAt id n o := by
  rintro ⟨hpos, ⟨a, ha, -⟩, -⟩
  obtain ⟨n, rfl⟩ : ∃ k, n = k + 1 := ⟨n - 1, by omega⟩
  rw [up, hp] at ha
  cases ha

/-- It is the parent, or that of the parent. -/
theorem closestAt_succ {p : NodeId} {n : Nat} (hp : f.parent? id = some p) :
    f.ClosestAt id (n + 1) o ↔ (n = 0 ∧ f.resolved? p Source.start = some o) ∨
      (f.resolved? p Source.start = none ∧ f.ClosestAt p n o) := by
  have hup : ∀ m, f.up (m + 1) id = f.up m p := by
    intro m
    rw [up, hp]
    rfl
  constructor
  · rintro ⟨-, ⟨a, ha, ho⟩, hbefore⟩
    rw [hup] at ha
    cases n with
    | zero =>
      cases ha
      exact .inl ⟨rfl, ho⟩
    | succ n =>
      refine .inr ⟨hbefore 1 (by omega) (by omega) p (hup 0), by omega, ⟨a, ha, ho⟩, ?_⟩
      intro m hm hmn b hb
      exact hbefore (m + 1) (by omega) (by omega) b (by rw [hup, hb])
  · rintro (⟨rfl, ho⟩ | ⟨hnone, hpos, ⟨a, ha, ho⟩, hbefore⟩)
    · exact ⟨by omega, ⟨p, hup 0, ho⟩, fun m hm hm' => by omega⟩
    · refine ⟨by omega, ⟨a, by rw [hup, ha], ho⟩, ?_⟩
      rintro (_ | _ | m) hm hmn b hb
      · omega
      · rw [hup] at hb
        cases hb
        exact hnone
      · rw [hup] at hb
        exact hbefore (m + 1) (by omega) (by omega) b hb

theorem tracedAbove_iff : f.TracedAbove id o ↔ ∃ n, f.ClosestAt id n o := by
  constructor
  · intro h
    induction h with
    | here hp ho => exact ⟨1, (closestAt_succ hp).2 (.inl ⟨rfl, ho⟩)⟩
    | above hp hnone _ ih =>
      obtain ⟨n, hn⟩ := ih
      exact ⟨n + 1, (closestAt_succ hp).2 (.inr ⟨hnone, hn⟩)⟩
  · rintro ⟨n, hn⟩
    induction n generalizing id with
    | zero => exact absurd hn.pos (Nat.lt_irrefl 0)
    | succ n ih =>
      cases hp : f.parent? id with
      | none => exact absurd hn (not_closestAt hp _)
      | some p =>
        rcases (closestAt_succ hp).1 hn with ⟨-, ho⟩ | ⟨hnone, hrest⟩
        · exact .here hp ho
        · exact .above hp hnone (ih hrest)

/-- Searching the ancestors finds the closest one. -/
theorem findSome?_ancestorsWithin {steps : Nat} :
    (f.ancestorsWithin steps id).findSome? (f.resolved? · Source.start) = some o ↔
      ∃ n ≤ steps, f.ClosestAt id n o := by
  induction steps generalizing id with
  | zero =>
    rw [ancestorsWithin]
    constructor
    · intro h
      cases h
    · rintro ⟨n, hn, hat⟩
      exact absurd hat.pos (by omega)
  | succ steps ih =>
    rw [ancestorsWithin]
    cases hp : f.parent? id with
    | none =>
      constructor
      · intro h
        cases h
      · rintro ⟨n, -, hat⟩
        exact absurd hat (not_closestAt hp n)
    | some p =>
      simp only [List.findSome?_cons]
      cases hr : f.resolved? p Source.start with
      | some o' =>
        constructor
        · rintro ⟨⟩
          exact ⟨1, by omega, (closestAt_succ hp).2 (.inl ⟨rfl, hr⟩)⟩
        · rintro ⟨n, -, hat⟩
          obtain ⟨n, rfl⟩ : ∃ k, n = k + 1 := ⟨n - 1, by have := hat.pos; omega⟩
          rcases (closestAt_succ hp).1 hat with ⟨-, ho⟩ | ⟨hnone, -⟩
          · exact hr.symm.trans ho
          · rw [hr] at hnone
            cases hnone
      | none =>
        rw [ih]
        constructor
        · rintro ⟨n, hn, hat⟩
          exact ⟨n + 1, by omega, (closestAt_succ hp).2 (.inr ⟨hr, hat⟩)⟩
        · rintro ⟨n, hn, hat⟩
          obtain ⟨n, rfl⟩ : ∃ k, n = k + 1 := ⟨n - 1, by have := hat.pos; omega⟩
          rcases (closestAt_succ hp).1 hat with ⟨-, ho⟩ | ⟨-, hat⟩
          · rw [hr] at ho
            cases ho
          · exact ⟨n, by omega, hat⟩

theorem lt_size_of_resolved? {position : Source → Option Position}
    (h : f.resolved? id position = some o) : id < f.size := by
  apply Nat.lt_of_not_le
  intro hle
  unfold resolved? source at h
  rw [node_of_le hle] at h
  cases h

/-- The way up to the closest ancestor that leads to a source meets no node twice, so there are not
more steps than nodes. Nothing is assumed of the links. -/
theorem ClosestAt.le_size {n : Nat} (h : f.ClosestAt id n o) : n ≤ f.size := by
  obtain ⟨hpos, ⟨a, ha, ho⟩, hbefore⟩ := h
  have hup : ∀ m ≤ n, ∃ b, f.up m id = some b ∧ (0 < m → b < f.size) := by
    intro m hm
    have hadd := f.up_add m (n - m) id
    rw [Nat.add_sub_cancel' hm, ha] at hadd
    obtain ⟨b, hb, hrest⟩ := Option.bind_eq_some_iff.1 hadd.symm
    refine ⟨b, hb, fun _ => ?_⟩
    rcases Nat.eq_or_lt_of_le hm with rfl | hm
    · rw [Nat.sub_self, up] at hrest
      cases hrest
      exact lt_size_of_resolved? ho
    · rw [show n - m = n - m - 1 + 1 by omega, up] at hrest
      obtain ⟨p, hp, -⟩ := Option.bind_eq_some_iff.1 hrest
      exact lt_size_of_parent hp
  choose! b hb hlt using hup
  -- a node that is met again would lead to a second place where the search ends
  have hinj : ∀ i j, 0 < i → i < j → j ≤ n → b i ≠ b j := by
    intro i j hi hij hj heq
    have hbi := hb i (by omega)
    rw [heq, ← hb j hj] at hbi
    have hadd := f.up_add i (n - j) id
    rw [hbi, ← f.up_add, Nat.add_sub_cancel' hj, ha] at hadd
    have := hbefore (i + (n - j)) (by omega) (by omega) a hadd
    rw [ho] at this
    cases this
  have hnodup : ((List.range' 1 n).map b).Nodup := by
    refine List.Nodup.map_on ?_ List.nodup_range'
    intro i hi j hj heq
    rw [List.mem_range'_1] at hi hj
    rcases Nat.lt_trichotomy i j with hij | hij | hij
    · exact absurd heq (hinj i j (by omega) hij (by omega))
    · exact hij
    · exact absurd heq.symm (hinj j i (by omega) hij (by omega))
  have hsub : (List.range' 1 n).map b ⊆ List.range f.size := by
    intro x hx
    obtain ⟨i, hi, rfl⟩ := List.mem_map.1 hx
    rw [List.mem_range'_1] at hi
    rw [List.mem_range]
    exact hlt i (by omega) (by omega)
  have hlen := hnodup.length_le_of_subset hsub
  rwa [List.length_map, List.length_range', List.length_range] at hlen

/-- **Where a node without a place of its own comes from**: from the closest ancestor whose start
leads to a source, and from nowhere if there is none. -/
theorem origin?_iff {position : Source → Option Position} (h : f.resolved? id position = none) :
    f.origin? .nearestAncestor id position = some o ↔ f.TracedAbove id o := by
  unfold origin?
  rw [h, tracedAbove_iff]
  simp only
  rw [ancestors, findSome?_ancestorsWithin]
  exact exists_congr fun n => ⟨fun hn => hn.2, fun hn => ⟨hn.le_size, hn⟩⟩

/-- An origin is the place of a node that leads to a source. -/
theorem resolved?_of_origin? {position : Source → Option Position}
    (h : f.origin? policy id position = some o) :
    ∃ a pos, f.resolved? a pos = some o := by
  unfold origin? at h
  split at h
  · next o' ho =>
    cases h
    exact ⟨id, position, ho⟩
  · cases h
  · obtain ⟨a, -, ha⟩ := List.exists_of_findSome?_eq_some h
    exact ⟨a, Source.start, ha⟩

/-! ## Mappings can be carried on -/

theorem leadsOn_mappingAt (hf : f.HasInputs) {position : Source → Option Position}
    (h : f.origin? policy id position = some o) (place : OutputPlace) :
    SourceMap.LeadsOn f.input? (mappingAt place o) := by
  obtain ⟨a, pos, ha⟩ := resolved?_of_origin? h
  unfold resolved? at ha
  split at ha
  · next input p hinput _ =>
    split at ha
    · next hr =>
      cases ha
      obtain ⟨i, hi⟩ := Option.isSome_iff_exists.1 (hf a input hinput)
      refine ⟨i, hi, fun previous hp => ?_⟩
      unfold resolves at hr
      rw [hi, Option.bind_some, hp] at hr
      obtain ⟨name, hname⟩ := Option.isSome_iff_exists.1 hr
      obtain ⟨u, hu, hname⟩ := Option.bind_eq_some_iff.1 hname
      exact ⟨u, name, hu, hname⟩
    · cases ha
  · cases ha

/-- The mapping of the start of a fragment. -/
def startMapping? (f : Forest) (policy : UnmappedPolicy) (place : OutputPlace) (x : Fragment) :
    Option Mapping :=
  x.node.bind fun id => if x.role = some .stop then none
    else (f.origin? policy id Source.start).map (mappingAt place)

/-- The mapping of the end of a fragment. -/
def stopMapping? (f : Forest) (policy : UnmappedPolicy) (place : OutputPlace) (x : Fragment) :
    Option Mapping :=
  x.node.bind fun id => if x.role = some .start || !f.closesVisibly id then none
    else (f.origin? policy id Source.stop).map
      (mappingAt { place.after x.text with col := (place.after x.text).col - 1 })

theorem fragmentMappings_eq (f : Forest) (policy : UnmappedPolicy) (place : OutputPlace)
    (x : Fragment) : f.fragmentMappings policy place x =
      (f.startMapping? policy place x).toList ++ (f.stopMapping? policy place x).toList := by
  unfold fragmentMappings startMapping? stopMapping?
  cases x.node <;> rfl

/-- **All mappings of a printed tree can be carried on.** -/
theorem mappings_leadOn (hf : f.HasInputs) {place : OutputPlace} {fs : List Fragment} :
    ∀ m ∈ f.mappings policy place fs, SourceMap.LeadsOn f.input? m := by
  intro m hm
  obtain ⟨before, x, behind, -, hm⟩ := mem_mappings.1 hm
  rw [fragmentMappings_eq, List.mem_append] at hm
  rcases hm with hm | hm
  all_goals
    obtain ⟨id, -, hm⟩ := Option.bind_eq_some_iff.1 (Option.mem_toList.1 hm)
    split at hm
    · cases hm
    · obtain ⟨o, ho, rfl⟩ := Option.map_eq_some_iff.1 hm
      exact leadsOn_mappingAt hf ho _

/-! ## The tokens of fragments -/

section

variable {α β : Type} {R : α → β → Prop}

theorem forall₂_append_left {as bs : List α} {l : List β} (h : List.Forall₂ R (as ++ bs) l) :
    ∃ l₁ l₂, l = l₁ ++ l₂ ∧ List.Forall₂ R as l₁ ∧ List.Forall₂ R bs l₂ := by
  induction as generalizing l with
  | nil => exact ⟨[], l, rfl, .nil, h⟩
  | cons a as ih =>
    cases h with
    | cons hab h =>
      obtain ⟨l₁, l₂, rfl, h₁, h₂⟩ := ih h
      exact ⟨_ :: l₁, l₂, rfl, .cons hab h₁, h₂⟩

theorem forall₂_toList {a : Option α} {l : List β} (h : List.Forall₂ R a.toList l) :
    ∃ b : Option β, l = b.toList ∧ Option.Rel R a b := by
  cases a with
  | none =>
    cases h
    exact ⟨none, rfl, .none⟩
  | some a =>
    rcases h with _ | ⟨hab, ⟨⟩⟩
    exact ⟨some _, rfl, .some hab⟩

end

/-- The tokens of mappings belong to the fragments, at most two to each. -/
theorem forall₂_mappings {R : Mapping → MapToken → Prop} {place : OutputPlace}
    {fs : List Fragment} {ts : List MapToken}
    (h : List.Forall₂ R (f.mappings policy place fs) ts) :
    ∃ parts : List (Option MapToken × Option MapToken),
      ts = parts.flatMap (fun q => q.1.toList ++ q.2.toList) ∧ parts.length = fs.length ∧
      ∀ k x, fs[k]? = some x → ∃ start stop, parts[k]? = some (start, stop) ∧
        Option.Rel R (f.startMapping? policy (place.after (Fragment.concat (fs.take k))) x)
          start ∧
        Option.Rel R (f.stopMapping? policy (place.after (Fragment.concat (fs.take k))) x)
          stop := by
  induction fs generalizing place ts with
  | nil =>
    cases h
    exact ⟨[], rfl, rfl, by simp⟩
  | cons y fs ih =>
    rw [mappings] at h
    obtain ⟨l, ts, rfl, hy, hfs⟩ := forall₂_append_left h
    rw [fragmentMappings_eq] at hy
    obtain ⟨l₁, l₂, rfl, hy₁, hy₂⟩ := forall₂_append_left hy
    obtain ⟨start, rfl, hstart⟩ := forall₂_toList hy₁
    obtain ⟨stop, rfl, hstop⟩ := forall₂_toList hy₂
    obtain ⟨parts, rfl, hlen, hparts⟩ := ih hfs
    refine ⟨(start, stop) :: parts, rfl, by simp [hlen], fun k x hx => ?_⟩
    cases k with
    | zero =>
      cases hx
      exact ⟨start, stop, rfl, hstart, hstop⟩
    | succ k =>
      obtain ⟨start, stop, hpart, hs, he⟩ := hparts k x (by simpa using hx)
      refine ⟨start, stop, by simpa using hpart, ?_⟩
      rw [List.take_succ_cons, Fragment.concat_cons, OutputPlace.after_eq, String.toList_append,
        OutputPlace.afterChars_append]
      exact ⟨hs, he⟩

theorem HasInputs.clearLinks (hf : f.HasInputs) (root : NodeId) : (f.clearLinks root).HasInputs := by
  unfold Forest.clearLinks
  generalize (List.range (f.children root).length).reverse = indices
  induction indices generalizing f with
  | nil => exact hf
  | cons index indices ih =>
    rw [List.foldl_cons]
    split
    · exact ih (hf.run (.removeAt root index))
    · exact ih hf

/-- The text of a list of fragments around one of them. -/
theorem concat_split {fs : List Fragment} {k : Nat} {x : Fragment} (hx : fs[k]? = some x) :
    Fragment.concat fs =
      Fragment.concat (fs.take k) ++ x.text ++ Fragment.concat (fs.drop (k + 1)) := by
  obtain ⟨hk, rfl⟩ := List.getElem?_eq_some_iff.1 hx
  conv => lhs; rw [← List.take_append_drop k fs, List.drop_eq_getElem_cons hk]
  rw [Fragment.concat_append, Fragment.concat_cons, String.append_assoc]

/-- **The tokens of any tree.** The map of an output has exactly the tokens of the mappings that were
noted while the tree was printed. They belong to the fragments of the text: one for the start of a
fragment whose node has an origin, at its first character, and one for its end. A node without a
place of its own comes, if that is asked for, from the closest ancestor whose start leads to a
source. No token leads into an input that came with a map. -/
theorem output_marked (hf : f.HasInputs) (root : NodeId) (o : RunOptions)
    (hmap : (MapPlan.make f root o).hasMap = true) :
    let p := MapPlan.make f root o
    let g := if p.options.link = .disabled then f else f.clearLinks root
    ∃ (m : SourceMap) (ts : List MapToken) (parts : List (Option MapToken × Option MapToken)),
      (f.output root o).1.css =
        g.css root ++ (if p.hasLink then p.comment (g.css root) m else "") ∧
      (f.output root o).1.map = (if p.isInline then none else some m) ∧
      m.tokens = SourceMap.sortTokens ts ∧
      List.Forall₂ (SourceMap.Renders g.input? p.naming m.sources m.names)
        (g.mappings p.options.unmapped .start (g.print root)) ts ∧
      ts = parts.flatMap (fun q => q.1.toList ++ q.2.toList) ∧
      parts.length = (g.print root).length ∧
      (∀ k x, (g.print root)[k]? = some x →
        let before := Fragment.concat ((g.print root).take k)
        let place : OutputPlace := ⟨before.toList.count '\n', columnOf before.toList⟩
        g.css root = before ++ x.text ++ Fragment.concat ((g.print root).drop (k + 1)) ∧
        ∃ start stop, parts[k]? = some (start, stop) ∧
          Option.Rel (SourceMap.Renders g.input? p.naming m.sources m.names)
            (g.startMapping? p.options.unmapped place x) start ∧
          Option.Rel (SourceMap.Renders g.input? p.naming m.sources m.names)
            (g.stopMapping? p.options.unmapped place x) stop) ∧
      (∀ id position, g.resolved? id position = none → ∀ q,
        g.origin? .nearestAncestor id position = some q ↔ g.TracedAbove id q) ∧
      ∀ t ∈ m.tokens, ∃ id i, g.input? id = some i ∧
        (i.map = none → m.sourceOf t = some (p.naming.sourceName i.name)) ∧
        ∀ previous, i.map = some previous → ∃ u name, previous.map.sourceOf u = some name ∧
          t.srcLine = u.srcLine ∧ t.srcCol = u.srcCol ∧
          m.sourceOf t = some (p.naming.previousSourceName previous.root name) := by
  intro p g
  have hg : g.HasInputs := by
    show (ite _ _ _ : Forest).HasInputs
    split
    · exact hf
    · exact hf.clearLinks root
  obtain ⟨ts, hts, hrenders⟩ : ∃ ts, (g.printMapped root p).2.tokens = SourceMap.sortTokens ts ∧
      List.Forall₂ (SourceMap.Renders g.input? p.naming (g.printMapped root p).2.sources
        (g.printMapped root p).2.names)
        (g.mappings p.options.unmapped .start (g.print root)) ts :=
    SourceMap.build_renders (mappings_leadOn hg) p.naming p.hasContents
  obtain ⟨parts, hparts, hlength, hmarks⟩ := forall₂_mappings hrenders
  refine ⟨(g.printMapped root p).2, ts, parts, ?_, ?_, hts, hrenders, hparts, hlength,
    fun k x hx => ⟨concat_split hx, ?_⟩, fun id position h q => origin?_iff h, fun t ht => ?_⟩
  · unfold output
    simp only
    rw [show MapPlan.make f root o = p from rfl, hmap]
    simp only [Bool.not_true, Bool.false_eq_true, if_false]
    split <;> simp [printMapped, css, g]
  · unfold output
    simp only
    rw [show MapPlan.make f root o = p from rfl, hmap]
    rfl
  · obtain ⟨start, stop, hpart, hs, he⟩ := hmarks k x hx
    rw [OutputPlace.after_eq, OutputPlace.afterChars_start] at hs he
    exact ⟨start, stop, hpart, hs, he⟩
  · rw [hts] at ht
    obtain ⟨n, -, hn⟩ := SourceMap.exists_of_mem_right hrenders (List.mem_mergeSort.1 ht)
    cases hn with
    | own hi hi' _ hsource =>
      exact ⟨_, _, hi, fun _ => hsource.bind_eq, fun previous hp => by rw [hi'] at hp; cases hp⟩
    | @traced i previous u name hi hi' _ hname hplaces hsource =>
      refine ⟨_, i, hi, ?_, fun previous' hp => ?_⟩
      · intro hnone
        rw [hi'] at hnone
        cases hnone
      rw [hi', Option.some.injEq] at hp
      subst hp
      exact ⟨u, name, hname, hplaces.2.2.1, hplaces.2.2.2, hsource.bind_eq⟩

/-- A rule from an input without a map holds one from an input with a map, and a new comment. -/
theorem output_marked_mixed :
    let map := "\x7b\"version\":3,\"sources\":[\"o.scss\"],\"names\":[],\"mappings\":\"AAAA,CAEE\"\x7d"
    let f := [Edit.read .empty "é\x7b\x7d" (some "b.css") .auto,
      .read .empty "a\x7bx:y\x7d" (some "a.css") (.enabled { previous := some (.text map) }),
      .new (.comment "new"), .insert 1 .stop [3, 5]].foldl Edit.run .empty
    let o : RunOptions :=
      { map := .enabled { inline := some false, unmapped := .nearestAncestor } }
    let p := MapPlan.make f 0 o
    let g := f.clearLinks 0
    f.HasInputs ∧ p.hasMap = true ∧ g.resolved? 5 Source.start = none ∧
      g.TracedAbove 5 (0, ⟨1, 1, 0⟩) ∧
      ∃ m ts, (f.output 0 o).1.map = some m ∧ m.tokens = SourceMap.sortTokens ts ∧
        List.Forall₂ (SourceMap.Renders g.input? p.naming m.sources m.names)
          (g.mappings .nearestAncestor .start (g.print 0)) ts := by
  intro map f o p g
  have hf : f.HasInputs := hasInputs_empty.runs _
  have hplan : p.hasMap = true ∧ p.options.link = .auto ∧ p.isInline = false ∧
      p.options.unmapped = .nearestAncestor ∧ g.resolved? 5 Source.start = none ∧
      g.origin? .nearestAncestor 5 Source.start = some (0, ⟨1, 1, 0⟩) := by
    decide +kernel
  obtain ⟨hmap, hlink, hinline, hunmapped, hnone, horigin⟩ := hplan
  obtain ⟨m, ts, -, -, hm, hts, hrenders, -, -, -, habove, -⟩ := output_marked hf 0 o hmap
  have hg : (if (MapPlan.make f 0 o).options.link = .disabled then f else f.clearLinks 0) = g := by
    rw [show (MapPlan.make f 0 o).options.link = .auto from hlink]
    rfl
  rw [hg] at hrenders habove
  rw [show (MapPlan.make f 0 o).options.unmapped = .nearestAncestor from hunmapped] at hrenders
  rw [show (MapPlan.make f 0 o).isInline = false from hinline] at hm
  exact ⟨hf, hmap, hnone, (habove 5 Source.start hnone _).1 horigin, m, ts, hm, hts, hrenders⟩

end Forest

end Stylesheet
