import Stylesheet.Proofs.Run.History

/-!
# The order of the calls

In a traversal that finishes, every plugin is told that a node is left as often as that it is
entered (`IsVisit.exits_perm`). Plugins that only watch, that is, do not fail and leave the lists of
children as they are, are told of the nodes of the tree in preorder and leave them in postorder
(`visit_watched`). `traverse_order` puts this together with the shape of a traversal.
-/

set_option autoImplicit false

namespace Stylesheet

open Relation

variable {σ : Type} {mode : RunMode} {plugins : List (Plugin σ)} {calls : List (Call σ)}
  {n k : Nat} {phase : Phase} {id : NodeId}

/-! ## What one plugin is told -/

/-- The nodes of which plugin `k` is told a phase. -/
def toldOf (k : Nat) (phase : Phase) (told : List (Nat × Phase × NodeId)) : List NodeId :=
  told.filterMap fun t => if t.1 = k ∧ t.2.1 = phase then some t.2.2 else none

/-- The nodes for which plugin `k` is called in a phase. -/
def nodesTold (k : Nat) (phase : Phase) (calls : List (Call σ)) : List NodeId :=
  toldOf k phase (calls.map Call.told)

@[simp] theorem toldOf_append (k : Nat) (phase : Phase) (l₁ l₂ : List (Nat × Phase × NodeId)) :
    toldOf k phase (l₁ ++ l₂) = toldOf k phase l₁ ++ toldOf k phase l₂ :=
  List.filterMap_append

/-- Each of the plugins is told once. -/
theorem toldOf_tellings (k : Nat) (phase : Phase) (n : Nat) (ph : Phase) (id : NodeId) :
    toldOf k phase (tellings n ph id) = if k < n ∧ ph = phase then [id] else [] := by
  induction n with
  | zero => simp [tellings, toldOf]
  | succ n ih =>
    rw [show tellings (n + 1) ph id = tellings n ph id ++ [(n, ph, id)] by
      rw [tellings, List.range_succ, List.map_append]
      rfl, toldOf_append, ih]
    by_cases hph : ph = phase
    · rcases Nat.lt_trichotomy k n with hk | rfl | hk
      · simp [toldOf, hph, hk, Nat.lt_succ_of_lt hk, Nat.ne_of_gt hk]
      · simp [toldOf, hph]
      · have hle : ¬ k < n + 1 := by omega
        simp [toldOf, hph, hle, Nat.lt_asymm hk, Nat.ne_of_lt hk]
    · simp [toldOf, hph]

theorem nodesTold_append (k : Nat) (phase : Phase) (calls more : List (Call σ)) :
    nodesTold k phase (calls ++ more) = nodesTold k phase calls ++ nodesTold k phase more := by
  rw [nodesTold, List.map_append, toldOf_append]
  rfl

theorem nodesTold_of_told (h : calls.map Call.told = tellings n phase id) (k : Nat) (ph : Phase) :
    nodesTold k ph calls = if k < n ∧ phase = ph then [id] else [] := by
  rw [nodesTold, h, toldOf_tellings]

theorem nodesTold_parts_perm {parts : List (NodeId × List (Call σ))}
    (h : ∀ v ∈ parts, (nodesTold k .exit v.2).Perm (nodesTold k .enter v.2)) :
    (nodesTold k .exit (parts.flatMap Prod.snd)).Perm
      (nodesTold k .enter (parts.flatMap Prod.snd)) := by
  induction parts with
  | nil => exact .refl _
  | cons v parts ih =>
    obtain ⟨hv, hparts⟩ := List.forall_mem_cons.1 h
    rw [List.flatMap_cons, nodesTold_append, nodesTold_append]
    exact hv.append (ih hparts)

/-- **An exit for every enter**: a plugin is told that a node is left as often as that it is
entered. -/
theorem IsVisit.exits_perm (h : IsVisit n id calls) (k : Nat) :
    (nodesTold k .exit calls).Perm (nodesTold k .enter calls) := by
  induction h with
  | @visit id enter exit parts entering _ _ _ leaving ih =>
    have hparts := nodesTold_parts_perm ih
    simp only [nodesTold_append, nodesTold_of_told entering, nodesTold_of_told leaving]
    by_cases hk : k < n
    · simp only [hk, true_and, reduceCtorEq, if_true, if_false, List.append_nil, List.nil_append]
      exact (List.perm_append_singleton id _).trans (.cons id hparts)
    · simpa [hk] using hparts

/-! ## Visits of trees that stay -/

namespace Tree

mutual

/-- What `n` plugins are told when they are taken through a tree. -/
def visits (n : Nat) : Tree NodeId → List (Nat × Phase × NodeId)
  | leaf id => tellings n .enter id ++ tellings n .exit id
  | block id ts => tellings n .enter id ++ visitsAll n ts ++ tellings n .exit id

/-- What `n` plugins are told when they are taken through trees. -/
def visitsAll (n : Nat) : List (Tree NodeId) → List (Nat × Phase × NodeId)
  | [] => []
  | t :: ts => visits n t ++ visitsAll n ts

end

mutual

/-- Nodes are entered in preorder and left in postorder. -/
theorem toldOf_visits (hk : k < n) : (t : Tree NodeId) →
    toldOf k .enter (t.visits n) = t.preorder ∧ toldOf k .exit (t.visits n) = t.postorder
  | leaf id => by simp [visits, toldOf_tellings, hk, preorder, postorder]
  | block id ts => by
    obtain ⟨henter, hexit⟩ := toldOf_visitsAll hk ts
    simp [visits, toldOf_tellings, hk, preorder, postorder, henter, hexit]

theorem toldOf_visitsAll (hk : k < n) : (ts : List (Tree NodeId)) →
    toldOf k .enter (visitsAll n ts) = preorderAll ts ∧
      toldOf k .exit (visitsAll n ts) = postorderAll ts
  | [] => ⟨rfl, rfl⟩
  | t :: ts => by
    obtain ⟨henter, hexit⟩ := toldOf_visits hk t
    obtain ⟨henters, hexits⟩ := toldOf_visitsAll hk ts
    simp [visitsAll, preorderAll, postorderAll, henter, hexit, henters, hexits]

end

end Tree

/-- The plugin never fails and never suspends itself, and leaves the lists of children and the
cursors over them as they are. -/
def Plugin.Watches (p : Plugin σ) : Prop :=
  ∀ phase id s, s.forest.Numbered → ∃ s₁, p.handle phase id s = .done (.ok ()) s₁ ∧
    s.forest.Steady s₁.forest ∧ s₁.forest.Numbered

/-- Behind `s`, plugins that only watch are told of `told`. -/
structure Watched (s : RunState (Recording σ)) (told : List (Nat × Phase × NodeId))
    (s₁ : RunState (Recording σ)) : Prop where
  steady : s.forest.Steady s₁.forest
  numbered : s₁.forest.Numbered
  log : s₁.log.map Call.told = s.log.map Call.told ++ told

theorem Watched.trans {s s₁ s₂ : RunState (Recording σ)} {told more : List (Nat × Phase × NodeId)}
    (h : Watched s told s₁) (h' : Watched s₁ more s₂) : Watched s (told ++ more) s₂ where
  steady := h.steady.trans h'.steady
  numbered := h'.numbered
  log := by rw [h'.log, h.log, List.append_assoc]

namespace Run

theorem dispatch_watched (mode : RunMode) (phase : Phase) (id : NodeId)
    (hps : ∀ p ∈ plugins, p.Watches) {s : RunState σ} (hs : s.forest.Numbered) :
    ∃ s₁, dispatch mode phase id plugins s = (.ok (), s₁) ∧ s.forest.Steady s₁.forest ∧
      s₁.forest.Numbered := by
  induction plugins generalizing s with
  | nil => exact ⟨s, rfl, .refl _, hs⟩
  | cons p ps ih =>
    obtain ⟨hp, hps⟩ := List.forall_mem_cons.1 hps
    obtain ⟨s₁, hhandle, hsteady, hnumbered⟩ := hp phase id (atWork s p.name) hs
    obtain ⟨s₂, hrest, hsteady', hnumbered'⟩ := ih hps hnumbered
    refine ⟨s₂, ?_, hsteady.trans hsteady', hnumbered'⟩
    rw [dispatch_cons, hhandle]
    exact hrest

/-- What recorded plugins that only watch are told of one event. -/
theorem dispatch_recorded_watched (mode : RunMode) (phase : Phase) (id : NodeId)
    (hps : ∀ p ∈ plugins, p.Watches) {s : RunState (Recording σ)} (hs : s.forest.Numbered) :
    ∃ s₁, dispatch mode phase id (recordFrom 0 plugins) s = (.ok (), s₁) ∧
      Watched s (tellings plugins.length phase id) s₁ := by
  obtain ⟨s₁, hs₁, hsteady, hnumbered⟩ :=
    dispatch_watched mode phase id hps (s := s.erased) hs
  rw [← erased_dispatch mode phase id plugins 0 s] at hs₁
  rcases hr : dispatch mode phase id (recordFrom 0 plugins) s with ⟨o, s₂⟩
  rw [hr] at hs₁
  cases hs₁
  obtain ⟨calls, hcalls, htold⟩ := dispatch_noted hr
  refine ⟨s₂, rfl, hsteady, hnumbered, ?_⟩
  rw [hcalls.1, List.map_append, htold rfl]

mutual

/-- **Plugins that only watch** are taken through the tree below a node. -/
theorem visit_watched (mode : RunMode) (hps : ∀ p ∈ plugins, p.Watches) {f₀ : Forest}
    (hw : f₀.WellFormed) :
    (t : Tree NodeId) → f₀.Shows t → t.label < f₀.size →
    (f₀.kind t.label = .root ∨ (f₀.parent? t.label).isSome = true) →
    ∀ (fuel : Nat) {s : RunState (Recording σ)}, 2 * t.size ≤ fuel → f₀.SameLinks s.forest →
    s.forest.Numbered → ∃ s₁, visit mode (recordFrom 0 plugins) t.label fuel s = (.finished, s₁) ∧
      Watched s (t.visits plugins.length) s₁
  | t, _, _, _, 0, _, hfuel, _, _ => by
    have := t.size_pos
    omega
  | .leaf id, ht, hlt, _, fuel + 1, s, _, hl, hs => by
    rw [Forest.Shows] at ht
    rw [Tree.label] at hlt ⊢
    obtain ⟨s₁, henter, hw₁⟩ := dispatch_recorded_watched mode .enter id hps hs
    obtain ⟨s₂, hexit, hw₂⟩ := dispatch_recorded_watched mode .exit id hps hw₁.numbered
    have hout : goesInto s₁.forest id = false := by
      rw [goesInto, Node.hasBlock, (hl.trans hw₁.steady.toSameLinks).children id hlt, ht]
      exact Bool.and_false _
    refine ⟨s₂, ?_, hw₁.trans hw₂⟩
    rw [visit_succ, henter]
    simp only [hout, Bool.false_eq_true, if_false]
    rw [leave, hexit]
    rfl
  | .block id ts, ht, hlt, htop, fuel + 1, s, hfuel, hl, hs => by
    rw [Forest.Shows] at ht
    rw [Tree.label] at hlt htop ⊢
    have hids : f₀.children id = [] ++ ts.map Tree.label := Forest.children_of_block ht.1
    obtain ⟨s₁, henter, hw₁⟩ := dispatch_recorded_watched mode .enter id hps hs
    have hl₁ := hl.trans hw₁.steady.toSameLinks
    have hid : id < s₁.forest.size := Nat.lt_of_lt_of_le hlt hl₁.size
    have hin : goesInto s₁.forest id = true := by
      rw [goesInto, Node.hasBlock, hl₁.children id hlt, ht.1, hl₁.kind id hlt, hl₁.parent id hlt]
      simpa using htop
    obtain ⟨s₂, hchildren, hsteady, hnumbered, hlog⟩ := visitChildren_watched mode hps hw ts ht.2
      hlt hids fuel (k := cursorFor s₁ id) (s := opened s₁ id)
      (by rw [Tree.size_block] at hfuel; omega)
      (hl₁.trans (Forest.alike_openCursor ..).sameLinks)
      (hw₁.numbered.openCursor hid .traversal) (Forest.at_openCursor hw₁.numbered hid .traversal)
    have hback := (Forest.steady_open_close hw₁.numbered hid .traversal).trans hsteady
    have hclosed : Watched s₁ (Tree.visitsAll plugins.length ts)
        (closed s₂ id (cursorFor s₁ id)) := by
      refine ⟨hback, hnumbered.closeCursor ?_ _, hlog⟩
      rw [← (Forest.alike_closeCursor s₂.forest id (cursorFor s₁ id)).size]
      exact Nat.lt_of_lt_of_le hid hback.size
    obtain ⟨s₃, hexit, hw₃⟩ :=
      dispatch_recorded_watched mode .exit id hps hclosed.numbered
    refine ⟨s₃, ?_, (hw₁.trans hclosed).trans hw₃⟩
    rw [visit_succ, henter]
    simp only [hin, if_true, hchildren]
    rw [leave, hexit]
    rfl

/-- Plugins that only watch are taken through the trees below the children that are left. -/
theorem visitChildren_watched (mode : RunMode) (hps : ∀ p ∈ plugins, p.Watches) {f₀ : Forest}
    (hw : f₀.WellFormed) :
    (ts : List (Tree NodeId)) → f₀.ShowsAll ts → ∀ {P : NodeId} {met : List NodeId}, P < f₀.size →
    f₀.children P = met ++ ts.map Tree.label →
    ∀ (fuel : Nat) {k : Nat} {s : RunState (Recording σ)}, 2 * Tree.sizeAll ts + 1 ≤ fuel →
    f₀.SameLinks s.forest → s.forest.Numbered → s.forest.At P k met.length →
    ∃ s₁, visitChildren mode (recordFrom 0 plugins) P k fuel s = (.finished, s₁) ∧
      (s.forest.closeCursor P k).Steady (s₁.forest.closeCursor P k) ∧ s₁.forest.Numbered ∧
      s₁.log.map Call.told = s.log.map Call.told ++ Tree.visitsAll plugins.length ts
  | _, _, _, _, _, _, 0, _, _, hfuel, _, _, _ => by omega
  | [], _, P, met, hlt, hP, fuel + 1, k, s, _, hl, hs, ha => by
    have hlt' : P < s.forest.size := Nat.lt_of_lt_of_le hlt hl.size
    have hnone : (s.forest.nextChild P k).1 = none := by
      apply ha.nextChild_none
      rw [hl.nodes hlt, hP]
      simp
    refine ⟨advanced s P k, ?_, ha.steady_nextChild hlt', hs.nextChild P k, ?_⟩
    · rw [visitChildren_succ, hnone]
    · rw [Tree.visitsAll, List.append_nil]
      rfl
  | t :: ts, hts, P, met, hlt, hP, fuel + 1, k, s, hfuel, hl, hs, ha => by
    rw [Forest.ShowsAll] at hts
    rw [List.map_cons] at hP
    rw [Tree.sizeAll_cons] at hfuel
    have hpos := t.size_pos
    have hlt' : P < s.forest.size := Nat.lt_of_lt_of_le hlt hl.size
    have hnodes : s.forest.children P = met ++ t.label :: ts.map Tree.label := by
      rw [hl.nodes hlt, hP]
    have hmem : t.label ∈ f₀.children P := by rw [hP]; simp
    obtain ⟨hchild, hat⟩ := ha.nextChild hlt' (by rw [hl.nodes hlt]; exact hw.nodup P)
      (x := t.label) (by rw [hnodes]; simp)
    have hstep := (Forest.alike_nextChild s.forest P k).sameLinks
    have hlt₁ : P < (advanced s P k).forest.size := Nat.lt_of_lt_of_le hlt' hstep.size
    obtain ⟨s₁, hvisit, hw₁⟩ := visit_watched mode hps hw t hts.1 (hw.lt_size hmem)
      (.inr (by rw [(hw.parent P t.label).1 hmem]; rfl)) fuel (s := advanced s P k)
      (by omega) (hl.trans hstep) (hs.nextChild P k)
    have hP' : f₀.children P = (met ++ [t.label]) ++ ts.map Tree.label := by rw [hP]; simp
    obtain ⟨s₂, hrest, hsteady, hnumbered, hlog⟩ :=
      visitChildren_watched mode hps hw ts hts.2 hlt hP' fuel (by omega)
      ((hl.trans hstep).trans hw₁.steady.toSameLinks) hw₁.numbered
      (by rw [List.length_append]; exact hat.steady hlt₁ hw₁.steady)
    refine ⟨s₂, ?_,
      (ha.steady_nextChild hlt').trans ((hw₁.steady.closeCursor hlt₁ k).trans hsteady),
      hnumbered, ?_⟩
    · rw [visitChildren_succ, hchild]
      simp only [hvisit]
      exact hrest
    · rw [hlog, hw₁.log, Tree.visitsAll, List.append_assoc]
      rfl

end

/-- The calls of a traversal. -/
def callsOf (mode : RunMode) (plugins : List (Plugin σ)) (fuel : Nat) (s : RunState σ) :
    List (Call σ) :=
  (traverse mode (recordFrom 0 plugins) fuel (s.withLog [])).2.log

/-- The calls of a traversal lead from its start to its end. -/
theorem callsOf_leads (mode : RunMode) (plugins : List (Plugin σ)) (fuel : Nat) (s : RunState σ) :
    Leads mode plugins s (callsOf mode plugins fuel s) (traverse mode plugins fuel s).1.outcome
      (traverse mode plugins fuel s).2 := by
  obtain ⟨calls, ⟨hlog, hleads⟩, -⟩ := traverse_leads mode plugins fuel (s.withLog [])
  rw [RunState.log_withLog, List.nil_append] at hlog
  have herased := erased_traverse mode plugins fuel (s.withLog [])
  rw [RunState.erased_withLog] at herased
  rw [callsOf, hlog, ← herased]
  exact hleads

/-- The calls of a traversal that finishes. -/
theorem callsOf_finished {fuel : Nat} {s : RunState σ}
    (h : (traverse mode plugins fuel s).1 = .finished) :
    ∃ once visits onceExit, callsOf mode plugins fuel s = once ++ visits ++ onceExit ∧
      once.map Call.told = tellings plugins.length .once s.session.root ∧
      IsVisit plugins.length s.session.root visits ∧
      onceExit.map Call.told = tellings plugins.length .onceExit s.session.root := by
  obtain ⟨calls, ⟨hlog, -⟩, hfinished⟩ := traverse_leads mode plugins fuel (s.withLog [])
  rw [RunState.log_withLog, List.nil_append] at hlog
  have herased := erased_traverse mode plugins fuel (s.withLog [])
  rw [RunState.erased_withLog] at herased
  rw [callsOf, hlog]
  apply hfinished
  rw [← h, ← herased]
  rfl

/-- The calls of a traversal by plugins that only watch. -/
theorem traverse_watched (mode : RunMode) (hps : ∀ p ∈ plugins, p.Watches) {fuel : Nat}
    {s : RunState σ} (hw : s.forest.WellFormed) (hs : s.forest.Numbered)
    (hroot : s.forest.kind s.session.root = .root) (hfuel : 2 * s.forest.size ≤ fuel) :
    (traverse mode plugins fuel s).1 = .finished ∧
      (callsOf mode plugins fuel s).map Call.told =
        tellings plugins.length .once s.session.root ++
          (s.forest.outline s.session.root).visits plugins.length ++
          tellings plugins.length .onceExit s.session.root := by
  have hlt := Forest.lt_size_of_root hroot
  obtain ⟨s₁, honce, hw₁⟩ := dispatch_recorded_watched mode .once s.session.root hps
    (s := s.withLog []) hs
  have hshows := hw.shows_outline hlt
  have hsize := hw.size_outline_le hlt
  obtain ⟨s₂, hvisit, hw₂⟩ := visit_watched mode hps hw _ hshows (by simpa using hlt)
    (.inl (by rwa [Forest.label_outline])) fuel (by omega) hw₁.steady.toSameLinks
    hw₁.numbered
  obtain ⟨s₃, hexit, hw₃⟩ := dispatch_recorded_watched mode .onceExit s.session.root hps
    hw₂.numbered
  rw [Forest.label_outline] at hvisit
  have hrun : traverse mode (recordFrom 0 plugins) fuel (s.withLog []) =
      (.finished, finished s₃) := by
    unfold traverse
    simp only
    rw [show (s.withLog []).session.root = s.session.root from rfl, honce]
    simp only
    rw [hvisit]
    simp only
    rw [hexit]
    rfl
  constructor
  · have herased := erased_traverse mode plugins fuel (s.withLog [])
    rw [RunState.erased_withLog, hrun] at herased
    rw [← herased]
    rfl
  · rw [callsOf, hrun]
    exact ((hw₁.trans hw₂).trans hw₃).log.trans (by simp)

/-- **The order of the calls.** Noting the calls changes nothing else. The calls of a traversal that
finishes are those of its start, the visit of the root and those of its end; every handler finds what
the one before it left; and each plugin leaves the nodes it has entered. Plugins that only watch
enter every node of the tree once, in preorder, as a walk meets them, and leave it once, in
postorder; their traversal finishes. -/
theorem traverse_order (mode : RunMode) (plugins : List (Plugin σ)) (fuel : Nat)
    (s : RunState σ) :
    erased (traverse mode (recordFrom 0 plugins) fuel (s.withLog [])) =
      traverse mode plugins fuel s ∧
    ((traverse mode plugins fuel s).1 = .finished →
      (∃ once visits onceExit, callsOf mode plugins fuel s = once ++ visits ++ onceExit ∧
        once.map Call.told = tellings plugins.length .once s.session.root ∧
        IsVisit plugins.length s.session.root visits ∧
        onceExit.map Call.told = tellings plugins.length .onceExit s.session.root) ∧
      Leads mode plugins s (callsOf mode plugins fuel s) (.ok ()) (traverse mode plugins fuel s).2 ∧
      ∀ k, (nodesTold k .exit (callsOf mode plugins fuel s)).Perm
        (nodesTold k .enter (callsOf mode plugins fuel s))) ∧
    (s.forest.WellFormed → s.forest.Numbered → s.forest.kind s.session.root = .root →
      (∀ p ∈ plugins, p.Watches) → 2 * s.forest.size ≤ fuel →
      let tree := s.forest.outline s.session.root
      (traverse mode plugins fuel s).1 = .finished ∧
      (∀ k < plugins.length, nodesTold k .enter (callsOf mode plugins fuel s) = tree.preorder ∧
        nodesTold k .exit (callsOf mode plugins fuel s) = tree.postorder) ∧
      tree.preorder.Nodup ∧ tree.postorder.Nodup ∧
      (∀ id, id ∈ tree.preorder ↔ ReflTransGen s.forest.Child s.session.root id) ∧
      ∃ g met, s.forest.walk Forest.meet s.session.root fuel [] = (.completed, g, met) ∧
        tree.preorder = s.session.root :: met) := by
  refine ⟨erased_traverse mode plugins fuel (s.withLog []), fun hfinished => ?_,
    fun hw hs hroot hps hfuel => ?_⟩
  · have hleads := callsOf_leads mode plugins fuel s
    rw [hfinished] at hleads
    obtain ⟨once, visits, onceExit, hcalls, honce, hvisits, hexit⟩ := callsOf_finished hfinished
    refine ⟨⟨once, visits, onceExit, hcalls, honce, hvisits, hexit⟩, hleads, fun k => ?_⟩
    rw [hcalls]
    simp only [nodesTold_append, nodesTold_of_told honce, nodesTold_of_told hexit]
    simpa using hvisits.exits_perm k
  · obtain ⟨hfinished, htold⟩ := traverse_watched mode hps hw hs hroot hfuel
    have hlt := Forest.lt_size_of_root hroot
    have hshows := hw.shows_outline hlt
    have hnodup := hw.nodup_preorder hshows
    refine ⟨hfinished, fun k hk => ?_, hnodup, (Tree.postorder_perm _).nodup_iff.2 hnodup,
      fun id => ?_, ?_⟩
    · obtain ⟨henter, hexit⟩ := Tree.toldOf_visits hk (s.forest.outline s.session.root)
      unfold nodesTold
      rw [htold]
      simp [toldOf_tellings, henter, hexit]
    · rw [Forest.mem_preorder_iff hshows, Forest.label_outline]
    · have hsize := hw.size_outline_le hlt
      obtain ⟨g, hwalk, -, -⟩ := Forest.walk_meet hw _ hshows (by simpa using hlt) fuel
        (by omega) (Forest.Steady.refl s.forest).toSameLinks hs []
      rw [Forest.label_outline] at hwalk
      refine ⟨g, _, hwalk, ?_⟩
      rw [Tree.preorder_eq, Forest.label_outline, List.nil_append]

theorem traverse_order_watching :
    let f := Edit.run .empty (.read .empty "a\x7bb:c\x7d/*d*/" none .auto)
    let look : Plugin Nat := ⟨"look", fun _ _ s => .done (.ok ()) { s with user := s.user + 1 }⟩
    let s : RunState Nat := ⟨f, .start 0 default, 0⟩
    f.WellFormed ∧ (traverse .waiting [look, look] 8 s).1 = .finished ∧
      nodesTold 1 .enter (callsOf .waiting [look, look] 8 s) = [0, 1, 2, 3] ∧
      nodesTold 1 .exit (callsOf .waiting [look, look] 8 s) = [2, 1, 3, 0] := by
  intro f look s
  have hw : f.WellFormed := (Edit.wellFormed_run Forest.wellFormed_empty (by decide +kernel)).2 trivial
  have hs : f.Numbered := (Edit.sound_run Forest.sound_empty (by decide +kernel)).numbered
  have hlook : look.Watches := fun _ _ s h => ⟨_, rfl, .refl _, h⟩
  obtain ⟨-, -, hwatching⟩ := traverse_order .waiting [look, look] 8 s
  obtain ⟨hend, hnodes, -⟩ := hwatching hw hs (by decide +kernel) (by simp [hlook])
    (by decide +kernel)
  have horder : (f.outline 0).preorder = [0, 1, 2, 3] ∧
      (f.outline 0).postorder = [2, 1, 3, 0] := by decide +kernel
  refine ⟨hw, hend, ?_⟩
  rw [← horder.1, ← horder.2]
  exact hnodes 1 (by decide)

end Run

end Stylesheet
