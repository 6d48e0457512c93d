import Stylesheet.Proofs.Forest.Read
import Stylesheet.Proofs.Forest.WellFormed

/-!
# New nodes in well-formed forests

New nodes, texts that are read and copies add a tree under the next numbers. Its links lead from
smaller to larger numbers and stay among the new nodes (`Spans`), so the forest stays well-formed.
The trees that are added hang roots nowhere and nodes only below containers (`Tree.Proper`).
-/

set_option autoImplicit false

namespace Stylesheet

open Relation Stylesheet.Tree

variable {α β : Type}

namespace Tree

mutual

/-- Only containers have nodes below them, and these are no roots. -/
def Proper (kind : α → NodeKind) : Tree α → Prop
  | .leaf _ => True
  | .block a ts => (ts ≠ [] → (kind a).isContainer = true) ∧ ProperAll kind ts

/-- Trees that can hang below a container. -/
def ProperAll (kind : α → NodeKind) : List (Tree α) → Prop
  | [] => True
  | t :: ts => kind t.label ≠ .root ∧ Proper kind t ∧ ProperAll kind ts

end

mutual

theorem proper_map {g : α → β} {kind : β → NodeKind} : (t : Tree α) →
    ((t.map g).Proper kind ↔ t.Proper (kind ∘ g))
  | .leaf a => by simp [map, Proper]
  | .block a ts => by
    have hnil : mapAll g ts ≠ [] ↔ ts ≠ [] := by cases ts <;> simp [mapAll]
    rw [map, Proper, Proper, properAll_map ts, hnil]
    rfl

theorem properAll_map {g : α → β} {kind : β → NodeKind} : (ts : List (Tree α)) →
    (ProperAll kind (mapAll g ts) ↔ ProperAll (kind ∘ g) ts)
  | [] => by simp [mapAll, ProperAll]
  | t :: ts => by
    rw [mapAll, ProperAll, ProperAll, proper_map t, properAll_map ts, label_map]
    rfl

end

mutual

/-- Trees that a parser makes are proper. -/
theorem Formatted.proper {w : α → Wording} : {t : Tree α} → t.Formatted w →
    (w t.label).data.kind ≠ .root ∧ t.Proper fun a => (w a).data.kind
  | .leaf a, h => by
    refine ⟨?_, trivial⟩
    obtain ⟨-, h⟩ := (h : (w a).LeafFormatted)
    intro hk
    cases hd : (w a).data <;> simp [label, hd, NodeData.kind] at h hk
  | .block a ts, h => by
    obtain ⟨hblock, -, hall⟩ := (h : _ ∧ _ ∧ _)
    refine ⟨?_, fun _ => ?_, hall.properAll⟩
    · rcases hblock.data with hk | hk <;> simp [label, hk]
    · rcases hblock.data with hk | hk <;> simp [hk, NodeKind.isContainer]

theorem FormattedAll.properAll {w : α → Wording} : {ts : List (Tree α)} → FormattedAll w ts →
    ProperAll (fun a => (w a).data.kind) ts
  | [], _ => trivial
  | _ :: _, h => ⟨h.1.proper.1, h.1.proper.2, h.2.properAll⟩

end

end Tree

namespace Forest

variable {f g : Forest} {parent : Option NodeId} {tops tops' : List NodeId} {lo mid hi : Nat}

/-- The nodes from `lo` up to `hi` are trees with the given tops below `parent`. -/
structure Spans (f : Forest) (parent : Option NodeId) (tops : List NodeId) (lo hi : Nat) :
    Prop where
  top : ∀ c : Nat, c ∈ tops → lo ≤ c ∧ c < hi ∧ f.parent? c = parent
  distinct : tops.Nodup
  covered : ∀ c : Nat, lo ≤ c → c < hi →
    c ∈ tops ∨ ∃ p : Nat, lo ≤ p ∧ p < hi ∧ c ∈ f.children p
  child : ∀ p c : Nat, lo ≤ p → p < hi → c ∈ f.children p →
    p < c ∧ c < hi ∧ f.parent? c = some p ∧ f.kind c ≠ .root
  nodup : ∀ p : Nat, lo ≤ p → p < hi → (f.children p).Nodup
  leaf : ∀ p : Nat, lo ≤ p → p < hi → (f.kind p).isContainer = false → f.children p = []
  fresh : ∀ p : Nat, lo ≤ p → p < hi → f.cursors p = .empty

theorem Spans.nil (f : Forest) (parent : Option NodeId) (lo : Nat) : f.Spans parent [] lo lo where
  top c hc := by cases hc
  distinct := List.nodup_nil
  covered c hlo hhi := by omega
  child p c hlo hhi := by omega
  nodup p hlo hhi := by omega
  leaf p hlo hhi := by omega
  fresh p hlo hhi := by omega

theorem Spans.append (h : f.Spans parent tops lo mid) (h' : f.Spans parent tops' mid hi)
    (hlo : lo ≤ mid) (hhi : mid ≤ hi) : f.Spans parent (tops ++ tops') lo hi := by
  have hsplit : ∀ p, lo ≤ p → p < hi → (lo ≤ p ∧ p < mid) ∨ (mid ≤ p ∧ p < hi) := by omega
  refine ⟨?_, ?_, ?_, ?_, ?_, ?_, ?_⟩
  · intro c hc
    rcases List.mem_append.1 hc with hc | hc
    · obtain ⟨h1, h2, h3⟩ := h.top c hc
      exact ⟨h1, by omega, h3⟩
    · obtain ⟨h1, h2, h3⟩ := h'.top c hc
      exact ⟨by omega, h2, h3⟩
  · refine List.nodup_append.2 ⟨h.distinct, h'.distinct, ?_⟩
    intro c hc d hd
    exact Nat.ne_of_lt (Nat.lt_of_lt_of_le (h.top c hc).2.1 (h'.top d hd).1)
  · intro c h1 h2
    rcases hsplit c h1 h2 with ⟨h1, h2⟩ | ⟨h1, h2⟩
    · rcases h.covered c h1 h2 with hc | ⟨p, hp1, hp2, hc⟩
      · exact .inl (List.mem_append_left _ hc)
      · exact .inr ⟨p, hp1, by omega, hc⟩
    · rcases h'.covered c h1 h2 with hc | ⟨p, hp1, hp2, hc⟩
      · exact .inl (List.mem_append_right _ hc)
      · exact .inr ⟨p, by omega, hp2, hc⟩
  · intro p c h1 h2 hc
    rcases hsplit p h1 h2 with ⟨h1, h2⟩ | ⟨h1, h2⟩
    · obtain ⟨hlt, hle, hrest⟩ := h.child p c h1 h2 hc
      exact ⟨hlt, by omega, hrest⟩
    · exact h'.child p c h1 h2 hc
  · intro p h1 h2
    rcases hsplit p h1 h2 with ⟨h1, h2⟩ | ⟨h1, h2⟩
    · exact h.nodup p h1 h2
    · exact h'.nodup p h1 h2
  · intro p h1 h2
    rcases hsplit p h1 h2 with ⟨h1, h2⟩ | ⟨h1, h2⟩
    · exact h.leaf p h1 h2
    · exact h'.leaf p h1 h2
  · intro p h1 h2
    rcases hsplit p h1 h2 with ⟨h1, h2⟩ | ⟨h1, h2⟩
    · exact h.fresh p h1 h2
    · exact h'.fresh p h1 h2

/-- A node above trees. -/
theorem Spans.block (h : f.Spans (some lo) tops (lo + 1) hi) (hlt : lo < hi)
    (hp : f.parent? lo = parent) (hc : f.children lo = tops) (hf : f.cursors lo = .empty)
    (hk : tops ≠ [] → (f.kind lo).isContainer = true) (hr : ∀ c ∈ tops, f.kind c ≠ .root) :
    f.Spans parent [lo] lo hi := by
  have hsplit : ∀ p, lo ≤ p → p = lo ∨ lo + 1 ≤ p := by omega
  refine ⟨?_, List.nodup_singleton lo, ?_, ?_, ?_, ?_, ?_⟩
  · intro c hmem
    rw [List.mem_singleton.1 hmem]
    exact ⟨Nat.le_refl lo, hlt, hp⟩
  · intro c h1 h2
    rcases hsplit c h1 with rfl | h1
    · exact .inl (List.mem_singleton_self _)
    · right
      rcases h.covered c h1 h2 with hmem | ⟨p, hp1, hp2, hmem⟩
      · exact ⟨lo, Nat.le_refl lo, hlt, hc ▸ hmem⟩
      · exact ⟨p, by omega, hp2, hmem⟩
  · intro p c h1 h2 hmem
    rcases hsplit p h1 with rfl | h1
    · rw [hc] at hmem
      obtain ⟨hge, hle, hparent⟩ := h.top c hmem
      exact ⟨hge, hle, hparent, hr c hmem⟩
    · exact h.child p c h1 h2 hmem
  · intro p h1 h2
    rcases hsplit p h1 with rfl | h1
    · rw [hc]
      exact h.distinct
    · exact h.nodup p h1 h2
  · intro p h1 h2 hleaf
    rcases hsplit p h1 with rfl | h1
    · rw [hc]
      apply Classical.byContradiction
      intro hne
      rw [hk hne] at hleaf
      cases hleaf
    · exact h.leaf p h1 h2 hleaf
  · intro p h1 h2
    rcases hsplit p h1 with rfl | h1
    · exact hf
    · exact h.fresh p h1 h2

/-- `g` is `f` with a tree of its own added. -/
structure Grown (f g : Forest) : Prop where
  size : f.size < g.size
  node : ∀ p < f.size, g.node p = f.node p
  spans : g.Spans none [f.size] f.size g.size

section
variable {p : Nat}

theorem Grown.children_eq (h : Grown f g) (hp : p < f.size) : g.children p = f.children p := by
  unfold children
  rw [h.node p hp]

theorem Grown.parent?_eq (h : Grown f g) (hp : p < f.size) : g.parent? p = f.parent? p := by
  unfold parent?
  rw [h.node p hp]

theorem Grown.kind_eq (h : Grown f g) (hp : p < f.size) : g.kind p = f.kind p := by
  unfold kind
  rw [h.node p hp]

theorem Grown.cursors_eq (h : Grown f g) (hp : p < f.size) : g.cursors p = f.cursors p := by
  unfold cursors
  rw [h.node p hp]

/-- A node is an old one, a new one or none at all. -/
theorem Grown.cases (_ : Grown f g) (p : Nat) :
    p < f.size ∨ (f.size ≤ p ∧ p < g.size) ∨ g.size ≤ p := by
  omega

/-- The children of an old node are old, those of a new one are new. -/
theorem Grown.child_cases {c : NodeId} (h : Grown f g) (hc : g.Child p c) :
    (p < f.size ∧ f.Child p c) ∨ (f.size ≤ p ∧ p < g.size) := by
  unfold Child at hc ⊢
  rcases h.cases p with hp | hp | hp
  · rw [h.children_eq hp] at hc
    exact .inl ⟨hp, hc⟩
  · exact .inr hp
  · rw [children_of_le hp] at hc
    cases hc

end

theorem WellFormed.grown_parent (h : f.WellFormed) (hg : Grown f g) (p c : NodeId) :
    c ∈ g.children p ↔ g.parent? c = some p := by
  constructor
  · intro hc
    rcases hg.child_cases hc with ⟨-, hold⟩ | ⟨h1, h2⟩
    · rw [hg.parent?_eq (h.lt_size hold)]
      exact (h.parent p c).1 hold
    · exact (hg.spans.child p c h1 h2 hc).2.2.1
  · intro hp
    by_cases hc : c < f.size
    · rw [hg.parent?_eq hc, ← h.parent] at hp
      rwa [hg.children_eq (lt_size_of_mem hp)]
    · rcases hg.spans.covered c (Nat.not_lt.1 hc) (lt_size_of_parent hp) with
        hmem | ⟨q, h1, h2, hmem⟩
      · rw [(hg.spans.top c hmem).2.2] at hp
        cases hp
      · rw [(hg.spans.child q c h1 h2 hmem).2.2.1] at hp
        cases hp
        exact hmem

/-- A way down stays among the old nodes, or it leads to larger and larger numbers. -/
theorem WellFormed.grown_transGen (h : f.WellFormed) (hg : Grown f g) {a b : Nat}
    (hab : TransGen g.Child a b) : TransGen f.Child a b ∨ (f.size ≤ a ∧ a < b) := by
  induction hab with
  | single hc =>
    rcases hg.child_cases hc with ⟨-, hold⟩ | ⟨h1, h2⟩
    · exact .inl (.single hold)
    · exact .inr ⟨h1, (hg.spans.child _ _ h1 h2 hc).1⟩
  | tail _ hc ih =>
    rcases ih with hold | ⟨h1, h2⟩
    · obtain ⟨q, hq, -⟩ := h.exists_parent hold
      rcases hg.child_cases hc with ⟨-, hc⟩ | ⟨h1, -⟩
      · exact .inl (hold.tail hc)
      · exact absurd (lt_size_of_parent hq) (Nat.not_lt.2 h1)
    · right
      rcases hg.child_cases hc with ⟨h3, -⟩ | ⟨h3, h4⟩
      · exact absurd (Nat.lt_of_le_of_lt h1 h2) (Nat.lt_asymm h3)
      · exact ⟨h1, Nat.lt_trans h2 (hg.spans.child _ _ h3 h4 hc).1⟩

theorem WellFormed.grown (h : f.WellFormed) (hg : Grown f g) : g.WellFormed := by
  refine ⟨WellFormed.once_of_nodup ?_ (h.grown_parent hg), h.grown_parent hg, ?_, ?_, ?_⟩
  · intro p
    rcases hg.cases p with hp | ⟨h1, h2⟩ | hp
    · rw [hg.children_eq hp]
      exact h.nodup p
    · exact hg.spans.nodup p h1 h2
    · rw [children_of_le hp]
      exact List.nodup_nil
  · intro p c hc
    rcases hg.child_cases hc with ⟨-, hold⟩ | ⟨h1, h2⟩
    · rw [hg.kind_eq (h.lt_size hold)]
      exact h.root p c hold
    · exact (hg.spans.child p c h1 h2 hc).2.2.2
  · intro p hk
    rcases hg.cases p with hp | ⟨h1, h2⟩ | hp
    · rw [hg.kind_eq hp] at hk
      rw [hg.children_eq hp]
      exact h.leaf p hk
    · exact hg.spans.leaf p h1 h2 hk
    · exact children_of_le hp
  · intro id hid
    rcases h.grown_transGen hg hid with hold | ⟨-, hlt⟩
    · exact h.acyclic id hold
    · exact Nat.lt_irrefl id hlt

/-! ## Trees that hang in a forest -/

mutual

theorem Holds.spans {f : Forest} : {parent : Option NodeId} → {n : Nat} → (t : Tree Element) →
    f.Holds parent (t.numbered n) → t.Proper (·.data.kind) →
    f.Spans parent [n] n (n + t.size)
  | parent, n, .leaf e, h, _ => by
    have hnode : f.node n = { Node.ofElement e false with parent } := h
    have hc : f.children n = [] := congrArg Node.nodes hnode
    exact (Spans.nil f (some n) (n + 1)).block (by simp) (congrArg Node.parent hnode) hc
      (congrArg Node.cursors hnode) (fun hne => absurd rfl hne) (fun c hmem => by cases hmem)
  | parent, n, .block e ts, h, ht => by
    obtain ⟨hnode, hall⟩ := h
    obtain ⟨hspans, hroot⟩ := hall.spans ts ht.2
    have hp : f.parent? n = parent := congrArg Node.parent hnode
    have hc : f.children n = (numberedAll (n + 1) ts).map (fun t => t.label.1) :=
      congrArg Node.nodes hnode
    have hk : f.kind n = e.data.kind := congrArg Node.kind hnode
    rw [size_block, Nat.add_comm (sizeAll ts), ← Nat.add_assoc]
    refine hspans.block (by omega) hp hc (congrArg Node.cursors hnode) ?_ hroot
    intro hne
    rw [hk]
    refine ht.1 ?_
    rintro rfl
    exact hne rfl

theorem HoldsAll.spans {f : Forest} : {parent : NodeId} → {n : Nat} → (ts : List (Tree Element)) →
    f.HoldsAll parent (numberedAll n ts) → ProperAll (·.data.kind) ts →
    f.Spans (some parent) ((numberedAll n ts).map fun t => t.label.1) n (n + sizeAll ts) ∧
      ∀ c ∈ (numberedAll n ts).map fun t => t.label.1, f.kind c ≠ .root
  | parent, n, [], _, _ => ⟨Spans.nil f _ n, fun c hc => by cases hc⟩
  | parent, n, t :: ts, h, ht => by
    obtain ⟨htop, hproper, hrest⟩ := ht
    obtain ⟨hspans, hroot⟩ := h.2.spans ts hrest
    have hfirst := h.1.spans t hproper
    have hkind := kind_of_hangs h.1.hangs
    rw [label_numbered] at hkind
    rw [numberedAll, List.map_cons, label_numbered, sizeAll_cons, ← Nat.add_assoc]
    refine ⟨hfirst.append hspans (Nat.le_add_right ..) (Nat.le_add_right ..), ?_⟩
    intro c hc
    rcases List.mem_cons.1 hc with rfl | hc
    · rw [hkind]
      exact htop
    · exact hroot c hc

end

/-- A tree by itself that is added. -/
theorem grown_plant (f : Forest) {t : Tree Element} (ht : t.Proper (·.data.kind)) :
    Grown f (f.plant none t).2 := by
  obtain ⟨-, hext, hholds⟩ := plant_spec f none t
  have hspans := hholds.spans t ht
  rw [← hext.size] at hspans
  refine ⟨?_, hext.node, hspans⟩
  rw [hext.size]
  cases t <;> simp

/-- A new node. -/
theorem grown_add (f : Forest) (data : NodeData) : Grown f (f.add (Node.new data)).2 := by
  have hnode := node_add_self f (Node.new data)
  have hc : (f.add (Node.new data)).2.children f.size = [] := by
    refine (congrArg Node.nodes hnode).trans ?_
    unfold Node.new Node.ofElement Node.nodes
    cases data.kind.startsWithBlock <;> rfl
  have hspans := (Spans.nil (f.add (Node.new data)).2 (some f.size) (f.size + 1)).block
    (Nat.lt_succ_self _) (congrArg Node.parent hnode) hc (congrArg Node.cursors hnode)
    (fun hne => absurd rfl hne) (fun c hmem => by cases hmem)
  rw [← size_add f (Node.new data)] at hspans
  exact ⟨by simp, (extends_add f _).node, hspans⟩

/-! ## Copies -/

@[simp] theorem label_outlineWithin (f : Forest) (levels : Nat) (id : NodeId) :
    (f.outlineWithin levels id).label = id := by
  cases levels with
  | zero => rfl
  | succ levels =>
    unfold outlineWithin
    split <;> rfl

theorem proper_outlineWithin (hr : ∀ p, ∀ c ∈ f.children p, f.kind c ≠ .root)
    (hl : ∀ p, (f.kind p).isContainer = false → f.children p = []) :
    ∀ (levels : Nat) (id : NodeId), (f.outlineWithin levels id).Proper f.kind := by
  intro levels
  induction levels with
  | zero => exact fun _ => trivial
  | succ levels ih =>
    intro id
    unfold Forest.outlineWithin
    split
    · trivial
    · next ids hids =>
      have hc : f.children id = ids := by
        unfold children Node.nodes
        rw [hids]
        rfl
      refine ⟨?_, ?_⟩
      · intro hne
        apply Classical.byContradiction
        intro hleaf
        rw [Bool.not_eq_true] at hleaf
        rw [hl id hleaf] at hc
        exact hne (by rw [← hc]; rfl)
      · have hroot : ∀ c ∈ ids, f.kind c ≠ .root := by
          rw [← hc]
          exact hr id
        clear hids hc
        induction ids with
        | nil => trivial
        | cons c ids ih' =>
          refine ⟨?_, ih c, ih' fun d hd => hroot d (.tail _ hd)⟩
          rw [label_outlineWithin]
          exact hroot c (.head _)

theorem grown_copy (hr : ∀ p, ∀ c ∈ f.children p, f.kind c ≠ .root)
    (hl : ∀ p, (f.kind p).isContainer = false → f.children p = []) (id : NodeId)
    (options : CopyOptions) : Grown f (f.copy id options).2 := by
  refine grown_plant f ((proper_map _).2 ?_)
  exact proper_outlineWithin hr hl f.size id

/-! ## Texts -/

theorem grown_parse {files : Files} {text : String} {file : Option String} {setting : MapSetting}
    {id : NodeId} (hg : f.parse files text file setting = .ok (id, g)) : Grown f g := by
  obtain ⟨i, a, ts, -, rfl, -, hnode, hreads⟩ := parse_spec hg
  have hholds := hreads.holds
  rw [← numberedAll_mapAll] at hholds
  have hroot : a.data.kind = .root := congrArg NodeData.kind hreads.formatted.data
  have hproper : (Tree.block (i.rootElement f.inputs.size a)
      (mapAll (i.element f.inputs.size) ts)).Proper (·.data.kind) := by
    refine ⟨fun _ => ?_, ?_⟩
    · exact congrArg NodeKind.isContainer hroot
    · exact (properAll_map ts).2 hreads.formatted.children.properAll
  have hspans := Holds.spans _ hholds hproper
  rw [size_block, sizeAll_mapAll, ← size_block a ts, ← hreads.size] at hspans
  refine ⟨?_, hnode, hspans⟩
  rw [hreads.size, size_block]
  omega

end Forest

end Stylesheet
