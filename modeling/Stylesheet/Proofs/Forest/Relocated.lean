import Stylesheet.Proofs.Forest.Appended
import Stylesheet.Proofs.Forest.Refused

/-!
# A node in another place

`Relocates` are the two ways to get a node to the end of a container with its formatting cleaned: to
move it, or to put in a copy of it. `WellFormed.relocated`: the same tree stands there, and each of
its nodes is the old one but for the slots that cleaning drops (`Resembles`).
-/

set_option autoImplicit false

namespace Stylesheet

namespace Forest

open Relation Stylesheet.Tree

variable {f g : Forest} {n m C x : NodeId} {keep : Bool}

/-- The node `m` of `g` is the node `n` of `f`, moved to the end of the container `C`, or a cleaned
copy of it that was put there. What stands between the parts of a node is kept by a move within one
tree. -/
inductive Relocates (f : Forest) (n C : NodeId) : (keep : Bool) → (g : Forest) → (m : NodeId) → Prop
  | move {g : Forest} (h : f.moveTo n C = (g, .ok ())) :
    Relocates f n C (f.top n = f.top C) g n
  | copy {stripSource : Bool} {m : NodeId} {f' g : Forest}
    (h : f.copy n { stripSource, cleanRaws := true } = (m, f'))
    (hg : f'.insert C .stop [m] = .ok g) : Relocates f n C false g m

/-- The node `y` of `g` says what `x` says in `f`, with cleaned formatting; before it there are at
most blanks. -/
structure Resembles (f g : Forest) (keep : Bool) (x y : NodeId) : Prop where
  data : g.data y = f.data x
  raws : ∀ slot, slot ≠ "before" → (g.raws y).get? slot = ((f.raws x).clean keep).get? slot
  before : ∀ v, (g.raws y).get? "before" = some v → ∀ c ∈ v.toText.toList, Text.isBlank c = true
  parent : ∃ p, g.parent? y = some p

/-! ## Trees that stay -/

mutual

/-- A tree is shown by every forest with these lists of children. -/
theorem Shows.congr : {t : Tree NodeId} → f.Shows t →
    (∀ x ∈ t.preorder, (g.node x).children = (f.node x).children) → g.Shows t
  | .leaf id, h, hg => (hg id (by simp [preorder])).trans h
  | .block id ts, h, hg => by
    rw [preorder, List.forall_mem_cons] at hg
    exact ⟨hg.1.trans h.1, h.2.congr hg.2⟩

theorem ShowsAll.congr : {ts : List (Tree NodeId)} → f.ShowsAll ts →
    (∀ x ∈ preorderAll ts, (g.node x).children = (f.node x).children) → g.ShowsAll ts
  | [], _, _ => trivial
  | t :: ts, h, hg => by
    rw [preorderAll, List.forall_mem_append] at hg
    exact ⟨h.1.congr hg.1, h.2.congr hg.2⟩

end

/-- The list of a node, by whether it has one and what is in it. -/
theorem children_eq_of_hasBlock (hblock : (g.node x).hasBlock = (f.node x).hasBlock)
    (hchildren : g.children x = f.children x) : (g.node x).children = (f.node x).children := by
  unfold Node.hasBlock at hblock
  unfold Forest.children Node.nodes at hchildren
  cases hf : (f.node x).children with
  | none =>
    rw [hf] at hblock
    exact Option.isSome_eq_false_iff.1 hblock |> Option.isNone_iff_eq_none.1
  | some ids =>
    rw [hf] at hblock hchildren
    obtain ⟨ids', hg⟩ := Option.isSome_iff_exists.1 hblock
    rw [hg] at hchildren ⊢
    exact congrArg some hchildren

/-! ## Putting in one node -/

/-- Nodes other than the container keep what they say, and their blocks. -/
theorem insert_keeps (hk : f.kind m ≠ .root) (hg : f.insert C .stop [m] = .ok g) (hx : x ≠ C) :
    g.data x = f.data x ∧ (g.node x).hasBlock = (f.node x).hasBlock := by
  have hr := refusal?_of_insert hg
  have hflat : f.flatten Anchor.stop.reference? [m] = ([m], f) := by
    rw [flatten_single hk]
    rfl
  rw [insert_of_accepted hr, hflat] at hg
  cases hg
  have hdetach : Spares [x] f (f.detach m).2 := spares_detach f m
  have hsplice (f' : Forest) (i : Nat) : (f'.splice C i [m]).node x = f'.node x :=
    node_modify_of_ne _ hx
  have hadopt : ((f.adopt C (f.sampleBefore C .stop) m).node x).data =
      ((f.detach m).2.node x).data ∧ ((f.adopt C (f.sampleBefore C .stop) m).node x).hasBlock =
        ((f.detach m).2.node x).hasBlock :=
    Prod.mk.inj (node_modify_congr (fun n => (n.data, n.hasBlock)) rfl x)
  simp only [List.isEmpty_cons, Bool.false_eq_true, if_false, List.foldl_cons, List.foldl_nil]
  rw [data, hsplice, hadopt.1, hadopt.2]
  exact ⟨congrArg Element.data (hdetach.element x (.head _)), hdetach.hasBlock x (.head _)⟩

/-- **One node put behind the children of a container** keeps all that stands below it. -/
theorem WellFormed.insert_tree (h : f.WellFormed) (hm : m < f.size) (hk : f.kind m ≠ .root)
    (hg : f.insert C .stop [m] = .ok g) :
    g.outline m = f.outline m ∧ ∀ x ∈ (f.outline m).preorder, g.data x = f.data x ∧
      (g.raws x = f.raws x ∨ x = m ∧ (f.raws x).Filled (g.raws x)) ∧
      ∃ p, g.parent? x = some p := by
  have hs : ∀ c ∈ [m], c < f.size := by
    intro c hc
    rwa [List.mem_singleton.1 hc]
  have hinserts := h.inserts hs hg
  have hflat : (f.flatten Anchor.stop.reference? [m]).1 = [m] := by
    rw [flatten_single hk]
    rfl
  rw [hflat] at hinserts
  have hcycle : f.isInside m C = false := by
    have hr := refusal?_of_insert hg
    exact (refusal?_eq_none hr).2.2 m (.head _)
  have hshows := h.shows_outline hm
  have hbelow : ∀ x ∈ (f.outline m).preorder, ReflTransGen f.Child m x := by
    intro x hx
    rwa [mem_preorder_iff hshows, label_outline] at hx
  have hne : ∀ x ∈ (f.outline m).preorder, x ≠ C := by
    rintro x hx rfl
    rw [h.isInside_of_reach (hbelow x hx)] at hcycle
    cases hcycle
  have hchildren : ∀ x ∈ (f.outline m).preorder, (g.node x).children = (f.node x).children := by
    intro x hx
    apply children_eq_of_hasBlock (insert_keeps hk hg (hne x hx)).2
    rw [hinserts.children x (hne x hx), List.filter_eq_self]
    intro c hc
    rw [decide_eq_true_iff, List.mem_singleton]
    rintro rfl
    exact h.acyclic c (.tail' (hbelow x hx) hc)
  obtain ⟨hgwf, hsize⟩ := h.insert_one hm hg
  refine ⟨?_, fun x hx => ?_⟩
  · have hout := hgwf.outline_eq (by rwa [label_outline, hsize]) (hshows.congr hchildren)
    rwa [label_outline] at hout
  · refine ⟨(insert_keeps hk hg (hne x hx)).1, ?_, ?_⟩
    · rw [hinserts.raws x]
      split
      · next hmem =>
        exact (filled_by_sample f C .stop (f.raws x)).imp_right
          fun hfilled => ⟨List.mem_singleton.1 hmem, hfilled⟩
      · exact .inl rfl
    · rw [hinserts.parent x]
      split
      · exact ⟨C, rfl⟩
      · next hmem =>
        -- a node below the one that is put in has its parent there
        rcases (hbelow x hx).cases_tail with rfl | ⟨p, -, hp⟩
        · exact absurd (.head _) hmem
        · exact ⟨p, (h.parent p x).1 hp⟩

/-! ## Both ways -/

theorem get?_clean (r : Raws) (keep : Bool) (slot : String) : (r.clean keep).get? slot =
    if slot = "before" ∨ slot = "after" ∨ (keep = false ∧ slot = "between") then none
    else r.get? slot := by
  unfold Raws.clean
  rw [Raws.get?_retain]
  by_cases hb : slot = "before" <;> by_cases ha : slot = "after" <;>
    by_cases hm : slot = "between" <;> cases keep <;> simp [hb, ha, hm]

/-- What cleaning and an insertion leave of a node. -/
theorem resembles_of_insert {f' : Forest} {y : NodeId} (hdata : f'.data y = f.data x)
    (hraws : f'.raws y = (f.raws x).clean keep)
    (hg : g.data y = f'.data y ∧ (g.raws y = f'.raws y ∨ y = m ∧ (f'.raws y).Filled (g.raws y)) ∧
      ∃ p, g.parent? y = some p) : f.Resembles g keep x y := by
  obtain ⟨htold, hsame | ⟨-, -, s, hblank, hset⟩, hparent⟩ := hg
  · refine ⟨htold.trans hdata, fun slot _ => by rw [hsame, hraws], fun v hv => ?_, hparent⟩
    rw [hsame, hraws, get?_clean, if_pos (.inl rfl)] at hv
    cases hv
  · refine ⟨htold.trans hdata, fun slot hslot => ?_, fun v hv => ?_, hparent⟩
    · rw [hset, Raws.setText, Raws.get?_set_of_ne _ _ hslot, hraws]
    · rw [hset, Raws.setText, Raws.get?_set_self, Option.some.injEq] at hv
      rw [← hv]
      exact hblank

theorem moveTo_ok (h : f.moveTo n C = (g, .ok ())) :
    (f.cleanRaws n (f.top n = f.top C)).insert C .stop [n] = .ok g := by
  unfold moveTo at h
  simp only at h
  split at h
  · cases h
  · split at h
    · cases h
    · next hg =>
      cases h
      exact hg

theorem WellFormed.outline_cleanRaws (h : f.WellFormed) (hn : n < f.size) (keep : Bool) :
    (f.cleanRaws n keep).outline n = f.outline n := by
  have hshows : (f.cleanRaws n keep).Shows (f.outline n) := (h.shows_outline hn).congr
    fun x _ => node_cleanRaws Node.children (fun _ _ => rfl) f n keep x
  have hout := (h.cleanRaws n keep).outline_eq (by rwa [label_outline, size_cleanRaws]) hshows
  rwa [label_outline] at hout

/-- The tree of a copy, by the numbers of its nodes and of those that they are copies of. -/
theorem copy_spec (f : Forest) (n : NodeId) (options : CopyOptions) :
    (f.copy n options).1 = f.size ∧
      ((f.outline n).numbered f.size).map Prod.fst = (f.copy n options).2.outline f.size ∧
      ∀ p ∈ ((f.outline n).numbered f.size).preorder,
        ((f.copy n options).2.node p.1).toElement = f.copiedElement options p.2 := by
  obtain ⟨hid, hext, hholds⟩ := plant_spec f none ((f.outline n).map (f.copiedElement options))
  have hsize := size_map Prod.snd ((f.outline n).numbered f.size)
  rw [map_snd_numbered] at hsize
  rw [numbered_map] at hholds
  unfold copy
  refine ⟨hid, ?_, fun p hp => ?_⟩
  · have hout := outline_of_hangs hholds.hangs (by rw [hext.size, size_map, size_map]; omega)
    rw [label_map, label_numbered, Tree.map_map] at hout
    exact hout.symm
  · apply hholds.hangs.element (b := Prod.map id (f.copiedElement options) p)
    rw [preorder_map]
    exact List.mem_map_of_mem hp

/-- **The node in its new place**: the same tree stands there, each node of it with cleaned
formatting. -/
theorem WellFormed.relocated (h : f.WellFormed) (hn : n < f.size) (hk : f.kind n ≠ .root)
    (hr : f.Relocates n C keep g m) : g.WellFormed ∧ m < g.size ∧
      ∃ t : Tree (NodeId × NodeId), t.map Prod.snd = f.outline n ∧ t.map Prod.fst = g.outline m ∧
        ∀ p ∈ t.preorder, f.Resembles g keep p.2 p.1 := by
  cases hr with
  | move hg =>
    have hwf := h.cleanRaws n (f.top n = f.top C)
    have hn' : n < (f.cleanRaws n (f.top n = f.top C)).size := by rwa [size_cleanRaws]
    have hdata := node_cleanRaws (·.data) (fun _ _ => rfl) f n (f.top n = f.top C)
    have hk' : (f.cleanRaws n (f.top n = f.top C)).kind n ≠ .root := by
      rwa [kind, Node.kind, hdata]
    obtain ⟨hgwf, hsize⟩ := hwf.insert_one hn' (moveTo_ok hg)
    obtain ⟨hout, hkept⟩ := hwf.insert_tree hn' hk' (moveTo_ok hg)
    rw [h.outline_cleanRaws hn] at hout hkept
    refine ⟨hgwf, by rwa [hsize], (f.outline n).map fun x => (x, x), ?_, ?_, fun p hp => ?_⟩
    · rw [Tree.map_map]
      exact Tree.map_id _
    · rw [Tree.map_map, hout]
      exact Tree.map_id _
    · rw [preorder_map] at hp
      obtain ⟨x, hx, rfl⟩ := List.mem_map.1 hp
      refine resembles_of_insert (hdata x) ?_ (hkept x hx)
      unfold Forest.cleanRaws
      rw [raws_cleanAll, if_pos hx]
  | @copy stripSource m f' g hcopy hg =>
    have hwf := h.copy n { stripSource, cleanRaws := true }
    have hm := f.copy_lt_size n { stripSource, cleanRaws := true }
    obtain ⟨hid, hout, helement⟩ := f.copy_spec n { stripSource, cleanRaws := true }
    rw [hcopy] at hwf hm hid hout helement
    simp only at hwf hm hid hout helement
    subst hid
    have hdata : ∀ p ∈ ((f.outline n).numbered f.size).preorder, f'.data p.1 = f.data p.2 := by
      intro p hp
      rw [data, helement p hp]
      rfl
    have htop : (f.size, n) ∈ ((f.outline n).numbered f.size).preorder := by
      have hlabel := label_numbered f.size (f.outline n)
      rw [label_outline] at hlabel
      rw [preorder_eq, hlabel]
      exact .head _
    have hk' : f'.kind f.size ≠ .root := by
      show (f'.data f.size).kind ≠ .root
      rwa [hdata _ htop]
    obtain ⟨hgwf, hsize⟩ := hwf.insert_one hm hg
    obtain ⟨hout', hkept⟩ := hwf.insert_tree hm hk' hg
    refine ⟨hgwf, by rwa [hsize], (f.outline n).numbered f.size, map_snd_numbered _ _,
      hout.trans hout'.symm, fun p hp => ?_⟩
    refine resembles_of_insert (hdata p hp) ?_ (hkept p.1 ?_)
    · exact congrArg Element.raws (helement p hp)
    · rw [← hout, preorder_map]
      exact List.mem_map_of_mem hp

end Forest

end Stylesheet
