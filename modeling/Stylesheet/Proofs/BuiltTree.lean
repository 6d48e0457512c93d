import Stylesheet.Proofs.Forest.Edits
import Stylesheet.Proofs.Parse.Reread
import Stylesheet.Proofs.RoundTrip
import Stylesheet.Proofs.SourceMap.Openings

/-!
# Reading what was built

A tree that is made by constructors and insertions alone has no formatting of its own
(`Edit.unformatted_trail`). Printed and read again, it is the tree it was, up to the comments that
stand behind an at-rule without a block at the end of a container: no semicolon is printed behind
such an at-rule, so it takes them in (`shape_parse_built`).
-/

set_option autoImplicit false

namespace Stylesheet

open Stylesheet.Text Stylesheet.Tree

/-! ## Building -/

/-- A constructor or an insertion. -/
def Edit.Builds : Edit → Prop
  | new _ | withBlock _ | insert _ _ _ | insertBefore _ _ | insertAfter _ _ => True
  | _ => False

namespace Forest

/-- No node has formatting of its own. -/
def Unformatted (f : Forest) : Prop := ∀ id, f.raws id = Raws.empty

namespace Unformatted

variable {f g : Forest} {id parent : NodeId}

theorem modify (h : f.Unformatted) {k : Node → Node}
    (hk : ∀ n : Node, n.raws = Raws.empty → (k n).raws = Raws.empty) :
    (f.modify id k).Unformatted := by
  intro p
  rw [raws, node_modify]
  split
  · exact hk _ (h id)
  · exact h p

theorem foldl {step : Forest → NodeId → Forest}
    (hstep : ∀ f id, f.Unformatted → (step f id).Unformatted) (ids : List NodeId)
    (h : f.Unformatted) : (ids.foldl step f).Unformatted := by
  induction ids generalizing f with
  | nil => exact h
  | cons id ids ih => exact ih (hstep f id h)

theorem add (h : f.Unformatted) (data : NodeData) : (f.add (Node.new data)).2.Unformatted := by
  intro id
  rcases Nat.lt_trichotomy id f.size with hlt | rfl | hgt
  · rw [raws, node_add_of_lt _ hlt]
    exact h id
  · have hself := node_add_self f (Node.new data)
    rw [show (f.add (Node.new data)).1 = f.size from rfl] at hself
    rw [raws, hself]
    rfl
  · rw [raws, node_of_le (by rw [size_add]; exact hgt)]
    rfl

theorem removeAt (h : f.Unformatted) (index : Nat) : (f.removeAt parent index).2.Unformatted := by
  unfold Forest.removeAt
  split
  · exact h
  · refine modify (h.modify ?_) ?_ <;> exact fun n hn => hn

theorem detach (h : f.Unformatted) (id : NodeId) : (f.detach id).2.Unformatted := by
  unfold Forest.detach
  split
  · exact h.removeAt _
  · refine h.modify ?_
    exact fun n hn => hn

theorem clear (h : f.Unformatted) (parent : NodeId) : (f.clear parent).2.Unformatted := by
  unfold Forest.clear
  refine foldl (fun f id h => h.modify ?_) _ (h.modify ?_) <;> exact fun n hn => hn

theorem flatten (h : f.Unformatted) (reference : Option NodeId) (incoming : List NodeId) :
    (f.flatten reference incoming).2.Unformatted := by
  induction incoming generalizing f with
  | nil => exact h
  | cons id rest ih =>
    by_cases hk : f.kind id = .root
    · rw [flatten_root hk]
      exact ih (h.clear id)
    · rw [flatten_single hk]
      exact ih h

/-- There is no sibling whose blanks a node could take over. -/
theorem sampleBefore (h : f.Unformatted) (parent : NodeId) (anchor : Anchor) :
    f.sampleBefore parent anchor = none := by
  unfold Forest.sampleBefore
  extract_lets sibling
  cases sibling with
  | none => rfl
  | some id =>
    rw [Option.bind_some, h id]
    rfl

theorem insert (h : f.Unformatted) {anchor : Anchor} {incoming : List NodeId}
    (hg : f.insert parent anchor incoming = .ok g) : g.Unformatted := by
  have hflat := h.flatten anchor.reference? incoming
  rcases insert_cases hg with ⟨-, rfl⟩ | ⟨sample, g', rfl, rfl, -, rfl⟩
  · exact hflat
  · rw [hflat.sampleBefore]
    refine modify (foldl (fun f id h => (h.detach id).modify ?_) _ hflat) ?_ <;>
      exact fun n hn => hn

end Unformatted

end Forest

namespace Edit

theorem unformatted_run {f : Forest} (h : f.Unformatted) {e : Edit} (he : e.Builds) :
    (e.run f).Unformatted := by
  have hinsert : ∀ {parent anchor incoming},
      (orElse f (f.insert parent anchor incoming)).Unformatted := by
    intro parent anchor incoming
    cases hg : f.insert parent anchor incoming with
    | error e => exact h
    | ok g => exact h.insert hg
  cases e with
  | new data => exact h.add data
  | withBlock id =>
    refine h.modify ?_
    exact fun n hn => hn
  | insert parent anchor incoming => exact hinsert
  | insertBefore id added =>
    simp only [run, Forest.insertBefore]
    cases f.parent? id with
    | none => exact h
    | some parent => exact hinsert
  | insertAfter id added =>
    simp only [run, Forest.insertAfter]
    cases f.parent? id with
    | none => exact h
    | some parent => exact hinsert
  | _ => exact he.elim

/-- **Building adds no formatting.** -/
theorem unformatted_trail {es : List Edit} (hb : ∀ e ∈ es, e.Builds) {f : Forest}
    (h : f.Unformatted) : ∀ g ∈ trail f es, g.Unformatted := by
  induction es generalizing f with
  | nil => exact fun g hg => List.mem_singleton.1 hg ▸ h
  | cons e es ih =>
    obtain ⟨he, hes⟩ := List.forall_mem_cons.1 hb
    exact List.forall_mem_cons.2 ⟨h, ih hes (unformatted_run h he)⟩

end Edit

/-! ## The shape of a tree that was read -/

namespace Forest

mutual

/-- What the nodes of a tree in a forest say. -/
theorem map_data_of_hangs {f : Forest} : {parent : Option NodeId} →
    (t : Tree (NodeId × Element)) → f.Hangs parent t →
    (t.map Prod.fst).map f.data = t.map (·.2.data)
  | _, .leaf a, h => by simp only [Tree.map, Sits.data h]
  | _, .block a ts, h => by simp only [Tree.map, h.1.data, mapAll_data_of_hangs ts h.2]

theorem mapAll_data_of_hangs {f : Forest} : {parent : NodeId} →
    (ts : List (Tree (NodeId × Element))) → f.HangsAll parent ts →
    mapAll f.data (mapAll Prod.fst ts) = mapAll (·.2.data) ts
  | _, [], _ => rfl
  | _, t :: ts, h => by
    simp only [mapAll, map_data_of_hangs t h.1, mapAll_data_of_hangs ts h.2]

end

/-- The shape of a tree that was read. -/
theorem Keeps.shape {f : Forest} {root : NodeId} {input : InputId} {i : Input} {a : Parsed}
    {ts : List (Tree Parsed)} (h : f.Keeps root input i a ts) :
    f.shape root = (Tree.block a ts).map Parsed.data := by
  have hout := outline_of_hangs h.hangs h.size_numbered_le
  rw [Tree.label] at hout
  rw [Forest.shape, hout, map_data_of_hangs _ h.hangs, Tree.map, Tree.map, Tree.mapAll_mapAll]
  conv => rhs; rw [← mapAll_snd_numberedAll (root + 1) ts, Tree.mapAll_mapAll]
  rfl

end Forest

/-! ## Lost comments -/

namespace Tree

mutual

/-- Whether a comment in the tree stands behind an at-rule without a block, with comments between
them at most and behind it. -/
def loses : Tree NodeData → Bool
  | .leaf _ => false
  | .block _ ts => losesAll ts

/-- Whether one of the comments is lost. -/
def losesAll : List (Tree NodeData) → Bool
  | [] => false
  | t :: ts => loses t || (t.isStatement && onlyComments ts && !ts.isEmpty) || losesAll ts

end

mutual

theorem absorbed_eq_iff : (t : Tree NodeData) → (t.absorbed = t ↔ t.loses = false)
  | .leaf d => iff_of_true rfl rfl
  | .block d ts => by rw [absorbed, loses, Tree.block.injEq, absorbedAll_eq_iff ts]; simp

/-- Only lost comments make a difference. -/
theorem absorbedAll_eq_iff : (ts : List (Tree NodeData)) →
    (absorbedAll ts = ts ↔ losesAll ts = false)
  | [] => iff_of_true rfl rfl
  | t :: ts => by
    rw [absorbedAll, losesAll, List.cons.injEq, absorbed_eq_iff t, Bool.or_eq_false_iff,
      Bool.or_eq_false_iff, ← absorbedAll_eq_iff ts, and_assoc]
    refine and_congr_right fun _ => ?_
    cases ht : t.isStatement && onlyComments ts with
    | false => simp
    | true =>
      cases ts with
      | nil => simp [absorbedAll]
      | cons u us => simp

end

end Tree

/-! ## Printing and reading -/

namespace Forest

variable {f : Forest} {root : NodeId} {ts : List (Tree NodeData)}

/-- A tree without formatting can be read again. -/
theorem Bare.parse_css (h : f.Bare root) (hf : f.WellFormed) (hts : f.shape root = .block .root ts)
    (hw : isWordedAll ts = true) (g : Forest) (files : Files) (file : Option String)
    {s : MapSetting} (hs : s.options?.bind (·.previous) = none) :
    ∃ root' g', g.parse files (f.css root) file s = .ok (root', g') ∧
      g'.shape root' = .block .root (absorbedAll ts) := by
  have hcss := h.css_eq hf hts hw
  have hplain := plainChars_spellRoot hw
  rw [← hcss] at hplain
  have hbom : (f.css root).toList.head?.any Input.isBom = false := by
    cases hc : (f.css root).toList.head? with
    | none => rfl
    | some c =>
      have hmem := hplain c (List.mem_of_head? hc)
      rw [Option.any_some, ← Bool.not_eq_true]
      intro hbom
      simp only [Input.isBom, Bool.or_eq_true, decide_eq_true_eq] at hbom
      rcases hbom with rfl | rfl <;> cases hmem
  have hlink : MapLink.lastOpening? (f.css root).toList = none :=
    MapLink.lastOpening?_of_not_mem (fun _ => MapLink.IsOpening.hash_mem) fun hmem =>
      nomatch hplain '#' hmem
  have htext := Input.dropBom_eq hbom
  have hmake := Input.make_of_discover (PreviousMap.discover_none files file hs
    (htext.symm ▸ hlink))
  obtain ⟨t, hparse, hshape⟩ := Parser.parse_spellRoot hw
  rw [← hcss] at hparse
  obtain ⟨root', g', hg⟩ := @parse_of_statements g files (f.css root) file s _ t hmake
    (by rw [htext]; exact hparse)
  refine ⟨root', g', hg, ?_⟩
  obtain ⟨i, a, us, hi, -, -, -, hreads⟩ := parse_spec hg
  rw [hmake] at hi
  cases hi
  have heq := hreads.parsed
  simp only [htext, hparse, Except.ok.injEq] at heq
  rw [hreads.keeps.shape, ← heq, hshape]

/-- **Reading what was built.** A tree in words that constructors and insertions make can be read
again when it was printed, and comes back as it was, exactly as long as no comment in it is
lost. -/
theorem shape_parse_built {es : List Edit} (hb : ∀ e ∈ es, e.Builds)
    (hmem : f ∈ Edit.trail .empty es) (hf : f.WellFormed)
    (hts : f.shape root = .block .root ts) (hw : isWordedAll ts = true)
    (g : Forest) (files : Files) (file : Option String)
    {s : MapSetting} (hs : s.options?.bind (·.previous) = none) :
    ∃ root' g', g.parse files (f.css root) file s = .ok (root', g') ∧
      g'.shape root' = .block .root (absorbedAll ts) ∧
      (g'.shape root' = f.shape root ↔ losesAll ts = false) := by
  have hplain : f.Unformatted := Edit.unformatted_trail hb (fun _ => rfl) f hmem
  have hbare : f.Bare root := fun id _ => hplain id
  obtain ⟨root', g', hg, hshape⟩ := hbare.parse_css hf hts hw g files file hs
  refine ⟨root', g', hg, hshape, ?_⟩
  rw [hshape, hts, Tree.block.injEq, absorbedAll_eq_iff]
  exact and_iff_right rfl

/-- Nodes of all kinds. The rule gets its children before it is put into the stylesheet, and one
more behind. -/
theorem shape_parse_built_mixed :
    let es : List Edit := [.new .root, .new (.atRule "import" "x"), .new (.rule "a"),
      .new (.declaration "color" "red" true), .new (.comment "y"), .insert 2 .stop [4],
      .insert 0 .stop [1, 2], .insertAfter 4 3]
    let ts : List (Tree NodeData) := [.leaf (.atRule "import" "x"),
      .block (.rule "a") [.leaf (.comment "y"), .leaf (.declaration "color" "red" true)]]
    ∃ f ∈ Edit.trail .empty es, f.WellFormed ∧ f.shape 0 = .block .root ts ∧ ∃ root' g',
      Forest.parse .empty .empty (f.css 0) none .auto = .ok (root', g') ∧
      g'.shape root' = .block .root ts := by
  intro es ts
  have hb : ∀ e ∈ es, e.Builds := by simp [es, Edit.Builds]
  obtain ⟨f, hmem, hf, hts⟩ := Edit.exists_last es (fun f => f.shape 0 = .block .root ts)
    (by decide +kernel) (by decide +kernel) rfl
  obtain ⟨root', g', hg, -, hsame⟩ :=
    shape_parse_built hb hmem hf hts (by decide +kernel) .empty .empty none (s := .auto) rfl
  exact ⟨f, hmem, hf, hts, root', g', hg, (hsame.2 (by decide +kernel)).trans hts⟩

/-- A comment behind an import at the end is not found again. -/
theorem not_shape_parse_comment : ¬ ∀ (es : List Edit), (∀ e ∈ es, e.Builds) →
    ∀ f ∈ Edit.trail .empty es, f.WellFormed → ∀ root ts, f.shape root = .block .root ts →
      isWordedAll ts = true → ∃ root' g',
        Forest.parse .empty .empty (f.css root) none .auto = .ok (root', g') ∧
        g'.shape root' = f.shape root := by
  intro hall
  let es : List Edit := [.new .root, .new (.atRule "import" "x"), .new (.comment "y"),
    .insert 0 .stop [1, 2]]
  let ts : List (Tree NodeData) := [.leaf (.atRule "import" "x"), .leaf (.comment "y")]
  have hb : ∀ e ∈ es, e.Builds := by simp [es, Edit.Builds]
  obtain ⟨f, hmem, hf, hts⟩ := Edit.exists_last es (fun f => f.shape 0 = .block .root ts)
    (by decide +kernel) (by decide +kernel) rfl
  have hw : isWordedAll ts = true := by decide +kernel
  have hbare : f.Bare 0 := fun id _ => Edit.unformatted_trail hb (fun _ => rfl) f hmem id
  obtain ⟨root', g', hg, hsame⟩ := hall es hb f hmem hf 0 ts hts hw
  obtain ⟨_, _, hg', hshape⟩ := hbare.parse_css hf hts hw .empty .empty none (s := .auto) rfl
  cases hg.symm.trans hg'
  rw [hshape, hts, Tree.block.injEq, absorbedAll_eq_iff] at hsame
  exact absurd hsame.2 (by decide +kernel)

end Forest

end Stylesheet
