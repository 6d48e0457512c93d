import Stylesheet.Proofs.SourceMap.Marks

/-!
# Looking up marks

The tokens of marks that stand in the order of a text are in order already, and where a mark leads
to the map has a token that leads to itself (`Reflects.lookup`). So a map of such marks can be taken
through a second one: every place stays (`Reflects.build_traced`).
-/

set_option autoImplicit false

namespace Stylesheet

open Stylesheet.Text

variable {text : List Char} {ms : List Mark} {ts : List MapToken} {k : Mark}

/-- Where a token stands, and where it leads to. -/
def MapToken.places (t : MapToken) : OutputPlace × OutputPlace :=
  (⟨t.dstLine, t.dstCol⟩, ⟨t.srcLine, t.srcCol⟩)

/-- Where a mark stands, and where it leads to. -/
def Mark.places (text : List Char) (k : Mark) : OutputPlace × OutputPlace :=
  (placeAt text k.dst, placeAt text k.src)

theorem MapToken.le_iff (s t : MapToken) :
    s.le t = true ↔ s.places.1.Before t.places.1 ∨ s.places.1 = t.places.1 := by
  simp only [le, atOrBefore, places, OutputPlace.Before, OutputPlace.mk.injEq, Bool.or_eq_true,
    Bool.and_eq_true, decide_eq_true_eq]
  omega

theorem MapToken.isAt_iff (t : MapToken) (p : OutputPlace) :
    t.isAt p.line p.col = true ↔ t.places.1 = p := by
  cases p
  simp [isAt, places]

namespace Reflects

/-- The tokens of marks in the order of the text are in order. -/
theorem sortTokens_eq (h : Reflects text ms)
    (ht : ts.map MapToken.places = ms.map (Mark.places text)) : SourceMap.sortTokens ts = ts := by
  refine List.mergeSort_of_pairwise ?_
  have hplaces : (ms.map (Mark.places text)).Pairwise fun p q => p.1.Before q.1 ∨ p.1 = q.1 := by
    refine List.pairwise_map.2 (h.sorted.imp_of_mem fun hm hn hmn => ?_)
    rcases hmn with hlt | rfl
    · exact .inl ((h.isStart _ hm).before (h.isStart _ hn) hlt)
    · exact .inr rfl
  rw [← ht] at hplaces
  exact (List.pairwise_map.1 hplaces).imp fun hst => (MapToken.le_iff _ _).2 hst

/-- Marks at the same place are the same. -/
theorem eq_of_places (h : Reflects text ms) {m n : Mark} (hm : m ∈ ms) (hn : n ∈ ms)
    (he : placeAt text m.dst = placeAt text n.dst) : m = n := by
  have hne {a b : Mark} (ha : a ∈ ms) (hb : b ∈ ms) (he : placeAt text a.dst = placeAt text b.dst) :
      ¬a.dst < b.dst := by
    intro hlt
    have := (h.isStart a ha).before (h.isStart b hb) hlt
    rw [he] at this
    unfold OutputPlace.Before at this
    omega
  have hdst : m.dst = n.dst := Nat.le_antisymm (Nat.not_lt.1 (hne hn hm he.symm))
    (Nat.not_lt.1 (hne hm hn he))
  have hpairs : ms.Pairwise fun m n => m.dst = n.dst → m = n :=
    h.sorted.imp fun hmn he => hmn.resolve_left fun hlt => by omega
  exact hpairs.forall_of_forall_of_flip (fun _ _ _ => rfl)
    (hpairs.imp fun hmn he => (hmn he.symm).symm) hm hn hdst

/-- What stands behind the text does not move the places of its marks. -/
theorem places_append (h : Reflects text ms) (more : List Char) :
    ms.map (Mark.places (text ++ more)) = ms.map (Mark.places text) := by
  refine List.map_congr_left fun k hk => ?_
  rw [Mark.places, (h.isStart k hk).placeAt_append,
    (h.isStart _ (h.reflects k hk)).placeAt_append]
  rfl

/-- **Where a mark leads to there is a token** that leads to itself, and it is the one that is found
there. -/
theorem lookup (h : Reflects text ms) {m : SourceMap}
    (ht : m.tokens.map MapToken.places = ms.map (Mark.places text))
    (hrange : ∀ t ∈ m.tokens, t.range = false) (hk : k ∈ ms) :
    ∃ u ∈ m.tokens, m.lookup (placeAt text k.src).line (placeAt text k.src).col = some u ∧
      u.places = (placeAt text k.src, placeAt text k.src) := by
  have hself := List.mem_map_of_mem (f := Mark.places text) (h.reflects k hk)
  rw [← ht] at hself
  obtain ⟨t, htmem, htplaces⟩ := List.mem_map.1 hself
  have hat : t.isAt (placeAt text k.src).line (placeAt text k.src).col = true :=
    (MapToken.isAt_iff _ _).2 (congrArg Prod.fst htplaces)
  cases hfind : m.tokens.find?
      (MapToken.isAt · (placeAt text k.src).line (placeAt text k.src).col) with
  | none => exact absurd hat (by simpa using List.find?_eq_none.1 hfind t htmem)
  | some u =>
    have humem := List.mem_of_find?_eq_some hfind
    have huat := List.find?_some hfind
    rw [MapToken.isAt_iff] at huat
    have humark := List.mem_map_of_mem (f := MapToken.places) humem
    rw [ht] at humark
    obtain ⟨n, hn, hnplaces⟩ := List.mem_map.1 humark
    obtain rfl := h.eq_of_places hn (h.reflects k hk) (by rw [← huat, ← hnplaces]; rfl)
    refine ⟨u, humem, ?_, hnplaces.symm⟩
    unfold SourceMap.lookup
    simp [hfind, MapToken.shiftedTo, hrange u humem]

end Reflects

/-! ## Maps of marks -/

namespace Reflects

variable {inputs : InputId → Option Input} {input : InputId} {i : Input} {name : String}

/-- The map of marks whose tokens all lead to one source. -/
theorem build_eq (naming : Naming) (withContents : Bool) (h : Reflects text ms)
    (hleads : ∀ k ∈ ms, SourceMap.LeadsOn inputs (k.mapping text input))
    (htokens : ∀ k ∈ ms, ∀ sources names t,
      SourceMap.Renders inputs naming sources names (k.mapping text input) t →
        t.places = k.places text ∧ SourceMap.Indexes sources t.source (some name)) :
    let m := SourceMap.build inputs naming withContents (ms.map (Mark.mapping text input))
    m.tokens.map MapToken.places = ms.map (Mark.places text) ∧
      (∀ t ∈ m.tokens, t.range = false) ∧ ∀ t ∈ m.tokens, m.sourceOf t = some name := by
  intro m
  have hleads := List.forall_mem_map.2 hleads
  obtain ⟨ts, hts, hrenders⟩ := SourceMap.build_renders hleads naming withContents
  have hall := (List.forall₂_and_left ms ts).2
    ⟨fun k hk => hk, List.forall₂_map_left_iff.1 hrenders⟩
  have hall : List.Forall₂ (fun k t => t.places = k.places text ∧ m.sourceOf t = some name) ms ts :=
    hall.imp fun k t ⟨hk, hr⟩ => by
      obtain ⟨hplaces, hsource⟩ := htokens k hk _ _ t hr
      exact ⟨hplaces, hsource.bind_eq⟩
  have hplaces : ts.map MapToken.places = ms.map (Mark.places text) := by
    have heq : List.Forall₂ Eq (ms.map (Mark.places text)) (ts.map MapToken.places) :=
      List.forall₂_map_left_iff.2 (List.forall₂_map_right_iff.2 (hall.imp fun _ _ hkt => hkt.1.symm))
    rw [List.forall₂_eq_eq_eq] at heq
    exact heq.symm
  have hrange := SourceMap.range_build hleads naming withContents
  rw [h.sortTokens_eq hplaces] at hts
  rw [hts] at hrange ⊢
  refine ⟨hplaces, hrange, fun t ht => ?_⟩
  obtain ⟨k, -, -, hsource⟩ := SourceMap.exists_of_mem_right hall ht
  exact hsource

/-- **The map of marks in an input that is itself a source.** -/
theorem build_own (naming : Naming) (withContents : Bool) (h : Reflects text ms)
    (hi : inputs input = some i) (hmap : i.map = none) :
    let m := SourceMap.build inputs naming withContents (ms.map (Mark.mapping text input))
    m.tokens.map MapToken.places = ms.map (Mark.places text) ∧
      (∀ t ∈ m.tokens, t.range = false) ∧
      ∀ t ∈ m.tokens, m.sourceOf t = some (naming.sourceName i.name) := by
  refine h.build_eq naming withContents (fun k _ => ⟨i, hi, fun previous hp => ?_⟩)
    fun k _ sources names t ht => ?_
  · rw [hmap] at hp
    cases hp
  · obtain ⟨⟨hline, hcol, hsrcLine, hsrcCol⟩, hsource, -⟩ := ht.own_spec hi hmap
    refine ⟨?_, hsource⟩
    simp [MapToken.places, Mark.places, hline, hcol, hsrcLine, hsrcCol, Mark.mapping]

/-- **The map of marks in an input that came with a map of the same marks**: every place stays. -/
theorem build_traced (naming : Naming) (withContents : Bool) (h : Reflects text ms)
    {previous : PreviousMap} (hi : inputs input = some i) (hmap : i.map = some previous)
    (ht : previous.map.tokens.map MapToken.places = ms.map (Mark.places text))
    (hrange : ∀ t ∈ previous.map.tokens, t.range = false)
    (hsource : ∀ t ∈ previous.map.tokens, previous.map.sourceOf t = some name) :
    (∀ k ∈ ms, (previous.tokenAt? (placeAt text k.src).line (placeAt text k.src).col).bind
      previous.map.sourceOf = some name) ∧
    let m := SourceMap.build inputs naming withContents (ms.map (Mark.mapping text input))
    m.tokens.map MapToken.places = ms.map (Mark.places text) ∧
      (∀ t ∈ m.tokens, t.range = false) ∧
      ∀ t ∈ m.tokens, m.sourceOf t = some (naming.previousSourceName previous.root name) := by
  have htoken : ∀ k ∈ ms, ∃ u, previous.tokenAt? (placeAt text k.src).line (placeAt text k.src).col =
      some u ∧ previous.map.sourceOf u = some name ∧ u.places.2 = placeAt text k.src := by
    intro k hk
    obtain ⟨u, hu, hlookup, hplaces⟩ := h.lookup ht hrange hk
    have hline : u.dstLine = (placeAt text k.src).line :=
      congrArg (fun p => p.1.line) hplaces
    refine ⟨u, ?_, hsource u hu, congrArg Prod.snd hplaces⟩
    rw [PreviousMap.tokenAt?, hlookup, Option.filter_some, if_pos (by simpa using hline)]
  refine ⟨fun k hk => ?_, ?_⟩
  · obtain ⟨u, hu, hname, -⟩ := htoken k hk
    rw [hu]
    exact hname
  · refine h.build_eq naming withContents (fun k hk => ⟨i, hi, fun previous' hp => ?_⟩)
      fun k hk sources names t ht => ?_
    · rw [hmap, Option.some.injEq] at hp
      subst hp
      obtain ⟨u, hu, hname, -⟩ := htoken k hk
      exact ⟨u, name, hu, hname⟩
    · obtain ⟨u, hu, hname, hsrc⟩ := htoken k hk
      obtain ⟨⟨hline, hcol, hsrcLine, hsrcCol⟩, hsource', -⟩ := ht.traced_spec hi hmap hu hname
      refine ⟨?_, hsource'⟩
      rw [Mark.places, ← hsrc]
      simp [MapToken.places, hline, hcol, hsrcLine, hsrcCol, Mark.mapping]

end Reflects

/-! ## Maps of trees -/

namespace Forest

variable {f : Forest} {root : NodeId} {input : InputId} {i : Input} {a : Parsed}
  {ts : List (Tree Parsed)}

/-- The map of a text that was read and not changed. -/
theorem Keeps.build_own (naming : Naming) (withContents : Bool) (h : f.Keeps root input i a ts)
    (hs : Stands i.text.toList (a.body ts)) (hmap : i.map = none) :
    let m := SourceMap.build f.input? naming withContents
      (f.mappings .skip .start (f.print root))
    m.tokens.map MapToken.places =
        (Piece.marksAll 0 (a.body ts)).map (Mark.places i.text.toList) ∧
      (∀ t ∈ m.tokens, t.range = false) ∧
      ∀ t ∈ m.tokens, m.sourceOf t = some (naming.sourceName i.name) := by
  rw [h.mappings hs fun _ _ _ _ => by simp [resolves, h.input, hmap]]
  exact hs.reflects.build_own naming withContents h.input hmap

/-- The map of a text that was read with a map of its own marks, and not changed. -/
theorem Keeps.build_traced (naming : Naming) (withContents : Bool) (h : f.Keeps root input i a ts)
    (hs : Stands i.text.toList (a.body ts)) {previous : PreviousMap} {name : String} (hmap : i.map = some previous)
    (ht : previous.map.tokens.map MapToken.places =
      (Piece.marksAll 0 (a.body ts)).map (Mark.places i.text.toList))
    (hrange : ∀ t ∈ previous.map.tokens, t.range = false)
    (hsource : ∀ t ∈ previous.map.tokens, previous.map.sourceOf t = some name) :
    let m := SourceMap.build f.input? naming withContents
      (f.mappings .skip .start (f.print root))
    m.tokens.map MapToken.places =
        (Piece.marksAll 0 (a.body ts)).map (Mark.places i.text.toList) ∧
      ∀ t ∈ m.tokens, m.sourceOf t = some (naming.previousSourceName previous.root name) := by
  obtain ⟨htoken, hplaces, -, hsources⟩ := hs.reflects.build_traced naming withContents
    h.input hmap ht hrange hsource
  rw [h.mappings hs fun k hk p hp => ?_]
  · exact ⟨hplaces, hsources⟩
  · have hk := htoken k hk
    rw [← hp] at hk
    unfold resolves
    rw [h.input, Option.bind_some, hmap]
    exact congrArg Option.isSome hk

end Forest

end Stylesheet
