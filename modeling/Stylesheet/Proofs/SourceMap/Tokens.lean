import Stylesheet.Proofs.SourceMap.Places
import Stylesheet.SourceMap.Builder
import Mathlib.Data.List.Forall2

/-!
# The tokens of a map

`mem_mappings`: every mapping of printed text is one of a fragment, at the place behind the
fragments before it. `build_tokens`: where all mappings lead into inputs without maps, the tokens
of the map are these mappings, in another order.
-/

set_option autoImplicit false

namespace Stylesheet

open Stylesheet.Text

/-! ## Mappings -/

theorem Fragment.concat_cons (x : Fragment) (xs : List Fragment) :
    concat (x :: xs) = x.text ++ concat xs := by
  refine String.ext ?_
  simp [concat]

theorem Fragment.concat_append (xs ys : List Fragment) :
    concat (xs ++ ys) = concat xs ++ concat ys := by
  refine String.ext ?_
  simp [concat]

/-- A mapping of fragments is one of a single fragment. -/
theorem Forest.mem_mappings {f : Forest} {policy : UnmappedPolicy} {m : Mapping}
    {fs : List Fragment} {place : OutputPlace} : m ∈ f.mappings policy place fs ↔
      ∃ before x behind, fs = before ++ x :: behind ∧
        m ∈ f.fragmentMappings policy (place.after (Fragment.concat before)) x := by
  induction fs generalizing place with
  | nil => simp [mappings]
  | cons y fs ih =>
    rw [mappings, List.mem_append, ih]
    constructor
    · rintro (h | ⟨before, x, behind, rfl, h⟩)
      · exact ⟨[], y, fs, rfl, h⟩
      · refine ⟨y :: before, x, behind, rfl, ?_⟩
        rwa [Fragment.concat_cons, OutputPlace.after_eq, String.toList_append,
          OutputPlace.afterChars_append]
    · rintro ⟨before, x, behind, he, h⟩
      cases before with
      | nil => cases he; exact .inl h
      | cons z before =>
        cases he
        rw [Fragment.concat_cons, OutputPlace.after_eq, String.toList_append,
          OutputPlace.afterChars_append] at h
        exact .inr ⟨before, x, behind, rfl, h⟩

/-! ## Tokens -/

/-- The token says the same as the mapping. -/
def MapToken.Says (t : MapToken) (m : Mapping) : Prop :=
  t.dstLine = m.dstLine ∧ t.dstCol = m.dstCol ∧ t.srcLine = m.srcLine ∧ t.srcCol = m.srcCol

namespace SourceMap

/-- Every token says what a mapping says, and every mapping is said by a token. -/
def Spell (ts : List MapToken) (ms : List Mapping) : Prop :=
  (∀ t ∈ ts, ∃ m ∈ ms, t.Says m) ∧ ∀ m ∈ ms, ∃ t ∈ ts, t.Says m

/-- A mapping that can be carried on: its input is there, and if this has a map, the map leads the
place to a source. -/
def LeadsOn (inputs : InputId → Option Input) (m : Mapping) : Prop :=
  ∃ i, inputs m.input = some i ∧ ∀ previous, i.map = some previous →
    ∃ u name, previous.tokenAt? m.srcLine m.srcCol = some u ∧ previous.map.sourceOf u = some name

/-- The index is that of a name in the list; there is none if there is no name. -/
def Indexes (list : List String) : Option Nat → Option String → Prop :=
  Option.Rel fun k name => list[k]? = some name

theorem Indexes.of_findIdx? {list : List String} {k : Nat} {name : String}
    (h : list.findIdx? (· = name) = some k) : Indexes list (some k) (some name) := by
  obtain ⟨hlt, hname, -⟩ := List.findIdx?_eq_some_iff_getElem.1 h
  exact .some (List.getElem?_eq_some_iff.2 ⟨hlt, of_decide_eq_true hname⟩)

theorem Indexes.mono {list list' : List String} {k : Option Nat} {name : Option String}
    (h : Indexes list k name) (hp : list <+: list') : Indexes list' k name := by
  obtain ⟨more, rfl⟩ := hp
  cases h with
  | none => exact .none
  | some h =>
    refine .some ?_
    rw [List.getElem?_append_left (List.getElem?_eq_some_iff.1 h).1, h]

theorem Indexes.bind_eq {list : List String} {k : Option Nat} {name : Option String}
    (h : Indexes list k name) : k.bind (list[·]?) = name := by
  cases h with
  | none => rfl
  | some h => exact h

/-- The token of a mapping, in a map with these sources and names: it leads to the place of the
mapping, or to where the map of its input leads this place. -/
inductive Renders (inputs : InputId → Option Input) (naming : Naming) (sources names : List String)
    (m : Mapping) (t : MapToken) : Prop
  | own {i : Input} : inputs m.input = some i → i.map = none → t.Says m →
      Indexes sources t.source (some (naming.sourceName i.name)) → Indexes names t.name none →
      Renders inputs naming sources names m t
  | traced {i : Input} {previous : PreviousMap} {u : MapToken} {name : String} :
      inputs m.input = some i → i.map = some previous →
      previous.tokenAt? m.srcLine m.srcCol = some u → previous.map.sourceOf u = some name →
      t.dstLine = m.dstLine ∧ t.dstCol = m.dstCol ∧ t.srcLine = u.srcLine ∧ t.srcCol = u.srcCol →
      Indexes sources t.source (some (naming.previousSourceName previous.root name)) →
      Indexes names t.name (previous.map.nameOf u) → Renders inputs naming sources names m t

/-- Sources and names that are listed later change nothing. -/
theorem Renders.mono {inputs : InputId → Option Input} {naming : Naming}
    {sources names sources' names' : List String} {m : Mapping} {t : MapToken}
    (h : Renders inputs naming sources names m t) (hs : sources <+: sources')
    (hn : names <+: names') : Renders inputs naming sources' names' m t := by
  cases h with
  | own hi hmap hsays hsource hname =>
    exact .own hi hmap hsays (hsource.mono hs) (hname.mono hn)
  | traced hi hmap hu hof hplaces hsource hname =>
    exact .traced hi hmap hu hof hplaces (hsource.mono hs) (hname.mono hn)

namespace Builder

variable {inputs : InputId → Option Input} {m : Mapping} {i : Input}

theorem addSource_spec (b : Builder) (name : String) (content : Option String) :
    Indexes (b.addSource name content).2.sources (some (b.addSource name content).1) (some name) ∧
      b.sources <+: (b.addSource name content).2.sources ∧
      (b.addSource name content).2.names = b.names ∧
      (b.addSource name content).2.tokens = b.tokens := by
  unfold addSource
  split
  · next k hk => exact ⟨.of_findIdx? hk, List.prefix_rfl, rfl, rfl⟩
  · exact ⟨.some (by simp), List.prefix_append .., rfl, rfl⟩

theorem addName_spec (b : Builder) (name : String) :
    Indexes (b.addName name).2.names (some (b.addName name).1) (some name) ∧
      b.names <+: (b.addName name).2.names ∧
      (b.addName name).2.sources = b.sources ∧ (b.addName name).2.tokens = b.tokens := by
  unfold addName
  split
  · next k hk => exact ⟨.of_findIdx? hk, List.prefix_rfl, rfl, rfl⟩
  · exact ⟨.some (by simp), List.prefix_append .., rfl, rfl⟩

/-- A builder behind another one: it lists what this lists, and has the token of one more
mapping. -/
structure Adds (inputs : InputId → Option Input) (naming : Naming) (m : Mapping) (t : MapToken)
    (b b' : Builder) : Prop where
  tokens : b'.tokens = b.tokens ++ [t]
  sources : b.sources <+: b'.sources
  names : b.names <+: b'.names
  renders : Renders inputs naming b'.sources b'.names m t
  range : t.range = false

theorem adds_own (hi : inputs m.input = some i) (hmap : i.map = none) (naming : Naming)
    (b : Builder) : ∃ t, Adds inputs naming m t b (b.addOwn naming i m) := by
  obtain ⟨hget, hs, hn, ht⟩ := b.addSource_spec (naming.sourceName i.name) (some i.text)
  unfold addOwn
  generalize b.addSource (naming.sourceName i.name) (some i.text) = r at hget hs hn ht ⊢
  obtain ⟨source, b'⟩ := r
  simp only at hget hs hn ht ⊢
  refine ⟨⟨m.dstLine, m.dstCol, some source, m.srcLine, m.srcCol, none, false⟩, ?_, hs, ?_,
    .own hi hmap ⟨rfl, rfl, rfl, rfl⟩ hget .none, rfl⟩
  · rw [← ht]
    rfl
  · rw [← hn]
    exact List.prefix_rfl

theorem adds_traced {previous : PreviousMap} {u : MapToken} {name : String}
    (hi : inputs m.input = some i) (hmap : i.map = some previous)
    (hu : previous.tokenAt? m.srcLine m.srcCol = some u)
    (hname : previous.map.sourceOf u = some name) (naming : Naming) (b : Builder) :
    ∃ t, Adds inputs naming m t b (b.addTraced naming previous m) := by
  obtain ⟨hget, hs, hn, ht⟩ := b.addSource_spec (naming.previousSourceName previous.root name)
    (u.source.bind previous.map.contentOf)
  unfold addTraced
  simp only [hu, hname]
  generalize b.addSource (naming.previousSourceName previous.root name)
    (u.source.bind previous.map.contentOf) = r at hget hs hn ht ⊢
  obtain ⟨source, b'⟩ := r
  simp only at hget hs hn ht ⊢
  rcases hnm : previous.map.nameOf u with _ | nm <;> simp only
  · refine ⟨⟨m.dstLine, m.dstCol, some source, u.srcLine, u.srcCol, none, false⟩, ?_, hs, ?_,
      .traced hi hmap hu hname ⟨rfl, rfl, rfl, rfl⟩ hget (by rw [hnm]; exact .none), rfl⟩
    · rw [← ht]
      rfl
    · rw [← hn]
      exact List.prefix_rfl
  · obtain ⟨hget', hn', hs', ht'⟩ := b'.addName_spec nm
    generalize b'.addName nm = r' at hget' hn' hs' ht' ⊢
    obtain ⟨index, b''⟩ := r'
    simp only at hget' hn' hs' ht' ⊢
    refine ⟨⟨m.dstLine, m.dstCol, some source, u.srcLine, u.srcCol, some index, false⟩, ?_, ?_, ?_,
      .traced hi hmap hu hname ⟨rfl, rfl, rfl, rfl⟩ ?_ (by rw [hnm]; exact hget'), rfl⟩
    · rw [← ht, ← ht']
      rfl
    · rw [← hs'] at hs
      exact hs
    · rw [← hn]
      exact hn'
    · rw [← hs'] at hget
      exact hget

/-- **A mapping that can be carried on** adds its token. -/
theorem adds_addMapping (h : LeadsOn inputs m) (naming : Naming) (b : Builder) :
    ∃ t, Adds inputs naming m t b (b.addMapping inputs naming m) := by
  obtain ⟨i, hi, hmap⟩ := h
  unfold addMapping
  simp only [hi]
  rcases hm : i.map with _ | previous
  · exact adds_own hi hm naming b
  · obtain ⟨u, name, hu, hname⟩ := hmap previous hm
    exact adds_traced hi hm hu hname naming b

/-- A mapping that cannot be carried on adds nothing. -/
theorem addMapping_of_not_leadsOn (h : ¬ LeadsOn inputs m) (naming : Naming) (b : Builder) :
    b.addMapping inputs naming m = b := by
  unfold addMapping
  split
  · rfl
  next i hi =>
  split
  · next hmap => exact absurd ⟨i, hi, fun p hp => by rw [hmap] at hp; cases hp⟩ h
  next previous hmap =>
  unfold addTraced
  split
  · rfl
  next u hu =>
  split
  · rfl
  next name hname =>
  refine absurd ⟨i, hi, fun p hp => ?_⟩ h
  obtain rfl : previous = p := Option.some.inj (hmap.symm.trans hp)
  exact ⟨u, name, hu, hname⟩

/-- The tokens of mappings, one after the other. -/
theorem renders_foldl {ms : List Mapping} (h : ∀ m ∈ ms, LeadsOn inputs m) (naming : Naming)
    {b : Builder} {done : List Mapping}
    (hb : List.Forall₂ (Renders inputs naming b.sources b.names) done b.tokens) :
    List.Forall₂ (Renders inputs naming (ms.foldl (addMapping inputs naming) b).sources
      (ms.foldl (addMapping inputs naming) b).names) (done ++ ms)
      (ms.foldl (addMapping inputs naming) b).tokens := by
  induction ms generalizing b done with
  | nil => simpa using hb
  | cons m ms ih =>
    obtain ⟨t, hadds⟩ := adds_addMapping (h m (.head _)) naming b
    have hstep : List.Forall₂ (Renders inputs naming (b.addMapping inputs naming m).sources
        (b.addMapping inputs naming m).names) (done ++ [m]) (b.addMapping inputs naming m).tokens := by
      rw [hadds.tokens]
      exact List.rel_append (hb.imp fun _ _ hr => hr.mono hadds.sources hadds.names)
        (.cons hadds.renders .nil)
    have := ih (fun n hn => h n (.tail _ hn)) hstep
    rwa [List.append_assoc] at this

theorem range_foldl {ms : List Mapping} (h : ∀ m ∈ ms, LeadsOn inputs m) (naming : Naming)
    {b : Builder} (hb : ∀ t ∈ b.tokens, t.range = false) :
    ∀ t ∈ (ms.foldl (addMapping inputs naming) b).tokens, t.range = false := by
  induction ms generalizing b with
  | nil => exact hb
  | cons m ms ih =>
    obtain ⟨t, hadds⟩ := adds_addMapping (h m (.head _)) naming b
    refine ih (fun n hn => h n (.tail _ hn)) ?_
    rw [hadds.tokens]
    exact List.forall_mem_append.2 ⟨hb, List.forall_mem_singleton.2 hadds.range⟩

end Builder

/-- **The tokens of mappings that can be carried on**: each mapping has its token. -/
theorem build_renders {inputs : InputId → Option Input} {ms : List Mapping}
    (h : ∀ m ∈ ms, LeadsOn inputs m) (naming : Naming) (withContents : Bool) :
    ∃ ts, (build inputs naming withContents ms).tokens = sortTokens ts ∧
      List.Forall₂ (Renders inputs naming (build inputs naming withContents ms).sources
        (build inputs naming withContents ms).names) ms ts :=
  ⟨_, rfl, Builder.renders_foldl h naming (b := .start withContents) .nil⟩

/-- No token that is made is a range. -/
theorem range_build {inputs : InputId → Option Input} {ms : List Mapping}
    (h : ∀ m ∈ ms, LeadsOn inputs m) (naming : Naming) (withContents : Bool) :
    ∀ t ∈ (build inputs naming withContents ms).tokens, t.range = false := fun t ht =>
  Builder.range_foldl h naming (b := .start withContents) (fun _ h => by cases h) t
    (List.mem_mergeSort.1 ht)

theorem exists_of_mem_right {α β : Type} {R : α → β → Prop} {as : List α} {bs : List β} {b : β}
    (h : List.Forall₂ R as bs) (hb : b ∈ bs) : ∃ a ∈ as, R a b := by
  induction h with
  | nil => cases hb
  | @cons a b' as bs hab _ ih =>
    rcases List.mem_cons.1 hb with rfl | hb
    · exact ⟨a, .head _, hab⟩
    · obtain ⟨a', ha', hr⟩ := ih hb
      exact ⟨a', .tail _ ha', hr⟩

open Classical in
/-- The mappings that cannot be carried on leave no trace. -/
theorem build_filter (inputs : InputId → Option Input) (naming : Naming) (withContents : Bool)
    (ms : List Mapping) : build inputs naming withContents ms =
      build inputs naming withContents (ms.filter fun m => LeadsOn inputs m) := by
  have hfold : ∀ b : Builder, ms.foldl (Builder.addMapping inputs naming) b =
      (ms.filter fun m => LeadsOn inputs m).foldl (Builder.addMapping inputs naming) b := by
    induction ms with
    | nil => exact fun _ => rfl
    | cons m ms ih =>
      intro b
      by_cases h : LeadsOn inputs m
      · rw [List.filter_cons_of_pos (by simpa using h), List.foldl_cons, List.foldl_cons, ih]
      · rw [List.filter_cons_of_neg (by simpa using h), List.foldl_cons, ih,
          Builder.addMapping_of_not_leadsOn h]
  rw [build, build, hfold]

open Classical in
/-- **A mapping that can be carried on has its token**, whatever the other ones do. -/
theorem exists_renders {inputs : InputId → Option Input} {ms : List Mapping} {m : Mapping}
    (hm : m ∈ ms) (h : LeadsOn inputs m) (naming : Naming) (withContents : Bool) :
    ∃ t ∈ (build inputs naming withContents ms).tokens,
      Renders inputs naming (build inputs naming withContents ms).sources
        (build inputs naming withContents ms).names m t := by
  rw [build_filter]
  have hleads : ∀ m ∈ ms.filter fun m => LeadsOn inputs m, LeadsOn inputs m :=
    fun m hm => by simpa using (List.mem_filter.1 hm).2
  obtain ⟨ts, hts, hrenders⟩ := build_renders hleads naming withContents
  have hmem : m ∈ ms.filter fun m => LeadsOn inputs m := List.mem_filter.2 ⟨hm, by simpa using h⟩
  obtain ⟨t, ht, hr⟩ := exists_of_mem_right hrenders.flip hmem
  exact ⟨t, hts ▸ List.mem_mergeSort.2 ht, hr⟩

theorem spell_of_forall₂ {ts : List MapToken} {ms : List Mapping}
    (h : List.Forall₂ (fun m t => t.Says m) ms ts) : Spell ts ms :=
  ⟨fun _ ht => exists_of_mem_right h ht, fun _ hm => exists_of_mem_right h.flip hm⟩

section
variable {inputs : InputId → Option Input} {naming : Naming} {sources names : List String}
  {m : Mapping} {t : MapToken} {i : Input} (h : Renders inputs naming sources names m t)
  (hi : inputs m.input = some i)
include h hi

/-- The token of a mapping into an input that is itself a source. -/
theorem Renders.own_spec (hmap : i.map = none) : t.Says m ∧
    Indexes sources t.source (some (naming.sourceName i.name)) ∧ Indexes names t.name none := by
  cases h with
  | own hi' _ htells hsource hname =>
    obtain rfl := Option.some.inj (hi.symm.trans hi')
    exact ⟨htells, hsource, hname⟩
  | traced hi' hmap' =>
    obtain rfl := Option.some.inj (hi.symm.trans hi')
    rw [hmap] at hmap'
    cases hmap'

/-- The token of a mapping that a map carries on. -/
theorem Renders.traced_spec {previous : PreviousMap} {u : MapToken} {name : String}
    (hmap : i.map = some previous) (hu : previous.tokenAt? m.srcLine m.srcCol = some u)
    (hof : previous.map.sourceOf u = some name) :
    (t.dstLine = m.dstLine ∧ t.dstCol = m.dstCol ∧ t.srcLine = u.srcLine ∧ t.srcCol = u.srcCol) ∧
      Indexes sources t.source (some (naming.previousSourceName previous.root name)) ∧
      Indexes names t.name (previous.map.nameOf u) := by
  cases h with
  | own hi' hmap' =>
    obtain rfl := Option.some.inj (hi.symm.trans hi')
    rw [hmap] at hmap'
    cases hmap'
  | traced hi' hmap' hu' hof' hplaces hsource hname =>
    obtain rfl := Option.some.inj (hi.symm.trans hi')
    obtain rfl := Option.some.inj (hmap.symm.trans hmap')
    obtain rfl := Option.some.inj (hu.symm.trans hu')
    obtain rfl := Option.some.inj (hof.symm.trans hof')
    exact ⟨hplaces, hsource, hname⟩

end

/-- **The tokens of mappings into inputs without maps** are these mappings. -/
theorem build_tokens {inputs : InputId → Option Input} {ms : List Mapping}
    (h : ∀ m ∈ ms, ∃ i, inputs m.input = some i ∧ i.map = none) (naming : Naming)
    (withContents : Bool) : Spell (build inputs naming withContents ms).tokens ms := by
  have hleads : ∀ m ∈ ms, LeadsOn inputs m := by
    intro m hm
    obtain ⟨i, hi, hmap⟩ := h m hm
    exact ⟨i, hi, fun previous hp => by rw [hmap] at hp; cases hp⟩
  obtain ⟨ts, hts, hrenders⟩ := build_renders hleads naming withContents
  have hsays : List.Forall₂ (fun m t => t.Says m) ms ts := by
    refine ((List.forall₂_and_left ms ts).2 ⟨fun m hm => hm, hrenders⟩).imp ?_
    rintro m t ⟨hm, hr⟩
    obtain ⟨i, hi, hmap⟩ := h m hm
    exact (hr.own_spec hi hmap).1
  obtain ⟨hsaid, hall⟩ := spell_of_forall₂ hsays
  rw [hts]
  refine ⟨fun t ht => hsaid t (List.mem_mergeSort.1 ht), fun m hm => ?_⟩
  obtain ⟨t, ht, hs⟩ := hall m hm
  exact ⟨t, List.mem_mergeSort.2 ht, hs⟩

end SourceMap

end Stylesheet
