import Stylesheet.Proofs.SourceMap.Traced

/-!
# The texts that a map holds

A map lists a source once for each name, with a text. `lists_foldl`: the text is that of the first
input with this name that a mapping leads into. `output_contents` concludes when each token refers
to the text that its node was read from: exactly if inputs with the same name have the same text.
-/

set_option autoImplicit false

namespace Stylesheet

namespace SourceMap

/-- The text of the source that a token refers to, as far as the map holds it. -/
def recorded (m : SourceMap) (t : MapToken) : Option String := t.source.bind m.contentOf

/-- The first of some inputs that has this name in a map. -/
def firstNamed (naming : Naming) (name : String) (used : List Input) : Option Input :=
  used.find? fun i => naming.sourceName i.name = name

/-- The inputs that mappings lead into. -/
def inputsOf (inputs : InputId → Option Input) (ms : List Mapping) : List Input :=
  ms.filterMap fun n => inputs n.input

/-- A mapping into an input without a map. -/
def IsOwn (inputs : InputId → Option Input) (n : Mapping) : Prop :=
  ∃ i, inputs n.input = some i ∧ i.map = none

/-- The token of a mapping into an input without a map: it says what the mapping says, and its source
has the name of the input and the text of the first input with this name. -/
structure Tells (inputs : InputId → Option Input) (naming : Naming) (used : List Input)
    (m : SourceMap) (n : Mapping) (t : MapToken) : Prop where
  place : t.Says n
  source : ∃ i, inputs n.input = some i ∧ m.sourceOf t = some (naming.sourceName i.name) ∧
    m.recorded t = (firstNamed naming (naming.sourceName i.name) used).map Input.text

/-- Inputs with the same name in a map have the same text. -/
def NamesText (naming : Naming) (used : List Input) : Prop :=
  ∀ i ∈ used, ∀ i' ∈ used,
    naming.sourceName i.name = naming.sourceName i'.name → i.text = i'.text

instance (naming : Naming) (used : List Input) : Decidable (NamesText naming used) :=
  List.decidableBAll ..

variable {inputs : InputId → Option Input} {naming : Naming} {used : List Input}
  {ms : List Mapping} {n : Mapping} {i : Input}

theorem IsOwn.leadsOn (h : IsOwn inputs n) : LeadsOn inputs n := by
  obtain ⟨i, hi, hmap⟩ := h
  refine ⟨i, hi, fun previous hp => ?_⟩
  rw [hmap] at hp
  cases hp

theorem exists_firstNamed (naming : Naming) (hi : i ∈ used) :
    ∃ i' ∈ used, firstNamed naming (naming.sourceName i.name) used = some i' ∧
      naming.sourceName i'.name = naming.sourceName i.name := by
  have hsome : (firstNamed naming (naming.sourceName i.name) used).isSome = true :=
    List.find?_isSome.2 ⟨i, hi, by simp⟩
  obtain ⟨i', hi'⟩ := Option.isSome_iff_exists.1 hsome
  exact ⟨i', List.mem_of_find?_eq_some hi', hi', of_decide_eq_true (List.find?_some hi' :)⟩

/-! ## One mapping after the other -/

namespace Builder

variable {b : Builder}

/-- A builder behind mappings into these inputs: it lists their names, each with the text of the first
one that has it. -/
structure Lists (naming : Naming) (used : List Input) (b : Builder) : Prop where
  withContents : b.withContents = true
  length : b.contents.length = b.sources.length
  listed : ∀ i ∈ used, naming.sourceName i.name ∈ b.sources
  recorded : ∀ (k : Nat) (name : String), b.sources[k]? = some name →
    ∃ i, firstNamed naming name used = some i ∧ b.contents[k]? = some (some i.text)

theorem lists_start (naming : Naming) : Lists naming [] (start true) :=
  ⟨rfl, rfl, nofun, nofun⟩

/-- A name that is listed keeps its text, a new one gets that of its input. -/
theorem Lists.addSource (h : Lists naming used b) (i : Input) :
    Lists naming (used ++ [i]) (b.addSource (naming.sourceName i.name) (some i.text)).2 := by
  have hold {k : Nat} {name : String} (hk : b.sources[k]? = some name) : ∃ i',
      firstNamed naming name (used ++ [i]) = some i' ∧ b.contents[k]? = some (some i'.text) := by
    obtain ⟨i', hi', hc⟩ := h.recorded k name hk
    exact ⟨i', by rw [firstNamed, List.find?_append, ← firstNamed, hi', Option.some_or], hc⟩
  unfold Builder.addSource
  split
  · next k hk =>
    obtain ⟨hlt, hname, -⟩ := List.findIdx?_eq_some_iff_getElem.1 hk
    refine ⟨h.withContents, h.length, List.forall_mem_append.2 ⟨h.listed, ?_⟩, fun _ _ => hold⟩
    exact List.forall_mem_singleton.2 (of_decide_eq_true hname ▸ List.getElem_mem hlt)
  · next hnone =>
    have hnew : naming.sourceName i.name ∉ b.sources := fun hmem =>
      absurd (List.findIdx?_eq_none_iff.1 hnone _ hmem) (by simp)
    have hfirst : firstNamed naming (naming.sourceName i.name) used = none :=
      List.find?_eq_none.2 fun i' hi' he => hnew (of_decide_eq_true he ▸ h.listed i' hi')
    simp only [h.withContents, if_true]
    refine ⟨rfl, by simp [h.length], List.forall_mem_append.2 ⟨?_, by simp⟩, fun k name hk => ?_⟩
    · exact fun i' hi' => List.mem_append_left _ (h.listed i' hi')
    · rcases Nat.lt_or_ge k b.sources.length with hlt | hge
      · rw [List.getElem?_append_left hlt] at hk
        rw [List.getElem?_append_left (h.length ▸ hlt)]
        exact hold hk
      · rw [List.getElem?_append_right hge, List.getElem?_singleton] at hk
        split at hk
        · next hk0 =>
          cases hk
          refine ⟨i, ?_, ?_⟩
          · rw [firstNamed, List.find?_append, ← firstNamed, hfirst]
            simp
          · rw [List.getElem?_append_right (h.length ▸ hge), h.length, hk0]
            rfl
        · cases hk

/-- A mapping into an input without a map. -/
theorem Lists.addMapping (h : Lists naming used b) (hi : inputs n.input = some i)
    (hmap : i.map = none) : Lists naming (used ++ [i]) (b.addMapping inputs naming n) := by
  have hsource := h.addSource i
  unfold Builder.addMapping
  simp only [hi, hmap]
  unfold addOwn
  generalize b.addSource (naming.sourceName i.name) (some i.text) = r at hsource
  exact ⟨hsource.withContents, hsource.length, hsource.listed, hsource.recorded⟩

/-- **The contents behind mappings** into inputs without maps. -/
theorem lists_foldl (hms : ∀ n ∈ ms, IsOwn inputs n) (h : Lists naming used b) :
    Lists naming (used ++ inputsOf inputs ms) (ms.foldl (addMapping inputs naming) b) := by
  induction ms generalizing used b with
  | nil => simpa [inputsOf] using h
  | cons n ms ih =>
    obtain ⟨⟨i, hi, hmap⟩, hms⟩ := List.forall_mem_cons.1 hms
    have := ih hms (h.addMapping hi hmap)
    rw [List.append_assoc] at this
    rwa [inputsOf, List.filterMap_cons, hi]

end Builder

/-! ## The map of mappings -/

/-- **The tokens of mappings into inputs without maps**, with the texts of their sources. -/
theorem build_tells (hms : ∀ n ∈ ms, IsOwn inputs n) (naming : Naming) :
    ∃ ts, (build inputs naming true ms).tokens = sortTokens ts ∧
      List.Forall₂ (Tells inputs naming (inputsOf inputs ms) (build inputs naming true ms)) ms ts := by
  obtain ⟨ts, hts, hrenders⟩ := build_renders (fun n hn => (hms n hn).leadsOn) naming true
  refine ⟨ts, hts, ((List.forall₂_and_left ms ts).2 ⟨hms, hrenders⟩).imp ?_⟩
  rintro n t ⟨⟨i, hi, hmap⟩, hr⟩
  have hlists : Builder.Lists naming (inputsOf inputs ms)
      (ms.foldl (Builder.addMapping inputs naming) (.start true)) :=
    Builder.lists_foldl hms (Builder.lists_start naming)
  obtain ⟨hplace, hsource, -⟩ := hr.own_spec hi hmap
  refine ⟨hplace, i, hi, hsource.bind_eq, ?_⟩
  unfold recorded
  generalize t.source = source at hsource ⊢
  cases hsource with
  | @some k _ hk =>
    obtain ⟨i', hi', hc⟩ := hlists.recorded k _ hk
    rw [Option.bind_some, contentOf, hi', build, Builder.finish, hc]
    rfl

/-- **The texts are those of the inputs** exactly if inputs with the same name have the same text. -/
theorem forall₂_recorded_iff {m : SourceMap} {ts : List MapToken}
    (h : List.Forall₂ (Tells inputs naming (inputsOf inputs ms) m) ms ts) :
    List.Forall₂ (fun n t => m.recorded t = (inputs n.input).map Input.text) ms ts ↔
      NamesText naming (inputsOf inputs ms) := by
  constructor
  · intro hall
    have hboth : List.Forall₂ (fun n _ => ∀ i, inputs n.input = some i →
        (firstNamed naming (naming.sourceName i.name) (inputsOf inputs ms)).map Input.text =
          some i.text) ms ts := by
      refine h.mp (fun n t htells hr i hi => ?_) hall
      obtain ⟨i', hi', -, htext⟩ := htells.source
      rw [hi, Option.some.injEq] at hi'
      rw [hi', ← htext, hr, hi, hi', Option.map_some]
    have hfirst : ∀ i ∈ inputsOf inputs ms,
        (firstNamed naming (naming.sourceName i.name) (inputsOf inputs ms)).map Input.text =
          some i.text := by
      intro i hi
      obtain ⟨n, hn, hi⟩ := List.mem_filterMap.1 hi
      obtain ⟨-, -, htext⟩ := exists_of_mem_right hboth.flip hn
      exact htext i hi
    intro i hi i' hi' hname
    have := hfirst i hi
    rw [hname, hfirst i' hi', Option.some.injEq] at this
    exact this.symm
  · intro hnames
    refine ((List.forall₂_and_left ms ts).2 ⟨fun n hn => hn, h⟩).imp ?_
    rintro n t ⟨hn, -, i, hi, -, htext⟩
    have hmem : i ∈ inputsOf inputs ms := List.mem_filterMap.2 ⟨n, hn, hi⟩
    obtain ⟨i', hmem', hi', hname⟩ := exists_firstNamed naming hmem
    rw [htext, hi', hi, Option.map_some, Option.map_some, hnames i' hmem' i hmem hname]

end SourceMap

/-! ## Outputs -/

namespace Forest

variable {f : Forest} {policy : UnmappedPolicy}

/-- An origin is the place of the node or of one above it. -/
theorem exists_source_of_origin? {id : NodeId} {position : Source → Option Position}
    {q : InputId × Position} (h : f.origin? policy id position = some q) :
    ∃ a ∈ id :: f.ancestors id, (f.source a).input = some q.1 := by
  have hinput {a : NodeId} {position : Source → Option Position}
      (h : f.resolved? a position = some q) : (f.source a).input = some q.1 := by
    unfold resolved? at h
    split at h
    · next hi _ =>
      split at h
      · cases h
        exact hi
      · cases h
    · cases h
  unfold origin? at h
  split at h
  · next ho =>
    cases h
    exact ⟨id, .head _, hinput ho⟩
  · cases h
  · obtain ⟨a, ha, ho⟩ := List.exists_of_findSome?_eq_some h
    exact ⟨a, .tail _ ha, hinput ho⟩

/-- The nodes that are printed, and those above them, come from inputs without maps. -/
def OwnInputs (f : Forest) (root : NodeId) : Prop :=
  ∀ x ∈ f.print root, ∀ id ∈ x.node, ∀ a ∈ id :: f.ancestors id,
    ∀ i ∈ (f.source a).input.bind f.input?, i.map.isNone = true

instance (f : Forest) (root : NodeId) : Decidable (f.OwnInputs root) := List.decidableBAll ..

theorem OwnInputs.isOwn {root : NodeId} (h : f.OwnInputs root) (hf : f.HasInputs) :
    ∀ n ∈ f.mappings policy .start (f.print root), SourceMap.IsOwn f.input? n := by
  intro n hn
  obtain ⟨before, x, behind, hprint, hx⟩ := mem_mappings.1 hn
  have hmem : x ∈ f.print root := by
    rw [hprint]
    simp
  rw [fragmentMappings_eq, List.mem_append] at hx
  rcases hx with hn | hn
  all_goals
    obtain ⟨id, hid, hn⟩ := Option.bind_eq_some_iff.1 (Option.mem_toList.1 hn)
    split at hn
    · cases hn
    · obtain ⟨q, hq, rfl⟩ := Option.map_eq_some_iff.1 hn
      obtain ⟨a, ha, hinput⟩ := exists_source_of_origin? hq
      obtain ⟨i, hi⟩ := Option.isSome_iff_exists.1 (hf a q.1 hinput)
      have hnone : i.map.isNone = true := h x hmem id hid a ha i (by rw [hinput]; exact hi)
      exact ⟨i, hi, Option.isNone_iff_eq_none.1 hnone⟩

/-- **The texts of the sources of an output.** Where the nodes come from inputs without maps, each
token tells the place that the node at its fragment was read from, in a source with the name of the
input and the text of the first input with that name. This is the text of the input itself for all
tokens exactly if inputs with the same name have the same text. -/
theorem output_contents (hf : f.HasInputs) (root : NodeId) (o : RunOptions)
    (hmap : (MapPlan.make f root o).hasMap = true)
    (hcontents : (MapPlan.make f root o).hasContents = true) :
    let p := MapPlan.make f root o
    let g := if p.options.link = .disabled then f else f.clearLinks root
    let ms := g.mappings p.options.unmapped .start (g.print root)
    g.OwnInputs root →
    ∃ (m : SourceMap) (ts : List MapToken) (parts : List (Option MapToken × Option MapToken)),
      (f.output root o).1.css =
        g.css root ++ (if p.hasLink then p.comment (g.css root) m else "") ∧
      (f.output root o).1.map = (if p.isInline then none else some m) ∧
      m.tokens = SourceMap.sortTokens ts ∧
      ts = parts.flatMap (fun q => q.1.toList ++ q.2.toList) ∧
      parts.length = (g.print root).length ∧
      (∀ k x, (g.print root)[k]? = some x →
        let place := OutputPlace.start.after (Fragment.concat ((g.print root).take k))
        ∃ start stop, parts[k]? = some (start, stop) ∧
          Option.Rel (SourceMap.Tells g.input? p.naming (SourceMap.inputsOf g.input? ms) m)
            (g.startMapping? p.options.unmapped place x) start ∧
          Option.Rel (SourceMap.Tells g.input? p.naming (SourceMap.inputsOf g.input? ms) m)
            (g.stopMapping? p.options.unmapped place x) stop) ∧
      (List.Forall₂ (fun n t => t.Says n ∧ m.recorded t = (g.input? n.input).map Input.text) ms ts ↔
        SourceMap.NamesText p.naming (SourceMap.inputsOf g.input? ms)) := by
  intro p g ms hown
  have hg : g.HasInputs := by
    show (ite _ _ _ : Forest).HasInputs
    split
    · exact hf
    · exact hf.clearLinks root
  obtain ⟨ts, hts, htells⟩ := SourceMap.build_tells (hown.isOwn hg) p.naming
  obtain ⟨parts, hparts, hlength, hmarks⟩ := forall₂_mappings htells
  have hm : (g.printMapped root p).2 = .build g.input? p.naming true ms := by
    rw [printMapped, show p.hasContents = true from hcontents]
  refine ⟨.build g.input? p.naming true ms, ts, parts, ?_, ?_, hts, hparts, hlength, hmarks, ?_⟩
  · unfold output
    simp only
    rw [show MapPlan.make f root o = p from rfl, hmap, ← hm]
    simp only [Bool.not_true, Bool.false_eq_true, if_false]
    split <;> simp [printMapped, css, g]
  · unfold output
    simp only
    rw [show MapPlan.make f root o = p from rfl, hmap, ← hm]
    rfl
  · rw [← SourceMap.forall₂_recorded_iff htells]
    exact ⟨fun h => h.imp fun _ _ hr => hr.2, fun h => htells.mp (fun _ _ ht hr => ⟨ht.place, hr⟩) h⟩

/-- The sources of two inputs with names of their own hold the texts of these. -/
theorem output_contents_two :
    let f := [Edit.read .empty "a\x7b\x7d" (some "a.css") .auto,
      .read .empty "b\x7b\x7d" (some "b.css") .auto, .insert 0 .stop [2]].foldl Edit.run .empty
    let o : RunOptions := { target := some "c.css", map := .enabled { inline := some false } }
    let g := f.clearLinks 0
    let ms := g.mappings .skip .start (g.print 0)
    f.HasInputs ∧ (MapPlan.make f 0 o).hasMap = true ∧
      (MapPlan.make f 0 o).hasContents = true ∧ g.OwnInputs 0 ∧
      ∃ m ts, (f.output 0 o).1.map = some m ∧ m.tokens = SourceMap.sortTokens ts ∧
        List.Forall₂ (fun n t => t.Says n ∧ m.recorded t = (g.input? n.input).map Input.text)
          ms ts := by
  intro f o g ms
  have hplan : (MapPlan.make f 0 o).hasMap = true ∧ (MapPlan.make f 0 o).hasContents = true ∧
      (MapPlan.make f 0 o).options.link = .auto ∧ (MapPlan.make f 0 o).isInline = false ∧
      (MapPlan.make f 0 o).options.unmapped = .skip := by
    decide +kernel
  obtain ⟨hmap, hcontents, hlink, hinline, hunmapped⟩ := hplan
  have hf : f.HasInputs := hasInputs_empty.runs _
  have hown : g.OwnInputs 0 := by decide +kernel
  have hnames : SourceMap.NamesText (MapPlan.make f 0 o).naming
      (SourceMap.inputsOf g.input? ms) := by
    decide +kernel
  have hg : (if (MapPlan.make f 0 o).options.link = .disabled then f else f.clearLinks 0) = g := by
    rw [hlink]
    rfl
  have h := output_contents hf 0 o hmap hcontents
  simp only [hg, hunmapped] at h
  obtain ⟨m, ts, -, -, hm, hts, -, -, -, hiff⟩ := h hown
  rw [hinline] at hm
  exact ⟨hf, hmap, hcontents, hown, m, ts, hm, hts, hiff.2 hnames⟩

/-- Of two inputs with the same name the text of the second is lost: its tokens refer to the text of
the first. -/
theorem not_output_contents : ¬ ∀ (f : Forest) (root : NodeId) (o : RunOptions) (m : SourceMap),
    let p := MapPlan.make f root o
    let g := if p.options.link = .disabled then f else f.clearLinks root
    let ms := g.mappings p.options.unmapped .start (g.print root)
    f.HasInputs → p.hasContents = true → g.OwnInputs root →
      (f.output root o).1.map = some m → ∃ ts, m.tokens = SourceMap.sortTokens ts ∧
        List.Forall₂ (fun n t => t.Says n ∧ m.recorded t = (g.input? n.input).map Input.text)
          ms ts := by
  intro hall
  let f := [Edit.read .empty "a\x7b\x7d" (some "a.css") .auto,
    .read .empty "b\x7b\x7d" (some "a.css") .auto, .insert 0 .stop [2]].foldl Edit.run .empty
  let o : RunOptions := { target := some "b.css", map := .enabled { inline := some false } }
  let g := f.clearLinks 0
  let ms := g.mappings .skip .start (g.print 0)
  have hplan : (MapPlan.make f 0 o).hasContents = true ∧
      (MapPlan.make f 0 o).options.link = .auto ∧
      (MapPlan.make f 0 o).options.unmapped = .skip ∧
      g.OwnInputs 0 ∧
      (ms.any fun n => (g.input? n.input).map Input.text = some "b\x7b\x7d") = true ∧
      ((f.output 0 o).1.map.any fun m => m.contents = [some "a\x7b\x7d"]) = true := by
    decide +kernel
  obtain ⟨hcontents, hlink, hunmapped, hown, hsecond, hmap⟩ := hplan
  obtain ⟨m, hm, hone⟩ := (Option.any_eq_true _ _).1 hmap
  have hg : (if (MapPlan.make f 0 o).options.link = .disabled then f else f.clearLinks 0) = g := by
    rw [hlink]
    rfl
  have h := hall f 0 o m
  simp only [hg, hunmapped] at h
  obtain ⟨ts, -, htexts⟩ := h (hasInputs_empty.runs _) hcontents hown hm
  obtain ⟨n, hn, htext⟩ := List.any_eq_true.1 hsecond
  obtain ⟨t, -, -, hrecorded⟩ := SourceMap.exists_of_mem_right htexts.flip hn
  rw [of_decide_eq_true htext] at hrecorded
  obtain ⟨k, -, hk⟩ := Option.bind_eq_some_iff.1 hrecorded
  rw [SourceMap.contentOf, of_decide_eq_true hone, Option.join_eq_some_iff] at hk
  simpa using List.mem_of_getElem? hk

end Forest

end Stylesheet
