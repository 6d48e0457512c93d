import Stylesheet.Proofs.Forest.Outline
import Stylesheet.Proofs.SourceMap.Embedded

/-!
# Output that is written again

The output of a tree takes comments that name earlier maps out of it. `Forest.output_again`: a
second output finds nothing left to take out, so that the tree is printed as it was. It is written
with the same map if the inputs that still have a node below the root decide alike
(`MapPlan.Agrees`): what the settings leave open is decided by the maps of all inputs the first
time, also of an input of which there was nothing but such a comment.
-/

set_option autoImplicit false

namespace Stylesheet

open Stylesheet.Text

namespace Forest

variable {f g : Forest} {root id : NodeId} {o : RunOptions}

/-! ## The tree without links -/

theorem element_removeAt (f : Forest) (parent : NodeId) (index : Nat) (id : NodeId) :
    ((f.removeAt parent index).2.node id).toElement = (f.node id).toElement := by
  cases h : (f.children parent)[index]? with
  | none => rw [removeAt_of_none h]
  | some child =>
    rw [removeAt_of_some h, node_modify_congr Node.toElement rfl,
      node_modify_congr Node.toElement rfl]

/-- What every step keeps is kept. -/
theorem clearLinks_kept {α : Type} (k : Forest → α)
    (hk : ∀ f index, k (Forest.clearLinkAt root f index) = k f) (f : Forest) :
    k (f.clearLinks root) = k f := by
  rw [clearLinks_eq_foldl]
  generalize (List.range (f.children root).length).reverse = indices
  induction indices generalizing f with
  | nil => rfl
  | cons index indices ih => rw [List.foldl_cons, ih, hk]

theorem element_clearLinkAt (f : Forest) (index : Nat) (id : NodeId) :
    ((Forest.clearLinkAt root f index).node id).toElement = (f.node id).toElement := by
  unfold clearLinkAt
  split
  · exact f.element_removeAt root index id
  · rfl

theorem element_clearLinks (f : Forest) (root id : NodeId) :
    ((f.clearLinks root).node id).toElement = (f.node id).toElement :=
  clearLinks_kept (fun f => (f.node id).toElement)
    (fun f index => f.element_clearLinkAt index id) f

theorem namesMap_congr (h : (g.node id).toElement = (f.node id).toElement) :
    g.namesMap id = f.namesMap id := by
  have hdata : g.data id = f.data id := congrArg Element.data h
  rw [namesMap_eq, namesMap_eq, hdata]

theorem children_clearLinkAt {us vs : List NodeId} {u : NodeId}
    (h : f.children root = us ++ u :: vs) : (Forest.clearLinkAt root f us.length).children root =
      us ++ ([u].filter (!f.namesMap ·) ++ vs) := by
  have hchild : (f.children root)[us.length]? = some u := by simp [h]
  unfold clearLinkAt
  rw [hchild, Option.any_some]
  cases hu : f.namesMap u with
  | true =>
    rw [if_pos rfl, children_removeAt, if_pos rfl, h, List.eraseIdx_append_of_length_le le_rfl]
    simp [hu]
  | false => simp [hu, h]

/-- The steps up to a place, from the last to the first. -/
theorem children_clearLinksBefore {us vs : List NodeId} (h : f.children root = us ++ vs) :
    ((List.range us.length).reverse.foldl (Forest.clearLinkAt root) f).children root =
      us.filter (!f.namesMap ·) ++ vs := by
  induction us using List.reverseRecOn generalizing f vs with
  | nil => exact h
  | append_singleton us u ih =>
    rw [List.append_assoc, List.singleton_append] at h
    have hnames : (fun id => !(Forest.clearLinkAt root f us.length).namesMap id) =
        fun id => !f.namesMap id := by
      funext id
      rw [namesMap_congr (f.element_clearLinkAt us.length id)]
    rw [List.length_append, List.length_singleton, List.range_succ, List.reverse_append,
      List.reverse_singleton, List.singleton_append, List.foldl_cons,
      ih (children_clearLinkAt h), hnames, List.filter_append, List.append_assoc]

/-- **The children that name no map are left.** -/
theorem children_clearLinks (f : Forest) (root : NodeId) :
    (f.clearLinks root).children root = (f.children root).filter (!f.namesMap ·) := by
  rw [clearLinks_eq_foldl]
  simpa using children_clearLinksBefore (f := f) (List.append_nil (f.children root)).symm

theorem children_clearLinks_of_ne (f : Forest) {p : NodeId} (h : p ≠ root) :
    (f.clearLinks root).children p = f.children p := by
  refine clearLinks_kept (fun f => f.children p) (fun f index => ?_) f
  unfold clearLinkAt
  split
  · rw [children_removeAt, if_neg h]
  · rfl

/-- **Nothing is left to take out.** -/
theorem clearLinks_clearLinks (f : Forest) (root : NodeId) :
    (f.clearLinks root).clearLinks root = f.clearLinks root := by
  apply clearLinks_eq
  intro id hid
  rw [children_clearLinks, List.mem_filter, Bool.not_eq_true'] at hid
  rw [namesMap_congr (f.element_clearLinks root id), hid.2]

theorem children_clearLinks_subset (f : Forest) (root p : NodeId) :
    (f.clearLinks root).children p ⊆ f.children p := by
  by_cases hp : p = root
  · rw [hp, children_clearLinks]
    exact List.filter_subset_self _
  · rw [children_clearLinks_of_ne f hp]
    exact List.Subset.refl _

/-! ## The inputs that are left -/

theorem preorder_outlineWithin_succ (f : Forest) (levels : Nat) (id : NodeId) :
    (f.outlineWithin (levels + 1) id).preorder =
      id :: (f.children id).flatMap fun c => (f.outlineWithin levels c).preorder := by
  rw [outlineWithin, children, Node.nodes]
  cases (f.node id).children with
  | none => rfl
  | some ids => simp [Tree.preorder, Tree.preorderAll_eq, List.flatMap_map]

/-- Where every node has fewer children there are fewer nodes below it. -/
theorem preorder_outlineWithin_subset (h : ∀ p, g.children p ⊆ f.children p) (levels : Nat)
    (id : NodeId) : (g.outlineWithin levels id).preorder ⊆ (f.outlineWithin levels id).preorder := by
  induction levels generalizing id with
  | zero => exact List.Subset.refl _
  | succ levels ih =>
    rw [preorder_outlineWithin_succ, preorder_outlineWithin_succ]
    apply List.cons_subset_cons
    intro x hx
    obtain ⟨c, hc, hx⟩ := List.mem_flatMap.1 hx
    exact List.mem_flatMap.2 ⟨c, h id hc, ih c hx⟩

theorem mem_mappedInputs {i : InputId} : i ∈ f.mappedInputs root ↔
    (∃ id ∈ (f.outline root).preorder, (f.source id).input = some i) ∧
      ((f.input? i).bind Input.map).isSome = true := by
  have hnodes : root :: f.descendants root = (f.outline root).preorder := by
    rw [Tree.preorder_eq, label_outline]
    rfl
  rw [mappedInputs, List.mem_eraseDups, List.mem_filter, hnodes, List.mem_filterMap]

theorem mappedInputs_clearLinks (f : Forest) (root : NodeId) :
    (f.clearLinks root).mappedInputs root ⊆ f.mappedInputs root := by
  obtain ⟨hsize, hinputs⟩ := f.clearLinks_frame root
  intro i hi
  obtain ⟨⟨id, hid, hsource⟩, hmap⟩ := mem_mappedInputs.1 hi
  rw [outline, hsize] at hid
  have hmem := preorder_outlineWithin_subset (f.children_clearLinks_subset root) _ _ hid
  refine mem_mappedInputs.2 ⟨⟨id, hmem, ?_⟩, ?_⟩
  · rw [← hsource]
    exact congrArg (·.source.input) (f.element_clearLinks root id).symm
  · rwa [input?, hinputs] at hmap

end Forest

/-! ## Maps without the texts of their sources -/

namespace SourceMap

namespace Builder

variable (b : Builder)

/-- The map without texts, and with none to come. -/
def bare : Builder := { b with withContents := false, contents := [] }

theorem bare_addSource (name : String) (content : Option String) :
    b.bare.addSource name content =
      ((b.addSource name content).1, (b.addSource name content).2.bare) := by
  have hsources : b.bare.sources = b.sources := rfl
  unfold addSource
  rw [hsources]
  cases b.sources.findIdx? (· = name) <;> rfl

theorem bare_addName (name : String) :
    b.bare.addName name = ((b.addName name).1, (b.addName name).2.bare) := by
  have hnames : b.bare.names = b.names := rfl
  unfold addName
  rw [hnames]
  cases b.names.findIdx? (· = name) <;> rfl

theorem bare_addOwn (naming : Naming) (input : Input) (m : Mapping) :
    b.bare.addOwn naming input m = (b.addOwn naming input m).bare := by
  unfold addOwn
  rw [bare_addSource]
  rfl

theorem bare_addTraced (naming : Naming) (previous : PreviousMap) (m : Mapping) :
    b.bare.addTraced naming previous m = (b.addTraced naming previous m).bare := by
  unfold addTraced
  cases previous.tokenAt? m.srcLine m.srcCol with
  | none => rfl
  | some t =>
    simp only
    cases previous.map.sourceOf t with
    | none => rfl
    | some name =>
      simp only [bare_addSource]
      cases previous.map.nameOf t with
      | none => rfl
      | some name =>
        simp only [bare_addName]
        rfl

theorem bare_addMapping (inputs : InputId → Option Input) (naming : Naming) (m : Mapping) :
    b.bare.addMapping inputs naming m = (b.addMapping inputs naming m).bare := by
  unfold addMapping
  cases inputs m.input with
  | none => rfl
  | some input =>
    simp only
    cases input.map with
    | none => exact b.bare_addOwn naming input m
    | some previous => exact b.bare_addTraced naming previous m

end Builder

variable {inputs : InputId → Option Input} {naming : Naming} {ms : List Mapping} {m : SourceMap}

/-- The map with or without the texts of its sources. -/
def withTexts (m : SourceMap) (wanted : Bool) : SourceMap :=
  if wanted then m else { m with contents := [] }

/-- **Whether texts are wanted matters to the texts alone.** -/
theorem build_eq_withTexts (wanted : Bool) : build inputs naming wanted ms =
    (build inputs naming true ms).withTexts wanted := by
  have hfold (b : Builder) : ms.foldl (Builder.addMapping inputs naming) b.bare =
      (ms.foldl (Builder.addMapping inputs naming) b).bare := by
    induction ms generalizing b with
    | nil => rfl
    | cons m ms ih => rw [List.foldl_cons, b.bare_addMapping, ih, List.foldl_cons]
  cases wanted with
  | true => rfl
  | false =>
    unfold build
    rw [show Builder.start false = (Builder.start true).bare from rfl, hfold]
    rfl

theorem withTexts_eq_iff {c d : Bool} :
    m.withTexts d = m.withTexts c ↔ (m.contents ≠ [] → d = c) := by
  obtain ⟨file, sources, contents, names, tokens⟩ := m
  cases c <;> cases d <;> simp [withTexts, eq_comm]

theorem toJson_eq_of_write_eq {m n : SourceMap} (h : m.write = n.write) : m.toJson = n.toJson := by
  have hm := Json.parseChars?_compress m.isExact_toJson
  have hn := Json.parseChars?_compress n.isExact_toJson
  rw [show m.toJson.compress = n.toJson.compress from h, hn] at hm
  exact (Option.some.inj hm).symm

/-- The document shows that the texts are left out if one of them is known. -/
theorem write_bare_iff : ({ m with contents := [] } : SourceMap).write = m.write ↔
    m.contents.any Option.isSome = false := by
  constructor
  · intro h
    have hmembers := toJson_eq_of_write_eq h
    rw [toJson_eq, toJson_eq, Json.obj.injEq] at hmembers
    have hlength := congrArg List.length hmembers
    cases hany : m.contents.any Option.isSome with
    | false => rfl
    | true => cases hfile : m.file <;> simp [members, hany, hfile] at hlength
  · intro h
    unfold write toJson
    rw [h]
    rfl

theorem write_withTexts_iff {c d : Bool} : (m.withTexts d).write = (m.withTexts c).write ↔
    (m.contents.any Option.isSome = true → d = c) := by
  have hbare := write_bare_iff (m := m)
  cases c <;> cases d <;> simp only [withTexts, if_true, if_false, Bool.false_eq_true] <;>
    simp [hbare, eq_comm (a := m.write)]

end SourceMap

/-! ## Plans that agree -/

namespace MapPlan

variable {p q : MapPlan}

/-- Whether it can be seen in the output if the texts of the sources are left out of a map. -/
def ShowsTexts (p : MapPlan) (m : SourceMap) : Prop :=
  if p.isInline then m.contents.any Option.isSome = true else m.contents ≠ []

/-- The maps of the inputs decide alike about the output; `m` is the map with the texts of its
sources. -/
structure Agrees (p q : MapPlan) (m : SourceMap) : Prop where
  hasMap : q.hasMap = p.hasMap
  isInline : p.hasMap = true → q.isInline = p.isInline
  hasLink : p.hasMap = true → q.hasLink = p.hasLink
  hasContents : p.hasMap = true → p.ShowsTexts m → q.hasContents = p.hasContents

theorem agrees_iff {m : SourceMap} (hp : p.hasMap = true) (hq : q.hasMap = true) :
    p.Agrees q m ↔ q.isInline = p.isInline ∧ q.hasLink = p.hasLink ∧
      (p.ShowsTexts m → q.hasContents = p.hasContents) :=
  ⟨fun h => ⟨h.isInline hp, h.hasLink hp, h.hasContents hp⟩,
    fun h => ⟨hq.trans hp.symm, fun _ => h.1, fun _ => h.2.1, fun _ => h.2.2⟩⟩

theorem hasLink_of_isInline (h : p.isInline = true) : p.hasLink = true := by
  rw [hasLink, h, Bool.true_or]

/-- The plan with other maps of inputs. -/
def withPrevious (p : MapPlan) (maps : List PreviousMap) : MapPlan := { p with previous := maps }

/-- Maps that are the same but for their order and number decide alike. -/
theorem agrees_withPrevious {maps : List PreviousMap} (m : SourceMap)
    (h : ∀ x, x ∈ maps ↔ x ∈ p.previous) : p.Agrees (p.withPrevious maps) m := by
  have hany (c : PreviousMap → Bool) : maps.any c = p.previous.any c := by
    rw [Bool.eq_iff_iff, List.any_eq_true, List.any_eq_true]
    simp only [h]
  have hempty : maps.isEmpty = p.previous.isEmpty := by
    rw [Bool.eq_iff_iff, List.isEmpty_iff, List.isEmpty_iff, List.eq_nil_iff_forall_not_mem,
      List.eq_nil_iff_forall_not_mem]
    simp only [h]
  have hinline : (p.withPrevious maps).isInline = p.isInline := by
    simp only [isInline, withPrevious, hany, hempty]
    rfl
  refine ⟨?_, fun _ => hinline, fun _ => ?_, fun _ _ => ?_⟩
  · simp only [hasMap, withPrevious, hempty]
  · rw [hasLink, hasLink, hinline]
    simp only [withPrevious, hany, hempty]
  · simp only [hasContents, withPrevious, hany, hempty]

theorem comment_ne_empty (p : MapPlan) (css : String) (m : SourceMap) :
    css ++ p.comment css m ≠ css := by
  intro h
  obtain ⟨eol, -, -, hcomment⟩ := p.comment_eq css m
  have hlist := congrArg String.toList h
  rw [String.toList_append, hcomment] at hlist
  simp at hlist

/-- A comment holds the text of the map if that is put into the output. -/
theorem comment_eq_iff {maps : List PreviousMap} (hq : (p.withPrevious maps).isInline = p.isInline)
    (css : String) (m n : SourceMap) :
    (p.withPrevious maps).comment css n = p.comment css m ↔
      (p.isInline = true → n.write = m.write) := by
  have hcomment : (p.withPrevious maps).comment css n = p.comment css m ↔
      (p.withPrevious maps).url n = p.url m := by
    unfold comment
    rw [← String.toList_inj, ← String.toList_inj]
    simp only [String.toList_append, List.append_cancel_left_eq, List.append_cancel_right_eq]
  rw [hcomment]
  cases hp : p.isInline with
  | false =>
    have hurl : (p.withPrevious maps).url n = p.url m := by
      unfold url
      rw [hq, hp]
      rfl
    simp [hurl]
  | true =>
    constructor
    · intro h _
      have hn := PreviousMap.decodeInline_url (hq.trans hp) n
      rw [h, PreviousMap.decodeInline_url hp] at hn
      exact (Except.ok.inj hn).symm
    · intro h
      unfold url
      rw [hq, hp, h rfl]
      rfl

end MapPlan

/-! ## The output -/

namespace Forest

variable {f g : Forest} {root : NodeId} {o : RunOptions} {p : MapPlan}

/-- The output of a tree by a plan. -/
def written (g : Forest) (root : NodeId) (p : MapPlan) : Output :=
  if p.hasMap then
    let m := (g.printMapped root p).2
    ⟨if p.hasLink then g.css root ++ p.comment (g.css root) m else g.css root,
      if p.isInline then none else some m⟩
  else ⟨g.css root, none⟩

/-- The map of a tree with the texts of its sources. -/
def fullMap (g : Forest) (root : NodeId) (p : MapPlan) : SourceMap :=
  .build g.input? p.naming true (g.mappings p.options.unmapped .start (g.print root))

theorem output_eq (f : Forest) (root : NodeId) (o : RunOptions) : f.output root o =
    ((f.printed root o).written root (MapPlan.make f root o), f.printed root o) := by
  unfold output written printed
  cases h : (MapPlan.make f root o).hasMap <;>
    simp only [h, Bool.not_true, Bool.not_false, Bool.false_eq_true, if_true, if_false]
  rfl

theorem written_of_not_hasMap (h : p.hasMap = false) : g.written root p = ⟨g.css root, none⟩ := by
  rw [written, h]
  rfl

theorem written_of_hasMap (h : p.hasMap = true) : g.written root p =
    ⟨if p.hasLink then g.css root ++ p.comment (g.css root) ((g.fullMap root p).withTexts
      p.hasContents) else g.css root,
      if p.isInline then none else some ((g.fullMap root p).withTexts p.hasContents)⟩ := by
  rw [written, if_pos h, show (g.printMapped root p).2 = _ from SourceMap.build_eq_withTexts _]
  rfl

/-- With a map something is written that is not written without one. -/
theorem written_ne (h : p.hasMap = true) : g.written root p ≠ ⟨g.css root, none⟩ := by
  rw [written_of_hasMap h, ne_eq, Output.mk.injEq]
  cases hinline : p.isInline with
  | true =>
    rw [if_pos (MapPlan.hasLink_of_isInline hinline)]
    exact fun heq => p.comment_ne_empty _ _ heq.1
  | false => simp

/-- **A plan with other maps of inputs writes the same exactly if these agree.** -/
theorem written_withPrevious_iff (g : Forest) (root : NodeId) (p : MapPlan)
    (maps : List PreviousMap) : g.written root (p.withPrevious maps) = g.written root p ↔
      p.Agrees (p.withPrevious maps) (g.fullMap root p) := by
  have hcomment := @MapPlan.comment_eq_iff p maps
  have hfull : g.fullMap root (p.withPrevious maps) = g.fullMap root p := rfl
  generalize p.withPrevious maps = q at hcomment hfull ⊢
  cases hp : p.hasMap <;> cases hq : q.hasMap
  case false.false =>
    refine iff_of_true ?_ ⟨hq.trans hp.symm, by simp [hp], by simp [hp], by simp [hp]⟩
    rw [written_of_not_hasMap hp, written_of_not_hasMap hq]
  case false.true =>
    refine iff_of_false ?_ fun h => absurd h.hasMap (by simp [hp, hq])
    rw [written_of_not_hasMap hp]
    exact written_ne hq
  case true.false =>
    refine iff_of_false ?_ fun h => absurd h.hasMap (by simp [hp, hq])
    rw [written_of_not_hasMap hq]
    exact (written_ne hp).symm
  rw [MapPlan.agrees_iff hp hq, written_of_hasMap hp, written_of_hasMap hq, hfull,
    Output.mk.injEq]
  generalize g.fullMap root p = m
  by_cases hinline : q.isInline = p.isInline
  · specialize hcomment hinline (g.css root)
    cases hpi : p.isInline with
    | true =>
      -- the text of the map stands in the comment
      rw [if_pos (MapPlan.hasLink_of_isInline hpi),
        if_pos (MapPlan.hasLink_of_isInline (hinline.trans hpi)),
        MapPlan.hasLink_of_isInline hpi, MapPlan.hasLink_of_isInline (hinline.trans hpi),
        hinline, hpi, ← String.toList_inj, String.toList_append, String.toList_append,
        List.append_cancel_left_eq, String.toList_inj, hcomment, MapPlan.ShowsTexts, hpi]
      simp [SourceMap.write_withTexts_iff]
    | false =>
      rw [hinline, hpi, MapPlan.ShowsTexts, hpi, if_neg Bool.false_ne_true,
        if_neg Bool.false_ne_true, if_neg Bool.false_ne_true, Option.some.injEq,
        SourceMap.withTexts_eq_iff]
      -- the comment only names the map
      have hsame := (hcomment (m.withTexts p.hasContents) (m.withTexts q.hasContents)).2 fun h => by
        rw [hpi] at h
        cases h
      have hne := p.comment_ne_empty (g.css root) (m.withTexts p.hasContents)
      rw [hsame]
      cases p.hasLink <;> cases q.hasLink <;> simp [hne, hne.symm]
  · refine iff_of_false (fun h => hinline ?_) fun h => hinline h.1
    have hmap := h.2
    cases hpi : p.isInline <;> cases hqi : q.isInline <;> simp [hpi, hqi] at hmap ⊢

/-- The tree that is printed has nothing left to take out. -/
theorem printed_printed (f : Forest) (root : NodeId) (o : RunOptions) :
    (f.printed root o).printed root o = f.printed root o := by
  have hplan (g : Forest) : (MapPlan.make g root o).options = (MapPlan.make f root o).options := rfl
  unfold printed
  rw [hplan]
  split
  · rfl
  · exact clearLinks_clearLinks f root

/-- The maps that are left are maps of inputs of the tree. -/
theorem mappedInputs_printed (f : Forest) (root : NodeId) (o : RunOptions) :
    (f.printed root o).mappedInputs root ⊆ f.mappedInputs root := by
  unfold printed
  split
  · exact List.Subset.refl _
  · exact f.mappedInputs_clearLinks root

theorem input?_printed (f : Forest) (root : NodeId) (o : RunOptions) (i : InputId) :
    (f.printed root o).input? i = f.input? i := by
  unfold printed
  split
  · rfl
  · rw [input?, input?, (f.clearLinks_frame root).2]

/-- **A second output leaves the tree as the first one left it.** It is the same output exactly if
the maps of the inputs that are left decide as those of all inputs did; this is so if every input
with a map still has a node in the tree. -/
theorem output_again (f : Forest) (root : NodeId) (o : RunOptions) :
    let first := f.output root o
    let second := first.2.output root o
    let p := MapPlan.make f root o
    second.2 = first.2 ∧
      (second.1 = first.1 ↔
        p.Agrees (MapPlan.make first.2 root o) (first.2.fullMap root p)) ∧
      (f.mappedInputs root ⊆ first.2.mappedInputs root → second.1 = first.1) := by
  intro first second p
  have hfirst : first = ((f.printed root o).written root p, f.printed root o) := f.output_eq root o
  have hplan : MapPlan.make first.2 root o =
      p.withPrevious (MapPlan.make first.2 root o).previous := rfl
  have hsecond : second = (first.2.written root (MapPlan.make first.2 root o), first.2) := by
    show first.2.output root o = _
    rw [output_eq, hfirst, printed_printed]
  have hiff : second.1 = first.1 ↔
      p.Agrees (MapPlan.make first.2 root o) (first.2.fullMap root p) := by
    rw [hsecond, hplan, ← written_withPrevious_iff, hfirst]
  refine ⟨by rw [hsecond], hiff, fun hkept => hiff.2 ?_⟩
  rw [hplan]
  apply MapPlan.agrees_withPrevious
  intro m
  have hsub : first.2.mappedInputs root ⊆ f.mappedInputs root := by
    rw [hfirst]
    exact f.mappedInputs_printed root o
  have hinput (i : InputId) : first.2.input? i = f.input? i := by
    rw [hfirst]
    exact f.input?_printed root o i
  simp only [p, MapPlan.make, List.mem_filterMap, hinput]
  constructor
  · rintro ⟨i, hi, hm⟩
    exact ⟨i, hsub hi, hm⟩
  · rintro ⟨i, hi, hm⟩
    exact ⟨i, hkept hi, hm⟩

/-- Two inputs with maps under a new root; one of them ends with a comment that names its map, which
is taken out. -/
theorem output_again_linked :
    let map := "\x7b\"version\":3,\"sources\":[\"o.scss\"],\"names\":[],\"mappings\":\"AAAA,CAEE\"\x7d"
    let setting : MapSetting := .enabled { previous := some (.text map) }
    let f := [Edit.new .root, .read .empty "a\x7bx:y\x7d" (some "a.css") setting,
      .read .empty "b\x7b\x7d/*# sourceMappingURL=b.css.map */" (some "b.css") setting,
      .insert 0 .stop [1, 4]].foldl Edit.run .empty
    let first := f.output 0 {}
    f.children 0 = [2, 5, 6] ∧ first.2.children 0 = [2, 5] ∧
      f.mappedInputs 0 ⊆ first.2.mappedInputs 0 ∧
      (MapPlan.make f 0 {}).hasMap = true ∧ (first.2.output 0 {}).1 = first.1 := by
  intro map setting f first
  obtain ⟨hchildren, hkept, hinputs, hmap⟩ : f.children 0 = [2, 5, 6] ∧
      (f.clearLinks 0).children 0 = [2, 5] ∧
      f.mappedInputs 0 = (f.clearLinks 0).mappedInputs 0 ∧
      (MapPlan.make f 0 {}).hasMap = true := by decide +kernel
  clear_value f
  have hfirst : first.2 = f.clearLinks 0 := congrArg Prod.snd (f.output_eq 0 {})
  have hsub : f.mappedInputs 0 ⊆ first.2.mappedInputs 0 := by
    rw [hfirst, hinputs]
    exact List.Subset.refl _
  exact ⟨hchildren, hfirst ▸ hkept, hsub, hmap, (output_again f 0 {}).2.2 hsub⟩

/-- The only node of an input with a map is a comment that names the map: a comment that names the
map of the output is written the first time, and none the second time. -/
theorem not_output_again :
    let map := "\x7b\"version\":3,\"sources\":[],\"names\":[],\"mappings\":\"\"\x7d"
    let f := [Edit.new .root, .read .empty "/*# sourceMappingURL=a.css.map */" (some "a.css")
      (.enabled { previous := some (.text map) }), .insert 0 .stop [2]].foldl Edit.run .empty
    let first := f.output 0 {}
    let second := first.2.output 0 {}
    first.1.css ≠ "" ∧ second.1.css = "" := by
  intro map f first second
  obtain ⟨hmap, hlink, hleft, hcss⟩ : (MapPlan.make f 0 {}).hasMap = true ∧
      (MapPlan.make f 0 {}).hasLink = true ∧
      (MapPlan.make (f.clearLinks 0) 0 {}).hasMap = false ∧ (f.clearLinks 0).css 0 = "" := by
    decide +kernel
  clear_value f
  have hfirst : first = ((f.clearLinks 0).written 0 (MapPlan.make f 0 {}), f.clearLinks 0) :=
    f.output_eq 0 {}
  have hsecond : second.1 = ((f.clearLinks 0).printed 0 {}).written 0
      (MapPlan.make (f.clearLinks 0) 0 {}) := by
    show (first.2.output 0 {}).1 = _
    rw [hfirst, output_eq]
  have hkept : (f.clearLinks 0).printed 0 {} = f.clearLinks 0 := f.printed_printed 0 {}
  rw [hfirst, hsecond, hkept, written_of_not_hasMap hleft, written_of_hasMap hmap,
    if_pos hlink]
  have hne := MapPlan.comment_ne_empty (MapPlan.make f 0 {}) ((f.clearLinks 0).css 0)
  simp only [hcss] at hne ⊢
  exact ⟨hne _, trivial⟩

end Forest

end Stylesheet
