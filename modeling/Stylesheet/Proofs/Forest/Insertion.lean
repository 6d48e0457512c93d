import Stylesheet.Proofs.Forest.Spares

/-!
# What an insertion does

`Forest.flattened` are the nodes that a list stands for: a root stands for its children. `Inserts`
says what an insertion of such nodes changes, part by part. `WellFormed.inserts` shows it for an
insertion that succeeds, and `insert_flattened` is that with the roots that are emptied. The index
of the insertion is taken when the nodes have left their places, so it is read off the list without
them (`Anchor.Places`).
-/

set_option autoImplicit false

namespace Stylesheet

/-- The nodes `moved` stand in one piece among the children that were there, at the place that the
anchor names. -/
def Anchor.Places (anchor : Anchor) (moved rest children : List NodeId) : Prop :=
  match anchor with
  | .start => children = moved ++ rest
  | .stop => children = rest ++ moved
  | .before r => ∃ ahead behind, rest = ahead ++ r :: behind ∧
      children = ahead ++ moved ++ r :: behind
  | .after r => ∃ ahead behind, rest = ahead ++ r :: behind ∧
      children = ahead ++ r :: moved ++ behind

/-- The formatting of a node that is put in by a sibling with these blanks before it. -/
def Raws.filledBy (r : Raws) : Option String → Raws
  | some s => if r.contains "before" then r else r.setText "before" s
  | none => r

/-- The formatting `r'` is `r` with blanks before the node, which had no slot for them. -/
def Raws.Filled (r r' : Raws) : Prop :=
  r.contains "before" = false ∧ ∃ s, (∀ c ∈ s.toList, Text.isBlank c) ∧ r' = r.setText "before" s

theorem Raws.filledBy_self (r : Raws) (sample : Option String) :
    (r.filledBy sample).filledBy sample = r.filledBy sample := by
  cases sample with
  | none => rfl
  | some s =>
    by_cases h : r.contains "before" = true
    · simp [filledBy, h]
    · have hset : (r.setText "before" s).contains "before" = true := by
        simp [Raws.contains, Raws.setText]
      simp [filledBy, h, hset]

namespace Forest

open Relation

variable {f g : Forest} {id parent : NodeId} {ids incoming : List NodeId} {anchor : Anchor}

/-! ## What is put in -/

/-- The nodes that a list stands for. -/
def flattened (f : Forest) (incoming : List NodeId) : List NodeId :=
  incoming.flatMap fun id => if f.kind id = .root then f.children id else [id]

theorem mem_flattened {c : NodeId} : c ∈ f.flattened incoming ↔
    (c ∈ incoming ∧ f.kind c ≠ .root) ∨ ∃ r ∈ incoming, f.kind r = .root ∧ c ∈ f.children r := by
  unfold flattened
  rw [List.mem_flatMap]
  constructor
  · rintro ⟨r, hr, hc⟩
    split at hc
    · next hk => exact .inr ⟨r, hr, hk, hc⟩
    · next hk =>
      rw [List.mem_singleton] at hc
      exact .inl ⟨hc ▸ hr, hc ▸ hk⟩
  · rintro (⟨hc, hk⟩ | ⟨r, hr, hk, hc⟩)
    · exact ⟨c, hc, by simp [hk]⟩
    · exact ⟨r, hr, by simpa [hk] using hc⟩

/-- A root that is emptied does not change what the others stand for. -/
theorem flattened_clear (h : ∀ c ∈ f.children id, c ∉ f.flattened incoming) :
    (f.clear id).2.flattened incoming = f.flattened incoming := by
  unfold flattened
  refine List.flatMap_congr fun q hq => ?_
  rw [kind_clear, children_clear]
  by_cases hqi : q = id
  · subst hqi
    by_cases hk : f.kind q = .root
    · have hnone : f.children q = [] :=
        List.eq_nil_iff_forall_not_mem.2 fun c hc => h c hc (mem_flattened.2 (.inr ⟨q, hq, hk, hc⟩))
      simp [hnone]
    · simp [hk]
  · simp [hqi]

/-- What an insertion puts in is what the list stands for, less the node that it goes by. -/
theorem flatten_eq (hd : (f.flattened incoming).Nodup) {reference : Option NodeId}
    (href : ∀ r, reference = some r → ∀ q ∈ incoming, f.kind q = .root → r ∉ f.children q) :
    (f.flatten reference incoming).1 = (f.flattened incoming).filter (reference ≠ some ·) := by
  induction incoming generalizing f with
  | nil => rfl
  | cons id rest ih =>
    have hcons : f.flattened (id :: rest) =
        (if f.kind id = .root then f.children id else [id]) ++ f.flattened rest :=
      List.flatMap_cons
    rw [hcons] at hd ⊢
    obtain ⟨-, hrest, hapart⟩ := List.nodup_append.1 hd
    by_cases hr : f.kind id = .root
    · rw [if_pos hr] at hapart ⊢
      have hsame := flattened_clear fun c hc hmem => hapart c hc c hmem rfl
      have hstays : (f.children id).filter (reference ≠ some ·) = f.children id := by
        rw [List.filter_eq_self]
        intro c hc
        rw [decide_eq_true_iff]
        intro he
        exact href c he id (.head _) hr hc
      rw [flatten_root hr, List.filter_append, hstays, ih, hsame]
      · rwa [hsame]
      · intro r he q hq hk hc
        rw [kind_clear] at hk
        rw [children_clear] at hc
        split at hc
        · cases hc
        · exact href r he q (.tail _ hq) hk hc
    · rw [if_neg hr, flatten_single hr, ih hrest fun r he q hq => href r he q (.tail _ hq)]
      by_cases he : reference = some id <;> simp [he]

/-! ## Formatting -/

theorem raws_flatten (f : Forest) (reference : Option NodeId) (incoming : List NodeId)
    (c : NodeId) : (f.flatten reference incoming).2.raws c = f.raws c :=
  congrArg Element.raws
    ((spares_flatten f reference incoming).element c (List.mem_singleton_self c))

theorem raws_adopt (sample : Option String) (h : id < f.size) (c : NodeId) :
    (f.adopt parent sample id).raws c =
      if c = id then (f.raws id).filledBy sample else f.raws c := by
  have hraws (c : NodeId) : (f.detach id).2.raws c = f.raws c :=
    congrArg Element.raws ((spares_detach f id).element c (List.mem_singleton_self c))
  unfold adopt
  by_cases hc : c = id
  · subst hc
    rw [if_pos rfl, ← hraws c, raws, node_modify_self _ (by rwa [size_detach])]
    cases sample <;> rfl
  · rw [if_neg hc, ← hraws c, raws, node_modify_of_ne _ hc, raws]

theorem raws_adoptAll (parent : NodeId) (sample : Option String) (ids : List NodeId) {f : Forest}
    (hs : ∀ id ∈ ids, id < f.size) (c : NodeId) :
    (ids.foldl (fun f id => f.adopt parent sample id) f).raws c =
      if c ∈ ids then (f.raws c).filledBy sample else f.raws c := by
  induction ids generalizing f with
  | nil => simp
  | cons id ids ih =>
    rw [List.foldl_cons, ih, raws_adopt sample (hs id (.head _))]
    · by_cases hc : c = id <;> by_cases hmem : c ∈ ids <;> simp [hc, hmem, Raws.filledBy_self]
    · intro c hc
      rw [size_adopt]
      exact hs c (.tail _ hc)

/-- The sibling that an insertion goes by keeps its blanks when the roots are emptied. -/
theorem sampleBefore_flatten (hp : parent ∉ incoming) (reference : Option NodeId)
    (anchor : Anchor) : (f.flatten reference incoming).2.sampleBefore parent anchor =
      f.sampleBefore parent anchor := by
  have hchildren : (f.flatten reference incoming).2.children parent = f.children parent := by
    rw [children_flatten, if_neg fun h => hp h.1]
  unfold sampleBefore
  simp only [hchildren, raws_flatten]

/-- An insertion fills in blanks only, and only where there were none. -/
theorem filled_by_sample (f : Forest) (parent : NodeId) (anchor : Anchor) (r : Raws) :
    r.filledBy (f.sampleBefore parent anchor) = r ∨
      r.Filled (r.filledBy (f.sampleBefore parent anchor)) := by
  unfold sampleBefore
  simp only
  generalize (Option.bind _ fun id => (f.raws id).text? "before") = found
  cases found with
  | none => exact .inl rfl
  | some text =>
    by_cases hb : r.contains "before" = true
    · exact .inl (if_pos hb)
    · refine .inr ⟨Bool.not_eq_true _ ▸ hb, Text.blanks text, ?_, if_neg hb⟩
      intro c hc
      rw [Text.blanks, String.toList_ofList] at hc
      exact (List.mem_filter.1 hc).2

/-! ## Places -/

/-- The index of an insertion is that of the place its anchor names. -/
theorem places_insertionIndex (ids : List NodeId)
    (h : ∀ r, anchor.reference? = some r → r ∈ f.children parent) :
    anchor.Places ids (f.children parent)
      ((f.children parent).take (f.insertionIndex parent anchor) ++ ids ++
        (f.children parent).drop (f.insertionIndex parent anchor)) := by
  have hcut : ∀ r ∈ f.children parent, ∃ ahead behind,
      f.children parent = ahead ++ r :: behind ∧ f.indexOf? parent r = some ahead.length := by
    intro r hr
    cases hi : f.indexOf? parent r with
    | none => exact absurd hr (indexOf?_eq_none_iff.1 hi)
    | some i =>
      obtain ⟨hlt, he⟩ := List.getElem?_eq_some_iff.1 (getElem?_of_indexOf? hi)
      refine ⟨(f.children parent).take i, (f.children parent).drop (i + 1), ?_, ?_⟩
      · simp [← he]
      · rw [List.length_take, Nat.min_eq_left (Nat.le_of_lt hlt)]
  unfold insertionIndex
  cases anchor with
  | start => simp [Anchor.Places]
  | stop => simp [Anchor.Places]
  | before r =>
    obtain ⟨ahead, behind, hsplit, hi⟩ := hcut r (h r rfl)
    refine ⟨ahead, behind, hsplit, ?_⟩
    simp only [hi, Option.getD_some]
    rw [hsplit, List.take_left, List.drop_left]
  | after r =>
    obtain ⟨ahead, behind, hsplit, hi⟩ := hcut r (h r rfl)
    refine ⟨ahead, behind, hsplit, ?_⟩
    simp only [hi, Option.getD_some]
    rw [hsplit, List.take_length_add_append, List.drop_length_add_append]
    simp

/-- An insertion does not take the node that it goes by. -/
theorem WellFormed.reference_stays (h : f.WellFormed)
    (hr : f.refusal? parent anchor incoming = none) {r : NodeId}
    (href : anchor.reference? = some r) : r ∉ (f.flatten anchor.reference? incoming).1 := by
  obtain ⟨-, hchild, hcycle⟩ := refusal?_eq_none hr
  rw [mem_flatten]
  rintro (hsingle | ⟨q, hq, -, hc⟩)
  · have := (List.mem_filter.1 hsingle).2
    rw [decide_eq_true_iff] at this
    exact this.2 href
  · -- a root that sent the reference would be `parent` itself
    have := hcycle q hq
    rw [h.eq_of_mem hc (hchild r href)] at this
    simp [isInside] at this

/-! ## The insertion -/

/-- `g` is `f` with the nodes `moved` put in one piece below `P`, where `anchor` says. -/
structure Inserts (f g : Forest) (P : NodeId) (anchor : Anchor) (moved : List NodeId) : Prop
    extends Joins f g P moved where
  places : anchor.Places moved ((f.children P).filter (· ∉ moved)) (g.children P)
  raws : ∀ c, g.raws c =
    if c ∈ moved then (f.raws c).filledBy (f.sampleBefore P anchor) else f.raws c

/-- What an insertion that succeeds does to a well-formed forest. -/
theorem WellFormed.inserts (h : f.WellFormed) (hs : ∀ id ∈ incoming, id < f.size)
    (hg : f.insert parent anchor incoming = .ok g) :
    Inserts f g parent anchor (f.flatten anchor.reference? incoming).1 := by
  have hr := refusal?_of_insert hg
  have hjoins := h.insert_joins hs hr hg
  obtain ⟨-, href, hcycle⟩ := refusal?_eq_none hr
  have hstays := fun r => @WellFormed.reference_stays f parent incoming anchor h hr r
  have hparent : parent ∉ incoming := by
    intro hmem
    have := hcycle parent hmem
    simp [isInside] at this
  have hsample := sampleBefore_flatten (f := f) hparent anchor.reference? anchor
  have hfilter := filter_children_flatten f anchor.reference? incoming
  have hraws := raws_flatten f anchor.reference? incoming
  have hids : ∀ c ∈ (f.flatten anchor.reference? incoming).1,
      c < (f.flatten anchor.reference? incoming).2.size := fun _ => h.lt_size_of_mem_flatten hs
  have hflat := h.flatten anchor.reference? incoming
  rcases insert_cases hg with ⟨hempty, rfl⟩ | ⟨sample, g', rfl, hg', hlt, rfl⟩
  · rw [hempty] at hfilter hjoins ⊢
    refine ⟨hjoins, ?_, by simp [hraws]⟩
    have hsame : (f.flatten anchor.reference? incoming).2.children parent = f.children parent := by
      simpa using hfilter parent
    simpa [hsame] using places_insertionIndex (f := f) [] href
  · rw [hsample] at hg'
    have hchildren := children_adoptAll parent (f.sampleBefore parent anchor) _ hflat.nodup
      (fun q c hc _ => (hflat.parent q c).1 hc) hids
    have hadopted := raws_adoptAll parent (f.sampleBefore parent anchor) _ hids
    rw [← hg'] at hchildren hadopted
    refine ⟨hjoins, ?_, ?_⟩
    · rw [children_splice hlt, if_pos rfl, ← hfilter, ← hchildren]
      refine places_insertionIndex _ fun r hr => ?_
      rw [hchildren, hfilter, List.mem_filter, decide_eq_true_iff]
      exact ⟨href r hr, hstays r hr⟩
    · intro c
      have hsplice : (g'.splice parent (g'.insertionIndex parent anchor)
          (f.flatten anchor.reference? incoming).1).raws c = g'.raws c :=
        node_modify_congr (fun n => n.raws) rfl c
      rw [hsplice, hadopted, hraws]

/-- **An insertion that succeeds** puts what the list stands for in one piece where the anchor
says; the nodes leave their places, the roots are emptied, and a node without blanks before it may
get some. -/
theorem insert_flattened (h : f.WellFormed) (hs : ∀ id ∈ incoming, id < f.size)
    (hd : (f.flattened incoming).Nodup) (hg : f.insert parent anchor incoming = .ok g) :
    Inserts f g parent anchor ((f.flattened incoming).filter (anchor.reference? ≠ some ·)) ∧
      (∀ r ∈ incoming, f.kind r = .root → g.children r = []) ∧
      (∀ c, g.raws c = f.raws c ∨ c ∈ f.flattened incoming ∧ (f.raws c).Filled (g.raws c)) ∧
      g.WellFormed := by
  have hr := refusal?_of_insert hg
  have hsent : ∀ r ∈ incoming, f.kind r = .root → r ≠ parent := by
    rintro r hmem - rfl
    have := (refusal?_eq_none hr).2.2 r hmem
    simp [isInside] at this
  have hmoved := flatten_eq hd fun r href q hq hk hc =>
    hsent q hq hk (h.eq_of_mem hc ((refusal?_eq_none hr).2.1 r href))
  have hinserts := h.inserts hs hg
  have hiff := h.insert_iff hs hr hg
  rw [← h.nodup_flatten, hmoved] at hiff
  rw [hmoved] at hinserts
  refine ⟨hinserts, ?_, ?_, hiff.2 (hd.filter _)⟩
  · intro r hmem hk
    rw [hinserts.children r (hsent r hmem hk), List.filter_eq_nil_iff]
    intro c hc
    rw [decide_eq_true_iff, Decidable.not_not, List.mem_filter, decide_eq_true_iff]
    refine ⟨mem_flattened.2 (.inr ⟨r, hmem, hk, hc⟩), fun href => ?_⟩
    exact hsent r hmem hk (h.eq_of_mem hc ((refusal?_eq_none hr).2.1 c href))
  · intro c
    rw [hinserts.raws]
    split
    · next hc =>
      exact (filled_by_sample f parent anchor (f.raws c)).imp_right fun hfilled =>
        ⟨(List.mem_filter.1 hc).1, hfilled⟩
    · exact .inl rfl

/-- The list names siblings on both sides of the reference, the reference, a root and a comment
without formatting. -/
theorem insert_flattened_before :
    let es := [.read .empty "a\x7b\x7d b\x7b\x7d c\x7b\x7d" none .auto,
      .read .empty "x\x7b\x7d y\x7b\x7d" none .auto, .new (.comment "n")]
    ∃ f ∈ Edit.trail .empty es, f.WellFormed ∧
      f.flattened [3, 7, 4, 2, 1] = [3, 7, 5, 6, 2, 1] ∧
      ∃ g, f.insert 0 (.before 2) [3, 7, 4, 2, 1] = .ok g ∧
        g.children 0 = [3, 7, 5, 6, 1, 2] ∧ g.children 4 = [] ∧
        g.raws 7 = (f.raws 7).setText "before" " " ∧
        Inserts f g 0 (.before 2) [3, 7, 5, 6, 1] ∧ g.WellFormed := by
  intro es
  obtain ⟨f, hmem, hf, hsize, hroot, hflat, hinsert⟩ := Edit.exists_last es
    (fun f => f.size = 8 ∧ f.kind 4 = .root ∧ f.flattened [3, 7, 4, 2, 1] = [3, 7, 5, 6, 2, 1] ∧
      ∃ g, f.insert 0 (.before 2) [3, 7, 4, 2, 1] = .ok g ∧
        g.children 0 = [3, 7, 5, 6, 1, 2] ∧ g.raws 7 = (f.raws 7).setText "before" " ")
    (by decide +kernel) (by decide +kernel) (by decide +kernel)
  obtain ⟨g, hg, hchildren, hraws⟩ := hinsert
  obtain ⟨hinserts, hroots, -, hwf⟩ :=
    insert_flattened hf (by rw [hsize]; decide) (by rw [hflat]; decide) hg
  rw [hflat] at hinserts
  exact ⟨f, hmem, hf, hflat, g, hg, hchildren, hroots 4 (by decide) hroot, hraws, hinserts, hwf⟩

end Forest

end Stylesheet
