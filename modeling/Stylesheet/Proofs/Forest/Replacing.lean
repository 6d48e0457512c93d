import Stylesheet.Proofs.Forest.Links

/-!
# The steps of a replacement

`replace` goes through a list: it empties the roots in it, puts in one node after the other and at
last takes out the node that was replaced. What these steps keep (`KeptByReplacing`) the whole
keeps, whether it comes to the end or stops on the way (`KeptByReplacing.replace`). Along with the
forest goes the list of the nodes that were put among the children of a node `P`
(`arrivalsReplacing`).
-/

set_option autoImplicit false

namespace Stylesheet

namespace Forest

variable {f g : Forest} {P id parent : NodeId}

/-- The forest that a step of `replace` leaves, also when it fails. -/
def left {α : Type} (forest : α → Forest) : Except (Forest × TreeError) α → Forest
  | .ok a => forest a
  | .error (g, _) => g

/-! ## What is put among the children of a node -/

/-- The nodes that an insertion puts among the children of `P`. -/
def arrivals (P : NodeId) (f : Forest) (parent : NodeId) (anchor : Anchor)
    (incoming : List NodeId) : List NodeId :=
  if parent = P ∧ f.refusal? parent anchor incoming = none then
    (f.flatten anchor.reference? incoming).1
  else []

/-- What `insertBehind` puts among the children of `P`. -/
def arrivalsBehind (P parent : NodeId) : Forest → NodeId → List NodeId → List NodeId
  | _, _, [] => []
  | f, bookmark, id :: rest =>
    match f.insert parent (.after bookmark) [id] with
    | .error _ => []
    | .ok g => arrivals P f parent (.after bookmark) [id] ++ arrivalsBehind P parent g id rest

/-- What `insertAhead` puts among the children of `P`. -/
def arrivalsAhead (P parent reference : NodeId) : Forest → List NodeId → List NodeId
  | _, [] => []
  | f, id :: rest =>
    match f.insert parent (.before reference) [id] with
    | .error _ => []
    | .ok g =>
      arrivals P f parent (.before reference) [id] ++ arrivalsAhead P parent reference g rest

/-- What `insertReplacements` puts among the children of `P`. -/
def arrivalsReplacing (P parent id : NodeId) : Forest → Option NodeId → List NodeId → List NodeId
  | _, _, [] => []
  | f, bookmark, r :: rest =>
    if r = id then arrivalsReplacing P parent id f (some (bookmark.getD id)) rest
    else
      let (ids, f) := if f.kind r = .root then f.clear r else ([r], f)
      match bookmark with
      | some b =>
        arrivalsBehind P parent f b ids ++
          match insertBehind parent f b ids with
          | .error _ => []
          | .ok (f, b) => arrivalsReplacing P parent id f (some b) rest
      | none =>
        arrivalsAhead P parent id f ids ++
          match insertAhead parent id f ids with
          | .error _ => []
          | .ok f => arrivalsReplacing P parent id f none rest

theorem arrivals_of_error {anchor : Anchor} {incoming : List NodeId} {e : TreeError}
    (hg : f.insert parent anchor incoming = .error e) : arrivals P f parent anchor incoming = [] := by
  unfold arrivals
  rw [if_neg]
  rintro ⟨-, hr⟩
  rw [insert_of_accepted hr] at hg
  cases hg

/-! ## The loops -/

/-- What the steps of a replacement below `parent` keep: `I` of the forest and of what was put among
the children of `P`, `A` of the nodes that are listed, and `B` of those that are put in. -/
structure KeptByReplacing (P parent : NodeId) (I : Forest → List NodeId → Prop)
    (A B : Forest → NodeId → Prop) : Prop where
  clear : ∀ {f : Forest} {l : List NodeId} {r : NodeId}, I f l → A f r → f.kind r = .root →
    I (f.clear r).2 l ∧ (∀ c ∈ f.children r, B (f.clear r).2 c) ∧ ∀ c, A f c → A (f.clear r).2 c
  single : ∀ {f : Forest} {l : List NodeId} {r : NodeId}, I f l → A f r → f.kind r ≠ .root → B f r
  insert : ∀ {f g : Forest} {l : List NodeId} {anchor : Anchor} {reference c : NodeId},
    anchor.reference? = some reference → I f l → B f c → f.insert parent anchor [c] = .ok g →
    I g (l ++ arrivals P f parent anchor [c]) ∧ (∀ c, A f c → A g c) ∧ ∀ c, B f c → B g c
  detach : ∀ {f : Forest} {l : List NodeId} (c : NodeId), I f l → I (f.detach c).2 l

namespace KeptByReplacing

variable {I : Forest → List NodeId → Prop} {A B : Forest → NodeId → Prop} {l ids rs : List NodeId}

/-- One member of the list: what it stands for, and the forest behind its root being emptied. -/
theorem sent (hR : KeptByReplacing P parent I A B) (h : I f l) {r : NodeId} (hr : A f r) :
    I (if f.kind r = .root then f.clear r else ([r], f)).2 l ∧
      (∀ c ∈ (if f.kind r = .root then f.clear r else ([r], f)).1,
        B (if f.kind r = .root then f.clear r else ([r], f)).2 c) ∧
      ∀ c, A f c → A (if f.kind r = .root then f.clear r else ([r], f)).2 c := by
  by_cases hk : f.kind r = .root
  · rw [if_pos hk]
    exact hR.clear h hr hk
  · rw [if_neg hk]
    exact ⟨h, List.forall_mem_singleton.2 (hR.single h hr hk), fun _ hc => hc⟩

theorem insertBehind (hR : KeptByReplacing P parent I A B) (h : I f l) (hb : ∀ c ∈ ids, B f c)
    (bookmark : NodeId) :
    I (left Prod.fst (insertBehind parent f bookmark ids))
        (l ++ arrivalsBehind P parent f bookmark ids) ∧
      ∀ c, A f c → A (left Prod.fst (insertBehind parent f bookmark ids)) c := by
  induction ids generalizing f l bookmark with
  | nil => exact ⟨(List.append_nil l).symm ▸ h, fun _ hc => hc⟩
  | cons id rest ih =>
    rw [Forest.insertBehind, arrivalsBehind]
    cases hg : f.insert parent (.after bookmark) [id] with
    | error e => exact ⟨(List.append_nil l).symm ▸ h, fun _ hc => hc⟩
    | ok g =>
      obtain ⟨hstep, hA, hB⟩ := hR.insert rfl h (hb id (.head _)) hg
      obtain ⟨hall, hkept⟩ := ih hstep (fun c hc => hB c (hb c (.tail _ hc))) id
      rw [List.append_assoc] at hall
      exact ⟨hall, fun c hc => hkept c (hA c hc)⟩

theorem insertAhead (hR : KeptByReplacing P parent I A B) (h : I f l) (hb : ∀ c ∈ ids, B f c)
    (reference : NodeId) :
    I (left (·) (insertAhead parent reference f ids))
        (l ++ arrivalsAhead P parent reference f ids) ∧
      ∀ c, A f c → A (left (·) (insertAhead parent reference f ids)) c := by
  induction ids generalizing f l with
  | nil => exact ⟨(List.append_nil l).symm ▸ h, fun _ hc => hc⟩
  | cons id rest ih =>
    rw [Forest.insertAhead, arrivalsAhead]
    cases hg : f.insert parent (.before reference) [id] with
    | error e => exact ⟨(List.append_nil l).symm ▸ h, fun _ hc => hc⟩
    | ok g =>
      obtain ⟨hstep, hA, hB⟩ := hR.insert rfl h (hb id (.head _)) hg
      obtain ⟨hall, hkept⟩ := ih hstep (fun c hc => hB c (hb c (.tail _ hc)))
      rw [List.append_assoc] at hall
      exact ⟨hall, fun c hc => hkept c (hA c hc)⟩

theorem insertReplacements (hR : KeptByReplacing P parent I A B) (h : I f l)
    (hs : ∀ r ∈ rs, r = id ∨ A f r) (bookmark : Option NodeId) :
    I (left Prod.fst (insertReplacements parent id f bookmark rs))
      (l ++ arrivalsReplacing P parent id f bookmark rs) := by
  induction rs generalizing f l bookmark with
  | nil => exact (List.append_nil l).symm ▸ h
  | cons r rest ih =>
    obtain ⟨hr, hrest⟩ := List.forall_mem_cons.1 hs
    rw [Forest.insertReplacements, arrivalsReplacing]
    by_cases hid : r = id
    · rw [if_pos hid, if_pos hid]
      exact ih h hrest _
    · rw [if_neg hid, if_neg hid]
      obtain ⟨hsent, hB, hA⟩ := hR.sent h (hr.resolve_left hid)
      generalize (if f.kind r = .root then f.clear r else ([r], f)) = sent at hsent hB hA
      obtain ⟨ids, f'⟩ := sent
      simp only at hsent hB hA ⊢
      have hlisted {g : Forest} (hg : ∀ c, A f' c → A g c) : ∀ r ∈ rest, r = id ∨ A g r :=
        fun r hr => (hrest r hr).imp_right fun h => hg r (hA r h)
      cases bookmark with
      | some b =>
        obtain ⟨hbehind, hkept⟩ := hR.insertBehind hsent hB b
        simp only
        cases hi : Forest.insertBehind parent f' b ids with
        | error e =>
          rw [hi] at hbehind
          rwa [List.append_nil]
        | ok k =>
          rw [hi] at hbehind hkept
          rw [← List.append_assoc]
          exact ih hbehind (hlisted hkept) _
      | none =>
        obtain ⟨hahead, hkept⟩ := hR.insertAhead hsent hB id
        simp only
        cases hi : Forest.insertAhead parent id f' ids with
        | error e =>
          rw [hi] at hahead
          rwa [List.append_nil]
        | ok k =>
          rw [hi] at hahead hkept
          rw [← List.append_assoc]
          exact ih hahead (hlisted hkept) _

/-- **What the steps of a replacement keep, the replacement keeps.** -/
theorem replace (hR : KeptByReplacing P parent I A B) (hp : f.parent? id = some parent) (h : I f l)
    (hs : ∀ r ∈ rs, r = id ∨ A f r) :
    I (f.replace id rs).1 (l ++ arrivalsReplacing P parent id f none rs) := by
  have hall := hR.insertReplacements h hs none
  unfold Forest.replace
  rw [hp]
  simp only
  split
  · next hr =>
    rw [hr] at hall
    exact hall
  · next hr =>
    rw [hr] at hall
    exact hall
  · next hr =>
    rw [hr] at hall
    exact hR.detach id hall

/-- The same without the list of arrivals, also for a node that stands nowhere. -/
theorem replace_forest {I : Forest → Prop}
    (hR : ∀ parent, KeptByReplacing id parent (fun f _ => I f) A B) (h : I f)
    (hs : ∀ r ∈ rs, r = id ∨ A f r) : I (f.replace id rs).1 := by
  cases hp : f.parent? id with
  | none =>
    unfold Forest.replace
    rw [hp]
    exact h
  | some parent => exact (hR parent).replace hp (l := []) h hs

end KeptByReplacing

end Forest

end Stylesheet
