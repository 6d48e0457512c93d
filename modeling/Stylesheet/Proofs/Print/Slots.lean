import Stylesheet.Proofs.Print.Lookups
import Stylesheet.Proofs.Print.Texts

/-!
# What is printed for a slot of a node

`Forest.formatting` tells the formatting of a node by the name of a slot alone. The printer goes by
the node as well: it asks for the text before a brace in another way than for a colon, and for the
text in an empty block in another way than for that behind children (`Asked`).

`slotText_tree`: a pass writes each of these once, as it is resolved alone.
`WellFormed.formatting_iff`: the formatting is what is printed exactly if the node has it itself, or
the examples for the name are those for the node (`AsPrinted`).
-/

set_option autoImplicit false

namespace Stylesheet

open Relation

/-! ## What is written for a slot -/

/-- The part of a stretch that is the formatting in a slot of a node. -/
def Stretch.textIn (s : Stretch) (id : NodeId) (slot : String) : String :=
  if s.slot = some (id, slot) then s.text else ""

namespace Strip

variable {id x : NodeId} {slot own : String}

/-- What is written for a slot of a node. -/
def slotText (xs : List Strip) (id : NodeId) (slot : String) : String :=
  String.join ((xs.flatMap Strip.stretches).map (·.textIn id slot))

@[simp] theorem slotText_nil (id : NodeId) (slot : String) : slotText [] id slot = "" := rfl

@[simp] theorem slotText_append (xs ys : List Strip) (id : NodeId) (slot : String) :
    slotText (xs ++ ys) id slot = slotText xs id slot ++ slotText ys id slot := by
  apply String.ext
  simp [slotText]

@[simp] theorem slotText_cons (y : Strip) (ys : List Strip) (id : NodeId) (slot : String) :
    slotText (y :: ys) id slot =
      String.join (y.stretches.map (·.textIn id slot)) ++ slotText ys id slot := by
  apply String.ext
  simp [slotText]

@[simp] theorem textIn_word (text : String) (id : NodeId) (slot : String) :
    (Stretch.word text).textIn id slot = "" := rfl

@[simp] theorem textIn_formatting (id : NodeId) (slot : String) (v : RawValue) (x : NodeId)
    (own : String) : (Stretch.formatting id slot v).textIn x own =
      if id = x ∧ slot = own then v.toText else "" := by
  simp [Stretch.textIn, Stretch.formatting]

@[simp] theorem stretches_own (id : NodeId) (role : Option FragmentRole) (text : String) :
    (Strip.own id role text).stretches = [.word text] := rfl

@[simp] theorem slotText_between (id : NodeId) (slot : String) (v : RawValue) (x : NodeId)
    (own : String) : slotText (between id slot v) x own =
      if id = x ∧ slot = own then v.toText else "" := by
  unfold between
  by_cases h : v.toText = "" <;> simp [h]

end Strip

namespace Forest

open Script Strip

variable {f : Forest} {id r x : NodeId} {slot : String} {a : Aspect}

/-- The slots that the printer consults for a node below `r` or for `r` itself, each with the aspect
that it asks for. -/
inductive Asked (f : Forest) (r id : NodeId) : String → Aspect → Prop
  | before (h : id ≠ r) : Asked f r id "before" .before
  | colon (h : f.kind id = .declaration) : Asked f r id "between" .colon
  | beforeOpen (h : f.Opens id) : Asked f r id "between" .beforeOpen
  | after (h : f.Opens id) (hc : f.children id ≠ []) : Asked f r id "after" .after
  | emptyBody (h : f.Opens id) (hc : f.children id = []) : Asked f r id "after" .emptyBody
  | left (h : f.kind id = .comment) : Asked f r id "left" .commentLeft
  | right (h : f.kind id = .comment) : Asked f r id "right" .commentRight

/-! ### One node -/

theorem slotText_end (id : NodeId) (a : Aspect) (x : NodeId) (slot : String) :
    slotText ((scriptEnd id a).alone f) x slot =
      if id = x ∧ "after" = slot then (f.resolve id "after" a).toText else "" := by
  simp [scriptEnd, alone]

theorem slotText_block (id : NodeId) (head : String) (isEmpty : Bool) (body : Script) (x : NodeId)
    (slot : String) : slotText ((scriptBlock id head isEmpty body).alone f) x slot =
      (if id = x ∧ "between" = slot then (f.resolve id "between" .beforeOpen).toText else "") ++
      (if isEmpty then "" else slotText (body.alone f) x slot) ++
      (if id = x ∧ "after" = slot then
        (f.resolve id "after" (if isEmpty then .emptyBody else .after)).toText else "") := by
  cases isEmpty <;> simp [scriptBlock, alone, alone_append, slotText_end, String.append_assoc]

/-- A node with a block is written around its children. -/
theorem slotText_opens (h : f.Opens id) (semicolon isEmpty : Bool) (body : Script) (x : NodeId)
    (slot : String) : slotText ((f.scriptNode id semicolon isEmpty body).alone f) x slot =
      (if id = x ∧ "between" = slot then (f.resolve id "between" .beforeOpen).toText else "") ++
      (if isEmpty then "" else slotText (body.alone f) x slot) ++
      (if id = x ∧ "after" = slot then
        (f.resolve id "after" (if isEmpty then .emptyBody else .after)).toText else "") := by
  have hkind : f.kind id = (f.data id).kind := rfl
  unfold Opens at h
  rw [hkind] at h
  unfold scriptNode
  cases hd : f.data id with
  | rule selector =>
    by_cases hown : (f.rawText? id "ownSemicolon").getD "" = "" <;>
      simp [alone_append, alone, slotText_block, hown]
  | atRule name params =>
    have hblock : (f.node id).hasBlock = true := by simpa [hd, NodeData.kind] using h
    rw [hblock]
    exact slotText_block id _ isEmpty body x slot
  | _ => simp [hd, NodeData.kind] at h

/-- For a slot that is not of the node itself nothing is written if nothing is for its children. -/
theorem slotText_node_empty {body : Script} (hbody : slotText (body.alone f) x slot = "")
    (hx : id = x → slot = "before") (semicolon isEmpty : Bool) :
    slotText ((f.scriptNode id semicolon isEmpty body).alone f) x slot = "" := by
  have hslot (own : String) (h : own ≠ "before") : ¬(id = x ∧ own = slot) :=
    fun heq => h (heq.2.trans (hx heq.1))
  by_cases hopens : f.Opens id
  · rw [slotText_opens hopens, if_neg (hslot _ (by decide)), if_neg (hslot _ (by decide)), hbody]
    simp
  have hkind : f.kind id = (f.data id).kind := rfl
  unfold scriptNode
  unfold Opens at hopens
  cases hd : f.data id with
  | root => by_cases hafter : (f.rawText? id "after").getD "" = "" <;>
      simp [alone_append, alone, hbody, hafter]
  | rule selector => simp [hkind, hd, NodeData.kind] at hopens
  | atRule name params =>
    have hblock : (f.node id).hasBlock = false := by simpa [hkind, hd, NodeData.kind] using hopens
    simp [hblock, alone, hslot "between" (by decide)]
  | declaration prop value important =>
    simp [scriptDeclaration, alone, hslot "between" (by decide)]
  | comment text =>
    simp [scriptComment, alone, hslot "left" (by decide),
      hslot "right" (by decide)]

/-- What is written for other nodes is written for the children. -/
theorem slotText_node_ne (h : f.kind id = .root ∨ f.Opens id) (hx : id ≠ x)
    (semicolon : Bool) (body : Script) :
    slotText ((f.scriptNode id semicolon false body).alone f) x slot =
      slotText (body.alone f) x slot := by
  by_cases hopens : f.Opens id
  · simp [slotText_opens hopens, hx]
  have hroot : f.data id = .root := by
    have hkind : (f.data id).kind = .root := h.resolve_right hopens
    cases hd : f.data id <;> simp [hd, NodeData.kind] at hkind ⊢
  unfold scriptNode
  by_cases hafter : (f.rawText? id "after").getD "" = "" <;>
    simp [hroot, alone_append, alone, hafter]

/-- **What is written for a slot of the node itself** is as it is resolved alone. -/
theorem slotText_node_self {body : Script} {semicolon isEmpty : Bool}
    (hbody : slotText (body.alone f) id slot = "") (hempty : isEmpty = (f.children id).isEmpty)
    (ha : f.Asked r id slot a) (hslot : slot ≠ "before") :
    slotText ((f.scriptNode id semicolon isEmpty body).alone f) id slot =
      (f.resolve id slot a).toText := by
  have hkind : f.kind id = (f.data id).kind := rfl
  cases ha with
  | before h => exact absurd rfl hslot
  | colon h =>
    rw [hkind] at h
    unfold scriptNode
    cases hd : f.data id <;> simp [hd, NodeData.kind] at h
    simp [scriptDeclaration, alone]
  | beforeOpen h => simp [slotText_opens h, hbody]
  | after h hc => simp [slotText_opens h, hbody, hempty, hc]
  | emptyBody h hc => simp [slotText_opens h, hempty, hc]
  | left h =>
    rw [hkind] at h
    unfold scriptNode
    cases hd : f.data id <;> simp [hd, NodeData.kind] at h
    simp [scriptComment, alone]
  | right h =>
    rw [hkind] at h
    unfold scriptNode
    cases hd : f.data id <;> simp [hd, NodeData.kind] at h
    simp [scriptComment, alone]

/-! ### Trees -/

mutual

/-- Nothing is written for nodes elsewhere. -/
theorem slotText_tree_of_not_mem (f : Forest) (x : NodeId) (slot : String) (semicolon : Bool) :
    (t : Tree NodeId) → x ∉ t.preorder → slotText ((f.scriptTree semicolon t).alone f) x slot = ""
  | .leaf id, hx => by
    rw [Tree.preorder, List.mem_singleton] at hx
    apply slotText_node_empty
    · rfl
    · exact fun heq => absurd heq.symm hx
  | .block id ts, hx => by
    rw [Tree.preorder, List.mem_cons, not_or] at hx
    apply slotText_node_empty
    · exact slotText_children_of_not_mem f x slot _ _ 0 ts hx.2
    · exact fun heq => absurd heq.symm hx.1

theorem slotText_children_of_not_mem (f : Forest) (x : NodeId) (slot : String) (last : Nat)
    (semicolon : Bool) (index : Nat) : (ts : List (Tree NodeId)) → x ∉ Tree.preorderAll ts →
    slotText ((f.scriptChildren last semicolon index ts).alone f) x slot = ""
  | [], _ => rfl
  | t :: ts, hx => by
    rw [Tree.preorderAll, List.mem_append, not_or] at hx
    have hlabel : t.label ≠ x := by
      rintro rfl
      rw [Tree.preorder_eq] at hx
      exact hx.1 (.head _)
    rw [scriptChildren, alone_append, alone_append, slotText_append, slotText_append,
      slotText_tree_of_not_mem f x slot _ t hx.1,
      slotText_children_of_not_mem f x slot last semicolon (index + 1) ts hx.2]
    simp [alone, hlabel]

end

/-- What stands before the top of a tree is not written with the tree. -/
theorem slotText_label_before {t : Tree NodeId} (hn : t.preorder.Nodup) (semicolon : Bool) :
    slotText ((f.scriptTree semicolon t).alone f) t.label "before" = "" := by
  cases t with
  | leaf id => exact slotText_node_empty rfl (fun _ => rfl) semicolon true
  | block id ts =>
    rw [Tree.preorder, List.nodup_cons] at hn
    apply slotText_node_empty
    · exact slotText_children_of_not_mem f id "before" _ _ 0 ts hn.1
    · exact fun _ => rfl

theorem Asked.change {r' : NodeId} (h : f.Asked r x slot a) (hx : slot = "before" → x ≠ r') :
    f.Asked r' x slot a := by
  cases h with
  | before h => exact .before (hx rfl)
  | colon h => exact .colon h
  | beforeOpen h => exact .beforeOpen h
  | after h hc => exact .after h hc
  | emptyBody h hc => exact .emptyBody h hc
  | left h => exact .left h
  | right h => exact .right h

/-- What stands before a node is asked for where it is a child. -/
theorem Asked.of_before (h : f.Asked r x slot a) (hslot : slot = "before") :
    x ≠ r ∧ a = .before := by
  cases h with
  | before h => exact ⟨h, rfl⟩
  | _ => exact absurd hslot (by decide)

/-- A node with children has a block. -/
theorem WellFormed.opens_of_children (h : f.WellFormed) (hc : f.children id ≠ []) :
    f.kind id = .root ∨ f.Opens id := by
  have hleaf := mt (h.leaf id)
  have hblock : (f.node id).hasBlock = true := by
    unfold Node.hasBlock
    cases hnone : (f.node id).children with
    | none => exact absurd (children_of_leaf hnone) hc
    | some ids => rfl
  unfold Opens
  cases hk : f.kind id with
  | root => exact .inl rfl
  | rule => exact .inr (.inl rfl)
  | atRule => exact .inr (.inr ⟨rfl, hblock⟩)
  | declaration => exact absurd (h.leaf id (by rw [hk]; rfl)) hc
  | comment => exact absurd (h.leaf id (by rw [hk]; rfl)) hc

mutual

/-- **What a pass writes for a slot** is as it is resolved alone. -/
theorem WellFormed.slotText_tree (h : f.WellFormed) (semicolon : Bool) : (t : Tree NodeId) →
    f.Shows t → x ∈ t.preorder → f.Asked t.label x slot a →
    slotText ((f.scriptTree semicolon t).alone f) x slot = (f.resolve x slot a).toText
  | .leaf id, hshows, hx, ha => by
    rw [Tree.preorder, List.mem_singleton] at hx
    subst hx
    have hslot : slot ≠ "before" := fun hslot => (ha.of_before hslot).1 rfl
    exact slotText_node_self rfl (by rw [children_of_leaf hshows]; rfl) ha hslot
  | .block id ts, hshows, hx, ha => by
    have hn := h.nodup_preorder hshows
    rw [Tree.preorder, List.nodup_cons] at hn
    obtain ⟨hchildren, hall⟩ := hshows
    have hids := children_of_block hchildren
    rw [Tree.preorder, List.mem_cons] at hx
    by_cases hself : x = id
    · subst hself
      have hslot : slot ≠ "before" := fun hslot => (ha.of_before hslot).1 rfl
      refine slotText_node_self ?_ (by rw [hids, List.isEmpty_map]) ha hslot
      exact slotText_children_of_not_mem f x slot _ _ 0 ts hn.1
    · replace hx := hx.resolve_left hself
      cases ts with
      | nil => cases hx
      | cons t ts =>
        have hne : f.children id ≠ [] := by
          rw [hids]
          exact List.cons_ne_nil _ _
        have hopens := h.opens_of_children hne
        rw [scriptTree, List.isEmpty_cons, slotText_node_ne hopens (Ne.symm hself)]
        exact h.slotText_children _ _ 0 (t :: ts) hall hn.2 hx (ha.change fun _ => hself)

theorem WellFormed.slotText_children (h : f.WellFormed) {r : NodeId} (last : Nat) (semicolon : Bool)
    (index : Nat) : (ts : List (Tree NodeId)) → f.ShowsAll ts → (Tree.preorderAll ts).Nodup →
    x ∈ Tree.preorderAll ts → f.Asked r x slot a →
    slotText ((f.scriptChildren last semicolon index ts).alone f) x slot =
      (f.resolve x slot a).toText
  | [], _, _, hx, _ => by cases hx
  | t :: ts, hshows, hn, hx, ha => by
    rw [Tree.preorderAll, List.nodup_append] at hn
    obtain ⟨hnt, hnts, hdisjoint⟩ := hn
    rw [Tree.preorderAll, List.mem_append] at hx
    have hlabel : t.label ∈ t.preorder := by
      rw [Tree.preorder_eq]
      exact .head _
    rw [scriptChildren, alone_append, alone_append, slotText_append, slotText_append]
    by_cases hxt : x ∈ t.preorder
    · rw [slotText_children_of_not_mem f x slot last semicolon (index + 1) ts
        fun hmem => hdisjoint x hxt x hmem rfl]
      by_cases hbefore : x = t.label ∧ slot = "before"
      · obtain ⟨rfl, rfl⟩ := hbefore
        rw [slotText_label_before hnt]
        obtain rfl := (ha.of_before rfl).2
        simp [alone]
      · rw [h.slotText_tree _ t hshows.1 hxt
          (ha.change fun hslot heq => hbefore ⟨heq, hslot⟩)]
        have hother : ¬(t.label = x ∧ "before" = slot) :=
          fun heq => hbefore ⟨heq.1.symm, heq.2.symm⟩
        simp [alone, hother]
    · have hother : t.label ≠ x := by
        rintro rfl
        exact hxt hlabel
      rw [slotText_tree_of_not_mem f x slot _ t hxt, h.slotText_children last semicolon (index + 1)
        ts hshows.2 hnts (hx.resolve_left hxt) ha]
      simp [alone, hother]

end

/-- What a pass over `r` writes for a slot of a node. -/
def emitted (f : Forest) (r id : NodeId) (slot : String) : String :=
  slotText ((f.script r).run f []).output id slot

theorem WellFormed.emitted_eq (h : f.WellFormed) (hr : r < f.size)
    (hx : x ∈ (f.outline r).preorder) (ha : f.Asked r x slot a) :
    f.emitted r x slot = (f.resolve x slot a).toText := by
  have ha : f.Asked (f.outline r).label x slot a := by rwa [label_outline]
  rw [emitted, ((h.asks_script hr).run (f.faithful_nil _)).2.1]
  exact h.slotText_tree false (f.outline r) (h.shows_outline hr) hx ha

/-! ## The formatting by the name of a slot -/

/-- The formatting of a node in a slot, where nothing but the name of the slot is known. -/
def formatting (f : Forest) (id : NodeId) (slot : String) : RawValue :=
  f.resolve id slot (.ofName slot)

/-- The text of the first example of a slot in the tree around a node, whatever node has it. -/
def firstIn (f : Forest) (id : NodeId) (slot : String) : String :=
  ((f.findBelow (f.top id) fun other => (f.raws other).get? slot).map RawValue.toText).getD ""

/-- The formatting by the name of the slot is the one by the aspect that the printer asks for. -/
inductive AsPrinted (f : Forest) (id : NodeId) (slot : String) : Aspect → Prop
  /-- The node has the formatting itself. -/
  | own {a : Aspect} (h : (f.raws id).contains slot = true) : AsPrinted f id slot a
  | before : AsPrinted f id slot .before
  /-- There are children before the end of the block. -/
  | after : AsPrinted f id slot .after
  /-- Some node of the tree around the comment has the formatting. -/
  | comment {a : Aspect} {p : NodeId} (ha : a.slot? = some slot) (hp : f.parent? id = some p)
    (h : ∃ other ∈ f.descendants (f.top id), (f.raws other).contains slot = true) :
    AsPrinted f id slot a
  /-- The first example of any node reads like that for the kind of the node. -/
  | between {a : Aspect} {p : NodeId} (ha : a = .colon ∨ a = .beforeOpen)
    (hp : f.parent? id = some p) (h : f.firstIn id slot = (f.sample (f.top id) a).toText) :
    AsPrinted f id slot a
  /-- What is asked for behind children reads like an example of an empty block. -/
  | emptyBody {p : NodeId} (hp : f.parent? id = some p)
    (h : (f.placed [] id false).1.toText = (f.sample (f.top id) .emptyBody).toText) :
    AsPrinted f id slot .emptyBody

/-! ### Where the formatting comes from -/

theorem resolve_of_own {v : RawValue} (h : (f.raws id).get? slot = some v) (a : Aspect) :
    f.resolve id slot a = v := by
  simp [resolve, raw, h]

theorem resolve_of_top (h : (f.raws id).get? slot = none) (hp : f.parent? id = none)
    (ha : a ≠ .before) : f.resolve id slot a = a.fallback := by
  simp [resolve, raw, h, hp, ha]

theorem resolve_of_parent {p : NodeId} (h : (f.raws id).get? slot = none)
    (hp : f.parent? id = some p) (hb : a ≠ .before) (ha : a ≠ .after) :
    f.resolve id slot a = (f.lookup (f.top id) (some slot) [] a.chain).1 := by
  simp [resolve, raw, h, hp, hb, ha]

theorem resolve_sample {p : NodeId} (h : (f.raws id).get? slot = none)
    (hp : f.parent? id = some p) (hb : a ≠ .before) (ha : a ≠ .after)
    (hasked : a.AskedBy (some slot)) : f.resolve id slot a = f.sample (f.top id) a := by
  rw [resolve_of_parent h hp hb ha]
  exact (f.answers (f.top id) hasked [] (f.faithful_nil _)).1

theorem resolve_after {p : NodeId} (h : (f.raws id).get? slot = none)
    (hp : f.parent? id = some p) : f.resolve id slot .after = (f.placed [] id false).1 := by
  simp [resolve, raw, h, hp]

theorem resolve_slot {p : NodeId} (h : (f.raws id).get? slot = none)
    (hp : f.parent? id = some p) (name : String) :
    (f.resolve id slot (.slot name)).toText = f.firstIn id slot := by
  rw [resolve_of_parent h hp (by simp) (by simp), firstIn]
  unfold lookup detect
  simp only [List.lookup_nil, Option.bind_some]
  cases f.findBelow (f.top id) fun other => (f.raws other).get? slot with
  | some v => rfl
  | none => rfl

/-! ### Where both ways agree -/

theorem not_contains (h : (f.raws id).get? slot = none) : ¬(f.raws id).contains slot = true := by
  simp [Raws.contains, h]

theorem asPrinted_between_iff (h : (f.raws id).get? slot = none)
    (ha : a = .colon ∨ a = .beforeOpen) : f.AsPrinted id slot a ↔
      ∃ p, f.parent? id = some p ∧ f.firstIn id slot = (f.sample (f.top id) a).toText := by
  constructor
  · intro hprinted
    cases hprinted with
    | own hown => exact absurd hown (not_contains h)
    | comment hslot => rcases ha with rfl | rfl <;> cases hslot
    | between _ hp heq => exact ⟨_, hp, heq⟩
    | _ => rcases ha with ha | ha <;> cases ha
  · rintro ⟨p, hp, heq⟩
    exact .between ha hp heq

theorem asPrinted_emptyBody_iff (h : (f.raws id).get? slot = none) :
    f.AsPrinted id slot .emptyBody ↔ ∃ p, f.parent? id = some p ∧
      (f.placed [] id false).1.toText = (f.sample (f.top id) .emptyBody).toText := by
  constructor
  · intro hprinted
    cases hprinted with
    | own hown => exact absurd hown (not_contains h)
    | comment hslot => cases hslot
    | between ha => rcases ha with ha | ha <;> cases ha
    | emptyBody hp heq => exact ⟨_, hp, heq⟩
  · rintro ⟨p, hp, heq⟩
    exact .emptyBody hp heq

theorem asPrinted_comment_iff (h : (f.raws id).get? slot = none) (ha : a.slot? = some slot) :
    f.AsPrinted id slot a ↔ ∃ p, f.parent? id = some p ∧
      ∃ other ∈ f.descendants (f.top id), (f.raws other).contains slot = true := by
  constructor
  · intro hprinted
    cases hprinted with
    | own hown => exact absurd hown (not_contains h)
    | comment _ hp hother => exact ⟨_, hp, hother⟩
    | between hkind => rcases hkind with rfl | rfl <;> cases ha
    | _ => cases ha
  · rintro ⟨p, hp, hother⟩
    exact .comment ha hp hother

/-- The examples for comments are those of the slot; without any, the fixed texts differ. -/
theorem firstIn_comment_iff (ha : a.slot? = some slot) :
    f.firstIn id slot = (f.sample (f.top id) a).toText ↔
      ∃ other ∈ f.descendants (f.top id), (f.raws other).contains slot = true := by
  have hsample : f.sample (f.top id) a =
      (f.findBelow (f.top id) fun other => (f.raws other).get? slot).getD (.text " ") := by
    unfold sample
    cases a <;> cases ha <;> unfold Aspect.chain lookup <;>
      simp only [Aspect.slot?, List.lookup_nil, detect, Option.bind_some] <;>
      cases f.findBelow (f.top id) _ <;> rfl
  rw [hsample, firstIn]
  unfold findBelow
  cases hfind : (f.descendants (f.top id)).findSome? fun other => (f.raws other).get? slot with
  | some v =>
    obtain ⟨other, hmem, hv⟩ := List.exists_of_findSome?_eq_some hfind
    exact iff_of_true rfl ⟨other, hmem, by simp [Raws.contains, hv]⟩
  | none =>
    rw [List.findSome?_eq_none_iff] at hfind
    apply iff_of_false
    · simp [RawValue.toText]
    · rintro ⟨other, hmem, hother⟩
      exact not_contains (hfind other hmem) hother

/-- Without formatting of its own, a node needs an example; without a parent none is looked for. -/
theorem resolve_slot_eq_iff (h : (f.raws id).get? slot = none) (hb : a ≠ .before) (ha : a ≠ .after)
    (hasked : a.AskedBy (some slot)) (hfixed : "" ≠ a.fallback.toText) :
    (f.resolve id slot (.slot slot)).toText = (f.resolve id slot a).toText ↔
      ∃ p, f.parent? id = some p ∧ f.firstIn id slot = (f.sample (f.top id) a).toText := by
  cases hp : f.parent? id with
  | none =>
    rw [resolve_of_top h hp hb, resolve_of_top h hp (by simp)]
    exact iff_of_false hfixed (by simp)
  | some p =>
    rw [resolve_slot h hp, resolve_sample h hp hb ha hasked]
    simp

/-- **The formatting by the name of the slot is the one that is printed** exactly if one of the cases
of `AsPrinted` holds. -/
theorem formatting_eq_resolve_iff (ha : f.Asked r id slot a) :
    (f.formatting id slot).toText = (f.resolve id slot a).toText ↔ f.AsPrinted id slot a := by
  cases h : (f.raws id).get? slot with
  | some v =>
    have hown : (f.raws id).contains slot = true := by simp [Raws.contains, h]
    exact iff_of_true (by rw [formatting, resolve_of_own h, resolve_of_own h]) (.own hown)
  | none =>
    cases ha with
    | before => exact iff_of_true rfl .before
    | after => exact iff_of_true rfl .after
    | colon =>
      rw [asPrinted_between_iff h (.inl rfl)]
      exact resolve_slot_eq_iff h (by decide) (by decide) trivial (by decide)
    | beforeOpen =>
      rw [asPrinted_between_iff h (.inr rfl)]
      exact resolve_slot_eq_iff h (by decide) (by decide) trivial (by decide)
    | left =>
      rw [asPrinted_comment_iff h rfl, ← firstIn_comment_iff (a := .commentLeft) rfl]
      exact resolve_slot_eq_iff h (by decide) (by decide) rfl (by decide)
    | right =>
      rw [asPrinted_comment_iff h rfl, ← firstIn_comment_iff (a := .commentRight) rfl]
      exact resolve_slot_eq_iff h (by decide) (by decide) rfl (by decide)
    | emptyBody =>
      rw [asPrinted_emptyBody_iff h]
      show (f.resolve id "after" .after).toText = _ ↔ _
      cases hp : f.parent? id with
      | none =>
        rw [resolve_of_top h hp (by decide), resolve_of_top h hp (by decide)]
        exact iff_of_false (by decide) (by simp)
      | some p =>
        rw [resolve_after h hp, resolve_sample (a := .emptyBody) h hp (by decide) (by decide)
          trivial]
        simp

/-- **What is printed for a slot of a node**: each slot that the printer consults is written once, as
it is resolved for the node. The formatting by the name of the slot alone is the same text exactly
if the node has it itself, nothing but the name matters, or the examples happen to agree. -/
theorem WellFormed.formatting_eq_emitted_iff (h : f.WellFormed) (hr : r < f.size)
    (hx : x ∈ (f.outline r).preorder) (ha : f.Asked r x slot a) :
    ((f.script r).run f []).output.map Strip.fragment = f.print r ∧
      f.emitted r x slot = (f.resolve x slot a).toText ∧
      ((f.formatting x slot).toText = f.emitted r x slot ↔ f.AsPrinted x slot a) := by
  have hemitted := h.emitted_eq hr hx ha
  have hprint := f.follows_scriptTree false (f.outline r) []
  refine ⟨(congrArg Prod.fst hprint).symm, hemitted, ?_⟩
  rw [hemitted]
  exact formatting_eq_resolve_iff ha

/-- A comment without formatting under a rule that was read with one: the space before its text is
that of the other comment, and what is asked for by name. -/
theorem formatting_eq_emitted_comment :
    let es := [.read .empty "a \x7b /*  b */ \x7d" none .auto, .new (.comment "c"),
      .insert 1 .stop [3]]
    ∃ f ∈ Edit.trail .empty es, f.css 0 = "a \x7b /*  b */ /*  c */ \x7d" ∧
      f.AsPrinted 3 "left" .commentLeft ∧
      (f.formatting 3 "left").toText = "  " ∧ f.emitted 0 3 "left" = "  " := by
  intro es
  obtain ⟨f, hmem, hf, hsize, hx, hkind, hcss, hname, hparent, hother⟩ := Edit.exists_last es
    (fun f => 0 < f.size ∧ 3 ∈ (f.outline 0).preorder ∧ f.kind 3 = .comment ∧
      f.css 0 = "a \x7b /*  b */ /*  c */ \x7d" ∧ (f.formatting 3 "left").toText = "  " ∧
      f.parent? 3 = some 1 ∧ (f.descendants (f.top 3)).any (fun other =>
        (f.raws other).contains "left") = true)
    (by decide +kernel) (by decide +kernel) (by decide +kernel)
  obtain ⟨other, hbelow, hraw⟩ := List.any_eq_true.1 hother
  have hprinted : f.AsPrinted 3 "left" .commentLeft := .comment rfl hparent ⟨other, hbelow, hraw⟩
  obtain ⟨-, -, hiff⟩ := hf.formatting_eq_emitted_iff hsize hx (.left hkind)
  exact ⟨f, hmem, hcss, hprinted, hname, (hiff.2 hprinted).symm.trans hname⟩

/-- A rule that was not read is printed with a space before its brace; by the name of the slot there
is none. -/
theorem not_formatting_eq_emitted :
    let f := [Edit.new .root, .new (.rule "a"), .insert 0 .stop [1]].foldl Edit.run .empty
    f.css 0 = "a \x7b\x7d" ∧ f.emitted 0 1 "between" = " " ∧
      (f.formatting 1 "between").toText = "" := by
  decide +kernel

end Forest

end Stylesheet
