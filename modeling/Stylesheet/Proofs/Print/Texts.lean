import Mathlib.Data.Fintype.EquivFin
import Stylesheet.Proofs.Forest.Outline

/-!
# The texts of one node in a printed tree

`Fragment.textsOf id` are the fragments of the node `id`, each with the formatting that stands
before it, and `Fragment.trailing` is the formatting behind the last fragment. `textsOf_print`: a
node that has all its formatting is printed with it, whatever other nodes the tree has and whatever
is looked up for these. Only whether a semicolon follows it depends on the tree.
-/

set_option autoImplicit false

namespace Stylesheet

/-! ## Fragments of a node -/

namespace Fragment

variable {id : NodeId} {gap : String} {xs ys : List Fragment}
  {texts texts' : List (String × Fragment)}

/-- The fragments of a node, each with the formatting before it. `gap` is the formatting that stands
before the first fragment. -/
def textsOf (id : NodeId) : (gap : String) → List Fragment → List (String × Fragment)
  | _, [] => []
  | gap, x :: xs =>
    if x.node = none then textsOf id (gap ++ x.text) xs
    else if x.node = some id then (gap, x) :: textsOf id "" xs
    else textsOf id "" xs

/-- The formatting behind the last fragment of a node. -/
def trailing : (gap : String) → List Fragment → String
  | gap, [] => gap
  | gap, x :: xs => trailing (if x.node = none then gap ++ x.text else "") xs

/-- What is written of a node. No formatting is left pending. -/
structure Yields (id : NodeId) (gap : String) (xs : List Fragment)
    (texts : List (String × Fragment)) : Prop where
  texts_eq : textsOf id gap xs = texts
  closed : trailing gap xs = ""

theorem textsOf_append (id : NodeId) (gap : String) (xs ys : List Fragment) :
    textsOf id gap (xs ++ ys) = textsOf id gap xs ++ textsOf id (trailing gap xs) ys := by
  induction xs generalizing gap with
  | nil => rfl
  | cons x xs ih =>
    simp only [List.cons_append, textsOf, trailing, ih]
    by_cases hn : x.node = none
    · simp [hn]
    · by_cases hx : x.node = some id
      · simp [hx]
      · simp [hn, hx]

theorem trailing_append (gap : String) (xs ys : List Fragment) :
    trailing gap (xs ++ ys) = trailing (trailing gap xs) ys := by
  induction xs generalizing gap with
  | nil => rfl
  | cons x xs ih => simp only [List.cons_append, trailing, ih]

theorem yields_nil (id : NodeId) : Yields id "" [] [] := ⟨rfl, rfl⟩

theorem Yields.append (h : Yields id gap xs texts) (h' : Yields id "" ys texts') :
    Yields id gap (xs ++ ys) (texts ++ texts') where
  texts_eq := by rw [textsOf_append, h.texts_eq, h.closed, h'.texts_eq]
  closed := by rw [trailing_append, h.closed, h'.closed]

theorem yields_self (id : NodeId) (gap text : String) (role : Option FragmentRole) :
    Yields id gap [⟨text, some id, role⟩] [(gap, ⟨text, some id, role⟩)] := by
  constructor <;> simp [textsOf, trailing]

theorem yields_other {other : NodeId} (h : other ≠ id) (gap text : String)
    (role : Option FragmentRole) : Yields id gap [⟨text, some other, role⟩] [] := by
  constructor <;> simp [textsOf, trailing, h]

theorem textsOf_between (id : NodeId) (text : String) : textsOf id "" (between text) = [] := by
  unfold between
  split <;> rfl

theorem trailing_between (text : String) : trailing "" (between text) = text := by
  unfold between
  split
  · next h => exact h.symm
  · simp [trailing]

/-- Formatting between nodes stands before what follows. -/
theorem Yields.between {text : String} (h : Yields id text xs texts) :
    Yields id "" (Fragment.between text ++ xs) texts where
  texts_eq := by rw [textsOf_append, textsOf_between, trailing_between, h.texts_eq, List.nil_append]
  closed := by rw [trailing_append, trailing_between, h.closed]

end Fragment

/-- The texts of a node that has all its formatting. -/
def Wording.texts (w : Wording) (id : NodeId) (hasBlock semicolon : Bool) :
    List (String × Fragment) :=
  if hasBlock then
    (w.slot "before", ⟨w.head ++ w.slot "between" ++ "\x7b", some id, some .start⟩) ::
      (w.slot "after", ⟨"\x7d", some id, some .stop⟩) ::
        if w.own = "" then [] else [("", ⟨w.own, some id, some .stop⟩)]
  else [(w.slot "before", ⟨w.leaf semicolon, some id, none⟩)]

namespace Forest

open Printing Fragment

variable {f : Forest} {id p : NodeId}

/-- What a node says, and its formatting. -/
def wording (f : Forest) (id : NodeId) : Wording := (f.node id).toElement.wording

/-- The node has all the slots that the printer asks for. -/
def Furnished (f : Forest) (id : NodeId) : Prop :=
  if (f.node id).hasBlock then (f.wording id).BlockFormatted else (f.wording id).LeafFormatted

/-- Whether a node is printed with a block. -/
def Opens (f : Forest) (id : NodeId) : Prop :=
  f.kind id = .rule ∨ f.kind id = .atRule ∧ (f.node id).hasBlock = true

/-- A node with formatting that has children is printed with a block. -/
theorem Furnished.opens (hf : f.Furnished id) (hb : (f.node id).hasBlock = true) :
    f.Opens id := by
  rw [Furnished, hb, if_pos rfl] at hf
  rcases hf.data with hk | hk
  · exact .inl hk
  · exact .inr ⟨hk, hb⟩

theorem Furnished.blockFormatted (hf : f.Furnished id) (ho : f.Opens id) :
    (f.wording id).BlockFormatted := by
  have hkind : f.kind id = (f.wording id).data.kind := rfl
  unfold Furnished at hf
  cases hb : (f.node id).hasBlock with
  | true => rwa [hb, if_pos rfl] at hf
  | false =>
    rw [hb, if_neg Bool.false_ne_true] at hf
    obtain ⟨-, hf⟩ := hf
    rcases ho with hk | ⟨-, hk⟩
    · rw [hkind] at hk
      cases hd : (f.wording id).data <;> simp [hd, NodeData.kind] at hf hk
    · rw [hb] at hk
      cases hk

theorem Furnished.leafFormatted (hf : f.Furnished id) (ho : ¬f.Opens id) :
    (f.wording id).LeafFormatted := by
  have hb : (f.node id).hasBlock = false := by
    rw [← Bool.not_eq_true]
    exact fun hb => ho (hf.opens hb)
  rwa [Furnished, hb, if_neg Bool.false_ne_true] at hf

theorem Furnished.before (hf : f.Furnished id) : (f.raws id).contains "before" := by
  unfold Furnished at hf
  split at hf
  · exact hf.before
  · exact hf.1

/-! ## Nodes with any formatting -/

/-- A slot that the node has is used. -/
theorem withRaw_eq (f : Forest) (id : NodeId) (own : String) (aspect : Aspect)
    (k : RawValue → Printing) (memo : Memo) :
    ∃ v memo', f.withRaw id own aspect k memo = k v memo' ∧
      ((f.raws id).contains own → v.toText = (f.wording id).slot own) := by
  refine ⟨(f.raw memo id (some own) aspect).1, (f.raw memo id (some own) aspect).2, rfl, ?_⟩
  intro hown
  obtain ⟨v, hv⟩ := Option.isSome_iff_exists.1 hown
  have hraw : f.raw memo id (some own) aspect = (v, memo) := by simp [raw, hv]
  rw [hraw]
  exact Raws.toText_of_get? hv

/-- A node that is printed without a block is one fragment. -/
theorem exists_fragment (hroot : f.kind id ≠ .root) (hopens : ¬ f.Opens id)
    (semicolon isEmpty : Bool) (body : Printing) (memo : Memo) :
    ∃ text, (f.printNode id semicolon isEmpty body memo).1 = [⟨text, some id, none⟩] := by
  unfold printNode
  unfold Opens at hopens
  unfold kind Node.kind at hroot hopens
  unfold data
  cases hd : (f.node id).data with
  | root => exact absurd (congrArg NodeData.kind hd) hroot
  | rule selector => exact absurd (.inl (congrArg NodeData.kind hd)) hopens
  | atRule name params =>
    have hblock : (f.node id).hasBlock = false := by
      rw [← Bool.not_eq_true]
      exact fun hb => hopens (.inr ⟨congrArg NodeData.kind hd, hb⟩)
    simp only [hblock, Bool.false_eq_true, if_false]
    exact ⟨_, rfl⟩
  | declaration prop value important =>
    obtain ⟨v, memo', hraw, -⟩ := f.withRaw_eq id "between" .colon (fun between =>
      let d := f.data id
      let mark := if d.important then (f.rawText? id "important").getD " !important" else ""
      emit [⟨d.prop ++ between.toText ++ f.valueText id "value" ++ mark ++
        (if semicolon then ";" else ""), some id, none⟩]) memo
    simp only [printDeclaration, hraw]
    exact ⟨_, rfl⟩
  | comment text => exact ⟨_, rfl⟩

/-- A block is the same around whatever its body writes. -/
theorem exists_printBlock (f : Forest) (id : NodeId) (head : String) (isEmpty : Bool)
    (body : Printing) (memo : Memo) :
    ∃ (middle after : String) (xs : List Fragment),
      (f.printBlock id head isEmpty body memo).1 =
        [⟨head ++ middle ++ "\x7b", some id, some .start⟩] ++ xs ++
          (between after ++ [⟨"\x7d", some id, some .stop⟩]) ∧
      (isEmpty = true ∧ xs = [] ∨ isEmpty = false ∧ ∃ memo', xs = (body memo').1) ∧
      ((f.raws id).contains "between" → middle = (f.wording id).slot "between") ∧
      ((f.raws id).contains "after" → after = (f.wording id).slot "after") := by
  let close (after : RawValue) : Printing :=
    emit (between after.toText ++ [⟨"\x7d", some id, some .stop⟩])
  let inner : Printing := if isEmpty then f.withRaw id "after" .emptyBody close
    else body ++ f.withRaw id "after" .after close
  obtain ⟨v, memo', hv, hmiddle⟩ := f.withRaw_eq id "between" .beforeOpen (fun between =>
    emit [⟨head ++ between.toText ++ "\x7b", some id, some .start⟩] ++ inner) memo
  have hblock : (f.printBlock id head isEmpty body memo).1 =
      [⟨head ++ v.toText ++ "\x7b", some id, some .start⟩] ++ (inner memo').1 :=
    congrArg Prod.fst hv
  cases isEmpty with
  | true =>
    obtain ⟨w, memo'', hw, hafter⟩ := f.withRaw_eq id "after" .emptyBody close memo'
    refine ⟨v.toText, w.toText, [], ?_, .inl ⟨rfl, rfl⟩, hmiddle, hafter⟩
    rw [hblock, show (inner memo').1 = _ from congrArg Prod.fst hw]
    rfl
  | false =>
    obtain ⟨w, memo'', hw, hafter⟩ := f.withRaw_eq id "after" .after close (body memo').2
    refine ⟨v.toText, w.toText, (body memo').1, ?_, .inr ⟨rfl, memo', rfl⟩, hmiddle, hafter⟩
    rw [hblock, show (inner memo').1 = (body memo').1 ++ _ from
      congrArg ((body memo').1 ++ ·) (congrArg Prod.fst hw), List.append_assoc]
    rfl

/-- A rule prints its own semicolon behind the block. -/
theorem printNode_of_opens (hopens : f.Opens id) (semicolon isEmpty : Bool) (body : Printing)
    (memo : Memo) :
    (f.printNode id semicolon isEmpty body memo).1 =
      (f.printBlock id (f.wording id).head isEmpty body memo).1 ++
        (if (f.wording id).own = "" then []
          else [⟨(f.wording id).own, some id, some .stop⟩]) := by
  have hdata : (f.wording id).data = f.data id := rfl
  unfold printNode
  rcases hopens with hk | ⟨hk, hblock⟩
  · cases hd : f.data id with
    | rule selector =>
      have hown : (f.wording id).own = (f.rawText? id "ownSemicolon").getD "" := by
        rw [Wording.own, hdata, hd]
        rfl
      have hhead : (f.wording id).head = f.valueText id "selector" := by
        rw [Wording.head, hdata, hd]
        rfl
      rw [hown, hhead]
      rfl
    | _ => rw [kind, Node.kind, show (f.node id).data = _ from hd] at hk; cases hk
  · cases hd : f.data id with
    | atRule name params =>
      have hown : (f.wording id).own = "" := by rw [Wording.own, hdata, hd]
      have hhead : f.atRuleHead id = (f.wording id).head :=
        @atRuleHead_eq f id (f.node id).toElement rfl rfl name params hd
      simp only [hblock, if_true, hown, hhead, List.append_nil]
    | _ => rw [kind, Node.kind, show (f.node id).data = _ from hd] at hk; cases hk

/-! ## One node among others -/

/-- What is written of `id` when `nodes` are printed: nothing, or all its texts. -/
def Shown (f : Forest) (id : NodeId) (nodes : List NodeId) (texts : List (String × Fragment)) :
    Prop :=
  if id ∈ nodes then ∃ semicolon, texts = (f.wording id).texts id (f.node id).hasBlock semicolon
  else texts = []

theorem Shown.append {xs ys : List NodeId} {texts texts' : List (String × Fragment)}
    (hcount : (xs ++ ys).count id ≤ 1) (h : f.Shown id xs texts) (h' : f.Shown id ys texts') :
    f.Shown id (xs ++ ys) (texts ++ texts') := by
  unfold Shown at *
  rw [List.count_append] at hcount
  by_cases hx : id ∈ xs
  · have hy : id ∉ ys := by
      intro hy
      have := List.count_pos_iff.2 hx
      have := List.count_pos_iff.2 hy
      omega
    rw [if_pos hx] at h
    rw [if_neg hy] at h'
    rw [if_pos (List.mem_append_left _ hx), h', List.append_nil]
    exact h
  · rw [if_neg hx] at h
    simpa [h, hx] using h'

/-- A node that has all its formatting, around a body that writes nothing of it. -/
theorem yields_printNode_self (hf : f.Furnished id) {semicolon isEmpty : Bool} {body : Printing}
    (hbody : isEmpty = false → ∀ memo, Yields id "" (body memo).1 []) (memo : Memo) :
    Yields id ((f.wording id).slot "before") (f.printNode id semicolon isEmpty body memo).1
      ((f.wording id).texts id (f.node id).hasBlock semicolon) := by
  have hopens := hf.opens
  unfold Furnished at hf
  unfold Wording.texts
  cases hb : (f.node id).hasBlock with
  | false =>
    rw [hb] at hf
    have hsits : f.Sits id (f.node id).toElement (f.parent? id) none := by
      refine ⟨rfl, rfl, ?_⟩
      rwa [Node.hasBlock, Option.isSome_eq_false_iff, Option.isNone_iff_eq_none] at hb
    rw [show f.printNode id semicolon isEmpty body memo = _ from
      writes_leaf hsits hf semicolon isEmpty body memo]
    exact yields_self ..
  | true =>
    rw [hb, if_pos rfl] at hf
    obtain ⟨middle, after, xs, hprint, hxs, hmiddle, hafter⟩ :=
      f.exists_printBlock id (f.wording id).head isEmpty body memo
    have hinner : Yields id "" xs [] := by
      rcases hxs with ⟨-, rfl⟩ | ⟨he, memo', rfl⟩
      · exact yields_nil id
      · exact hbody he memo'
    rw [printNode_of_opens (hopens hb), hprint, hmiddle hf.between, hafter hf.after, if_pos rfl]
    have hclose := (yields_self id ((f.wording id).slot "after") "\x7d" (some .stop)).between
    have hblock := ((yields_self id ((f.wording id).slot "before")
      ((f.wording id).head ++ (f.wording id).slot "between" ++ "\x7b") (some .start)).append
      hinner).append hclose
    split
    · exact hblock.append (yields_nil id)
    · exact hblock.append (yields_self ..)

/-- Another node writes of `id` what its body does. -/
theorem yields_printNode_other (hp : p ≠ id) (hopens : f.Opens p) {semicolon isEmpty : Bool}
    {body : Printing} {Q : List (String × Fragment) → Prop} (hempty : isEmpty = true → Q [])
    (hbody : isEmpty = false → ∀ memo, ∃ texts, Q texts ∧ Yields id "" (body memo).1 texts)
    (gap : String) (memo : Memo) :
    ∃ texts, Q texts ∧ Yields id gap (f.printNode p semicolon isEmpty body memo).1 texts := by
  obtain ⟨middle, after, xs, hprint, hxs, -, -⟩ :=
    f.exists_printBlock p (f.wording p).head isEmpty body memo
  obtain ⟨texts, hQ, hinner⟩ : ∃ texts, Q texts ∧ Yields id "" xs texts := by
    rcases hxs with ⟨he, rfl⟩ | ⟨he, memo', rfl⟩
    · exact ⟨[], hempty he, yields_nil id⟩
    · exact hbody he memo'
  refine ⟨texts, hQ, ?_⟩
  rw [printNode_of_opens hopens, hprint]
  have hclose := (yields_other hp after "\x7d" (some .stop)).between
  have hblock := ((yields_other hp gap ((f.wording p).head ++ middle ++ "\x7b")
    (some .start)).append hinner).append hclose
  rw [List.nil_append, List.append_nil] at hblock
  have hown : Yields id "" (if (f.wording p).own = "" then []
      else [⟨(f.wording p).own, some p, some .stop⟩]) [] := by
    split
    · exact yields_nil id
    · exact yields_other hp ..
  have hall := hblock.append hown
  rwa [List.append_nil] at hall

/-- A node and what its body writes. -/
theorem yields_printNode {below : List NodeId} {gap : String} {semicolon isEmpty : Bool}
    {body : Printing} (hp : f.kind p ≠ .root) (hcount : (p :: below).count id ≤ 1)
    (hself : p = id → gap = (f.wording id).slot "before" ∧ f.Furnished id)
    (hopens : id ∈ below → f.Opens p) (hempty : isEmpty = true → below = [])
    (hbody : isEmpty = false → ∀ memo, ∃ texts, f.Shown id below texts ∧
      Yields id "" (body memo).1 texts) (memo : Memo) :
    ∃ texts, f.Shown id (p :: below) texts ∧
      Yields id gap (f.printNode p semicolon isEmpty body memo).1 texts := by
  by_cases hid : p = id
  · subst hid
    obtain ⟨rfl, hfurnished⟩ := hself rfl
    have hbelow : p ∉ below := by
      rw [List.count_cons_self] at hcount
      exact List.count_eq_zero.1 (by omega)
    refine ⟨_, ?_, yields_printNode_self hfurnished (fun he memo => ?_) memo⟩
    · rw [Shown, if_pos List.mem_cons_self]
      exact ⟨semicolon, rfl⟩
    · obtain ⟨texts, hshown, hyields⟩ := hbody he memo
      rw [Shown, if_neg hbelow] at hshown
      rwa [hshown] at hyields
  · have hmem : id ∈ p :: below ↔ id ∈ below := by simp [Ne.symm hid]
    have hshown : f.Shown id (p :: below) = f.Shown id below := by
      unfold Shown
      simp only [hmem]
    rw [hshown]
    by_cases ho : f.Opens p
    · refine yields_printNode_other hid ho (fun he => ?_) hbody gap memo
      show f.Shown id below []
      rw [hempty he, Shown, if_neg List.not_mem_nil]
    · obtain ⟨text, htext⟩ := exists_fragment hp ho semicolon isEmpty body memo
      rw [htext]
      refine ⟨[], ?_, yields_other hid gap text none⟩
      rw [Shown, if_neg fun hbelow => ho (hopens hbelow)]

/-! ## Trees -/

/-- Nodes whose parents are among them, and that have all their formatting. -/
structure Furnishes (f : Forest) (kept : NodeId → Prop) : Prop where
  up : ∀ p, ∀ c ∈ f.children p, kept c → kept p
  furnished : ∀ c, kept c → f.kind c ≠ .root → f.Furnished c

section
variable {kept : NodeId → Prop} {ids : List NodeId} {n : Nat}

theorem mem_preorder_outlineWithin (f : Forest) (n : Nat) (p : NodeId) :
    p ∈ (f.outlineWithin n p).preorder := by
  rw [Tree.preorder_eq, label_outlineWithin]
  exact List.mem_cons_self

/-- A node above a kept one is kept. -/
theorem Furnishes.top (hk : f.Furnishes kept) {x : NodeId} (hx : kept x) {p : NodeId}
    (hmem : x ∈ (f.outlineWithin n p).preorder) : kept p := by
  induction n generalizing p with
  | zero => rwa [← List.mem_singleton.1 hmem]
  | succ n ih =>
    rw [outlineWithin] at hmem
    rcases hids : (f.node p).children with _ | ids
    · rw [hids] at hmem
      rwa [← List.mem_singleton.1 hmem]
    · rw [hids] at hmem
      rcases List.mem_cons.1 hmem with rfl | hbelow
      · exact hx
      · obtain ⟨t, ht, hxt⟩ := Tree.mem_preorderAll.1 hbelow
        obtain ⟨c, hc, rfl⟩ := List.mem_map.1 ht
        exact hk.up p c (by rwa [children_of_block hids]) (ih hxt)

/-- What is written of `id` when a tree is printed. -/
def Prints (f : Forest) (id : NodeId) (t : Tree NodeId) : Prop :=
  ∀ (gap : String) (semicolon : Bool) (memo : Memo),
    (t.label = id → gap = (f.wording id).slot "before") →
    ∃ texts, f.Shown id t.preorder texts ∧ Yields id gap (f.printTree semicolon t memo).1 texts

theorem yields_printChildren {trees : List (Tree NodeId)}
    (hcount : (Tree.preorderAll trees).count id ≤ 1)
    (hself : ∀ t ∈ trees, t.label = id → (f.raws id).contains "before")
    (htrees : ∀ t ∈ trees, t.preorder.count id ≤ 1 → f.Prints id t)
    (last : Nat) (semicolon : Bool) (index : Nat) (memo : Memo) :
    ∃ texts, f.Shown id (Tree.preorderAll trees) texts ∧
      Yields id "" (f.printChildren last semicolon index trees memo).1 texts := by
  induction trees generalizing index memo with
  | nil => exact ⟨[], by simp [Shown, Tree.preorderAll], yields_nil id⟩
  | cons t ts ih =>
    rw [Tree.preorderAll] at hcount ⊢
    have hparts := hcount
    rw [List.count_append] at hparts
    obtain ⟨v, memo', hraw, hbefore⟩ := f.withRaw_eq t.label "before" .before
      (fun before => emit (between before.toText)) memo
    obtain ⟨texts, hshown, hyields⟩ := htrees t (.head _) (by omega) v.toText
      (index != last || semicolon) memo' (fun hl => hl ▸ hbefore (hl ▸ hself t (.head _) hl))
    obtain ⟨texts', hshown', hyields'⟩ := ih (by omega) (fun u hu => hself u (.tail _ hu))
      (fun u hu => htrees u (.tail _ hu)) (index + 1)
      (f.printTree (index != last || semicolon) t memo').2
    refine ⟨texts ++ texts', hshown.append hcount hshown', ?_⟩
    have hprint : f.printChildren last semicolon index (t :: ts) memo =
        let first := f.withRaw t.label "before" .before
          (fun before => emit (between before.toText)) memo
        let second := f.printTree (index != last || semicolon) t first.2
        let third := f.printChildren last semicolon (index + 1) ts second.2
        (first.1 ++ second.1 ++ third.1, third.2) := rfl
    rw [hprint]
    simp only [hraw]
    exact hyields.between.append hyields'

/-- The children of `p`, of whose trees it is known what they write. -/
theorem yields_body (hroot : ∀ c ∈ f.children p, f.kind c ≠ .root) (hk : f.Furnishes kept)
    (hids : (f.node p).children = some ids)
    (hkept : id ∈ Tree.preorderAll (ids.map (f.outlineWithin n)) → kept id)
    (hcount : (Tree.preorderAll (ids.map (f.outlineWithin n))).count id ≤ 1)
    (hprints : ∀ c, f.kind c ≠ .root → (id ∈ (f.outlineWithin n c).preorder → kept id) →
      (f.outlineWithin n c).preorder.count id ≤ 1 → f.Prints id (f.outlineWithin n c))
    (last : Nat) (memo : Memo) :
    ∃ texts, f.Shown id (Tree.preorderAll (ids.map (f.outlineWithin n))) texts ∧
      Yields id "" (f.withRaw p "semicolon" .semicolon (fun v =>
        f.printChildren last v.isTruthy 0 (ids.map (f.outlineWithin n))) memo).1 texts := by
  rw [children_of_block hids] at hroot
  obtain ⟨v, memo', hraw, -⟩ := f.withRaw_eq p "semicolon" .semicolon (fun v =>
    f.printChildren last v.isTruthy 0 (ids.map (f.outlineWithin n))) memo
  have hbelow {c x : NodeId} (hc : c ∈ ids) (hx : x ∈ (f.outlineWithin n c).preorder) :
      x ∈ Tree.preorderAll (ids.map (f.outlineWithin n)) :=
    Tree.mem_preorderAll.2 ⟨_, List.mem_map_of_mem hc, hx⟩
  rw [hraw]
  refine yields_printChildren hcount ?_ ?_ last _ 0 memo'
  · intro t ht hl
    obtain ⟨c, hc, rfl⟩ := List.mem_map.1 ht
    rw [label_outlineWithin] at hl
    subst hl
    exact (hk.furnished c (hkept (hbelow hc (mem_preorder_outlineWithin f n c)))
      (hroot c hc)).before
  · intro t ht hone
    obtain ⟨c, hc, rfl⟩ := List.mem_map.1 ht
    exact hprints c (hroot c hc) (fun hmem => hkept (hbelow hc hmem)) hone

/-- A node that has all its formatting is printed with it, wherever it stands in a tree. -/
theorem prints_outlineWithin (hroot : ∀ p, ∀ c ∈ f.children p, f.kind c ≠ .root)
    (hk : f.Furnishes kept) : ∀ (n : Nat) (p : NodeId), f.kind p ≠ .root →
    (id ∈ (f.outlineWithin n p).preorder → kept id) →
    (f.outlineWithin n p).preorder.count id ≤ 1 → f.Prints id (f.outlineWithin n p) := by
  have hleaf (p : NodeId) (hp : f.kind p ≠ .root) (hkept : id ∈ [p] → kept id) :
      f.Prints id (.leaf p) := by
    intro gap semicolon memo hgap
    refine yields_printNode hp List.count_le_length (fun he => ⟨hgap he, ?_⟩)
      (fun hmem => by cases hmem) (fun _ => rfl) (fun he => by cases he) memo
    subst he
    exact hk.furnished p (hkept (List.mem_singleton_self p)) hp
  intro n
  induction n with
  | zero => exact fun p hp hkept _ => hleaf p hp hkept
  | succ n ih =>
    intro p hp hkept hcount
    have htop : id ∈ (f.outlineWithin (n + 1) p).preorder → kept p := fun hmem =>
      hk.top (hkept hmem) hmem
    rw [outlineWithin] at hkept hcount htop ⊢
    rcases hids : (f.node p).children with _ | ids
    · rw [hids] at hkept
      exact hleaf p hp hkept
    · rw [hids] at hkept hcount htop
      simp only at hkept hcount htop ⊢
      intro gap semicolon memo hgap
      refine yields_printNode hp hcount (fun he => ⟨hgap he, ?_⟩) (fun hmem => ?_) (fun he => ?_)
        (fun _ memo => ?_) memo
      · subst he
        exact hk.furnished p (hkept (.head _)) hp
      · exact (hk.furnished p (htop (List.mem_cons_of_mem _ hmem)) hp).opens
          (congrArg Option.isSome hids)
      · rw [List.isEmpty_iff.1 he]
        rfl
      · exact yields_body (hroot p) hk hids (fun hmem => hkept (List.mem_cons_of_mem _ hmem))
          (Nat.le_trans List.count_le_count_cons hcount) ih _ memo

/-- What is written of `id` below a root, and of the root itself. -/
theorem exists_textsOf_print (hroot : ∀ p, ∀ c ∈ f.children p, f.kind c ≠ .root)
    (hk : f.Furnishes kept) {r : NodeId} (hr : f.kind r = .root)
    (hkept : id ∈ f.descendants r → kept id) (hcount : (f.descendants r).count id ≤ 1) :
    f.Shown id (f.descendants r) (textsOf id "" (f.print r)) ∧
      trailing "" (f.print r) = (f.wording r).slot "after" := by
  have hdata : f.data r = .root := by
    unfold kind Node.kind at hr
    cases hd : (f.node r).data <;> rw [hd] at hr <;> cases hr
    exact hd
  obtain ⟨n, hn⟩ := Nat.exists_eq_succ_of_ne_zero (Nat.ne_of_gt
    (Nat.lt_of_le_of_lt (Nat.zero_le r) (lt_size_of_root hr)))
  have hend (body : Printing) {below : List NodeId} (hbody : ∃ texts, f.Shown id below texts ∧
      Yields id "" (body []).1 texts) (semicolon isEmpty : Bool) :
      f.Shown id below (textsOf id "" (f.printNode r semicolon isEmpty body []).1) ∧
        trailing "" (f.printNode r semicolon isEmpty body []).1 = (f.wording r).slot "after" := by
    obtain ⟨texts, hshown, hyields⟩ := hbody
    have hprint : (f.printNode r semicolon isEmpty body []).1 =
        (body []).1 ++ between ((f.wording r).slot "after") := by
      unfold printNode
      rw [hdata]
      rfl
    rw [hprint, textsOf_append, trailing_append, hyields.texts_eq, hyields.closed,
      textsOf_between, trailing_between, List.append_nil]
    exact ⟨hshown, rfl⟩
  unfold print
  unfold descendants at hkept hcount ⊢
  unfold outline at *
  rw [hn, outlineWithin] at hkept hcount ⊢
  rcases hids : (f.node r).children with _ | ids
  · refine hend _ ⟨[], ?_, yields_nil id⟩ false true
    rw [Shown, if_neg]
    exact List.not_mem_nil
  · rw [hids] at hkept hcount
    exact hend _ (yields_body (hroot r) hk hids hkept hcount
      (prints_outlineWithin hroot hk n) _ []) false _

/-- **One node of a printed tree**: a node below a root that stands there once and has all its
formatting is printed with it. -/
theorem textsOf_print (hroot : ∀ p, ∀ c ∈ f.children p, f.kind c ≠ .root)
    (hk : f.Furnishes kept) {r : NodeId} (hr : f.kind r = .root) (hid : id ∈ f.descendants r)
    (hkept : kept id) (hcount : (f.descendants r).count id ≤ 1) :
    ∃ semicolon, textsOf id "" (f.print r) =
      (f.wording id).texts id (f.node id).hasBlock semicolon := by
  have := (exists_textsOf_print hroot hk hr (fun _ => hkept) hcount).1
  rwa [Shown, if_pos hid] at this

/-- Behind the last node of a printed tree stands the formatting of its root. -/
theorem trailing_print (hroot : ∀ p, ∀ c ∈ f.children p, f.kind c ≠ .root) {r : NodeId}
    (hr : f.kind r = .root) : trailing "" (f.print r) = (f.wording r).slot "after" := by
  -- what is written of other nodes does not matter, so look at one that is not there
  obtain ⟨fresh, hfresh⟩ := Infinite.exists_notMem_finset (f.descendants r).toFinset
  rw [List.mem_toFinset] at hfresh
  have hk : f.Furnishes fun _ => False := ⟨fun _ _ _ h => h, fun _ h => h.elim⟩
  refine (exists_textsOf_print hroot hk hr (fun hmem => hfresh hmem) ?_).2
  rw [List.count_eq_zero.2 hfresh]
  exact Nat.zero_le 1

end

end Forest

end Stylesheet
