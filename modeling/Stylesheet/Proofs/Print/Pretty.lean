import Stylesheet.Proofs.Forest.Edits
import Stylesheet.Proofs.Forest.Outline
import Stylesheet.Proofs.Print.Formatted

/-!
# Trees without formatting

A tree that was built and not read has no formatting of its own. There is no example to learn from
either, so the printer falls back on the fixed formatting everywhere. `Tree.prettyRoot` prints such
a tree without looking anything up, by recursion over what the nodes say;
`Forest.Bare.css_eq_pretty` says that the printer does the same, whatever the texts of the nodes are.
-/

set_option autoImplicit false

namespace Stylesheet

open Relation

/-! ## Pretty printing -/

/-- A line break and the indentation behind it. -/
def lineBreak (depth : Nat) : String := "\n" ++ String.join (List.replicate depth "    ")

/-- A node, with `body` between its braces. `hasBlock` says whether an at-rule has them, and
`semicolon` whether a semicolon follows what has none. -/
def NodeData.pretty (d : NodeData) (hasBlock semicolon : Bool) (body : String) : String :=
  let braces := " \x7b" ++ body ++ "\x7d"
  let close := if semicolon then ";" else ""
  match d with
  | root => body
  | rule selector => selector ++ braces
  | atRule name params =>
    "@" ++ name ++ (if params = "" then "" else " " ++ params) ++
      if hasBlock then braces else close
  | declaration prop value important =>
    prop ++ ": " ++ value ++ (if important then " !important" else "") ++ close
  | comment text => "/* " ++ text ++ " */"

namespace Tree

/-- Whether all of the trees are comments. -/
def onlyComments (ts : List (Tree NodeData)) : Bool := ts.all (·.label.kind = .comment)

mutual

/-- A tree inside of `depth` blocks. -/
def pretty (depth : Nat) (semicolon : Bool) : Tree NodeData → String
  | .leaf d => d.pretty false semicolon ""
  | .block d ts =>
    d.pretty true semicolon
      (prettyAll (depth + 1) (lineBreak (depth + 1)) ts ++
        if ts.isEmpty then "" else lineBreak depth)

/-- Siblings inside of `depth` blocks: the first one behind `start`, and each other one on a line of
its own. The last one that is no comment gets no semicolon. -/
def prettyAll (depth : Nat) (start : String) : List (Tree NodeData) → String
  | [] => ""
  | t :: ts =>
    start ++ pretty depth (!onlyComments ts) t ++ prettyAll depth (lineBreak depth) ts

end

/-- A whole stylesheet, which starts with no line break. -/
def prettyRoot : Tree NodeData → String
  | .leaf _ => ""
  | .block _ ts => prettyAll 0 "" ts

end Tree

/-! ## Fixed formatting -/

/-- All that is remembered is the fixed formatting. -/
def Memo.Plain (memo : Memo) : Prop := ∀ a v, memo.lookup a = some v → v = a.fallback

theorem Memo.Plain.cons {memo : Memo} (h : Memo.Plain memo) (a : Aspect) :
    Memo.Plain ((a, a.fallback) :: memo) := by
  intro b v hv
  rw [List.lookup_cons] at hv
  split at hv
  · next hb => rw [← Option.some.inj hv, eq_of_beq hb]
  · exact h b v hv

/-- The step prints the characters, if nothing but fixed formatting is remembered. -/
def Printing.Prints (p : Printing) (cs : List Char) : Prop :=
  ∀ memo, Memo.Plain memo → (Fragment.concat (p memo).1).toList = cs ∧ Memo.Plain (p memo).2

namespace Printing

variable {p q : Printing} {cs ds : List Char}

theorem Prints.append (hp : p.Prints cs) (hq : q.Prints ds) : (p ++ q).Prints (cs ++ ds) := by
  intro memo hm
  obtain ⟨hcs, hm⟩ := hp memo hm
  obtain ⟨hds, hm⟩ := hq _ hm
  refine ⟨?_, hm⟩
  rw [← hcs, ← hds]
  show (Fragment.concat ((p memo).1 ++ (q (p memo).2).1)).toList = _
  simp [Fragment.concat]

theorem prints_emit {fs : List Fragment} (h : (Fragment.concat fs).toList = cs) :
    (emit fs).Prints cs :=
  fun _ hm => ⟨h, hm⟩

theorem prints_between (text : String) : (emit (Fragment.between text)).Prints text.toList :=
  prints_emit (by by_cases h : text = "" <;> simp [Fragment.between, Fragment.concat, h])

end Printing

namespace Forest

open Printing Stylesheet.Tree

variable {f : Forest} {root id p : NodeId} {depth : Nat} {own : String} {aspect : Aspect}

/-- No node of the tree below `root` has formatting of its own. -/
def Bare (f : Forest) (root : NodeId) : Prop :=
  ∀ id ∈ root :: f.descendants root, f.raws id = Raws.empty

instance : Decidable (f.Bare root) :=
  inferInstanceAs (Decidable (∀ id ∈ root :: f.descendants root, f.raws id = Raws.empty))

theorem get?_empty (slot : String) : Raws.empty.get? slot = none := rfl

theorem text?_empty (slot : String) : Raws.empty.text? slot = none := rfl

/-- There is no example in the tree. -/
theorem Bare.detect (h : f.Bare root) (own : Option String) (a : Aspect) :
    f.detect root own a = none := by
  have hbelow : ∀ {α : Type} (find : NodeId → Option α),
      (∀ id, f.raws id = Raws.empty → find id = none) → f.findBelow root find = none :=
    fun find hfind => List.findSome?_eq_none_iff.2 fun id hid => hfind id (h id (.tail _ hid))
  have htop := h root (.head _)
  cases a with
  | before => rfl
  | after => rfl
  | indent =>
    unfold Forest.detect
    simp only [rawText?, htop, text?_empty, Option.getD_none, ne_eq, not_true, if_false]
    refine hbelow _ fun id hid => ?_
    split
    · rfl
    · simp [hid, text?_empty]
  | commentLeft =>
    cases own with
    | none => rfl
    | some slot => exact hbelow _ fun id hid => by rw [hid, get?_empty]
  | commentRight =>
    cases own with
    | none => rfl
    | some slot => exact hbelow _ fun id hid => by rw [hid, get?_empty]
  | slot name =>
    cases own with
    | none => rfl
    | some slot => exact hbelow _ fun id hid => by rw [hid, get?_empty]
  | _ => exact hbelow _ fun id hid => by simp [linesIn?, rawText?, hid, text?_empty, get?_empty]

theorem Bare.raws (h : f.Bare root) (hid : ReflTransGen f.Child root id)
    (hs : f.Shows (f.outline root)) : f.raws id = Raws.empty := by
  have hmem : id ∈ (f.outline root).preorder := (mem_preorder_iff hs).2 (by rwa [label_outline])
  rw [preorder_eq, label_outline] at hmem
  exact h id hmem

/-- Aspects that stand in for each other have the same fixed formatting, and that is found. -/
theorem Bare.lookup (h : f.Bare root) {v : RawValue} : (own : Option String) → (as : List Aspect) →
    as ≠ [] → (∀ a ∈ as, a.fallback = v) → ∀ memo, Memo.Plain memo →
    (f.lookup root own memo as).1 = v ∧ Memo.Plain (f.lookup root own memo as).2
  | _, [], hne, _, _, _ => absurd rfl hne
  | own, a :: others, _, hv, memo, hm => by
    obtain ⟨ha, hothers⟩ := List.forall_mem_cons.1 hv
    rw [Forest.lookup, h.detect]
    cases hl : memo.lookup a with
    | some w => exact ⟨(hm a w hl).trans ha, hm⟩
    | none =>
      cases others with
      | nil => exact ⟨ha, hm.cons a⟩
      | cons b bs =>
        obtain ⟨hfound, hm⟩ := h.lookup none (b :: bs) (List.cons_ne_nil b bs) hothers memo hm
        refine ⟨hfound, ?_⟩
        simp only [List.isEmpty_cons, Bool.false_eq_true, if_false, hfound, ← ha]
        exact hm.cons a

/-- Asked for the formatting of a node, the printer finds `v` and remembers nothing else than fixed
formatting. -/
def Finds (f : Forest) (id : NodeId) (own : String) (aspect : Aspect) (v : RawValue) : Prop :=
  ∀ memo, Memo.Plain memo →
    (f.raw memo id (some own) aspect).1 = v ∧ Memo.Plain (f.raw memo id (some own) aspect).2

theorem Finds.prints {v : RawValue} {k : RawValue → Printing} {cs : List Char}
    (h : f.Finds id own aspect v) (hk : (k v).Prints cs) :
    (f.withRaw id own aspect k).Prints cs := by
  intro memo hm
  obtain ⟨hv, hm⟩ := h memo hm
  have := hk _ hm
  rw [← hv] at this
  exact this

/-- What stands before or after a node: a line break, and the indentation of its depth. -/
theorem Bare.placed (h : f.Bare root) (htop : f.top id = root) (before : Bool) {memo : Memo}
    (hm : Memo.Plain memo) :
    (f.placed memo id before).1 = .text (lineBreak (f.depth id)) ∧
      Memo.Plain (f.placed memo id before).2 := by
  have hline : ∀ a ∈ (placeAspect (f.kind id) before).chain, a.fallback = .text "\n" := by
    cases f.kind id <;> cases before <;> decide
  have hne : (placeAspect (f.kind id) before).chain ≠ [] := by
    cases f.kind id <;> cases before <;> decide
  obtain ⟨hfound, hm⟩ := h.lookup none _ hne hline memo hm
  obtain ⟨hindent, hm⟩ := h.lookup none [.indent] (List.cons_ne_nil _ _)
    (List.forall_mem_singleton.2 rfl) _ hm
  rw [Forest.placed, htop]
  simp only [hfound, hindent, RawValue.toText]
  exact ⟨rfl, hm⟩

section
variable (h : f.Bare root) (htop : f.top id = root) (hp : f.parent? id = some p)
  (hraws : f.raws id = Raws.empty)
include h htop hp hraws

/-- What stands before a node that does not come first in a root. -/
theorem Bare.finds_before (hfirst : f.kind p = .root → (f.children p).head? ≠ some id) :
    f.Finds id own .before (.text (lineBreak (f.depth id))) := by
  intro memo hm
  have hnot : (f.kind p = .root && (f.children p).head? = some id) = false := by
    rw [Bool.and_eq_false_imp, decide_eq_false_iff_not, decide_eq_true_iff]
    exact hfirst
  rw [raw, hraws, Option.bind_some, get?_empty]
  simp only [hp, decide_true, Bool.true_and, hnot, Bool.false_eq_true, if_false, if_true]
  exact h.placed htop true hm

omit h htop in
/-- Before the first node in a root stands nothing. -/
theorem finds_before_first (hk : f.kind p = .root) (hfirst : (f.children p).head? = some id) :
    f.Finds id own .before (.text "") := by
  intro memo hm
  rw [raw, hraws, Option.bind_some, get?_empty]
  simp only [hp, hk, hfirst, decide_true, Bool.and_self, if_true]
  exact ⟨trivial, hm⟩

/-- What stands before the closing brace of a block that is not empty. -/
theorem Bare.finds_after : f.Finds id own .after (.text (lineBreak (f.depth id))) := by
  intro memo hm
  rw [raw, hraws, Option.bind_some, get?_empty]
  simp only [hp, reduceCtorEq, decide_false, Bool.false_and, Bool.false_eq_true, if_false, if_true]
  exact h.placed htop false hm

/-- All other formatting is the fixed one. -/
theorem Bare.finds (own : String) (aspect : Aspect)
    (ha : aspect ≠ .before ∧ aspect ≠ .after ∧ ∀ a ∈ aspect.chain, a.fallback = aspect.fallback) :
    f.Finds id own aspect aspect.fallback := by
  obtain ⟨hb, ha, hc⟩ := ha
  intro memo hm
  rw [raw, hraws, Option.bind_some, get?_empty]
  simp only [hp, hb, ha, decide_false, Bool.false_and, Bool.false_eq_true, if_false, htop]
  refine h.lookup (some own) aspect.chain ?_ hc memo hm
  cases aspect <;> exact List.cons_ne_nil _ _

/-! ## Nodes -/

omit h htop hp in
theorem valueText_of_raws_empty (slot : String) :
    f.valueText id slot = (f.data id).cleaned slot := by
  rw [valueText, hraws]
  rfl

omit h htop hp in
theorem rawText?_of_raws_empty (slot : String) : f.rawText? id slot = none := by
  rw [rawText?, hraws, text?_empty]

omit h htop hp in
theorem atRuleHead_of_raws_empty {name params : String} (hd : f.data id = .atRule name params) :
    f.atRuleHead id = "@" ++ name ++ if params = "" then "" else " " ++ params := by
  by_cases hparams : params = "" <;>
    simp [atRuleHead, hd, NodeData.params, NodeData.name, hparams, String.append_assoc,
      valueText_of_raws_empty hraws, rawText?_of_raws_empty hraws, NodeData.cleaned]

/-- A block is printed behind what stands before it, around what its body prints. -/
theorem Bare.prints_printBlock (head : String) {isEmpty : Bool} {body : Printing} {text : String}
    (hbody : isEmpty = false → body.Prints text.toList) :
    (f.printBlock id head isEmpty body).Prints (head ++
      (" \x7b" ++ (if isEmpty then "" else text ++ lineBreak (f.depth id)) ++ "\x7d")).toList := by
  have hfinds := h.finds htop hp hraws
  have hclose : ∀ (aspect : Aspect) (after : String), f.Finds id "after" aspect (.text after) →
      (f.withRaw id "after" aspect fun v =>
        emit (Fragment.between v.toText ++ [⟨"\x7d", some id, some .stop⟩])).Prints
        (after ++ "\x7d").toList := by
    refine fun aspect after ha => ha.prints (prints_emit ?_)
    by_cases hafter : after = "" <;>
      simp [Fragment.concat, Fragment.between, RawValue.toText, hafter]
  have hopen : (emit [⟨head ++ (Aspect.fallback .beforeOpen).toText ++ "\x7b", some id,
      some .start⟩]).Prints (head ++ " \x7b").toList :=
    prints_emit (by simp [Fragment.concat, Aspect.fallback, RawValue.toText])
  refine (hfinds "between" .beforeOpen (by decide)).prints ?_
  cases isEmpty with
  | true => simpa using hopen.append (hclose .emptyBody "" (hfinds "after" .emptyBody (by decide)))
  | false =>
    simpa using
      hopen.append ((hbody rfl).append (hclose .after _ (h.finds_after htop hp hraws)))

/-- A node is printed as text, around what its body prints. -/
theorem Bare.prints_node (hk : f.kind id ≠ .root) (semicolon isEmpty : Bool) {body : Printing}
    {text : String} (hbody : isEmpty = false → body.Prints text.toList) :
    (f.printNode id semicolon isEmpty body).Prints
      ((f.data id).pretty (f.node id).hasBlock semicolon
        (if isEmpty then "" else text ++ lineBreak (f.depth id))).toList := by
  have hfinds := h.finds htop hp hraws
  have hblock := fun head => h.prints_printBlock htop hp hraws head hbody
  unfold printNode
  cases hd : f.data id with
  | root => exact absurd (congrArg NodeData.kind hd) hk
  | rule selector =>
    have hhead : f.valueText id "selector" = selector := by
      rw [valueText_of_raws_empty hraws, hd]
      rfl
    have hown : (emit []).Prints [] := prints_emit rfl
    have hrule := (hblock selector).append hown
    rw [List.append_nil] at hrule
    simp only [hhead, rawText?_of_raws_empty hraws, Option.getD_none, if_true]
    exact hrule
  | atRule name params =>
    rw [NodeData.pretty, ← atRuleHead_of_raws_empty hraws hd]
    cases hb : (f.node id).hasBlock with
    | true => exact hblock _
    | false =>
      refine prints_emit ?_
      rw [rawText?_of_raws_empty hraws]
      simp [Fragment.concat]
  | declaration prop value important =>
    refine (hfinds "between" .colon (by decide)).prints (prints_emit ?_)
    simp [valueText_of_raws_empty hraws, rawText?_of_raws_empty hraws, hd, Fragment.concat,
      NodeData.pretty, NodeData.prop, NodeData.important, NodeData.cleaned, Aspect.fallback,
      RawValue.toText]
  | comment text =>
    refine (hfinds "left" .commentLeft (by decide)).prints
      ((hfinds "right" .commentRight (by decide)).prints (prints_emit ?_))
    simp [Fragment.concat, hd, NodeData.pretty, NodeData.text, Aspect.fallback, RawValue.toText]

end

/-! ## Trees -/

/-- What stands before a child: a line break, except before the first child of a root. -/
theorem Bare.prints_before (h : f.Bare root) (htop : f.top id = root) (hp : f.parent? id = some p)
    (hraws : f.raws id = Raws.empty) (skip : Bool)
    (hskip : skip = true ↔ f.kind p = .root ∧ (f.children p).head? = some id) :
    (f.withRaw id "before" .before fun before => emit (Fragment.between before.toText)).Prints
      (if skip then "" else lineBreak (f.depth id)).toList := by
  cases skip with
  | true =>
    obtain ⟨hk, hfirst⟩ := hskip.1 rfl
    exact (finds_before_first hp hraws hk hfirst).prints (prints_between "")
  | false =>
    have hfirst : f.kind p = .root → (f.children p).head? ≠ some id :=
      fun hk hf => absurd (hskip.2 ⟨hk, hf⟩) Bool.false_ne_true
    exact (h.finds_before htop hp hraws hfirst).prints (prints_between _)

theorem onlyComments_mapAll (f : Forest) (ts : List (Tree NodeId)) :
    onlyComments (mapAll f.data ts) = true ↔
      ∀ k ∈ ts.map fun t => f.kind t.label, k = .comment := by
  rw [onlyComments, mapAll_eq, List.all_map, List.all_eq_true, List.forall_mem_map]
  exact forall₂_congr fun t _ => by simp [label_map, Forest.kind, Node.kind, Forest.data]

/-- The last child is the one with only comments behind it. -/
theorem lastIndex_iff (f : Forest) (ts us : List (Tree NodeId)) (t : Tree NodeId)
    (vs : List (Tree NodeId)) (h : ts = us ++ t :: vs) (hk : f.kind t.label ≠ .comment) :
    0 + us.length = lastIndex (ts.map fun t => f.kind t.label) ↔
      onlyComments (mapAll f.data vs) = true := by
  rw [Nat.zero_add, onlyComments_mapAll, ← lastIndex_eq_iff hk (us.map fun t => f.kind t.label), h,
    List.length_map, List.map_append, List.map_cons]

/-- No semicolon follows a comment. -/
theorem pretty_of_comment {t : Tree NodeData} (hk : t.label.kind = .comment) (s s' : Bool) :
    t.pretty depth s = t.pretty depth s' := by
  cases t with
  | leaf d => cases d <;> cases hk; rfl
  | block d ts => cases d <;> cases hk; rfl

theorem top_eq_self {id : NodeId} (hp : f.parent? id = none) : f.top id = id := by
  have : f.ancestors id = [] := by
    rw [ancestors]
    cases f.size <;> simp [ancestorsWithin, hp]
  rw [top, this]
  rfl

/-- The top of all nodes below a root is the root. -/
theorem WellFormed.top_eq (hf : f.WellFormed) (hroot : f.parent? root = none)
    (hreach : ReflTransGen f.Child root id) : f.top id = root := by
  induction hreach with
  | refl => exact top_eq_self hroot
  | tail _ hc ih => rw [hf.top_of_parent ((hf.parent _ _).1 hc), ih]

/-- No child of a node is followed by a semicolon for being the last one. -/
theorem Finds.prints_children {last : Nat} {ts : List (Tree NodeId)} {cs : List Char}
    (h : f.Finds id "semicolon" .semicolon (.flag false))
    (hchildren : (f.printChildren last (RawValue.flag false).isTruthy 0 ts).Prints cs) :
    (f.withRaw id "semicolon" .semicolon fun v =>
      f.printChildren last v.isTruthy 0 ts).Prints cs :=
  Finds.prints (k := fun v => f.printChildren last v.isTruthy 0 ts) h hchildren

section
variable (h : f.Bare root) (hf : f.WellFormed) (hroot : f.parent? root = none)
  (hshows : f.Shows (f.outline root))
include h hf hroot hshows

mutual

theorem Bare.prints_tree : {p : NodeId} → (t : Tree NodeId) → f.Shows t →
    ReflTransGen f.Child root p → f.Child p t.label → (semicolon : Bool) →
    (f.printTree semicolon t).Prints ((t.map f.data).pretty (f.depth t.label) semicolon).toList
  | p, .leaf id, ht, hreach, hc, semicolon => by
    have hreach : ReflTransGen f.Child root id := hreach.tail hc
    have hb : (f.node id).hasBlock = false := congrArg Option.isSome ht
    have hbody : true = false →
        (f.withRaw id "semicolon" .semicolon fun _ => emit []).Prints "".toList := nofun
    have hnode := h.prints_node (hf.top_eq hroot hreach) ((hf.parent p id).1 hc)
      (h.raws hreach hshows) (hf.root p id hc) semicolon true hbody
    rw [hb] at hnode
    exact hnode
  | p, .block id ts, ht, hreach, hc, semicolon => by
    have hreach : ReflTransGen f.Child root id := hreach.tail hc
    have htop := hf.top_eq hroot hreach
    have hp := (hf.parent p id).1 hc
    have hraws := h.raws hreach hshows
    have hk : f.kind id ≠ .root := hf.root p id hc
    have hb : (f.node id).hasBlock = true := congrArg Option.isSome ht.1
    have hids := children_of_block ht.1
    have hdepth : ∀ t ∈ ts, f.depth t.label = f.depth id + 1 := by
      intro t hmem
      have hchild : t.label ∈ f.children id := hids ▸ List.mem_map_of_mem hmem
      rw [hf.depth_of_parent ((hf.parent id _).1 hchild), if_neg hk]
    have hbody := Bare.prints_children false ts ht.2 hreach
      (fun t hmem => show _ ∈ f.children id from hids ▸ List.mem_map_of_mem hmem) hdepth
      _ 0 (lastIndex_iff f ts) (fun us t vs _ => by simp [hk])
    have hraw : f.Finds id "semicolon" .semicolon (.flag false) :=
      h.finds htop hp hraws "semicolon" .semicolon (by decide)
    have hnode := h.prints_node htop hp hraws hk semicolon ts.isEmpty
      fun _ => hraw.prints_children hbody
    rw [hb] at hnode
    cases ts <;> exact hnode

/-- `skip` says that no line break stands before the first child. -/
theorem Bare.prints_children : {p : NodeId} → {depth : Nat} → (skip : Bool) →
    (ts : List (Tree NodeId)) → f.ShowsAll ts → ReflTransGen f.Child root p →
    (∀ t ∈ ts, f.Child p t.label) → (∀ t ∈ ts, f.depth t.label = depth) → (last index : Nat) →
    (∀ us t vs, ts = us ++ t :: vs → f.kind t.label ≠ .comment →
      (index + us.length = last ↔ onlyComments (mapAll f.data vs))) →
    (∀ us t vs, ts = us ++ t :: vs → (skip = true ∧ us = [] ↔
      f.kind p = .root ∧ (f.children p).head? = some t.label)) →
    (f.printChildren last false index ts).Prints
      (prettyAll depth (if skip then "" else lineBreak depth) (mapAll f.data ts)).toList
  | _, _, _, [], _, _, _, _, _, _, _, _ => prints_emit rfl
  | p, depth, skip, t :: ts, hts, hreach, hc, hdepth, last, index, hlast, hskip => by
    obtain ⟨hct, hcs⟩ := List.forall_mem_cons.1 hc
    obtain ⟨hdt, hds⟩ := List.forall_mem_cons.1 hdepth
    have hbefore := h.prints_before (hf.top_eq hroot (hreach.tail hct)) ((hf.parent p _).1 hct)
      (h.raws (hreach.tail hct) hshows) skip (by simpa using hskip [] t ts rfl)
    have htree := Bare.prints_tree t hts.1 hreach hct (index != last || false)
    have hrest := Bare.prints_children false ts hts.2 hreach hcs hds last (index + 1)
      (fun us u vs he hu => by
        rw [← hlast (t :: us) u vs (by rw [he]; rfl) hu, List.length_cons]
        omega)
      (fun us u vs he => by
        rw [← hskip (t :: us) u vs (by rw [he]; rfl)]
        simp)
    have hsemicolon : (t.map f.data).pretty depth (index != last || false) =
        (t.map f.data).pretty depth (!onlyComments (mapAll f.data ts)) := by
      by_cases hk : f.kind t.label = .comment
      · exact pretty_of_comment (by rw [label_map]; exact hk) _ _
      · have := hlast [] t ts rfl hk
        rw [List.length_nil, Nat.add_zero] at this
        congr 1
        cases ho : onlyComments (mapAll f.data ts) <;> simp [ho] at this ⊢ <;> exact this
    rw [hdt] at hbefore htree
    rw [hsemicolon] at htree
    rw [printChildren, mapAll, prettyAll, String.toList_append, String.toList_append]
    exact (hbefore.append htree).append hrest

end

end

/-- What the nodes of the tree below a node say. -/
def shape (f : Forest) (id : NodeId) : Tree NodeData := (f.outline id).map f.data

theorem data_of_shape {d : NodeData} {ts : List (Tree NodeData)} (h : f.shape id = .block d ts) :
    f.data id = d := by
  have := congrArg Tree.label h
  rwa [shape, label_map, label_outline] at this

/-- A root stands below nothing. -/
theorem WellFormed.parent?_eq_none (hf : f.WellFormed) (h : f.data id = .root) :
    f.parent? id = none := by
  refine Option.eq_none_iff_forall_ne_some.2 fun p hp => hf.root p id ((hf.parent p id).2 hp) ?_
  rw [Forest.kind, Node.kind, show (f.node id).data = .root from h]
  rfl

/-- A stylesheet is printed without any formatting but the fixed one. -/
theorem Bare.prints_root (h : f.Bare root) (hf : f.WellFormed) (hdata : f.data root = .root) :
    (f.printTree false (f.outline root)).Prints (f.shape root).prettyRoot.toList := by
  have hk : f.kind root = .root := congrArg NodeData.kind hdata
  have hroot := hf.parent?_eq_none hdata
  have hraws : f.raws root = Raws.empty := h root (.head _)
  have hshows := hf.shows_outline (lt_size_of_root hk)
  have hraw : f.Finds root "semicolon" .semicolon (.flag false) := by
    intro memo hm
    rw [raw, hraws, Option.bind_some, get?_empty, hroot]
    exact ⟨rfl, hm⟩
  have hnode : ∀ (isEmpty : Bool) {body : Printing} {cs : List Char}, body.Prints cs →
      (f.printNode root false isEmpty body).Prints cs := by
    intro isEmpty body cs hbody
    unfold printNode
    rw [rawText?_of_raws_empty hraws, hdata]
    simpa using hbody.append (prints_between "")
  have hid := label_outline f root
  rw [shape]
  cases hout : f.outline root with
  | leaf id =>
    obtain rfl : id = root := by rwa [hout] at hid
    exact hnode true (hraw.prints (prints_emit rfl))
  | block id us =>
    obtain rfl : id = root := by rwa [hout] at hid
    have hus := hshows
    rw [hout] at hus
    have hids := children_of_block hus.1
    have hchild : ∀ t ∈ us, f.Child id t.label :=
      fun t hmem => show _ ∈ f.children id from hids ▸ List.mem_map_of_mem hmem
    have hbody := h.prints_children hf hroot hshows true us hus.2 .refl hchild
      (fun t hmem => by rw [hf.depth_of_parent ((hf.parent id _).1 (hchild t hmem)), if_pos hk])
      _ 0 (lastIndex_iff f us)
      (fun vs t ws he => by
        have hnodup := hf.nodup id
        rw [hids, he] at hnodup ⊢
        cases vs with
        | nil => simp [hk]
        | cons v vs =>
          have hne : v.label ≠ t.label := by
            rintro heq
            simp [heq] at hnodup
          simp [hne])
    exact hnode us.isEmpty (hraw.prints_children hbody)

/-- **A tree without formatting is printed as text alone.** Its printed form depends on what its
nodes say, and on nothing that is looked up. -/
theorem Bare.css_eq_pretty (h : f.Bare root) (hf : f.WellFormed) (hroot : f.data root = .root) :
    f.css root = (f.shape root).prettyRoot :=
  String.toList_inj.1 (h.prints_root hf hroot [] (by rintro a v ⟨⟩)).1

/-- Nested blocks, an empty one, and comments behind the last declaration of a block and the last
at-rule of the stylesheet. -/
theorem css_eq_pretty_nested :
    let es : List Edit := [.new .root, .new (.atRule "media" "print"), .new (.rule "a"),
      .new (.declaration "color" "red" true), .new (.declaration "top" "0" false),
      .new (.comment "y"), .new (.rule "b"), .new (.atRule "import" "x"), .new (.comment "z"),
      .insert 2 .stop [3, 4, 5], .insert 1 .stop [2], .insert 0 .stop [1, 6, 7, 8]]
    ∃ f, (Edit.trail .empty es).getLast? = some f ∧ f.Bare 0 ∧ f.WellFormed ∧
      f.data 0 = .root ∧ f.css 0 =
        "@media print \x7b\n    a \x7b\n        color: red !important;\n        top: 0\n" ++
        "        /* y */\n    \x7d\n\x7d\nb \x7b\x7d\n@import x\n/* z */" := by
  intro es
  have hn : Edit.Named .empty es := by decide +kernel
  have hclean : Edit.AllClean .empty es := by decide +kernel
  obtain ⟨f, hlast⟩ : ∃ f, (Edit.trail .empty es).getLast? = some f := ⟨_, rfl⟩
  have hf := (wellFormed_empty.trail_iff hn).2 hclean f (List.mem_of_getLast? hlast)
  have hbare : f.Bare 0 := by
    cases hlast
    decide +kernel
  have hroot : f.data 0 = .root := by
    cases hlast
    rfl
  refine ⟨f, hlast, hbare, hf, hroot, (hbare.css_eq_pretty hf hroot).trans ?_⟩
  cases hlast
  decide +kernel

end Forest

end Stylesheet
