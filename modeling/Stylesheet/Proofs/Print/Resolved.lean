import Stylesheet.Proofs.Forest.Outline

/-!
# The printer without its memory

What the printer remembers of formatting by example is what it would find again (`Faithful`), so
remembering changes nothing: a node is printed with the formatting that `resolve` gives it alone.
`print_eq_render` writes the output of the printer without any memory.
-/

set_option autoImplicit false

namespace Stylesheet

open Relation

namespace Aspect

/-- The slot whose examples tell an aspect, where the search goes by the slot that is asked for. -/
def slot? : Aspect → Option String
  | commentLeft => some "left"
  | commentRight => some "right"
  | _ => none

/-- The printer asks for the aspect by this slot. -/
def AskedBy (own : Option String) : Aspect → Prop
  | commentLeft => own = some "left"
  | commentRight => own = some "right"
  | slot _ => False
  | _ => True

end Aspect

namespace Forest

open Printing Fragment

variable {f : Forest} {top id : NodeId} {memo : Memo} {a : Aspect} {own : Option String}

/-! ## What is remembered -/

/-- The formatting of an aspect in the tree below `top`, with nothing remembered. -/
def sample (f : Forest) (top : NodeId) (a : Aspect) : RawValue :=
  (f.lookup top a.slot? [] a.chain).1

/-- What is remembered is what would be found. -/
def Faithful (f : Forest) (top : NodeId) (memo : Memo) : Prop :=
  ∀ a v, memo.lookup a = some v → v = f.sample top a

theorem faithful_nil (f : Forest) (top : NodeId) : f.Faithful top [] := by
  intro a v h
  cases h

theorem Faithful.cons (h : f.Faithful top memo) (a : Aspect) :
    f.Faithful top ((a, f.sample top a) :: memo) := by
  intro b v hb
  rw [List.lookup_cons] at hb
  split at hb
  · next he =>
    cases hb
    rw [eq_of_beq he]
  · exact h b v hb

theorem detect_askedBy (h : a.AskedBy own) : f.detect top own a = f.detect top a.slot? a := by
  cases a <;> cases h <;> rfl

/-- The aspects are looked up with this answer, and what is remembered stays faithful. -/
def Answers (f : Forest) (top : NodeId) (own : Option String) (as : List Aspect) (v : RawValue) :
    Prop :=
  ∀ memo, f.Faithful top memo →
    (f.lookup top own memo as).1 = v ∧ f.Faithful top (f.lookup top own memo as).2

/-- An aspect is looked up alike with a memory and without one, if those that stand in for it are. -/
theorem answers_of_chain {others : List Aspect} (hc : a.chain = a :: others)
    (ha : a.AskedBy own) (hnext : ∀ b ∈ others.head?, f.Answers top none others (f.sample top b)) :
    f.Answers top own a.chain (f.sample top a) := by
  have hsample : f.sample top a = (f.detect top a.slot? a).getD
      ((others.head?.map (f.sample top)).getD a.fallback) := by
    unfold sample
    rw [hc, lookup]
    cases f.detect top a.slot? a with
    | some v => rfl
    | none =>
      cases others with
      | nil => rfl
      | cons b others => exact (hnext b rfl [] (f.faithful_nil top)).1
  intro memo hm
  rw [hc, lookup, detect_askedBy ha]
  cases hl : memo.lookup a with
  | some v => exact ⟨hm a v hl, hm⟩
  | none =>
    have hcons := hm.cons a
    cases hd : f.detect top a.slot? a with
    | some v =>
      rw [hd, Option.getD_some] at hsample
      exact ⟨hsample.symm, hsample ▸ hcons⟩
    | none =>
      rw [hd, Option.getD_none] at hsample
      cases others with
      | nil =>
        rw [hsample] at hcons
        exact ⟨hsample.symm, hcons⟩
      | cons b others =>
        obtain ⟨hv, hm'⟩ := hnext b rfl memo hm
        have hcons' := hm'.cons a
        rw [hsample] at hcons'
        simp only [List.isEmpty_cons, Bool.false_eq_true, if_false, hv]
        exact ⟨hsample.symm, hcons'⟩

theorem answers (f : Forest) (top : NodeId) (ha : a.AskedBy own) :
    f.Answers top own a.chain (f.sample top a) := by
  have hrule : f.Answers top none Aspect.beforeRule.chain (f.sample top .beforeRule) :=
    answers_of_chain rfl trivial (by simp)
  have hdeclaration :
      f.Answers top none Aspect.beforeDeclaration.chain (f.sample top .beforeDeclaration) := by
    refine answers_of_chain rfl trivial ?_
    rintro _ ⟨⟩
    exact hrule
  cases a with
  | beforeComment =>
    refine answers_of_chain rfl trivial ?_
    rintro _ ⟨⟩
    exact hdeclaration
  | beforeDeclaration =>
    refine answers_of_chain rfl trivial ?_
    rintro _ ⟨⟩
    exact hrule
  | _ => exact answers_of_chain rfl ha (by simp)

/-! ## The formatting of a node -/

theorem placed_faithful (hm : f.Faithful (f.top id) memo) (before : Bool) :
    (f.placed memo id before).1 = (f.placed [] id before).1 ∧
      f.Faithful (f.top id) (f.placed memo id before).2 := by
  have hasked : (placeAspect (f.kind id) before).AskedBy none := by
    cases f.kind id <;> cases before <;> trivial
  have hplace := f.answers (f.top id) hasked
  obtain ⟨hv, hm'⟩ := hplace memo hm
  obtain ⟨hv₀, hm₀⟩ := hplace [] (f.faithful_nil _)
  have hindent : f.Answers (f.top id) none Aspect.indent.chain (f.sample (f.top id) .indent) :=
    f.answers (f.top id) trivial
  obtain ⟨hi, hmi⟩ := hindent _ hm'
  obtain ⟨hi₀, -⟩ := hindent _ hm₀
  unfold placed
  simp only [hv, hv₀]
  split
  · exact ⟨by rw [show [Aspect.indent] = Aspect.indent.chain from rfl, hi, hi₀], hmi⟩
  · exact ⟨rfl, hm'⟩

/-- **What is remembered changes nothing**: a node has the formatting that it has alone. -/
theorem raw_faithful {own : String} (hm : f.Faithful (f.top id) memo) (ha : a.AskedBy (some own)) :
    (f.raw memo id (some own) a).1 = f.resolve id own a ∧
      f.Faithful (f.top id) (f.raw memo id (some own) a).2 := by
  unfold resolve raw
  simp only [Option.bind_some]
  cases (f.raws id).get? own with
  | some v => exact ⟨rfl, hm⟩
  | none =>
    cases f.parent? id with
    | none => exact ⟨rfl, hm⟩
    | some p =>
      simp only
      split
      · exact ⟨rfl, hm⟩
      split
      · exact placed_faithful hm true
      split
      · exact placed_faithful hm false
      obtain ⟨hv, hm'⟩ := f.answers (f.top id) ha memo hm
      exact ⟨hv.trans (f.answers (f.top id) ha [] (f.faithful_nil _)).1.symm, hm'⟩

/-! ## Steps of the printer -/

/-- The step writes the fragments with any faithful memory, and keeps it faithful. -/
def Settles (f : Forest) (top : NodeId) (p : Printing) (fs : List Fragment) : Prop :=
  ∀ memo, f.Faithful top memo → (p memo).1 = fs ∧ f.Faithful top (p memo).2

theorem settles_emit (f : Forest) (top : NodeId) (fs : List Fragment) :
    f.Settles top (emit fs) fs :=
  fun _ hm => ⟨rfl, hm⟩

theorem Settles.append {p q : Printing} {fs gs : List Fragment} (hp : f.Settles top p fs)
    (hq : f.Settles top q gs) : f.Settles top (p ++ q) (fs ++ gs) := by
  intro memo hm
  obtain ⟨hfs, hm'⟩ := hp memo hm
  obtain ⟨hgs, hm''⟩ := hq _ hm'
  exact ⟨congrArg₂ (· ++ ·) hfs hgs, hm''⟩

/-- A step that depends on formatting depends on the one that `resolve` gives. -/
theorem settles_withRaw {own : String} {k : RawValue → Printing} {fs : List Fragment}
    (htop : f.top id = top) (ha : a.AskedBy (some own))
    (hk : f.Settles top (k (f.resolve id own a)) fs) :
    f.Settles top (f.withRaw id own a k) fs := by
  subst htop
  intro memo hm
  obtain ⟨hv, hm'⟩ := raw_faithful hm ha
  unfold withRaw
  simp only [hv]
  exact hk _ hm'

/-! ## The output -/

/-- What is printed of a node without a block, up to the semicolon. -/
def stem (f : Forest) (id : NodeId) : String :=
  match f.data id with
  | .declaration prop _ important =>
    prop ++ (f.resolve id "between" .colon).toText ++ f.valueText id "value" ++
      if important then (f.rawText? id "important").getD " !important" else ""
  | .comment text =>
    "/*" ++ (f.resolve id "left" .commentLeft).toText ++ text ++
      (f.resolve id "right" .commentRight).toText ++ "*/"
  | _ => f.atRuleHead id ++ (f.rawText? id "between").getD ""

/-- A block behind `head`, around `body`. -/
def renderBlock (f : Forest) (id : NodeId) (head : String) (isEmpty : Bool)
    (body : List Fragment) : List Fragment :=
  [⟨head ++ (f.resolve id "between" .beforeOpen).toText ++ "\x7b", some id, some .start⟩] ++
    (if isEmpty then [] else body) ++
    (between (f.resolve id "after" (if isEmpty then .emptyBody else .after)).toText ++
      [⟨"\x7d", some id, some .stop⟩])

/-- The fragments of a node around those of its children. -/
def renderNode (f : Forest) (id : NodeId) (semicolon isEmpty : Bool) (body : List Fragment) :
    List Fragment :=
  match f.data id with
  | .root => body ++ between ((f.rawText? id "after").getD "")
  | .rule _ =>
    let own := (f.rawText? id "ownSemicolon").getD ""
    f.renderBlock id (f.valueText id "selector") isEmpty body ++
      if own = "" then [] else [⟨own, some id, some .stop⟩]
  | .atRule _ _ =>
    if (f.node id).hasBlock then f.renderBlock id (f.atRuleHead id) isEmpty body
    else [⟨f.stem id ++ (if semicolon then ";" else ""), some id, none⟩]
  | .declaration _ _ _ => [⟨f.stem id ++ (if semicolon then ";" else ""), some id, none⟩]
  | .comment _ => [⟨f.stem id, some id, none⟩]

mutual

/-- The fragments of a tree; `semicolon` says whether a semicolon follows it. -/
def renderTree (f : Forest) (semicolon : Bool) : Tree NodeId → List Fragment
  | .leaf id => f.renderNode id semicolon true []
  | .block id ts =>
    f.renderNode id semicolon ts.isEmpty <|
      renderChildren f (lastIndex (ts.map fun t => f.kind t.label))
        (f.resolve id "semicolon" .semicolon).isTruthy 0 ts

/-- The fragments of children from an index on. -/
def renderChildren (f : Forest) (last : Nat) (semicolon : Bool) (index : Nat) :
    List (Tree NodeId) → List Fragment
  | [] => []
  | t :: ts =>
    between (f.resolve t.label "before" .before).toText ++
      renderTree f (index != last || semicolon) t ++ renderChildren f last semicolon (index + 1) ts

end

theorem settles_printBlock (htop : f.top id = top) (head : String) (isEmpty : Bool)
    {body : Printing} {fs : List Fragment} (hbody : f.Settles top body fs) :
    f.Settles top (f.printBlock id head isEmpty body) (f.renderBlock id head isEmpty fs) := by
  unfold printBlock renderBlock
  refine settles_withRaw htop (by trivial) ?_
  rw [List.append_assoc]
  refine (settles_emit f top _).append ?_
  have hclose (a : Aspect) (ha : a.AskedBy (some "after")) :
      f.Settles top (f.withRaw id "after" a fun after =>
        emit (between after.toText ++ [⟨"\x7d", some id, some .stop⟩]))
        (between (f.resolve id "after" a).toText ++ [⟨"\x7d", some id, some .stop⟩]) :=
    settles_withRaw htop ha (settles_emit f top _)
  cases isEmpty with
  | true => exact hclose .emptyBody trivial
  | false => exact hbody.append (hclose .after trivial)

theorem settles_printNode (htop : f.top id = top) (semicolon isEmpty : Bool) {body : Printing}
    {fs : List Fragment} (hbody : f.Settles top body fs) :
    f.Settles top (f.printNode id semicolon isEmpty body)
      (f.renderNode id semicolon isEmpty fs) := by
  unfold printNode renderNode
  cases hd : f.data id with
  | root => exact hbody.append (settles_emit f top _)
  | rule selector => exact (settles_printBlock htop _ _ hbody).append (settles_emit f top _)
  | atRule name params =>
    simp only
    split
    · exact settles_printBlock htop _ _ hbody
    · rw [show f.stem id = f.atRuleHead id ++ (f.rawText? id "between").getD "" by
        simp only [stem, hd]]
      exact settles_emit f top _
  | declaration prop value important =>
    refine settles_withRaw htop (by trivial) ?_
    simp only [stem, hd]
    exact settles_emit f top _
  | comment text =>
    refine settles_withRaw htop rfl (settles_withRaw htop rfl ?_)
    simp only [stem, hd]
    exact settles_emit f top _

mutual

theorem settles_printTree (f : Forest) (top : NodeId) (semicolon : Bool) : (t : Tree NodeId) →
    (∀ x ∈ t.preorder, f.top x = top) →
    f.Settles top (f.printTree semicolon t) (f.renderTree semicolon t)
  | .leaf id, htop => by
    have hid : f.top id = top := htop id (by simp [Tree.preorder])
    exact settles_printNode hid semicolon true
      (settles_withRaw hid (by trivial) (settles_emit f top _))
  | .block id ts, htop => by
    rw [Tree.preorder, List.forall_mem_cons] at htop
    exact settles_printNode htop.1 semicolon ts.isEmpty
      (settles_withRaw htop.1 (by trivial) (settles_printChildren f top _ _ 0 ts htop.2))

theorem settles_printChildren (f : Forest) (top : NodeId) (last : Nat) (semicolon : Bool)
    (index : Nat) : (ts : List (Tree NodeId)) → (∀ x ∈ Tree.preorderAll ts, f.top x = top) →
    f.Settles top (f.printChildren last semicolon index ts)
      (f.renderChildren last semicolon index ts)
  | [], _ => settles_emit f top []
  | t :: ts, htop => by
    rw [Tree.preorderAll, List.forall_mem_append] at htop
    have hlabel : f.top t.label = top := by
      refine htop.1 _ ?_
      rw [Tree.preorder_eq]
      exact .head _
    exact ((settles_withRaw hlabel (by trivial) (settles_emit f top _)).append
      (settles_printTree f top _ t htop.1)).append
      (settles_printChildren f top last semicolon (index + 1) ts htop.2)

end

/-- All nodes below a node have its top. -/
theorem WellFormed.top_eq_of_reach (h : f.WellFormed) {r x : NodeId}
    (hx : ReflTransGen f.Child r x) : f.top x = f.top r := by
  induction hx with
  | refl => rfl
  | tail _ hc ih => rw [h.top_of_parent ((h.parent _ _).1 hc), ih]

/-- **The output without a memory.** -/
theorem WellFormed.print_eq_render (h : f.WellFormed) {r : NodeId} (hr : r < f.size) :
    f.print r = f.renderTree false (f.outline r) := by
  refine (settles_printTree f (f.top r) false (f.outline r) ?_ [] (f.faithful_nil _)).1
  intro x hx
  rw [mem_preorder_iff (h.shows_outline hr), label_outline] at hx
  exact h.top_eq_of_reach hx

end Forest

end Stylesheet
