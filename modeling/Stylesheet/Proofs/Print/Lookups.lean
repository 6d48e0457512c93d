import Stylesheet.Proofs.Forest.Edits
import Stylesheet.Proofs.Print.Resolved

/-!
# The look-ups of a printer's pass

A `Script` is a pass of the printer laid open: what is written, and which formatting is asked for,
with all that follows as a function of the answer. `Script.run` carries it out with a memory, as the
printer does (`follows_scriptTree`), and keeps a record of the look-ups; `Script.alone` answers each
of them with nothing remembered. What is written is cut into stretches, so that it can be seen which
text stands there for which slot of which node.

`lookups_alone`: every look-up of a pass is answered as it is alone, whatever was printed before.
-/

set_option autoImplicit false

namespace Stylesheet

/-! ## What is written -/

/-- A stretch of the output: the formatting in a slot of a node, or a text of another kind. -/
structure Stretch where
  text : String
  slot : Option (NodeId × String)
deriving DecidableEq, Repr

namespace Stretch

/-- A text that is no formatting that was asked for. -/
def word (text : String) : Stretch := ⟨text, none⟩

/-- The formatting in a slot. -/
def formatting (id : NodeId) (slot : String) (v : RawValue) : Stretch :=
  ⟨v.toText, some (id, slot)⟩

end Stretch

/-- A fragment in its stretches. -/
structure Strip where
  stretches : List Stretch
  node : Option NodeId
  role : Option FragmentRole
deriving DecidableEq, Repr

namespace Strip

/-- The fragment as a whole. -/
def fragment (x : Strip) : Fragment :=
  ⟨String.join (x.stretches.map Stretch.text), x.node, x.role⟩

/-- Formatting between nodes; an empty one is no fragment. -/
def between (id : NodeId) (slot : String) (v : RawValue) : List Strip :=
  if v.toText = "" then [] else [⟨[.formatting id slot v], none, none⟩]

/-- A text that belongs to a node. -/
def own (id : NodeId) (role : Option FragmentRole) (text : String) : Strip :=
  ⟨[.word text], some id, role⟩

@[simp] theorem fragment_own (id : NodeId) (role : Option FragmentRole) (text : String) :
    (own id role text).fragment = ⟨text, some id, role⟩ := by
  simp [own, fragment, Stretch.word]

@[simp] theorem map_fragment_between (id : NodeId) (slot : String) (v : RawValue) :
    (between id slot v).map fragment = Fragment.between v.toText := by
  by_cases h : v.toText = "" <;> simp [between, Fragment.between, h, fragment, Stretch.formatting]

end Strip

/-! ## Scripts -/

/-- A pass of the printer: what it writes, and what it asks for. -/
inductive Script where
  | done
  | write (xs : List Strip) (rest : Script)
  | ask (id : NodeId) (slot : String) (aspect : Aspect) (next : RawValue → Script)

/-- A look-up: the node and the slot that it is for, what is remembered at that time, and the answer
that the printer goes on with. -/
structure Lookup where
  node : NodeId
  slot : String
  aspect : Aspect
  memo : Memo
  value : RawValue

/-- The look-up does not depend on those before it: it has the answer that it has alone, and all that
is remembered then would be found again. -/
def Lookup.Alone (f : Forest) (top : NodeId) (l : Lookup) : Prop :=
  l.value = f.resolve l.node l.slot l.aspect ∧ f.Faithful top l.memo

/-- What a pass writes, its look-ups in order, and what it remembers at the end. -/
structure PrintPass where
  output : List Strip
  lookups : List Lookup
  memo : Memo

namespace Script

variable {f : Forest} {s t : Script} {top : NodeId} {memo : Memo}

/-- One script behind the other. -/
def append : Script → Script → Script
  | done, t => t
  | write xs rest, t => write xs (append rest t)
  | ask id slot aspect next, t => ask id slot aspect fun v => append (next v) t

instance : Append Script := ⟨append⟩

/-- Carries a script out as the printer does. -/
def run (f : Forest) : Script → Memo → PrintPass
  | done, memo => ⟨[], [], memo⟩
  | write xs rest, memo =>
    let pass := run f rest memo
    { pass with output := xs ++ pass.output }
  | ask id slot aspect next, memo =>
    let answer := f.raw memo id (some slot) aspect
    let pass := run f (next answer.1) answer.2
    { pass with lookups := ⟨id, slot, aspect, memo, answer.1⟩ :: pass.lookups }

/-- What is written where every look-up is made with nothing remembered. -/
def alone (f : Forest) : Script → List Strip
  | done => []
  | write xs rest => xs ++ alone f rest
  | ask id slot aspect next => alone f (next (f.resolve id slot aspect))

theorem run_append (s t : Script) (memo : Memo) : (s ++ t).run f memo =
    ⟨(s.run f memo).output ++ (t.run f (s.run f memo).memo).output,
      (s.run f memo).lookups ++ (t.run f (s.run f memo).memo).lookups,
      (t.run f (s.run f memo).memo).memo⟩ := by
  change (append s t).run f memo = _
  induction s generalizing memo with
  | done => rfl
  | write xs rest ih => simp only [append, run, ih, List.append_assoc]
  | ask id slot aspect next ih => simp only [append, run, ih, List.cons_append]

theorem alone_append (f : Forest) (s t : Script) :
    (s ++ t).alone f = s.alone f ++ t.alone f := by
  change (append s t).alone f = _
  induction s with
  | done => rfl
  | write xs rest ih => simp only [append, alone, ih, List.append_assoc]
  | ask id slot aspect next ih => simp only [append, alone, ih]

/-! ## Each look-up alone -/

/-- The script asks only for nodes with a given top, and for each aspect by its slot. -/
def Asks (f : Forest) (top : NodeId) : Script → Prop
  | done => True
  | write _ rest => Asks f top rest
  | ask id slot aspect next =>
    f.top id = top ∧ aspect.AskedBy (some slot) ∧ ∀ v, Asks f top (next v)

theorem Asks.append (hs : s.Asks f top) (ht : t.Asks f top) : (s ++ t).Asks f top := by
  change (Script.append s t).Asks f top
  induction s with
  | done => exact ht
  | write xs rest ih => exact ih hs
  | ask id slot aspect next ih => exact ⟨hs.1, hs.2.1, fun v => ih v (hs.2.2 v)⟩

/-- **Remembering changes no look-up**, and so not what is written. -/
theorem Asks.run (hs : s.Asks f top) (hm : f.Faithful top memo) :
    (∀ l ∈ (s.run f memo).lookups, l.Alone f top) ∧ (s.run f memo).output = s.alone f ∧
      f.Faithful top (s.run f memo).memo := by
  induction s generalizing memo with
  | done => exact ⟨by simp [Script.run], rfl, hm⟩
  | write xs rest ih =>
    obtain ⟨hlookups, houtput, hmemo⟩ := ih hs hm
    exact ⟨hlookups, congrArg (xs ++ ·) houtput, hmemo⟩
  | ask id slot aspect next ih =>
    obtain ⟨rfl, hasked, hnext⟩ := hs
    obtain ⟨hvalue, hleft⟩ := Forest.raw_faithful hm hasked
    obtain ⟨hlookups, houtput, hmemo⟩ := ih _ (hnext _) hleft
    refine ⟨?_, ?_, hmemo⟩
    · exact List.forall_mem_cons.2 ⟨⟨hvalue, hm⟩, hlookups⟩
    · rw [alone, ← hvalue]
      exact houtput

/-! ## Scripts of the printer -/

/-- The script does what a step of the printer does. -/
def Follows (f : Forest) (s : Script) (p : Printing) : Prop :=
  ∀ memo, p memo = ((s.run f memo).output.map Strip.fragment, (s.run f memo).memo)

theorem follows_write (f : Forest) (xs : List Strip) {fs : List Fragment}
    (h : xs.map Strip.fragment = fs) : Follows f (write xs done) (Printing.emit fs) := by
  intro memo
  simp [Script.run, Printing.emit, h]

theorem follows_ask {id : NodeId} {slot : String} {aspect : Aspect} {next : RawValue → Script}
    {k : RawValue → Printing} (h : ∀ v, (next v).Follows f (k v)) :
    (ask id slot aspect next).Follows f (f.withRaw id slot aspect k) :=
  fun _ => h _ _

theorem Follows.append {p q : Printing} (hs : s.Follows f p) (ht : t.Follows f q) :
    (s ++ t).Follows f (p ++ q) := by
  intro memo
  change Printing.append p q memo = _
  simp only [Printing.append, run_append, hs memo, ht _, List.map_append]

end Script

namespace Forest

open Script Printing

variable {f : Forest} {id top r : NodeId} {body : Script} {inner : Printing}

/-- A declaration. -/
def scriptDeclaration (f : Forest) (id : NodeId) (semicolon : Bool) : Script :=
  let d := f.data id
  let mark := if d.important then (f.rawText? id "important").getD " !important" else ""
  .ask id "between" .colon fun between =>
    .write [⟨[.word d.prop, .formatting id "between" between,
      .word (f.valueText id "value" ++ mark ++ if semicolon then ";" else "")], some id, none⟩]
      .done

/-- A comment. -/
def scriptComment (f : Forest) (id : NodeId) : Script :=
  .ask id "left" .commentLeft fun left =>
    .ask id "right" .commentRight fun right =>
      .write [⟨[.word "/*", .formatting id "left" left, .word (f.data id).text,
        .formatting id "right" right, .word "*/"], some id, none⟩] .done

/-- The end of a block. -/
def scriptEnd (id : NodeId) (aspect : Aspect) : Script :=
  .ask id "after" aspect fun after =>
    .write (Strip.between id "after" after ++ [.own id (some .stop) "\x7d"]) .done

/-- A block behind `head`. -/
def scriptBlock (id : NodeId) (head : String) (isEmpty : Bool) (body : Script) : Script :=
  .ask id "between" .beforeOpen fun between =>
    .write [⟨[.word head, .formatting id "between" between, .word "\x7b"], some id, some .start⟩]
      (if isEmpty then scriptEnd id .emptyBody else body ++ scriptEnd id .after)

/-- A node around what `body` does for its children. -/
def scriptNode (f : Forest) (id : NodeId) (semicolon isEmpty : Bool) (body : Script) : Script :=
  match f.data id with
  | .root =>
    let after := (f.rawText? id "after").getD ""
    body ++ .write (if after = "" then [] else [⟨[.word after], none, none⟩]) .done
  | .rule _ =>
    let own := (f.rawText? id "ownSemicolon").getD ""
    scriptBlock id (f.valueText id "selector") isEmpty body ++
      .write (if own = "" then [] else [.own id (some .stop) own]) .done
  | .atRule _ _ =>
    if (f.node id).hasBlock then scriptBlock id (f.atRuleHead id) isEmpty body
    else
      let between := (f.rawText? id "between").getD ""
      .write [⟨[.word (f.atRuleHead id), .formatting id "between" (.text between),
        .word (if semicolon then ";" else "")], some id, none⟩] .done
  | .declaration _ _ _ => f.scriptDeclaration id semicolon
  | .comment _ => f.scriptComment id

mutual

/-- The pass over a tree. -/
def scriptTree (f : Forest) (semicolon : Bool) : Tree NodeId → Script
  | .leaf id =>
    f.scriptNode id semicolon true (.ask id "semicolon" .semicolon fun _ => .write [] .done)
  | .block id ts =>
    f.scriptNode id semicolon ts.isEmpty <|
      .ask id "semicolon" .semicolon fun v =>
        scriptChildren f (lastIndex (ts.map fun t => f.kind t.label)) v.isTruthy 0 ts

/-- The pass over children from an index on. -/
def scriptChildren (f : Forest) (last : Nat) (semicolon : Bool) (index : Nat) :
    List (Tree NodeId) → Script
  | [] => .write [] .done
  | t :: ts =>
    (.ask t.label "before" .before fun before =>
        .write (Strip.between t.label "before" before) .done) ++
      scriptTree f (index != last || semicolon) t ++
      scriptChildren f last semicolon (index + 1) ts

end

/-- The pass over a node and all nodes below it. -/
def script (f : Forest) (id : NodeId) : Script := f.scriptTree false (f.outline id)

/-! ### They do what the printer does -/

theorem follows_scriptDeclaration (f : Forest) (id : NodeId) (semicolon : Bool) :
    (f.scriptDeclaration id semicolon).Follows f (f.printDeclaration id semicolon) := by
  apply follows_ask
  intro between
  apply follows_write
  simp [Strip.fragment, Stretch.word, Stretch.formatting, String.append_assoc]

theorem follows_scriptComment (f : Forest) (id : NodeId) :
    (f.scriptComment id).Follows f (f.printComment id) := by
  apply follows_ask
  intro left
  apply follows_ask
  intro right
  apply follows_write
  simp [Strip.fragment, Stretch.word, Stretch.formatting, String.append_assoc]

theorem follows_scriptEnd (f : Forest) (id : NodeId) (aspect : Aspect) :
    (scriptEnd id aspect).Follows f (f.withRaw id "after" aspect fun after =>
      emit (Fragment.between after.toText ++ [⟨"\x7d", some id, some .stop⟩])) := by
  apply follows_ask
  intro after
  apply follows_write
  simp

theorem follows_scriptBlock (head : String) (isEmpty : Bool) (h : body.Follows f inner) :
    (scriptBlock id head isEmpty body).Follows f (f.printBlock id head isEmpty inner) := by
  unfold scriptBlock printBlock
  apply follows_ask
  intro between
  have hopen : (write [⟨[.word head, .formatting id "between" between, .word "\x7b"], some id,
      some .start⟩] done).Follows f (emit [⟨head ++ between.toText ++ "\x7b", some id,
        some .start⟩]) := by
    apply follows_write
    simp [Strip.fragment, Stretch.word, Stretch.formatting, String.append_assoc]
  cases isEmpty with
  | true => exact hopen.append (f.follows_scriptEnd id .emptyBody)
  | false => exact hopen.append (h.append (f.follows_scriptEnd id .after))

theorem follows_scriptNode (semicolon isEmpty : Bool) (h : body.Follows f inner) :
    (f.scriptNode id semicolon isEmpty body).Follows f
      (f.printNode id semicolon isEmpty inner) := by
  unfold scriptNode printNode
  cases hd : f.data id with
  | root =>
    apply h.append
    apply follows_write
    unfold Fragment.between
    split <;> simp [Strip.fragment, Stretch.word]
  | rule selector =>
    apply (follows_scriptBlock _ isEmpty h).append
    apply follows_write
    split <;> simp
  | atRule name params =>
    simp only
    split
    · exact follows_scriptBlock _ isEmpty h
    · apply follows_write
      simp [Strip.fragment, Stretch.word, Stretch.formatting, RawValue.toText, String.append_assoc]
  | declaration prop value important => exact f.follows_scriptDeclaration id semicolon
  | comment text => exact f.follows_scriptComment id

mutual

/-- **The script of a tree does what the printer does**, with any memory. -/
theorem follows_scriptTree (f : Forest) (semicolon : Bool) : (t : Tree NodeId) →
    (f.scriptTree semicolon t).Follows f (f.printTree semicolon t)
  | .leaf id => by
    apply follows_scriptNode
    apply follows_ask
    intro v
    exact follows_write f [] rfl
  | .block id ts => by
    apply follows_scriptNode
    apply follows_ask
    intro v
    exact follows_scriptChildren f _ _ 0 ts

theorem follows_scriptChildren (f : Forest) (last : Nat) (semicolon : Bool) (index : Nat) :
    (ts : List (Tree NodeId)) → (f.scriptChildren last semicolon index ts).Follows f
      (f.printChildren last semicolon index ts)
  | [] => follows_write f [] rfl
  | t :: ts => by
    refine .append (.append ?_ (follows_scriptTree f _ t))
      (follows_scriptChildren f last semicolon (index + 1) ts)
    apply follows_ask
    intro before
    apply follows_write
    simp

end

/-! ### What they ask for -/

theorem asks_scriptEnd (htop : f.top id = top) {aspect : Aspect}
    (ha : aspect.AskedBy (some "after")) : (scriptEnd id aspect).Asks f top :=
  ⟨htop, ha, fun _ => trivial⟩

theorem asks_scriptBlock (htop : f.top id = top) (head : String) (isEmpty : Bool)
    (h : body.Asks f top) : (scriptBlock id head isEmpty body).Asks f top := by
  refine ⟨htop, trivial, fun between => ?_⟩
  cases isEmpty with
  | true => exact asks_scriptEnd htop trivial
  | false => exact h.append (asks_scriptEnd htop trivial)

theorem asks_scriptNode (htop : f.top id = top) (semicolon isEmpty : Bool)
    (h : body.Asks f top) : (f.scriptNode id semicolon isEmpty body).Asks f top := by
  unfold scriptNode
  cases f.data id with
  | root => exact h.append trivial
  | rule selector => exact (asks_scriptBlock htop _ isEmpty h).append trivial
  | atRule name params =>
    simp only
    split
    · exact asks_scriptBlock htop _ isEmpty h
    · trivial
  | declaration prop value important => exact ⟨htop, trivial, fun _ => trivial⟩
  | comment text => exact ⟨htop, rfl, fun _ => ⟨htop, rfl, fun _ => trivial⟩⟩

mutual

theorem asks_scriptTree (f : Forest) (top : NodeId) (semicolon : Bool) : (t : Tree NodeId) →
    (∀ x ∈ t.preorder, f.top x = top) → (f.scriptTree semicolon t).Asks f top
  | .leaf id, htop => by
    have hid : f.top id = top := htop id (by simp [Tree.preorder])
    exact asks_scriptNode hid semicolon true ⟨hid, trivial, fun _ => trivial⟩
  | .block id ts, htop => by
    rw [Tree.preorder, List.forall_mem_cons] at htop
    exact asks_scriptNode htop.1 semicolon ts.isEmpty
      ⟨htop.1, trivial, fun _ => asks_scriptChildren f top _ _ 0 ts htop.2⟩

theorem asks_scriptChildren (f : Forest) (top : NodeId) (last : Nat) (semicolon : Bool)
    (index : Nat) : (ts : List (Tree NodeId)) → (∀ x ∈ Tree.preorderAll ts, f.top x = top) →
    (f.scriptChildren last semicolon index ts).Asks f top
  | [], _ => trivial
  | t :: ts, htop => by
    rw [Tree.preorderAll, List.forall_mem_append] at htop
    have hlabel : f.top t.label = top := by
      apply htop.1
      rw [Tree.preorder_eq]
      exact .head _
    have hbefore : (Script.ask t.label "before" .before fun before =>
        .write (Strip.between t.label "before" before) .done).Asks f top :=
      ⟨hlabel, trivial, fun _ => trivial⟩
    exact (hbefore.append (asks_scriptTree f top _ t htop.1)).append
      (asks_scriptChildren f top last semicolon (index + 1) ts htop.2)

end

theorem WellFormed.asks_script (h : f.WellFormed) (hr : r < f.size) :
    (f.script r).Asks f (f.top r) := by
  apply asks_scriptTree
  intro x hx
  rw [mem_preorder_iff (h.shows_outline hr), label_outline] at hx
  exact h.top_eq_of_reach hx

/-! ## Passes behind each other -/

/-- What is remembered behind passes over several nodes. -/
def memoAfter (f : Forest) : List NodeId → Memo → Memo
  | [], memo => memo
  | q :: qs, memo => memoAfter f qs (f.printTree false (f.outline q) memo).2

theorem WellFormed.faithful_memoAfter (h : f.WellFormed) {qs : List NodeId} {memo : Memo}
    (hqs : ∀ q ∈ qs, q < f.size ∧ f.top q = top) (hm : f.Faithful top memo) :
    f.Faithful top (f.memoAfter qs memo) := by
  induction qs generalizing memo with
  | nil => exact hm
  | cons q qs ih =>
    obtain ⟨⟨hq, rfl⟩, hqs⟩ := List.forall_mem_cons.1 hqs
    apply ih hqs
    rw [f.follows_scriptTree false (f.outline q) memo]
    exact ((h.asks_script hq).run hm).2.2

/-- **Every look-up of a pass is answered as it is alone.** A pass over a node writes what it writes
with nothing remembered, whatever other nodes of the tree were printed before, and what is remembered
at any time is what would be found again. -/
theorem WellFormed.lookups_alone (h : f.WellFormed) (hr : r < f.size) {qs : List NodeId}
    (hqs : ∀ q ∈ qs, q < f.size ∧ f.top q = f.top r) :
    let pass := (f.script r).run f (f.memoAfter qs [])
    f.printTree false (f.outline r) (f.memoAfter qs []) =
        (pass.output.map Strip.fragment, pass.memo) ∧
      (∀ l ∈ pass.lookups, l.Alone f (f.top r)) ∧
      pass.output = (f.script r).alone f ∧ pass.output.map Strip.fragment = f.print r := by
  intro pass
  have hmemo := h.faithful_memoAfter hqs (f.faithful_nil (f.top r))
  obtain ⟨hlookups, houtput, -⟩ := (h.asks_script hr).run hmemo
  refine ⟨f.follows_scriptTree false (f.outline r) _, hlookups, houtput, ?_⟩
  -- from an empty memory the same is written
  have hempty := ((h.asks_script hr).run (f.faithful_nil (f.top r))).2.1
  have hprint : f.print r = _ :=
    congrArg Prod.fst (f.follows_scriptTree false (f.outline r) [])
  rw [hprint, show pass.output = _ from houtput.trans hempty.symm]
  rfl

/-- Two declarations and a comment by example of what was read; the pass over their rule comes after
passes over a declaration of another rule and over the root. -/
theorem lookups_alone_sampled :
    let es := [.read .empty "a \x7b\n b : c\n\x7d e\x7b\x7d" none .auto,
      .new (.declaration "p" "v" false), .new (.comment "t"), .new (.declaration "q" "w" false),
      .insert 3 .stop [4, 5, 6]]
    ∃ f ∈ Edit.trail .empty es,
      Fragment.concat (f.print 3) = "e\x7b\n p : v;\n /* t */\n q : w\x7d" ∧
      let pass := (f.script 3).run f (f.memoAfter [2, 0] [])
      pass.output.map Strip.fragment = f.print 3 ∧
        ∃ l ∈ pass.lookups, l.node = 6 ∧ l.slot = "before" ∧ l.memo ≠ [] ∧
          l.value = f.resolve 6 "before" .before := by
  intro es
  obtain ⟨f, hmem, hf, hsize, htop, htop', hcss, hlookup⟩ := Edit.exists_last es
    (fun f => 3 < f.size ∧ f.top 2 = f.top 3 ∧ f.top 0 = f.top 3 ∧
      Fragment.concat (f.print 3) = "e\x7b\n p : v;\n /* t */\n q : w\x7d" ∧
      ((f.script 3).run f (f.memoAfter [2, 0] [])).lookups.any (fun l =>
        l.node = 6 ∧ l.slot = "before" ∧ l.aspect = .before ∧ l.memo ≠ []) = true)
    (by decide +kernel) (by decide +kernel) (by decide +kernel)
  have hqs : ∀ q ∈ [2, 0], q < f.size ∧ f.top q = f.top 3 := by
    rintro q hq
    rcases List.mem_cons.1 hq with rfl | hq
    · exact ⟨by omega, htop⟩
    · obtain rfl := List.mem_singleton.1 hq
      exact ⟨by omega, htop'⟩
  obtain ⟨-, hlookups, -, houtput⟩ := hf.lookups_alone hsize hqs
  obtain ⟨l, hl, hask⟩ := List.any_eq_true.1 hlookup
  obtain ⟨hnode, hslot, haspect, hmemo⟩ := of_decide_eq_true hask
  have halone := (hlookups l hl).1
  rw [hnode, hslot, haspect] at halone
  exact ⟨f, hmem, hcss, houtput, l, hl, hnode, hslot, hmemo, halone⟩

end Forest

end Stylesheet
