import Stylesheet.Forest.Basic

/-!
# Walking trees

`openCursor`, `nextChild` and `closeCursor` step through the children of a node while they may be
edited. `each` visits the children of a node, `walk` all nodes below it, each before those below,
and `walkOnly` those of a `Selection`. The visitor edits the forest and a state of its own, and
says whether to go on.

A visitor that keeps inserting nodes keeps a walk going, so the steps are bounded by `fuel`; a walk
that runs out of it says so.
-/

set_option autoImplicit false

namespace Stylesheet

namespace Forest

/-! ## Cursors -/

/-- Opens a cursor over the children of a node. -/
def openCursor (f : Forest) (parent : NodeId) (mode : CursorMode) : Nat × Forest :=
  let (id, cursors) := (f.node parent).cursors.open mode
  (id, f.modify parent fun n => { n with cursors })

/-- The next child that a cursor hands out, with its index. -/
def nextChild (f : Forest) (parent : NodeId) (cursor : Nat) : Option (NodeId × Nat) × Forest :=
  match (f.node parent).cursors.get? cursor with
  | none => (none, f)
  | some c =>
    let (found, c) := c.advance ((f.children parent).drop c.next)
    (found, f.modify parent fun n => { n with cursors := n.cursors.put cursor c })

/-- Closes a cursor. -/
def closeCursor (f : Forest) (parent : NodeId) (cursor : Nat) : Forest :=
  f.modify parent fun n => { n with cursors := n.cursors.close cursor }

end Forest

/-- Which nodes a walk is about. -/
inductive Selection where
  | all
  | declarations
  /-- The declarations of a property. -/
  | declarationsOf (prop : String)
  | rules
  | atRules
  /-- The at-rules with a name. -/
  | atRulesNamed (name : String)
  | comments
deriving DecidableEq, Repr, Inhabited

/-- Whether a node belongs to a selection. -/
def Selection.accepts : Selection → NodeData → Bool
  | all, _ => true
  | declarations, d => d.kind = .declaration
  | declarationsOf prop, d => d.kind = .declaration && d.prop = prop
  | rules, d => d.kind = .rule
  | atRules, d => d.kind = .atRule
  | atRulesNamed name, d => d.kind = .atRule && d.name = name
  | comments, d => d.kind = .comment

/-- How a walk ends: at the end, because the visitor stopped it, or because the fuel ran out. -/
inductive WalkEnd where
  | completed
  | stopped
  | outOfFuel
deriving DecidableEq, Repr, Inhabited

/-- A visitor of nodes: it is told the node and its index, edits the forest and its own state, and
says whether to go on. -/
abbrev Visitor (σ : Type) := Forest → σ → NodeId → Nat → Bool × Forest × σ

namespace Forest

variable {σ : Type}

/-- Visits the children that a cursor still hands out. -/
def eachFrom (visit : Visitor σ) (parent : NodeId) (cursor : Nat) :
    (fuel : Nat) → Forest → σ → WalkEnd × Forest × σ
  | 0, f, s => (.outOfFuel, f, s)
  | fuel + 1, f, s =>
    match f.nextChild parent cursor with
    | (none, f) => (.completed, f, s)
    | (some (child, index), f) =>
      match visit f s child index with
      | (false, f, s) => (.stopped, f, s)
      | (true, f, s) => eachFrom visit parent cursor fuel f s

/-- Visits the children of a node in order. Children that are inserted before the one at hand are
not visited, children inserted behind it are. -/
def each (visit : Visitor σ) (parent : NodeId) (fuel : Nat) (f : Forest) (s : σ) :
    WalkEnd × Forest × σ :=
  if !(f.node parent).hasBlock then (.completed, f, s)
  else
    let (cursor, f) := f.openCursor parent .sequential
    let (e, f, s) := eachFrom visit parent cursor fuel f s
    (e, f.closeCursor parent cursor, s)

mutual

/-- Visits the children that a cursor still hands out, and all nodes below them. -/
def walkFrom (visit : Visitor σ) (parent : NodeId) (cursor : Nat) (fuel : Nat) (f : Forest)
    (s : σ) : WalkEnd × Forest × σ :=
  match fuel with
  | 0 => (.outOfFuel, f, s)
  | fuel + 1 =>
    match f.nextChild parent cursor with
    | (none, f) => (.completed, f, s)
    | (some (child, index), f) =>
      match visit f s child index with
      | (false, f, s) => (.stopped, f, s)
      | (true, f, s) =>
        match walk visit child fuel f s with
        | (.completed, f, s) => walkFrom visit parent cursor fuel f s
        | ended => ended

/-- Visits all nodes below a node, each before those below it. -/
def walk (visit : Visitor σ) (parent : NodeId) (fuel : Nat) (f : Forest) (s : σ) :
    WalkEnd × Forest × σ :=
  match fuel with
  | 0 => (.outOfFuel, f, s)
  | fuel + 1 =>
    if !(f.node parent).hasBlock then (.completed, f, s)
    else
      let (cursor, f) := f.openCursor parent .sequential
      let (e, f, s) := walkFrom visit parent cursor fuel f s
      (e, f.closeCursor parent cursor, s)

end

/-- The visitor that sees only the nodes of a selection, as they are when they are reached. -/
def visitOnly (selection : Selection) (visit : Visitor σ) : Visitor σ := fun f s id index =>
  if selection.accepts (f.data id) then visit f s id index else (true, f, s)

/-- Visits the nodes of a selection among all nodes below a node. -/
def walkOnly (selection : Selection) (visit : Visitor σ) (parent : NodeId) (fuel : Nat)
    (f : Forest) (s : σ) : WalkEnd × Forest × σ :=
  f.walk (visitOnly selection visit) parent fuel s

end Forest

end Stylesheet
