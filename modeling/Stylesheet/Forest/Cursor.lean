/-!
# Cursors over a list of children

A cursor hands out the children of a node one after the other while the list is being edited. It
keeps the index of the child to look at next; every edit of the list moves it along. A cursor in
mode `traversal` also keeps the nodes that it has handed out: a node that is inserted at or before
it is handed out again, the others are passed over.
-/

set_option autoImplicit false

namespace Stylesheet

/-- The number of a node in a forest. -/
abbrev NodeId := Nat

/-- How a cursor reacts to nodes inserted at or before the child handed out last. -/
inductive CursorMode where
  /-- The cursor goes back to the inserted nodes and passes over the nodes that it has handed out
  since they were last inserted. -/
  | traversal
  /-- The cursor moves along with the child handed out last. -/
  | sequential
deriving DecidableEq, Repr, Inhabited

/-- A place in a list of children. -/
structure Cursor where
  mode : CursorMode
  /-- The index to look at next; the child handed out last stands before it. -/
  next : Nat
  /-- The nodes handed out and not inserted since; only kept in mode `traversal`. -/
  visited : List NodeId
deriving DecidableEq, Repr, Inhabited

namespace Cursor

/-- A cursor before the first child. -/
def start (mode : CursorMode) : Cursor := ⟨mode, 0, []⟩

/-- The cursor after `added` was inserted at `index`. -/
def inserted (c : Cursor) (index : Nat) (added : List NodeId) : Cursor :=
  match c.mode with
  | .traversal =>
    { c with
      visited := c.visited.filter (!added.contains ·)
      next := if index < c.next then index else c.next }
  | .sequential => if index < c.next then { c with next := c.next + added.length } else c

/-- The cursor after the child at `index` was removed. -/
def removed (c : Cursor) (index : Nat) : Cursor :=
  if index < c.next then { c with next := c.next - 1 } else c

/-- The cursor after all children were removed. -/
def cleared (c : Cursor) : Cursor := { c with next := 0 }

/-- Whether the cursor passes over a child. -/
def skips (c : Cursor) (child : NodeId) : Bool :=
  c.mode = .traversal && c.visited.contains child

/-- The child to hand out among `ahead`, the children from index `c.next` on, with its index. The
cursor moves on behind it, and one step beyond the end when there is none. -/
def advance (c : Cursor) : List NodeId → Option (NodeId × Nat) × Cursor
  | [] => (none, { c with next := c.next + 1 })
  | child :: ahead =>
    if c.skips child then advance { c with next := c.next + 1 } ahead
    else
      let visited := if c.mode = .traversal then child :: c.visited else c.visited
      (some (child, c.next), { c with next := c.next + 1, visited })

end Cursor

/-- The cursors over one list of children, by their numbers. -/
structure Cursors where
  /-- The number given out last. -/
  lastId : Nat
  active : List (Nat × Cursor)
deriving DecidableEq, Repr, Inhabited

namespace Cursors

/-- No cursors. -/
def empty : Cursors := ⟨0, []⟩

/-- Opens a cursor under a new number. -/
def «open» (cs : Cursors) (mode : CursorMode) : Nat × Cursors :=
  let id := cs.lastId + 1
  (id, ⟨id, cs.active ++ [(id, Cursor.start mode)]⟩)

/-- Applies `g` to every cursor. -/
def mapCursors (cs : Cursors) (g : Cursor → Cursor) : Cursors :=
  { cs with active := cs.active.map fun (id, c) => (id, g c) }

/-- The cursor with a given number. -/
def get? (cs : Cursors) (id : Nat) : Option Cursor := cs.active.lookup id

/-- Puts a cursor in the place of the one with its number. -/
def put (cs : Cursors) (id : Nat) (c : Cursor) : Cursors :=
  { cs with active := cs.active.map fun (i, c') => (i, if i = id then c else c') }

/-- Closes a cursor. -/
def close (cs : Cursors) (id : Nat) : Cursors :=
  { cs with active := cs.active.filter (·.1 ≠ id) }

end Cursors

end Stylesheet
