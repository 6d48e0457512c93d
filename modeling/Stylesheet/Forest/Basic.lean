import Stylesheet.Forest.Cursor
import Stylesheet.Input
import Stylesheet.Node
import Stylesheet.Tree

/-!
# Forests

A `Forest` holds all nodes of all trees under numbers, so that a node can be reached, moved and
edited from anywhere. A node knows its parent and, if it owns a list of children, their numbers.
The inputs that nodes were read from are numbered as well.

`outline` unrolls the children of a node into a `Tree` of numbers, and `ancestors` follows the
parents. Both stop after as many steps as there are nodes, which is no limit where no node stands
below itself.
-/

set_option autoImplicit false

namespace Stylesheet

/-- A node with its links. -/
structure Node extends Element where
  parent : Option NodeId
  /-- `none` for a leaf and for an at-rule without a block. -/
  children : Option (List NodeId)
  cursors : Cursors
deriving Repr

namespace Node

/-- A node by itself. -/
def ofElement (e : Element) (block : Bool) : Node :=
  { e with parent := none, children := if block then some [] else none, cursors := .empty }

instance : Inhabited Node := ⟨ofElement ⟨.comment "", .unknown, Raws.empty⟩ false⟩

/-- A new node. -/
def new (data : NodeData) : Node :=
  ofElement ⟨data, .unknown, Raws.empty⟩ data.kind.startsWithBlock

/-- The kind of a node. -/
def kind (n : Node) : NodeKind := n.data.kind

/-- The children of a node, none for one without a list of children. -/
def nodes (n : Node) : List NodeId := n.children.getD []

/-- Whether the node owns a list of children, even an empty one. -/
def hasBlock (n : Node) : Bool := n.children.isSome

end Node

/-- The nodes of all trees, and the inputs they were read from. -/
structure Forest where
  all : Array Node
  inputs : Array Input
deriving Repr

namespace Forest

/-- Nothing at all. -/
def empty : Forest := ⟨#[], #[]⟩

instance : Inhabited Forest := ⟨empty⟩

/-! ## Nodes -/

/-- The number of nodes. -/
def size (f : Forest) : Nat := f.all.size

/-- The node with a given number. -/
def node (f : Forest) (id : NodeId) : Node := f.all.getD id default

/-- Applies `g` to a node. -/
def modify (f : Forest) (id : NodeId) (g : Node → Node) : Forest :=
  { f with all := f.all.modify id g }

/-- Adds a node under the next number. -/
def add (f : Forest) (n : Node) : NodeId × Forest := (f.all.size, { f with all := f.all.push n })

/-- Adds an input under the next number. -/
def addInput (f : Forest) (i : Input) : InputId × Forest :=
  (f.inputs.size, { f with inputs := f.inputs.push i })

/-- The input with a given number. -/
def input? (f : Forest) (id : InputId) : Option Input := f.inputs[id]?

theorem node_modify_self {f : Forest} {id : NodeId} (g : Node → Node) (h : id < f.size) :
    (f.modify id g).node id = g (f.node id) := by
  simp only [size] at h
  simp [node, modify, h, Array.getElem_modify]

theorem node_modify_of_ne {f : Forest} {id other : NodeId} (g : Node → Node) (h : other ≠ id) :
    (f.modify id g).node other = f.node other := by
  simp only [node, modify, Array.getD_eq_getD_getElem?, Array.getElem?_modify]
  simp [show ¬id = other from fun e => h e.symm]

@[simp] theorem size_modify (f : Forest) (id : NodeId) (g : Node → Node) :
    (f.modify id g).size = f.size := by
  simp [size, modify]

@[simp] theorem size_add (f : Forest) (n : Node) : (f.add n).2.size = f.size + 1 := by
  simp [size, add]

theorem node_add_self (f : Forest) (n : Node) : (f.add n).2.node (f.add n).1 = n := by
  simp [node, add]

theorem node_add_of_lt {f : Forest} {id : NodeId} (n : Node) (h : id < f.size) :
    (f.add n).2.node id = f.node id := by
  simp only [size] at h
  simp [node, add, Array.getElem_push, h, Nat.lt_succ_of_lt h]

/-! ## What a node says -/

/-- The kind of a node. -/
def kind (f : Forest) (id : NodeId) : NodeKind := (f.node id).kind

/-- What a node says. -/
def data (f : Forest) (id : NodeId) : NodeData := (f.node id).data

/-- The formatting of a node. -/
def raws (f : Forest) (id : NodeId) : Raws := (f.node id).raws

/-- Where a node comes from. -/
def source (f : Forest) (id : NodeId) : Source := (f.node id).source

/-- Changes what a node says. -/
def modifyData (f : Forest) (id : NodeId) (g : NodeData → NodeData) : Forest :=
  f.modify id fun n => { n with data := g n.data }

/-- Changes the formatting of a node. -/
def modifyRaws (f : Forest) (id : NodeId) (g : Raws → Raws) : Forest :=
  f.modify id fun n => { n with raws := g n.raws }

/-- Sets where a node comes from. -/
def setSource (f : Forest) (id : NodeId) (s : Source) : Forest :=
  f.modify id fun n => { n with source := s }

/-- Gives a node an empty list of children if it has none. -/
def ensureBlock (f : Forest) (id : NodeId) : Forest :=
  f.modify id fun n => { n with children := some n.nodes }

/-! ## Links -/

/-- The parent of a node. -/
def parent? (f : Forest) (id : NodeId) : Option NodeId := (f.node id).parent

/-- The children of a node. -/
def children (f : Forest) (id : NodeId) : List NodeId := (f.node id).nodes

/-- The index of a child. -/
def indexOf? (f : Forest) (parent child : NodeId) : Option Nat :=
  (f.children parent).findIdx? (· = child)

/-- The parent of a node and its index there. -/
def place? (f : Forest) (id : NodeId) : Option (NodeId × Nat) := do
  let parent ← f.parent? id
  let index ← f.indexOf? parent id
  return (parent, index)

/-- The sibling behind a node. -/
def next? (f : Forest) (id : NodeId) : Option NodeId := do
  let (parent, index) ← f.place? id
  (f.children parent)[index + 1]?

/-- The sibling before a node. -/
def previous? (f : Forest) (id : NodeId) : Option NodeId := do
  let (parent, index) ← f.place? id
  if index = 0 then none else (f.children parent)[index - 1]?

/-- Follows the parents of a node for a number of steps. -/
def ancestorsWithin (f : Forest) : Nat → NodeId → List NodeId
  | 0, _ => []
  | steps + 1, id =>
    match f.parent? id with
    | none => []
    | some p => p :: ancestorsWithin f steps p

/-- The ancestors of a node, from its parent up. -/
def ancestors (f : Forest) (id : NodeId) : List NodeId := f.ancestorsWithin f.size id

/-- The topmost ancestor of a node; the node itself if it has no parent. -/
def top (f : Forest) (id : NodeId) : NodeId := (f.ancestors id).getLast?.getD id

/-- Whether `id` is `ancestor` or stands below it. -/
def isInside (f : Forest) (ancestor id : NodeId) : Bool :=
  id = ancestor || (f.ancestors id).contains ancestor

/-- The number of containers around a node, up to the first root. -/
def depth (f : Forest) (id : NodeId) : Nat :=
  ((f.ancestors id).takeWhile fun a => f.kind a ≠ .root).length

/-! ## Trees -/

/-- The tree below a node, unrolled for a number of levels. -/
def outlineWithin (f : Forest) : Nat → NodeId → Tree NodeId
  | 0, id => .leaf id
  | levels + 1, id =>
    match (f.node id).children with
    | none => .leaf id
    | some ids => .block id (ids.map (outlineWithin f levels))

/-- The tree below a node. -/
def outline (f : Forest) (id : NodeId) : Tree NodeId := f.outlineWithin f.size id

/-- The nodes below a node, each before those below it. -/
def descendants (f : Forest) (id : NodeId) : List NodeId := (f.outline id).descendants

/-- The first answer that `find` gives for a node below `id`. -/
def findBelow {α : Type} (f : Forest) (id : NodeId) (find : NodeId → Option α) : Option α :=
  (f.descendants id).findSome? find

mutual

/-- Adds the nodes of a tree. -/
def plant (f : Forest) (parent : Option NodeId) : Tree Element → NodeId × Forest
  | .leaf e => f.add { Node.ofElement e false with parent }
  | .block e ts =>
    let (id, f) := f.add { Node.ofElement e true with parent }
    let (ids, f) := plantAll f id ts
    (id, f.modify id fun n => { n with children := some ids })

/-- Adds the nodes of trees below `parent`. -/
def plantAll (f : Forest) (parent : NodeId) : List (Tree Element) → List NodeId × Forest
  | [] => ([], f)
  | t :: ts =>
    let (id, f) := plant f (some parent) t
    let (ids, f) := plantAll f parent ts
    (id :: ids, f)

end

end Forest

end Stylesheet
