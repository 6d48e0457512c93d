import Stylesheet.Forest.Basic
import Stylesheet.Text.Blank

/-!
# Editing trees

`insert` puts nodes into a list of children, `detach` takes one out, and `replace` does both at the
place of a node. Inserting moves: a node leaves its parent first, and a root sends its children
instead of itself. Every edit tells the cursors over the lists that it changes.

An insertion fails before it changes anything. `replace` and `moveTo` take several steps, so they
give back the forest also when they fail.
-/

set_option autoImplicit false

namespace Stylesheet

/-- Why an edit is refused. -/
inductive TreeError where
  | notAContainer (kind : NodeKind)
  | cycle
  | notAChild
  | detached
deriving DecidableEq, Repr

/-- The wording of the error. -/
def TreeError.message : TreeError → String
  | notAContainer kind => kind.name ++ " nodes cannot contain children"
  | cycle => "cannot insert a node into itself or one of its descendants"
  | notAChild => "reference node is not a child of this container"
  | detached => "node has no parent"

/-- Where nodes are inserted. -/
inductive Anchor where
  | start
  | stop
  | before (reference : NodeId)
  | after (reference : NodeId)
deriving DecidableEq, Repr

/-- The child that an insertion refers to. -/
def Anchor.reference? : Anchor → Option NodeId
  | before r | after r => some r
  | _ => none

namespace Forest

/-! ## Taking nodes out -/

/-- Removes the child at an index. -/
def removeAt (f : Forest) (parent : NodeId) (index : Nat) : Option NodeId × Forest :=
  match (f.children parent)[index]? with
  | none => (none, f)
  | some child =>
    let f := f.modify parent fun n => { n with
      children := some (n.nodes.eraseIdx index)
      cursors := n.cursors.mapCursors (·.removed index) }
    (some child, f.modify child fun n => { n with parent := none })

/-- Takes a node out of its parent; says whether it was in one. -/
def detach (f : Forest) (id : NodeId) : Bool × Forest :=
  match f.place? id with
  | some (parent, index) => (true, (f.removeAt parent index).2)
  | none => (false, f.modify id fun n => { n with parent := none })

/-- Removes all children of a node. -/
def clear (f : Forest) (parent : NodeId) : List NodeId × Forest :=
  let removed := f.children parent
  let f := f.modify parent fun n => { n with
    children := n.children.map fun _ => []
    cursors := n.cursors.mapCursors Cursor.cleared }
  (removed, removed.foldl (fun f id => f.modify id fun n => { n with parent := none }) f)

/-- Removes a child that is named. -/
def removeChild (f : Forest) (parent child : NodeId) : Except TreeError Forest :=
  match f.indexOf? parent child with
  | none => .error .notAChild
  | some index => .ok (f.removeAt parent index).2

/-! ## Putting nodes in -/

/-- The nodes that an insertion puts in: roots send their children, and the reference stays where
it is. -/
def flatten (f : Forest) (reference : Option NodeId) : List NodeId → List NodeId × Forest
  | [] => ([], f)
  | id :: rest =>
    if f.kind id = .root then
      let (sent, f) := f.clear id
      let (ids, f) := flatten f reference rest
      (sent ++ ids, f)
    else
      let (ids, f) := flatten f reference rest
      (if reference = some id then ids else id :: ids, f)

/-- The blanks that stand before the sibling that an insertion goes by. -/
def sampleBefore (f : Forest) (parent : NodeId) (anchor : Anchor) : Option String :=
  let sibling := match anchor with
    | .start => (f.children parent).head?
    | .stop => (f.children parent).getLast?
    | .before r | .after r => some r
  (sibling.bind fun id => (f.raws id).text? "before").map Text.blanks

/-- Takes a node out of its parent and makes it a child of another one, so far only by its link. A
node without blanks before it gets those of the sample. -/
def adopt (f : Forest) (parent : NodeId) (sample : Option String) (id : NodeId) : Forest :=
  (f.detach id).2.modify id fun n => { n with
    raws := match sample with
      | some s => if n.raws.contains "before" then n.raws else n.raws.setText "before" s
      | none => n.raws
    parent := some parent }

/-- The index of an insertion. -/
def insertionIndex (f : Forest) (parent : NodeId) : Anchor → Nat
  | .start => 0
  | .stop => (f.children parent).length
  | .before r => (f.indexOf? parent r).getD (f.children parent).length
  | .after r => (f.indexOf? parent r).getD (f.children parent).length + 1

/-- Puts children into a list. -/
def splice (f : Forest) (parent : NodeId) (index : Nat) (ids : List NodeId) : Forest :=
  f.modify parent fun n => { n with
    children := some (n.nodes.take index ++ ids ++ n.nodes.drop index)
    cursors := n.cursors.mapCursors (·.inserted index ids) }

/-- Why an insertion is refused, if it is. -/
def refusal? (f : Forest) (parent : NodeId) (anchor : Anchor) (incoming : List NodeId) :
    Option TreeError :=
  if !(f.kind parent).isContainer then some (.notAContainer (f.kind parent))
  else if anchor.reference?.any fun r => (f.indexOf? parent r).isNone then some .notAChild
  else if incoming.any fun id => f.isInside id parent then some .cycle
  else none

/-- Inserts nodes into a list of children. -/
def insert (f : Forest) (parent : NodeId) (anchor : Anchor) (incoming : List NodeId) :
    Except TreeError Forest :=
  match f.refusal? parent anchor incoming with
  | some e => .error e
  | none =>
    let (ids, f) := f.flatten anchor.reference? incoming
    if ids.isEmpty then .ok f
    else
      let sample := f.sampleBefore parent anchor
      let f := ids.foldl (fun f id => f.adopt parent sample id) f
      .ok (f.splice parent (f.insertionIndex parent anchor) ids)

/-- Inserts a sibling right before a node. -/
def insertBefore (f : Forest) (id new : NodeId) : Except TreeError Forest :=
  match f.parent? id with
  | none => .error .detached
  | some parent => f.insert parent (.before id) [new]

/-- Inserts a sibling right behind a node. -/
def insertAfter (f : Forest) (id new : NodeId) : Except TreeError Forest :=
  match f.parent? id with
  | none => .error .detached
  | some parent => f.insert parent (.after id) [new]

/-! ## Replacing and moving -/

/-- An edit that may fail on the way: the forest that it leaves, and the error. -/
abbrev Edited := Forest × Except TreeError Unit

/-- Inserts nodes one by one behind a bookmark, which moves along. -/
def insertBehind (parent : NodeId) : Forest → (bookmark : NodeId) → List NodeId →
    Except (Forest × TreeError) (Forest × NodeId)
  | f, bookmark, [] => .ok (f, bookmark)
  | f, bookmark, id :: rest =>
    match f.insert parent (.after bookmark) [id] with
    | .error e => .error (f, e)
    | .ok f => insertBehind parent f id rest

/-- Inserts nodes one by one right before a node. -/
def insertAhead (parent reference : NodeId) : Forest → List NodeId →
    Except (Forest × TreeError) Forest
  | f, [] => .ok f
  | f, id :: rest =>
    match f.insert parent (.before reference) [id] with
    | .error e => .error (f, e)
    | .ok f => insertAhead parent reference f rest

/-- Inserts the replacements of `id`: those before `id` itself in the list go before it, the
others behind it. `bookmark` is the node that the next one follows, once `id` came by. -/
def insertReplacements (parent id : NodeId) : Forest → (bookmark : Option NodeId) → List NodeId →
    Except (Forest × TreeError) (Forest × Bool)
  | f, bookmark, [] => .ok (f, bookmark.isSome)
  | f, bookmark, r :: rest =>
    if r = id then insertReplacements parent id f (some (bookmark.getD id)) rest
    else
      let (ids, f) := if f.kind r = .root then f.clear r else ([r], f)
      match bookmark with
      | some b =>
        match insertBehind parent f b ids with
        | .error e => .error e
        | .ok (f, b) => insertReplacements parent id f (some b) rest
      | none =>
        match insertAhead parent id f ids with
        | .error e => .error e
        | .ok f => insertReplacements parent id f none rest

/-- Puts nodes in the place of a node, which may be among them and then stays. -/
def replace (f : Forest) (id : NodeId) (replacements : List NodeId) : Edited :=
  match f.parent? id with
  | none => (f, .error .detached)
  | some parent =>
    match insertReplacements parent id f none replacements with
    | .error (f, e) => (f, .error e)
    | .ok (f, true) => (f, .ok ())
    | .ok (f, false) => ((f.detach id).2, .ok ())

/-- Drops the formatting of a node and of all nodes below it that depends on where it stands. -/
def cleanRaws (f : Forest) (id : NodeId) (keepBetween : Bool) : Forest :=
  (f.outline id).preorder.foldl (fun f n => f.modifyRaws n (·.clean keepBetween)) f

/-- Moves a node to the end of a container and cleans its formatting; what stands between the
parts of a node is kept within one tree. -/
def moveTo (f : Forest) (id container : NodeId) : Edited :=
  let sameTree := f.top id = f.top container
  if f.isInside id container then (f, .error .cycle)
  else
    let f := f.cleanRaws id sameTree
    match f.insert container .stop [id] with
    | .error e => (f, .error e)
    | .ok f => (f, .ok ())

end Forest

end Stylesheet
