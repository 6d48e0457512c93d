import Stylesheet.Forest.Walk
import Stylesheet.Run.Plugin

/-!
# The traversal of a run

`traverse` takes plugins through a tree. Every plugin is told of the start; then every node is
entered, its children are visited, and it is left, with each event going to the plugins in their
order; at last every plugin is told of the end. Children are visited through a cursor, so that
nodes that plugins insert are visited as well. A node without a parent after it was entered is not
gone into.

The first failure ends the traversal. Plugins may keep it going by inserting nodes, so its steps
are bounded by `fuel`.
-/

set_option autoImplicit false

namespace Stylesheet

/-- Whether a run waits for handlers that suspend themselves. -/
inductive RunMode where
  | waiting
  | immediate
deriving DecidableEq, Repr, Inhabited

/-- A plugin that failed with something else than an error in the text. -/
structure PluginFault where
  plugin : String
  text : String
  /-- The name of the input of the node at hand. -/
  file : Option String
  /-- The start of the node at hand. -/
  position : Option Position
  /-- The outermost part of the text. -/
  cause : String
deriving DecidableEq, Repr

/-- `plugin: file:line:column: text`, without what is unknown. -/
def PluginFault.describe (e : PluginFault) : String :=
  let place := match e.file, e.position with
    | some file, some p => file ++ ":" ++ toString p.line ++ ":" ++ toString p.column ++ ": "
    | _, _ => ""
  e.plugin ++ ": " ++ place ++ e.text

/-- Why a run fails. -/
inductive RunError where
  | text (e : SourceError)
  | previousMap (e : PreviousMapError)
  | plugin (e : PluginFault)
  /-- A handler suspended itself in a run that does not wait. -/
  | suspended (plugin : String)
deriving DecidableEq, Repr

/-- How a traversal ends. -/
inductive RunEnd where
  | finished
  | failed (e : RunError)
  | outOfFuel
deriving DecidableEq, Repr

namespace RunError

/-- The failure of a handler that was called for a node. An error in the text is put down to the
plugin, unless it names one. -/
def ofHandler (plugin : String) (f : Forest) (id : NodeId) (e : HandlerError) : RunError :=
  match e.fault with
  | .located s => .text { s with plugin := s.plugin.or (some plugin) }
  | .other _ => .plugin ⟨plugin, e.text, (f.inputOf? id).map Input.name, (f.source id).start,
      e.outermost⟩

/-- The wording of a run that cannot wait. -/
def suspendedMessage (plugin : String) : String :=
  "Plugin " ++ plugin ++ " suspended while processing synchronously, use run() instead"

end RunError

variable {σ : Type}

/-- What a run makes of a reply: it resumes a handler, or fails if it does not wait. -/
def Reply.settle (mode : RunMode) (plugin : String) (id : NodeId) :
    Reply σ → Except RunError Unit × RunState σ
  | done (.ok _) s => (.ok (), s)
  | done (.error e) s => (.error (.ofHandler plugin s.forest id e), s)
  | suspended s later =>
    match mode with
    | .waiting => settle mode plugin id later
    | .immediate => (.error (.suspended plugin), s)

namespace Run

/-- Tells the plugins of an event, one after the other, up to one that fails. -/
def dispatch (mode : RunMode) (phase : Phase) (id : NodeId) :
    List (Plugin σ) → RunState σ → Except RunError Unit × RunState σ
  | [], s => (.ok (), s)
  | p :: rest, s =>
    let s := { s with session := { s.session with lastPlugin := some p.name } }
    match (p.handle phase id s).settle mode p.name id with
    | (.ok _, s) => dispatch mode phase id rest s
    | failed => failed

/-- The end of a traversal after an event. -/
def ending : Except RunError Unit → RunEnd
  | .ok _ => .finished
  | .error e => .failed e

/-- Whether a node is gone into: it has a block, and it is a root or still has a parent. -/
def goesInto (f : Forest) (id : NodeId) : Bool :=
  (f.kind id = .root || (f.parent? id).isSome) && (f.node id).hasBlock

mutual

/-- Visits a node and all nodes below it. -/
def visit (mode : RunMode) (plugins : List (Plugin σ)) (id : NodeId) (fuel : Nat)
    (s : RunState σ) : RunEnd × RunState σ :=
  match fuel with
  | 0 => (.outOfFuel, s)
  | fuel + 1 =>
    match dispatch mode .enter id plugins s with
    | (.error e, s) => (.failed e, s)
    | (.ok _, s) =>
      let leave (s : RunState σ) : RunEnd × RunState σ :=
        let (outcome, s) := dispatch mode .exit id plugins s
        (ending outcome, s)
      if goesInto s.forest id then
        let (cursor, f) := s.forest.openCursor id .traversal
        let (e, s) := visitChildren mode plugins id cursor fuel { s with forest := f }
        let s := { s with forest := s.forest.closeCursor id cursor }
        match e with
        | .finished => leave s
        | e => (e, s)
      else leave s

/-- Visits the children that a cursor still hands out. -/
def visitChildren (mode : RunMode) (plugins : List (Plugin σ)) (parent : NodeId) (cursor : Nat)
    (fuel : Nat) (s : RunState σ) : RunEnd × RunState σ :=
  match fuel with
  | 0 => (.outOfFuel, s)
  | fuel + 1 =>
    match s.forest.nextChild parent cursor with
    | (none, f) => (.finished, { s with forest := f })
    | (some (child, _), f) =>
      match visit mode plugins child fuel { s with forest := f } with
      | (.finished, s) => visitChildren mode plugins parent cursor fuel s
      | ended => ended

end

/-- Takes plugins through the tree of a session. -/
def traverse (mode : RunMode) (plugins : List (Plugin σ)) (fuel : Nat) (s : RunState σ) :
    RunEnd × RunState σ :=
  let root := s.session.root
  match dispatch mode .once root plugins s with
  | (.error e, s) => (.failed e, s)
  | (.ok _, s) =>
    match visit mode plugins root fuel s with
    | (.finished, s) =>
      match dispatch mode .onceExit root plugins s with
      | (.error e, s) => (.failed e, s)
      | (.ok _, s) => (.finished, { s with session := { s.session with lastPlugin := none } })
    | ended => ended

end Run

end Stylesheet
