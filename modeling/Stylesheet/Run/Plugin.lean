import Stylesheet.Session
import Stylesheet.Text.Lowercase

/-!
# Plugins

A plugin reacts to the events of a run: the run starts or ends, or a node is entered or left. It
edits the forest, records warnings, and may keep a state of its own (`σ`). It may fail, and it may
suspend itself to be resumed by a run that waits for it.

`Hooks` puts a plugin together from handlers for the kinds of nodes, and from handlers that are
called only for properties or at-rules of a given name, whatever the case of its letters.
-/

set_option autoImplicit false

namespace Stylesheet

/-- The events of a run. -/
inductive Phase where
  /-- The run starts. -/
  | once
  /-- A node is reached, before its children. -/
  | enter
  /-- A node is left, behind its children. -/
  | exit
  /-- The run ends. -/
  | onceExit
deriving DecidableEq, Repr, Inhabited

/-- Everything that a run changes. -/
structure RunState (σ : Type) where
  forest : Forest
  session : Session
  user : σ

/-! ## Failures -/

/-- What a handler fails with at bottom. -/
inductive HandlerFault where
  | located (e : SourceError)
  | other (text : String)
deriving DecidableEq, Repr

/-- The text of a fault. -/
def HandlerFault.text : HandlerFault → String
  | located e => e.describe
  | other t => t

/-- A failure of a handler, with what the handler was about to do, the outermost first. -/
structure HandlerError where
  contexts : List String
  fault : HandlerFault
deriving DecidableEq, Repr

namespace HandlerError

/-- A failure without context. -/
def ofFault (fault : HandlerFault) : HandlerError := ⟨[], fault⟩

/-- Adds what the handler was about to do. -/
def within (e : HandlerError) (context : String) : HandlerError :=
  { e with contexts := context :: e.contexts }

/-- The contexts and the fault in one line. -/
def text (e : HandlerError) : String := ": ".intercalate (e.contexts ++ [e.fault.text])

/-- The outermost of the contexts and the fault. -/
def outermost (e : HandlerError) : String := e.contexts.head?.getD e.fault.text

end HandlerError

/-! ## Plugins -/

/-- What a handler gives back: the end of its work, or the state in which it suspends itself and
what it gives back when it is resumed. -/
inductive Reply (σ : Type) where
  | done (outcome : Except HandlerError Unit) (state : RunState σ)
  | suspended (state : RunState σ) (later : Reply σ)

/-- A named reaction to the events of a run. -/
structure Plugin (σ : Type) where
  name : String
  handle : Phase → NodeId → RunState σ → Reply σ

/-- A handler that does not suspend. -/
abbrev Handler (σ : Type) := NodeId → RunState σ → Except HandlerError Unit × RunState σ

/-- Handlers for events, and handlers for names in lower case, in the order in which they were
added. -/
structure Hooks (σ : Type) where
  name : String
  once : Option (Handler σ) := none
  onceExit : Option (Handler σ) := none
  root : Option (Handler σ) := none
  rootExit : Option (Handler σ) := none
  atRule : Option (Handler σ) := none
  atRuleExit : Option (Handler σ) := none
  rule : Option (Handler σ) := none
  ruleExit : Option (Handler σ) := none
  declaration : Option (Handler σ) := none
  declarationExit : Option (Handler σ) := none
  comment : Option (Handler σ) := none
  commentExit : Option (Handler σ) := none
  atRulesNamed : List (String × Handler σ) := []
  atRulesNamedExit : List (String × Handler σ) := []
  declarationsNamed : List (String × Handler σ) := []
  declarationsNamedExit : List (String × Handler σ) := []

namespace Hooks

variable {σ : Type}

/-- Adds a handler for a name. -/
def addNamed (table : List (String × Handler σ)) (name : String) (h : Handler σ) :
    List (String × Handler σ) := table ++ [(Text.toLower name, h)]

/-- The handlers for a name. -/
def handlersFor (table : List (String × Handler σ)) (name : String) : List (Handler σ) :=
  let key := Text.toLower name
  (table.filter (·.1 = key)).map (·.2)

/-- Calls handlers one after the other, up to one that fails. -/
def callAll : List (Handler σ) → Handler σ
  | [], _, s => (.ok (), s)
  | h :: rest, id, s =>
    match h id s with
    | (.ok _, s) => callAll rest id s
    | failed => failed

/-- Calls a handler, and then those for the name that the node has by then. -/
def callNamed (general : Option (Handler σ)) (table : List (String × Handler σ))
    (nameOf : NodeData → String) : Handler σ := fun id s =>
  match callAll general.toList id s with
  | (.ok _, s) => callAll (handlersFor table (nameOf (s.forest.data id))) id s
  | failed => failed

/-- The handler for an event. -/
def handler (h : Hooks σ) (phase : Phase) (kind : NodeKind) : Handler σ :=
  match phase, kind with
  | .once, _ => callAll h.once.toList
  | .onceExit, _ => callAll h.onceExit.toList
  | .enter, .root => callAll h.root.toList
  | .exit, .root => callAll h.rootExit.toList
  | .enter, .atRule => callNamed h.atRule h.atRulesNamed NodeData.name
  | .exit, .atRule => callNamed h.atRuleExit h.atRulesNamedExit NodeData.name
  | .enter, .rule => callAll h.rule.toList
  | .exit, .rule => callAll h.ruleExit.toList
  | .enter, .declaration => callNamed h.declaration h.declarationsNamed NodeData.prop
  | .exit, .declaration => callNamed h.declarationExit h.declarationsNamedExit NodeData.prop
  | .enter, .comment => callAll h.comment.toList
  | .exit, .comment => callAll h.commentExit.toList

/-- The plugin of a set of hooks. -/
def toPlugin (h : Hooks σ) : Plugin σ where
  name := h.name
  handle := fun phase id s =>
    let (outcome, s) := h.handler phase (s.forest.kind id) id s
    .done outcome s

end Hooks

end Stylesheet
