import Stylesheet.Config
import Stylesheet.Forest.Basic

/-!
# Sessions

A `Session` is what a run knows besides the trees: which tree it works on, its options, and the
warnings it has collected. `Session.warn` records a warning, `Forest.errorAt` makes an error that
points at a node.
-/

set_option autoImplicit false

namespace Stylesheet

/-! ## Errors at nodes -/

namespace Forest

/-- The input that a node was read from. -/
def inputOf? (f : Forest) (id : NodeId) : Option Input := (f.source id).input.bind f.input?

/-- An error at the place of a node; without a place when that is not known. -/
def errorAt (f : Forest) (id : NodeId) (reason : String) : SourceError :=
  match f.inputOf? id, (f.source id).start with
  | some input, some start =>
    input.errorAt reason start
      ((f.source id).stop.map fun p => { p with column := p.column + 1 })
  | _, _ => .unlocated reason

end Forest

/-! ## Warnings -/

/-- How serious a warning is. -/
inductive Severity where
  | info
  | warning
  | error
deriving DecidableEq, Repr, Inhabited

/-- What is said about a warning besides its text. -/
structure WarningOptions where
  plugin : Option String := none
  severity : Severity := .warning
  node : Option NodeId := none
  /-- A start that takes the place of the node's. -/
  start : Option Position := none
  /-- The end that belongs to this start. -/
  stop : Option Position := none
deriving Repr, Inhabited

/-- A remark about a stylesheet that does not stop the run. -/
structure Warning where
  text : String
  plugin : Option String
  severity : Severity
  node : Option NodeId
  file : Option String
  start : Option Position
  stop : Option Position
deriving Repr, Inhabited

namespace Warning

/-- A warning about a node as it is now. -/
def make (f : Forest) (text : String) (o : WarningOptions) : Warning where
  text := text
  plugin := o.plugin
  severity := o.severity
  node := o.node
  file := (o.node.bind f.inputOf?).map Input.name
  start := o.start.or (o.node.bind fun id => (f.source id).start)
  stop := if o.start.isSome then o.stop else o.node.bind fun id => (f.source id).stop

/-- `plugin: file:line:column: text`, without what is unknown. -/
def describe (w : Warning) : String :=
  let plugin := match w.plugin with
    | some p => p ++ ": "
    | none => ""
  let place := match w.start with
    | some p => w.file.getD "<css input>" ++ ":" ++ toString p.line ++ ":" ++ toString p.column ++
        ": "
    | none => ""
  plugin ++ place ++ w.text

end Warning

/-! ## Sessions -/

/-- The tree of a run, its options, and what was reported. -/
structure Session where
  root : NodeId
  options : RunOptions
  /-- The warnings in the order in which they were recorded. -/
  warnings : List Warning
  /-- The plugin that is at work, which warnings are put down to. -/
  lastPlugin : Option String
deriving Repr, Inhabited

namespace Session

/-- The start of a run. -/
def start (root : NodeId) (options : RunOptions) : Session := ⟨root, options, [], none⟩

/-- Records a warning. -/
def warn (s : Session) (f : Forest) (text : String) (o : WarningOptions) : Warning × Session :=
  let w := Warning.make f text { o with plugin := o.plugin.or s.lastPlugin }
  (w, { s with warnings := s.warnings ++ [w] })

end Session

end Stylesheet
