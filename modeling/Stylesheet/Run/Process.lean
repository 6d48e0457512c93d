import Stylesheet.Forest.Copy
import Stylesheet.Output
import Stylesheet.Run.Traversal

/-!
# Runs

A run reads a stylesheet, takes plugins through its tree and prints what they leave.
`Session.load` is the first part, `Run.process` the first and the second, and `Session.output` the
third.
-/

set_option autoImplicit false

namespace Stylesheet

/-- The failure of a run whose stylesheet cannot be read. -/
def RunError.ofRead : Forest.ReadError → RunError
  | .text e => .text e
  | .previousMap e => .previousMap e

namespace Session

/-- The start of a run on a stylesheet that is read by the options of the run. -/
def load (f : Forest) (files : Files) (text : String) (options : RunOptions) :
    Except RunError (Session × Forest) :=
  match f.parse files text options.source options.map with
  | .error e => .error (.ofRead e)
  | .ok (root, f) => .ok (start root options, f)

end Session

namespace Run

variable {σ : Type}

/-- Reads a stylesheet and takes plugins through its tree. -/
def process (mode : RunMode) (plugins : List (Plugin σ)) (fuel : Nat) (files : Files)
    (text : String) (options : RunOptions) (f : Forest) (user : σ) :
    Except RunError (RunEnd × RunState σ) :=
  match Session.load f files text options with
  | .error e => .error e
  | .ok (session, forest) => .ok (traverse mode plugins fuel ⟨forest, session, user⟩)

end Run

end Stylesheet
