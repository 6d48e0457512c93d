import Stylesheet.Printer.Detect

/-!
# The printer

`Forest.print` writes a node and all nodes below it as a list of fragments, each with the node that
it belongs to; `Forest.css` is their text. A node is printed with its own formatting where it has
some, and with formatting by example where it has none.
-/

set_option autoImplicit false

namespace Stylesheet

/-- Whether a fragment opens or closes a block. -/
inductive FragmentRole where
  | start
  | stop
deriving DecidableEq, Repr, Inhabited

/-- A piece of output. Formatting between nodes belongs to no node. -/
structure Fragment where
  text : String
  node : Option NodeId
  role : Option FragmentRole
deriving DecidableEq, Repr, Inhabited

namespace Fragment

/-- A text between nodes; an empty one is no fragment. -/
def between (text : String) : List Fragment := if text = "" then [] else [⟨text, none, none⟩]

/-- The text of fragments. -/
def concat (fs : List Fragment) : String := String.join (fs.map Fragment.text)

end Fragment

/-- A step of the printer: the fragments it writes, and what it remembers of the formatting. -/
abbrev Printing := Memo → List Fragment × Memo

namespace Printing

/-- One step after the other. -/
def append (a b : Printing) : Printing := fun memo =>
  let (xs, memo) := a memo
  let (ys, memo) := b memo
  (xs ++ ys, memo)

instance : Append Printing := ⟨append⟩

/-- Writes fragments. -/
def emit (fs : List Fragment) : Printing := fun memo => (fs, memo)

end Printing

namespace Forest

open Printing

/-- The text of a part of a node: its lexeme while the part is what it was read as. -/
def valueText (f : Forest) (id : NodeId) (slot : String) : String :=
  let current := (f.data id).cleaned slot
  ((f.raws id).lexemeFor slot current).getD current

/-- The index of the child that ends the list: trailing comments do not count, unless there is
nothing else. -/
def lastIndex (kinds : List NodeKind) : Nat :=
  kinds.length - 1 - (kinds.reverse.takeWhile (· = .comment)).length

/-- A step that depends on the formatting of a node. -/
def withRaw (f : Forest) (id : NodeId) (own : String) (aspect : Aspect)
    (k : RawValue → Printing) : Printing := fun memo =>
  let (v, memo) := f.raw memo id (some own) aspect
  k v memo

/-- A declaration. -/
def printDeclaration (f : Forest) (id : NodeId) (semicolon : Bool) : Printing :=
  f.withRaw id "between" .colon fun between =>
    let d := f.data id
    let mark := if d.important then (f.rawText? id "important").getD " !important" else ""
    emit [⟨d.prop ++ between.toText ++ f.valueText id "value" ++ mark ++
      (if semicolon then ";" else ""), some id, none⟩]

/-- A comment. -/
def printComment (f : Forest) (id : NodeId) : Printing :=
  f.withRaw id "left" .commentLeft fun left =>
    f.withRaw id "right" .commentRight fun right =>
      emit [⟨"/*" ++ left.toText ++ (f.data id).text ++ right.toText ++ "*/", some id, none⟩]

/-- What stands before the block or the semicolon of an at-rule. -/
def atRuleHead (f : Forest) (id : NodeId) : String :=
  let d := f.data id
  let params := if d.params = "" then "" else f.valueText id "params"
  let afterName := (f.rawText? id "afterName").getD (if params = "" then "" else " ")
  "@" ++ d.name ++ afterName ++ params

/-- A block behind `head`. -/
def printBlock (f : Forest) (id : NodeId) (head : String) (isEmpty : Bool) (body : Printing) :
    Printing :=
  let close (after : RawValue) :=
    emit (Fragment.between after.toText ++ [⟨"\x7d", some id, some .stop⟩])
  f.withRaw id "between" .beforeOpen fun between =>
    emit [⟨head ++ between.toText ++ "\x7b", some id, some .start⟩] ++
      if isEmpty then f.withRaw id "after" .emptyBody close
      else body ++ f.withRaw id "after" .after close

/-- A node whose children are printed by `body`. -/
def printNode (f : Forest) (id : NodeId) (semicolon isEmpty : Bool) (body : Printing) :
    Printing :=
  match f.data id with
  | .root => body ++ emit (Fragment.between ((f.rawText? id "after").getD ""))
  | .rule _ =>
    let own := (f.rawText? id "ownSemicolon").getD ""
    f.printBlock id (f.valueText id "selector") isEmpty body ++
      emit (if own = "" then [] else [⟨own, some id, some .stop⟩])
  | .atRule _ _ =>
    if (f.node id).hasBlock then f.printBlock id (f.atRuleHead id) isEmpty body
    else
      let between := (f.rawText? id "between").getD ""
      emit [⟨f.atRuleHead id ++ between ++ (if semicolon then ";" else ""), some id, none⟩]
  | .declaration _ _ _ => f.printDeclaration id semicolon
  | .comment _ => f.printComment id

mutual

/-- A tree; `semicolon` says whether a semicolon follows it. -/
def printTree (f : Forest) (semicolon : Bool) : Tree NodeId → Printing
  | .leaf id => f.printNode id semicolon true (f.withRaw id "semicolon" .semicolon fun _ => emit [])
  | .block id ts =>
    f.printNode id semicolon ts.isEmpty <|
      f.withRaw id "semicolon" .semicolon fun v =>
        printChildren f (lastIndex (ts.map fun t => f.kind t.label)) v.isTruthy 0 ts

/-- Children from an index on. The one at index `last` is followed by a semicolon only if
`semicolon` says so. -/
def printChildren (f : Forest) (last : Nat) (semicolon : Bool) (index : Nat) :
    List (Tree NodeId) → Printing
  | [] => emit []
  | t :: ts =>
    (f.withRaw t.label "before" .before fun before => emit (Fragment.between before.toText)) ++
      printTree f (index != last || semicolon) t ++ printChildren f last semicolon (index + 1) ts

end

/-- The fragments of a node and all nodes below it. -/
def print (f : Forest) (id : NodeId) : List Fragment := (f.printTree false (f.outline id) []).1

/-- The text of a node and all nodes below it. -/
def css (f : Forest) (id : NodeId) : String := Fragment.concat (f.print id)

end Forest

end Stylesheet
