import Stylesheet.Forest.Basic
import Stylesheet.Text.Blank

/-!
# Formatting by example

A node that lacks some formatting is printed like the other nodes of its tree. `detect` looks for
the first example of an aspect of formatting, `lookup` remembers what was found, and `resolve`
gives the formatting of a node: its own, else that of the examples, else a fixed one.
-/

set_option autoImplicit false

namespace Stylesheet

open Stylesheet.Text

/-- What can be learned from the other nodes of a tree. -/
inductive Aspect where
  /-- What stands before a node. -/
  | before
  /-- What stands before the closing brace of a block. -/
  | after
  | beforeClose
  | beforeComment
  | beforeDeclaration
  | beforeOpen
  | beforeRule
  | colon
  | commentLeft
  | commentRight
  | emptyBody
  | indent
  | semicolon
  /-- Any node's formatting in a slot. -/
  | slot (name : String)
deriving DecidableEq, Repr

namespace Aspect

/-- The aspect with a given name. A name that is none is that of a slot. -/
def ofName (name : String) : Aspect :=
  match name with
  | "before" => before
  | "after" => after
  | "beforeClose" => beforeClose
  | "beforeComment" => beforeComment
  | "beforeDecl" => beforeDeclaration
  | "beforeOpen" => beforeOpen
  | "beforeRule" => beforeRule
  | "colon" => colon
  | "commentLeft" => commentLeft
  | "commentRight" => commentRight
  | "emptyBody" => emptyBody
  | "indent" => indent
  | "semicolon" => semicolon
  | other => slot other

/-- The formatting of a tree that has no example. -/
def fallback : Aspect → RawValue
  | after | beforeClose | beforeComment | beforeDeclaration | beforeRule => .text "\n"
  | beforeOpen | commentLeft | commentRight => .text " "
  | colon => .text ": "
  | indent => .text "    "
  | semicolon => .flag false
  | before | emptyBody | slot _ => .text ""

/-- The aspect, and those that stand in for it one after the other. -/
def chain : Aspect → List Aspect
  | beforeComment => [beforeComment, beforeDeclaration, beforeRule]
  | beforeDeclaration => [beforeDeclaration, beforeRule]
  | a => [a]

end Aspect

/-! ## Pieces of text -/

/-- Everything up to the last line feed, or all if there is none. -/
def throughLastLine (s : String) : String :=
  let kept := s.toList.reverse.dropWhile (· ≠ '\n')
  if kept.isEmpty then s else String.ofList kept.reverse

/-- What follows the last line feed. -/
def lastLine (s : String) : String :=
  String.ofList (s.toList.reverse.takeWhile (· ≠ '\n')).reverse

namespace Forest

/-! ## Examples -/

/-- The text in a slot of a node. -/
def rawText? (f : Forest) (id : NodeId) (slot : String) : Option String := (f.raws id).text? slot

/-- The blanks up to the last line feed in a slot. -/
def linesIn? (f : Forest) (id : NodeId) (slot : String) : Option RawValue :=
  (f.rawText? id slot).map fun t => .text (blanks (throughLastLine t))

/-- The first example of an aspect in the tree below `top`. `own` is the slot that is asked for. -/
def detect (f : Forest) (top : NodeId) (own : Option String) : Aspect → Option RawValue
  | .beforeDeclaration => f.findBelow top fun id =>
    if f.kind id = .declaration then f.linesIn? id "before" else none
  | .beforeComment => f.findBelow top fun id =>
    if f.kind id = .comment then f.linesIn? id "before" else none
  | .beforeRule => f.findBelow top fun id =>
    if (f.node id).hasBlock && (f.children top).head? ≠ some id then f.linesIn? id "before"
    else none
  | .beforeClose => f.findBelow top fun id =>
    if (f.children id).isEmpty then none else f.linesIn? id "after"
  | .beforeOpen => f.findBelow top fun id =>
    if f.kind id = .declaration then none else (f.raws id).get? "between"
  | .colon => f.findBelow top fun id =>
    if f.kind id = .declaration then
      (f.rawText? id "between").map fun t =>
        .text (String.ofList (t.toList.filter fun c => isBlank c || c = ':'))
    else none
  | .emptyBody => f.findBelow top fun id =>
    if (f.node id).hasBlock && (f.children id).isEmpty then (f.raws id).get? "after" else none
  | .indent =>
    let set := (f.rawText? top "indent").getD ""
    if set ≠ "" then some (.text set)
    else f.findBelow top fun id =>
      match f.parent? id with
      | none => none
      | some p =>
        if p ≠ top && f.parent? p = some top then
          (f.rawText? id "before").map fun t => .text (blanks (lastLine t))
        else none
  | .semicolon => f.findBelow top fun id =>
    if (f.children id).getLast?.any fun c => f.kind c = .declaration then
      (f.raws id).get? "semicolon"
    else none
  | .commentLeft | .commentRight | .slot _ =>
    own.bind fun slot => f.findBelow top fun id => (f.raws id).get? slot
  | .before | .after => none

end Forest

/-! ## Remembered formatting -/

/-- The aspects that were looked up, with what was found. -/
abbrev Memo := List (Aspect × RawValue)

namespace Forest

/-- The formatting of the first aspect of a chain, from the memo, an example, the next aspect or
the fixed formatting. What is found is remembered. -/
def lookup (f : Forest) (top : NodeId) (own : Option String) (memo : Memo) :
    List Aspect → RawValue × Memo
  | [] => (.text "", memo)
  | a :: others =>
    match memo.lookup a with
    | some v => (v, memo)
    | none =>
      match f.detect top own a with
      | some v => (v, (a, v) :: memo)
      | none =>
        if others.isEmpty then (a.fallback, (a, a.fallback) :: memo)
        else
          let (v, memo) := lookup f top none memo others
          (v, (a, v) :: memo)

/-- The aspect that tells what stands before or after a node of a kind. -/
def placeAspect (kind : NodeKind) (before : Bool) : Aspect :=
  match kind with
  | .declaration => .beforeDeclaration
  | .comment => .beforeComment
  | _ => if before then .beforeRule else .beforeClose

/-- What stands before or after a node: the line breaks of the examples, and one step of
indentation for each container around the node. -/
def placed (f : Forest) (memo : Memo) (id : NodeId) (before : Bool) : RawValue × Memo :=
  let (v, memo) := f.lookup (f.top id) none memo (placeAspect (f.kind id) before).chain
  let text := v.toText
  if text.toList.contains '\n' then
    let (indent, memo) := f.lookup (f.top id) none memo [.indent]
    (.text (text ++ String.join (List.replicate (f.depth id) indent.toText)), memo)
  else (.text text, memo)

/-- The formatting of a node: its own in the slot `own`, else that of the aspect. -/
def raw (f : Forest) (memo : Memo) (id : NodeId) (own : Option String) (aspect : Aspect) :
    RawValue × Memo :=
  match own.bind (f.raws id).get? with
  | some v => (v, memo)
  | none =>
    match f.parent? id with
    | none => (if aspect = .before then .text "" else aspect.fallback, memo)
    | some p =>
      if aspect = .before && f.kind p = .root && (f.children p).head? = some id then
        (.text "", memo)
      else if aspect = .before then f.placed memo id true
      else if aspect = .after then f.placed memo id false
      else f.lookup (f.top id) own memo aspect.chain

/-- The formatting of a node by itself, with nothing remembered. -/
def resolve (f : Forest) (id : NodeId) (own : String) (aspect : Aspect) : RawValue :=
  (f.raw [] id (some own) aspect).1

end Forest

end Stylesheet
