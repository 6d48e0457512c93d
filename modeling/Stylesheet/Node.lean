import Stylesheet.Position
import Stylesheet.Raws

/-!
# Nodes of a stylesheet

What a node of a stylesheet says (`NodeData`) and where it stands in an input (`Source`). How nodes
hang together is the matter of `Tree` and `Forest`.
-/

set_option autoImplicit false

namespace Stylesheet

/-- The kinds of nodes. -/
inductive NodeKind where
  | root
  | atRule
  | rule
  | declaration
  | comment
deriving DecidableEq, Repr, Inhabited

namespace NodeKind

/-- The name of a kind in messages. -/
def name : NodeKind → String
  | root => "root"
  | atRule => "atrule"
  | rule => "rule"
  | declaration => "decl"
  | comment => "comment"

/-- Whether nodes of a kind can have children. -/
def isContainer : NodeKind → Bool
  | root | atRule | rule => true
  | declaration | comment => false

/-- Whether a new node of a kind has a child list. An at-rule gets one with its block. -/
def startsWithBlock : NodeKind → Bool
  | root | rule => true
  | _ => false

end NodeKind

/-- What a node says. -/
inductive NodeData where
  | root
  | atRule (name params : String)
  | rule (selector : String)
  | declaration (prop value : String) (important : Bool)
  | comment (text : String)
deriving DecidableEq, Repr, Inhabited

namespace NodeData

/-- The kind of a node. -/
def kind : NodeData → NodeKind
  | root => .root
  | atRule _ _ => .atRule
  | rule _ => .rule
  | declaration _ _ _ => .declaration
  | comment _ => .comment

/-- The name of an at-rule. -/
def name : NodeData → String
  | atRule n _ => n
  | _ => ""

/-- The parameters of an at-rule. -/
def params : NodeData → String
  | atRule _ p => p
  | _ => ""

/-- The selector of a rule. -/
def selector : NodeData → String
  | rule s => s
  | _ => ""

/-- The property of a declaration. -/
def prop : NodeData → String
  | declaration p _ _ => p
  | _ => ""

/-- The value of a declaration. -/
def value : NodeData → String
  | declaration _ v _ => v
  | _ => ""

/-- Whether a declaration is marked as important. -/
def important : NodeData → Bool
  | declaration _ _ i => i
  | _ => false

/-- The text of a comment. -/
def text : NodeData → String
  | comment t => t
  | _ => ""

/-- Sets the name of an at-rule; other nodes stay as they are. -/
def setName (new : String) : NodeData → NodeData
  | atRule _ p => atRule new p
  | d => d

/-- Sets the parameters of an at-rule. -/
def setParams (new : String) : NodeData → NodeData
  | atRule n _ => atRule n new
  | d => d

/-- Sets the selector of a rule. -/
def setSelector (new : String) : NodeData → NodeData
  | rule _ => rule new
  | d => d

/-- Sets the property of a declaration. -/
def setProp (new : String) : NodeData → NodeData
  | declaration _ v i => declaration new v i
  | d => d

/-- Sets the value of a declaration. -/
def setValue (new : String) : NodeData → NodeData
  | declaration p _ i => declaration p new i
  | d => d

/-- Marks a declaration as important or not. -/
def setImportant (new : Bool) : NodeData → NodeData
  | declaration p v _ => declaration p v new
  | d => d

/-- Sets the text of a comment. -/
def setText (new : String) : NodeData → NodeData
  | comment _ => comment new
  | d => d

/-- The part of a node that a lexeme slot keeps the writing of. -/
def cleaned (d : NodeData) (slot : String) : String :=
  match d, slot with
  | declaration _ v _, "value" => v
  | rule s, "selector" => s
  | atRule _ p, "params" => p
  | _, _ => ""

end NodeData

/-- The number of an input in a forest. -/
abbrev InputId := Nat

/-- Where a node comes from: the place of its first and of its last character. -/
structure Source where
  input : Option InputId
  start : Option Position
  stop : Option Position
deriving DecidableEq, Repr, Inhabited

/-- The source of a node that was not read from an input. -/
def Source.unknown : Source := ⟨none, none, none⟩

/-- A node by itself, without its place in a tree. -/
structure Element where
  data : NodeData
  source : Source
  raws : Raws
deriving DecidableEq, Repr, Inhabited

end Stylesheet
