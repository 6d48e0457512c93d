/-!
# Trees with and without blocks

`Tree α` is a finite tree whose nodes carry labels and either own a list of children or do not.
An empty list of children is not the same as none: it stands for an empty block.
-/

set_option autoImplicit false

namespace Stylesheet

/-- A finite tree with labels. -/
inductive Tree (α : Type) where
  | leaf (label : α)
  | block (label : α) (children : List (Tree α))
deriving Repr

namespace Tree

variable {α β : Type}

instance [Inhabited α] : Inhabited (Tree α) := ⟨leaf default⟩

/-- The label at the top. -/
def label : Tree α → α
  | leaf a => a
  | block a _ => a

/-- The children at the top. -/
def children : Tree α → List (Tree α)
  | leaf _ => []
  | block _ ts => ts

/-- Whether the top owns a list of children. -/
def hasBlock : Tree α → Bool
  | leaf _ => false
  | block _ _ => true

mutual

/-- The tree with `f` applied to every label. -/
def map (f : α → β) : Tree α → Tree β
  | leaf a => leaf (f a)
  | block a ts => block (f a) (mapAll f ts)

/-- The trees with `f` applied to every label. -/
def mapAll (f : α → β) : List (Tree α) → List (Tree β)
  | [] => []
  | t :: ts => map f t :: mapAll f ts

end

mutual

/-- The labels, each before those below it. -/
def preorder : Tree α → List α
  | leaf a => [a]
  | block a ts => a :: preorderAll ts

/-- The labels of trees, one tree after the other. -/
def preorderAll : List (Tree α) → List α
  | [] => []
  | t :: ts => preorder t ++ preorderAll ts

end

/-- The labels below the top, each before those below it. -/
def descendants (t : Tree α) : List α := preorderAll t.children

end Tree

end Stylesheet
