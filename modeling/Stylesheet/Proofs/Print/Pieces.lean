import Stylesheet.Printer

/-!
# Printing a tree by its own formatting

`Tree.pieces` prints a tree without looking at anything but the nodes themselves: what each says
and the formatting it keeps (`Wording`). It is the second side of the round trip: the parser is
shown to fill the slots that it reads (`Proofs/Parse`), the printer to do the same as it on nodes
that have these slots (`Proofs/Print/Formatted`).

A piece also knows whether it is the visible end of its node (`Piece.visible`), which is what a
source map asks. `pieces_map` says that printing commutes with relabelling, `piecesAll_append` what
a further sibling changes: only the semicolon of the statement before it, and its visibility.
-/

set_option autoImplicit false

namespace Stylesheet

variable {α β : Type}

/-! ## Wordings -/

/-- What a node says, and its formatting. -/
structure Wording where
  data : NodeData
  raws : Raws

namespace Wording

/-- The text in a slot, empty if there is none. -/
def slot (w : Wording) (name : String) : String := (w.raws.text? name).getD ""

/-- A part of a node, as it was read if it is still the same. -/
def part (w : Wording) (name : String) : String :=
  (w.raws.lexemeFor name (w.data.cleaned name)).getD (w.data.cleaned name)

/-- What stands before the block of a rule, or before the block or semicolon of an at-rule. -/
def head (w : Wording) : String :=
  match w.data with
  | .atRule name ps =>
    let params := if ps = "" then "" else w.part "params"
    "@" ++ name ++ (w.raws.text? "afterName").getD (if params = "" then "" else " ") ++ params
  | _ => w.part "selector"

/-- A node without a block. -/
def leaf (w : Wording) (semicolon : Bool) : String :=
  let close := if semicolon then ";" else ""
  match w.data with
  | .declaration prop _ important =>
    prop ++ w.slot "between" ++ w.part "value" ++
      (if important then (w.raws.text? "important").getD " !important" else "") ++ close
  | .comment text => "/*" ++ w.slot "left" ++ text ++ w.slot "right" ++ "*/"
  | _ => w.head ++ w.slot "between" ++ close

/-- Whether the last statement in the block of the node ends in a semicolon. -/
def closed (w : Wording) : Bool := (w.raws.get? "semicolon").any RawValue.isTruthy

/-- The semicolon behind the block of a rule, with the blanks before it. -/
def own (w : Wording) : String :=
  match w.data with
  | .rule _ => w.slot "ownSemicolon"
  | _ => ""

end Wording

/-! ## Pieces -/

/-- A part of a printed tree, with the label of the node it belongs to. -/
structure Piece (α : Type) where
  text : String
  node : Option α
  role : Option FragmentRole
  /-- Whether the end of the piece is an end of its node that can be seen. -/
  visible : Bool

namespace Piece

/-- The piece under another label. -/
def map (g : α → β) (x : Piece α) : Piece β := { x with node := x.node.map g }

@[simp] theorem map_text (g : α → β) (x : Piece α) : (x.map g).text = x.text := rfl

/-- Formatting between nodes. -/
def gap (text : String) : List (Piece α) := if text = "" then [] else [⟨text, none, none, false⟩]

/-- The characters of pieces. -/
def chars (xs : List (Piece α)) : List Char := xs.flatMap (·.text.toList)

@[simp] theorem chars_nil : chars ([] : List (Piece α)) = [] := rfl

@[simp] theorem chars_cons (x : Piece α) (xs : List (Piece α)) :
    chars (x :: xs) = x.text.toList ++ chars xs := rfl

@[simp] theorem chars_append (xs ys : List (Piece α)) : chars (xs ++ ys) = chars xs ++ chars ys :=
  List.flatMap_append

@[simp] theorem chars_gap (text : String) : chars (gap text : List (Piece α)) = text.toList := by
  by_cases h : text = "" <;> simp [gap, h]

@[simp] theorem chars_map (g : α → β) (xs : List (Piece α)) :
    chars (xs.map (Piece.map g)) = chars xs := by
  simp [chars, List.flatMap_map]

@[simp] theorem map_gap (g : α → β) (text : String) :
    (gap text : List (Piece α)).map (Piece.map g) = gap text := by
  by_cases h : text = "" <;> simp [gap, h, map]

end Piece

namespace Tree

open Piece

/-- The opening of a block. -/
def opening (w : α → Wording) (a : α) : Piece α :=
  ⟨(w a).head ++ (w a).slot "between" ++ "\x7b", some a, some .start, true⟩

/-- The end of a block, with the semicolon behind it that belongs to a rule. -/
def ending (w : α → Wording) (a : α) : List (Piece α) :=
  gap ((w a).slot "after") ++ ⟨"\x7d", some a, some .stop, true⟩ ::
    if (w a).own = "" then [] else [⟨(w a).own, some a, some .stop, true⟩]

/-- Whether the top is a comment. -/
def isComment (w : α → Wording) (t : Tree α) : Bool := (w t.label).data.kind = .comment

mutual

/-- A tree. `semicolon` says whether a semicolon follows it, `visible` whether its end can be seen
where it has no brace or mark of its own. -/
def pieces (w : α → Wording) (semicolon visible : Bool) : Tree α → List (Piece α)
  | .leaf a => [⟨(w a).leaf semicolon, some a, none, visible || (w a).data.kind = .comment⟩]
  | .block a ts =>
    let inner := piecesAll w (w a).closed (w a).closed ts
    match (w a).data with
    | .root => inner ++ gap ((w a).slot "after")
    | _ => opening w a :: inner ++ ending w a

/-- Siblings. `semicolon` says whether one follows the last statement, `visible` whether its end
can be seen. -/
def piecesAll (w : α → Wording) (semicolon visible : Bool) : List (Tree α) → List (Piece α)
  | [] => []
  | t :: ts =>
    gap ((w t.label).slot "before") ++
      pieces w (semicolon || ts.any (!·.isComment w)) (visible || !ts.isEmpty) t ++
      piecesAll w semicolon visible ts

end

/-- What a further sibling changes. -/
theorem piecesAll_append (w : α → Wording) (semicolon visible : Bool) (ts : List (Tree α))
    (t : Tree α) :
    piecesAll w semicolon visible (ts ++ [t]) =
      piecesAll w (semicolon || !t.isComment w) true ts ++ gap ((w t.label).slot "before") ++
        pieces w semicolon visible t := by
  induction ts with
  | nil => simp [piecesAll]
  | cons u ts ih =>
    rw [List.cons_append, piecesAll, piecesAll, ih]
    have hs : (semicolon || (ts ++ [t]).any (!·.isComment w)) =
        (semicolon || !t.isComment w || ts.any (!·.isComment w)) := by
      simp only [List.any_append, List.any_cons, List.any_nil, Bool.or_false]
      cases semicolon <;> cases t.isComment w <;> simp
    have hv : (visible || !(ts ++ [t]).isEmpty) = true := by simp
    rw [hs, hv]
    simp only [Bool.true_or, List.append_assoc]

@[simp] theorem label_map (g : α → β) (t : Tree α) : (t.map g).label = g t.label := by
  cases t <;> rfl

theorem mapAll_eq (g : α → β) (ts : List (Tree α)) : mapAll g ts = ts.map (map g) := by
  induction ts with
  | nil => rfl
  | cons t ts ih => simp [mapAll, ih]

theorem preorderAll_eq (ts : List (Tree α)) : preorderAll ts = ts.flatMap preorder := by
  induction ts with
  | nil => rfl
  | cons t ts ih => simp [preorderAll, ih]

theorem isComment_map (w : β → Wording) (g : α → β) (t : Tree α) :
    (t.map g).isComment w = t.isComment (w ∘ g) := by
  simp [isComment]

theorem ending_map (w : β → Wording) (g : α → β) (a : α) :
    ending w (g a) = (ending (w ∘ g) a).map (Piece.map g) := by
  by_cases h : (w (g a)).own = "" <;> simp [ending, h, Piece.map]

mutual

/-- Printing commutes with relabelling. -/
theorem pieces_map (w : β → Wording) (g : α → β) (semicolon visible : Bool) : (t : Tree α) →
    (t.map g).pieces w semicolon visible =
      (t.pieces (w ∘ g) semicolon visible).map (Piece.map g)
  | .leaf a => by simp [map, pieces, Piece.map]
  | .block a ts => by
    simp only [map, pieces, piecesAll_map w g _ _ ts, Function.comp_apply]
    split
    · simp
    · simp [ending_map, opening, Piece.map]

theorem piecesAll_map (w : β → Wording) (g : α → β) (semicolon visible : Bool) :
    (ts : List (Tree α)) → piecesAll w semicolon visible (mapAll g ts) =
      (piecesAll (w ∘ g) semicolon visible ts).map (Piece.map g)
  | [] => rfl
  | t :: ts => by
    have hany : (mapAll g ts).any (!·.isComment w) = ts.any (!·.isComment (w ∘ g)) := by
      simp [mapAll_eq, List.any_map, Function.comp_def, isComment_map]
    have hempty : (mapAll g ts).isEmpty = ts.isEmpty := by simp [mapAll_eq]
    simp [mapAll, piecesAll, pieces_map w g _ _ t, piecesAll_map w g _ _ ts, hany, hempty]

end

end Tree

end Stylesheet
