import Stylesheet.Proofs.Parse.Layout
import Stylesheet.Proofs.Parse.Parts

/-!
# What is printed of parts

A part has the tokens that its node was read from, and they are what is printed of the node:
`Tree.Printed` says that the slots of the nodes hold their tokens, `Tree.Flagged` which statements a
semicolon follows.
-/

set_option autoImplicit false

namespace Stylesheet

open Stylesheet.Text Stylesheet.Tree Stylesheet.Spelling

namespace Part

/-- The tokens of a node without a block are what is printed of it. -/
def LeafPrinted (a : Part) : Prop :=
  chars a.gap ++ chars a.body =
    (a.node.wording.slot "before").toList ++ (a.node.wording.leaf false).toList

/-- The tokens that open a block are what is printed there. -/
structure HeadPrinted (a : Part) : Prop where
  before : chars a.gap = (a.node.wording.slot "before").toList
  opening : chars a.body = (Tree.opening Parsed.wording a.node).text.toList

/-- The tokens that open and end a block are what is printed there. -/
structure BlockPrinted (a : Part) : Prop extends HeadPrinted a where
  after : chars a.tail = (a.node.wording.slot "after").toList
  own : chars a.own = a.node.wording.own.toList
  bare : a.node.raws.get? "ownSemicolon" = none → a.own = []

end Part

namespace Tree

/-- The tree is a statement, not a comment. -/
def isSolid (t : Tree Part) : Bool := t.label.data.kind ≠ .comment

theorem isSolid_iff {t : Tree Part} : t.isSolid = true ↔ t.label.data.kind ≠ .comment :=
  decide_eq_true_iff

/-- A semicolon follows the last statement without a block as `semicolon` says, and each of those
before it. None follows a comment. -/
def Flagged (semicolon : Bool) : List (Tree Part) → Prop
  | [] => True
  | t :: ts =>
    (∀ a, t = .leaf a → a.closed = (t.isSolid && (semicolon || ts.any isSolid))) ∧
      Flagged semicolon ts

mutual

/-- The tokens of the tree are what is printed of it. -/
def Printed : Tree Part → Prop
  | .leaf a => a.LeafPrinted
  | .block a ts => a.BlockPrinted ∧ Flagged a.node.wording.closed ts ∧ PrintedAll ts

/-- The tokens of the trees are what is printed of them. -/
def PrintedAll : List (Tree Part) → Prop
  | [] => True
  | t :: ts => Printed t ∧ PrintedAll ts

end

variable {safe : Prop} {inner semicolon : Bool} {tail : List Spelling} {t : Tree Part}
  {ts us : List (Tree Part)}

theorem printedAll_append : PrintedAll (ts ++ us) ↔ PrintedAll ts ∧ PrintedAll us := by
  induction ts with
  | nil => simp [PrintedAll]
  | cons t ts ih => simp [PrintedAll, ih, and_assoc]

theorem Settled.closed (h : t.Settled safe) : ∀ a, t = .leaf a → a.closed = t.isSolid := by
  rintro a rfl
  have ha : a.Settled := h
  rw [Bool.eq_iff_iff, isSolid_iff]
  exact ha.closed

/-- Statements that end in semicolons, before another statement. -/
theorem Flagged.append (h : ∀ t ∈ ts, t.Settled safe) (hu : Flagged semicolon us)
    (hs : us.any isSolid = true) : Flagged semicolon (ts ++ us) := by
  induction ts with
  | nil => exact hu
  | cons t ts ih =>
    obtain ⟨ht, hts⟩ := List.forall_mem_cons.1 h
    rw [List.cons_append]
    refine ⟨fun a ha => ?_, ih hts⟩
    rw [ht.closed a ha, List.any_append, hs, Bool.or_true, Bool.or_true, Bool.and_true]

/-- Comments behind statements change nothing. -/
theorem Flagged.comments (h : Flagged semicolon ts)
    (hu : ∀ u ∈ us, u.Settled safe ∧ u.isSolid = false) : Flagged semicolon (ts ++ us) := by
  have hany : us.any isSolid = false := by simpa using fun u hmem => (hu u hmem).2
  induction ts with
  | nil =>
    clear h hany
    induction us with
    | nil => trivial
    | cons u us ih =>
      obtain ⟨⟨hu, hcomment⟩, hus⟩ := List.forall_mem_cons.1 hu
      refine ⟨fun a ha => ?_, ih hus⟩
      rw [hu.closed a ha, hcomment, Bool.false_and]
  | cons t ts ih =>
    rw [List.cons_append]
    refine ⟨fun a ha => ?_, ih h.2⟩
    rw [h.1 a ha, List.any_append, hany, Bool.or_false]

end Tree

end Stylesheet
