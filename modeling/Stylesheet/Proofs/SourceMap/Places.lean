import Stylesheet.Proofs.Parse.Layout
import Stylesheet.SourceMap.Mapping
import Mathlib.Data.List.Induction

/-!
# Places of a text that is its own output

A character of the input and the same character of the output are counted by different functions:
`Position.ofOffset` and `Position.ofLast` go over the input to a byte offset, `OutputPlace.after`
over the text that was written. `ofOffset_append` and `ofLast_append` say that they agree.
-/

set_option autoImplicit false

namespace Stylesheet

open Stylesheet.Text

/-- The character that starts at a byte offset. -/
def charAt? : List Char → Nat → Option Char
  | [], _ => none
  | c :: cs, offset =>
    if offset = 0 then some c
    else if offset < c.utf8Size then none
    else charAt? cs (offset - c.utf8Size)

theorem charAt?_append (cs : List Char) (c : Char) (rest : List Char) :
    charAt? (cs ++ c :: rest) (byteSize cs) = some c := by
  induction cs with
  | nil => simp [charAt?]
  | cons d cs ih =>
    have := d.utf8Size_pos
    rw [List.cons_append, charAt?, byteSize_cons, if_neg (by omega), if_neg (by omega),
      Nat.add_sub_cancel_left, ih]

/-- A position of an input, counted as a place of the output. -/
def Position.place (p : Position) : OutputPlace := ⟨p.line - 1, p.column - 1⟩

/-- The place behind characters. -/
def OutputPlace.afterChars (p : OutputPlace) (cs : List Char) : OutputPlace := cs.foldl next p

theorem OutputPlace.after_eq (p : OutputPlace) (text : String) :
    p.after text = p.afterChars text.toList := rfl

theorem OutputPlace.afterChars_append (p : OutputPlace) (cs ds : List Char) :
    p.afterChars (cs ++ ds) = (p.afterChars cs).afterChars ds := List.foldl_append

/-- Within a line every character takes one column. -/
theorem OutputPlace.afterChars_concat {c : Char} (hc : c ≠ '\n') (p : OutputPlace)
    (cs : List Char) :
    p.afterChars (cs ++ [c]) = ⟨(p.afterChars cs).line, (p.afterChars cs).col + 1⟩ := by
  rw [afterChars_append]
  exact if_neg hc

/-- The place stands before another one of the same text. -/
def OutputPlace.Before (p q : OutputPlace) : Prop :=
  p.line < q.line ∨ (p.line = q.line ∧ p.col < q.col)

theorem OutputPlace.before_next (p : OutputPlace) (c : Char) : p.Before (p.next c) := by
  unfold next
  split
  · exact .inl (Nat.lt_succ_self _)
  · exact .inr ⟨rfl, Nat.lt_succ_self _⟩

theorem OutputPlace.Before.trans {p q r : OutputPlace} (h : p.Before q) (h' : q.Before r) :
    p.Before r := by
  unfold Before at *
  omega

/-- Every character leads to a later place. -/
theorem OutputPlace.before_afterChars (p : OutputPlace) (c : Char) (cs : List Char) :
    p.Before (p.afterChars (c :: cs)) := by
  induction cs generalizing p c with
  | nil => exact p.before_next c
  | cons d cs ih => exact (p.before_next c).trans (ih (p.next c) d)

/-- The number of characters behind the last line break. -/
def columnOf (cs : List Char) : Nat := (cs.reverse.takeWhile (· ≠ '\n')).length

/-- **The place behind a text** that starts the output: its line breaks are counted, and the
characters behind the last one. -/
theorem OutputPlace.afterChars_start (cs : List Char) :
    OutputPlace.start.afterChars cs = ⟨cs.count '\n', columnOf cs⟩ := by
  induction cs using List.reverseRecOn with
  | nil => rfl
  | append_singleton cs c ih =>
    rw [afterChars_append, ih]
    show next _ c = _
    unfold next columnOf
    rw [List.reverse_append]
    by_cases hc : c = '\n'
    · simp [hc]
    · simp [hc, List.count_append]

namespace Position

/-- The position behind characters. -/
def after (p : Position) (cs : List Char) : Position := cs.foldl next p

/-- Lines and columns count from 1. -/
def Counts (p : Position) : Prop := 1 ≤ p.line ∧ 1 ≤ p.column

theorem counts_next {p : Position} (h : p.Counts) (c : Char) : (p.next c).Counts := by
  unfold Counts at h ⊢
  unfold next
  split
  · exact ⟨by simp, by simp⟩
  · exact ⟨h.1, by simp⟩

theorem place_next {p : Position} (h : p.Counts) (c : Char) :
    (p.next c).place = p.place.next c := by
  unfold Counts at h
  unfold next OutputPlace.next
  split
  · simp only [place, OutputPlace.mk.injEq, and_true]
    omega
  · simp only [place, OutputPlace.mk.injEq, true_and]
    omega

theorem offset_next (p : Position) (c : Char) : (p.next c).offset = p.offset + c.utf8Size := by
  by_cases hc : c = '\n' <;> simp [next, hc]

theorem after_spec {p : Position} (h : p.Counts) (cs : List Char) :
    (p.after cs).place = p.place.afterChars cs ∧ (p.after cs).offset = p.offset + byteSize cs := by
  induction cs generalizing p with
  | nil => exact ⟨rfl, rfl⟩
  | cons c cs ih =>
    obtain ⟨hplace, hoffset⟩ := ih (counts_next h c)
    refine ⟨?_, ?_⟩
    · show ((p.next c).after cs).place = _
      rw [hplace, place_next h]
      rfl
    · show ((p.next c).after cs).offset = _
      rw [hoffset, offset_next, byteSize_cons, Nat.add_assoc]

/-- Going on to an offset stops at the character there. -/
theorem advance_append (p : Position) (cs rest : List Char) :
    advance (p.offset + byteSize cs) p (cs ++ rest) = p.after cs := by
  induction cs generalizing p with
  | nil =>
    cases rest with
    | nil => rfl
    | cons c rest =>
      have := c.utf8Size_pos
      simp only [List.nil_append, advance, byteSize_nil, Nat.add_zero]
      rw [if_neg (by omega)]
      rfl
  | cons c cs ih =>
    have := ih (p.next c)
    rw [offset_next] at this
    rw [List.cons_append, advance, byteSize_cons, if_pos (by omega), ← Nat.add_assoc, this]
    rfl

theorem advanceOver_append (p : Position) (cs : List Char) (c : Char) (rest : List Char) :
    advanceOver (p.offset + byteSize cs) p (cs ++ c :: rest) =
      { p.after cs with offset := (p.after cs).offset + c.utf8Size } := by
  induction cs generalizing p with
  | nil =>
    have := c.utf8Size_pos
    simp only [List.nil_append, advanceOver, byteSize_nil, Nat.add_zero]
    rw [if_neg (by omega)]
    rfl
  | cons d cs ih =>
    have := ih (p.next d)
    rw [offset_next] at this
    rw [List.cons_append, advanceOver, byteSize_cons, if_pos (by omega), ← Nat.add_assoc, this]
    rfl

/-- The position of the character behind `cs`. -/
theorem ofOffset_append (cs rest : List Char) :
    (ofOffset (cs ++ rest) (byteSize cs)).place = OutputPlace.start.afterChars cs ∧
      (ofOffset (cs ++ rest) (byteSize cs)).offset = byteSize cs := by
  have h := advance_append start cs rest
  rw [show start.offset = 0 from rfl, Nat.zero_add] at h
  have hspec := after_spec (p := start) ⟨Nat.le_refl 1, Nat.le_refl 1⟩ cs
  rw [ofOffset, h]
  simpa [start, place, OutputPlace.start] using hspec

/-- The position of the character behind `cs` as the last one of a node. -/
theorem ofLast_append (cs : List Char) (c : Char) (rest : List Char) :
    (ofLast (cs ++ c :: rest) (byteSize cs)).place = OutputPlace.start.afterChars cs := by
  have h := advanceOver_append start cs c rest
  rw [show start.offset = 0 from rfl, Nat.zero_add] at h
  have hspec := after_spec (p := start) ⟨Nat.le_refl 1, Nat.le_refl 1⟩ cs
  rw [ofLast, h]
  simpa [start, place, OutputPlace.start] using hspec.1

/-- The position of the last character of a node has the offset behind it. -/
theorem offset_ofLast_append (cs : List Char) (c : Char) (rest : List Char) :
    (ofLast (cs ++ c :: rest) (byteSize cs)).offset = byteSize (cs ++ [c]) := by
  have h := advanceOver_append start cs c rest
  rw [show start.offset = 0 from rfl, Nat.zero_add] at h
  have hspec := (after_spec (p := start) ⟨Nat.le_refl 1, Nat.le_refl 1⟩ cs).2
  rw [ofLast, h, byteSize_append, hspec]
  simp [start]

end Position

/-! ## The place of an offset -/

/-- The place of a byte offset of a text. -/
def placeAt (text : List Char) (offset : Nat) : OutputPlace := (Position.ofOffset text offset).place

theorem placeAt_append (cs rest : List Char) :
    placeAt (cs ++ rest) (byteSize cs) = OutputPlace.start.afterChars cs :=
  (Position.ofOffset_append cs rest).1

/-- A character starts at the offset. -/
def IsStart (text : List Char) (offset : Nat) : Prop :=
  ∃ front c rest, text = front ++ c :: rest ∧ offset = byteSize front

/-- What stands behind a text does not move its characters. -/
theorem IsStart.placeAt_append {text : List Char} {offset : Nat} (h : IsStart text offset)
    (more : List Char) : placeAt (text ++ more) offset = placeAt text offset := by
  obtain ⟨front, c, rest, rfl, rfl⟩ := h
  rw [List.append_assoc, Stylesheet.placeAt_append, Stylesheet.placeAt_append]

/-- A character is found as the last one of a node where it is found as the first one. -/
theorem IsStart.ofLast {text : List Char} {offset : Nat} (h : IsStart text offset) :
    (Position.ofLast text offset).place = placeAt text offset := by
  obtain ⟨front, c, rest, rfl, rfl⟩ := h
  rw [Position.ofLast_append, Stylesheet.placeAt_append]

/-- **The order of offsets is the order of places.** -/
theorem IsStart.before {text : List Char} {m n : Nat} (hm : IsStart text m) (hn : IsStart text n)
    (h : m < n) : (placeAt text m).Before (placeAt text n) := by
  obtain ⟨front, c, rest, rfl, rfl⟩ := hm
  obtain ⟨front', c', rest', he, rfl⟩ := hn
  rw [Stylesheet.placeAt_append, he, Stylesheet.placeAt_append]
  rcases List.append_eq_append_iff.1 he with ⟨middle, rfl, -⟩ | ⟨middle, rfl, -⟩
  · cases middle with
    | nil =>
      rw [List.append_nil] at h
      exact absurd h (Nat.lt_irrefl _)
    | cons d middle =>
      rw [OutputPlace.afterChars_append]
      exact OutputPlace.before_afterChars _ d middle
  · rw [byteSize_append] at h
    omega

end Stylesheet
