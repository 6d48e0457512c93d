import Stylesheet.Input
import Stylesheet.Proofs.SourceMap.Places
import Stylesheet.Text.Cut
import Mathlib.Data.Prod.Lex
import Mathlib.Order.Bounds.Basic

/-!
# Offsets, lines and columns

`Input.position` goes from a byte offset to a line and column, `Input.offsetOf` goes back. Both are
told by the text in front of the place: `exists_ofOffset` says that a position is that of the longest
run of whole characters up to the offset, `offsetOf_append` that the offset of a line and column is
the size of the lines before it and of the characters in front of the column. `position_offsetOf`
puts the two together: they undo each other, on every line as far as its line break, and positions
stand in the order of their offsets.
-/

set_option autoImplicit false

namespace Stylesheet

open Stylesheet.Text

variable {text front lines line rest cs : List Char} {offset o n column : Nat}

/-- A character starts at the offset, or the text ends there. -/
def IsBoundary (text : List Char) (offset : Nat) : Prop :=
  ∃ front rest, text = front ++ rest ∧ offset = byteSize front

/-! ## Lines -/

/-- A text of whole lines: it is empty or ends in a line break. -/
def IsLines (cs : List Char) : Prop := cs = [] ∨ cs.getLast? = some '\n'

theorem IsLines.tail {c : Char} (h : IsLines (c :: cs)) : IsLines cs := by
  cases cs with
  | nil => exact .inl rfl
  | cons d cs => exact .inr (by simpa [IsLines, List.getLast?_cons_cons] using h)

theorem IsLines.cons_newline (h : IsLines cs) : IsLines ('\n' :: cs) := by
  rcases h with rfl | h
  · exact .inr rfl
  · exact .inr (by rw [List.getLast?_cons, h, Option.getD_some])

theorem IsLines.cons (h : IsLines cs) (hne : cs ≠ []) (c : Char) : IsLines (c :: cs) := by
  refine .inr ?_
  rw [List.getLast?_cons, h.resolve_left hne, Option.getD_some]

/-- Every text is whole lines and the start of another one. -/
theorem exists_lines (cs : List Char) :
    ∃ lines line, cs = lines ++ line ∧ IsLines lines ∧ '\n' ∉ line := by
  induction cs with
  | nil => exact ⟨[], [], rfl, .inl rfl, List.not_mem_nil⟩
  | cons c cs ih =>
    obtain ⟨lines, line, rfl, hlines, hline⟩ := ih
    by_cases hc : c = '\n'
    · exact ⟨c :: lines, line, rfl, hc ▸ hlines.cons_newline, hline⟩
    · by_cases hnil : lines = []
      · subst hnil
        exact ⟨[], c :: line, rfl, .inl rfl, by simp [hline, Ne.symm hc]⟩
      · exact ⟨c :: lines, line, rfl, hlines.cons hnil c, hline⟩

/-- The lines of a text, as they are cut at its line breaks. -/
theorem exists_of_parts (h : (parts '\n' text)[n]? = some line) :
    ∃ lines rest, text = lines ++ (line ++ rest) ∧ IsLines lines ∧ lines.count '\n' = n ∧
      '\n' ∉ line := by
  induction text generalizing n line with
  | nil =>
    obtain ⟨rfl, rfl⟩ : n = 0 ∧ line = [] := by
      cases n <;> simp_all [parts, cut]
    exact ⟨[], [], rfl, .inl rfl, rfl, List.not_mem_nil⟩
  | cons c cs ih =>
    by_cases hc : c = '\n'
    · have hparts : parts '\n' (c :: cs) = [] :: parts '\n' cs := by simp [parts, cut, hc]
      rw [hparts] at h
      cases n with
      | zero =>
        obtain rfl : [] = line := by simpa using h
        exact ⟨[], c :: cs, rfl, .inl rfl, rfl, List.not_mem_nil⟩
      | succ n =>
        obtain ⟨lines, rest, rfl, hlines, hcount, hline⟩ := ih (by simpa using h)
        exact ⟨c :: lines, rest, rfl, hc ▸ hlines.cons_newline, by simp [hc, hcount], hline⟩
    · have hparts : parts '\n' (c :: cs) = (c :: (cut '\n' cs).1) :: (cut '\n' cs).2 := by
        simp [parts, cut, hc]
      rw [hparts] at h
      cases n with
      | zero =>
        obtain rfl : c :: (cut '\n' cs).1 = line := by simpa using h
        obtain ⟨lines, rest, he, hlines, hcount, hline⟩ := ih (n := 0) (by simp [parts]; rfl)
        have hnil : lines = [] := by
          rcases hlines with hnil | hlast
          · exact hnil
          · exact absurd (List.mem_of_getLast? hlast) (List.count_eq_zero.1 hcount)
        subst hnil
        exact ⟨[], rest, congrArg (c :: ·) he, .inl rfl, rfl, by simp [hline, Ne.symm hc]⟩
      | succ n =>
        obtain ⟨lines, rest, rfl, hlines, hcount, hline⟩ := ih (n := n + 1) (by simpa [parts] using h)
        refine ⟨c :: lines, rest, rfl, hlines.cons ?_ c, by simp [hc, hcount], hline⟩
        rintro rfl
        cases hcount

/-! ## From offsets to positions -/

namespace Position

theorem counts_after {p : Position} (h : p.Counts) (cs : List Char) : (p.after cs).Counts := by
  induction cs generalizing p with
  | nil => exact h
  | cons c cs ih => exact ih (counts_next h c)

/-- **The position behind a text**: its line breaks and the characters behind the last of them are
counted from 1. -/
theorem after_start (hlines : IsLines lines) (hline : '\n' ∉ line) :
    start.after (lines ++ line) =
      ⟨lines.count '\n' + 1, line.length + 1, byteSize (lines ++ line)⟩ := by
  have hstart : start.Counts := ⟨Nat.le_refl 1, Nat.le_refl 1⟩
  obtain ⟨hplace, hoffset⟩ := after_spec hstart (lines ++ line)
  obtain ⟨hl, hc⟩ := counts_after hstart (lines ++ line)
  have hcolumn : columnOf (lines ++ line) = line.length := by
    have hall : ∀ c ∈ line.reverse, decide (c ≠ '\n') = true := by
      intro c hmem
      rw [decide_eq_true_iff]
      rintro rfl
      exact hline (List.mem_reverse.1 hmem)
    rw [columnOf, List.reverse_append, List.takeWhile_append_of_pos hall, List.length_append,
      List.length_reverse]
    rcases hlines with rfl | hlast
    · rfl
    · obtain ⟨front, rfl⟩ := List.getLast?_eq_some_iff.1 hlast
      simp
  rw [show start.place = OutputPlace.start from rfl, OutputPlace.afterChars_start, hcolumn,
    List.count_append, List.count_eq_zero.2 hline, Nat.add_zero] at hplace
  obtain ⟨hpline, hpcolumn⟩ := OutputPlace.mk.injEq .. ▸ hplace
  rw [show start.offset = 0 from rfl, Nat.zero_add] at hoffset
  generalize start.after (lines ++ line) = p at *
  obtain ⟨l, c, o⟩ := p
  simp only at hl hc hpline hpcolumn hoffset
  rw [Position.mk.injEq]
  omega

/-- Going on to an offset passes over whole characters, as many as there are up to it. -/
theorem exists_advance {p : Position} (hp : p.offset ≤ o) (cs : List Char) :
    ∃ front rest, cs = front ++ rest ∧ advance o p cs = p.after front ∧
      p.offset + byteSize front ≤ o ∧
      ∀ c ∈ rest.head?, o < p.offset + byteSize front + c.utf8Size := by
  induction cs generalizing p with
  | nil => exact ⟨[], [], rfl, rfl, hp, nofun⟩
  | cons c cs ih =>
    by_cases hc : p.offset + c.utf8Size ≤ o
    · obtain ⟨front, rest, rfl, hadvance, hle, hlt⟩ := ih (p := p.next c) (by rwa [offset_next])
      rw [offset_next] at hle hlt
      refine ⟨c :: front, rest, rfl, ?_, ?_, fun d hd => ?_⟩
      · rw [advance, if_pos hc, hadvance]
        rfl
      · rw [byteSize_cons]
        omega
      · have := hlt d hd
        rw [byteSize_cons]
        omega
    · refine ⟨[], c :: cs, rfl, by rw [advance, if_neg hc]; rfl, hp, fun d hd => ?_⟩
      obtain rfl : c = d := Option.some.inj hd
      rw [byteSize_nil]
      omega

/-- **The position of an offset** is the one behind the characters that end at or before it. -/
theorem exists_ofOffset (text : List Char) (o : Nat) :
    ∃ front rest, text = front ++ rest ∧ ofOffset text o = start.after front ∧
      byteSize front ≤ o ∧ ∀ c ∈ rest.head?, o < byteSize front + c.utf8Size := by
  simpa [start, ofOffset] using exists_advance (p := start) (Nat.zero_le o) text

end Position

/-! ## From positions to offsets -/

theorem fromLine_append (hlines : IsLines lines) (hcount : lines.count '\n' = n)
    (rest : List Char) (offset : Nat) :
    fromLine (lines ++ rest) offset n = some (rest, offset + byteSize lines) := by
  induction lines generalizing n offset with
  | nil =>
    obtain rfl : n = 0 := by simpa using hcount.symm
    simp [fromLine]
  | cons c lines ih =>
    have hpos : 0 < (c :: lines).count '\n' := by
      rcases hlines with hnil | hlast
      · cases hnil
      · exact List.count_pos_iff.2 (List.mem_of_getLast? hlast)
    obtain ⟨m, rfl⟩ := Nat.exists_eq_succ_of_ne_zero (by omega : n ≠ 0)
    rw [List.cons_append, fromLine, byteSize_cons, ← Nat.add_assoc]
    by_cases hc : c = '\n'
    · rw [if_pos hc]
      exact ih hlines.tail (by simpa [hc] using hcount) _
    · rw [if_neg hc]
      exact ih hlines.tail (by simpa [hc] using hcount) _

theorem offsetAfter_append {cs : List Char} (hne : rest ≠ []) :
    offsetAfter (cs ++ rest) offset cs.length = some (offset + byteSize cs) := by
  induction cs generalizing offset with
  | nil =>
    cases rest with
    | nil => exact absurd rfl hne
    | cons c rest => simp [offsetAfter]
  | cons c cs ih =>
    rw [List.cons_append, List.length_cons, offsetAfter, ih, byteSize_cons, Nat.add_assoc]

theorem offsetAfter_length (cs : List Char) (offset : Nat) :
    offsetAfter cs offset cs.length = none := by
  induction cs generalizing offset with
  | nil => rfl
  | cons c cs ih => exact ih _

/-- **The offset of a line and column** is the size of the text in front of it. -/
theorem offsetOf_append (hlines : IsLines lines) (line rest : List Char) :
    offsetOf (lines ++ (line ++ rest)) (lines.count '\n' + 1) (line.length + 1) =
      byteSize (lines ++ line) := by
  unfold offsetOf
  rw [Nat.add_sub_cancel, Nat.add_sub_cancel, fromLine_append hlines rfl]
  simp only [Nat.zero_add]
  by_cases hnil : rest = []
  · rw [hnil, List.append_nil, offsetAfter_length, Option.getD_none]
  · rw [offsetAfter_append hnil, Option.getD_some, byteSize_append]

/-! ## Back and forth -/

namespace Input

/-- The character boundaries up to an offset end at that of its position. -/
theorem isGreatest_offset (i : Input) (o : Nat) :
    IsGreatest {b | IsBoundary i.text.toList b ∧ b ≤ min o (byteSize i.text.toList)}
      (i.position o).offset := by
  obtain ⟨front, rest, htext, hposition, hle, hlt⟩ := Position.exists_ofOffset i.text.toList o
  obtain ⟨lines, line, rfl, hlines, hline⟩ := exists_lines front
  have hoffset : (i.position o).offset = byteSize (lines ++ line) := by
    rw [position, hposition, Position.after_start hlines hline]
  rw [hoffset]
  constructor
  · refine ⟨⟨_, rest, htext, rfl⟩, ?_⟩
    rw [htext, byteSize_append (lines ++ line)]
    omega
  · rintro _ ⟨⟨front', rest', htext', rfl⟩, hb⟩
    -- a longer run of characters would reach beyond the offset
    rcases List.append_eq_append_iff.1 (htext.symm.trans htext') with
      ⟨more, rfl, hrest⟩ | ⟨more, hfront, -⟩
    · cases more with
      | nil => rw [List.append_nil]
      | cons c more =>
        have := hlt c (by rw [hrest]; rfl)
        rw [byteSize_append, byteSize_cons] at hb
        omega
    · rw [hfront, byteSize_append]
      omega

theorem offsetOf_position (i : Input) (o : Nat) :
    i.offsetOf (i.position o).line (i.position o).column = (i.position o).offset := by
  obtain ⟨front, rest, htext, hposition, -, -⟩ := Position.exists_ofOffset i.text.toList o
  obtain ⟨lines, line, rfl, hlines, hline⟩ := exists_lines front
  rw [position, hposition, Position.after_start hlines hline, offsetOf, htext, List.append_assoc]
  exact offsetOf_append hlines line rest

/-- The position behind a text is found at its size. -/
theorem position_of_append {i : Input} (htext : i.text.toList = front ++ rest) :
    i.position (byteSize front) = Position.start.after front := by
  have h := Position.advance_append Position.start front rest
  rw [show Position.start.offset = 0 from rfl, Nat.zero_add] at h
  rw [position, htext, Position.ofOffset, h]

/-- A place on a line, up to its line break, is the place of an offset. -/
theorem position_offsetOf_of_line {i : Input} (hline : (parts '\n' i.text.toList)[n]? = some line)
    (hc : 1 ≤ column) (hle : column ≤ line.length + 1) :
    (i.position (i.offsetOf (n + 1) column)).line = n + 1 ∧
      (i.position (i.offsetOf (n + 1) column)).column = column := by
  obtain ⟨lines, rest, htext, hlines, rfl, hmem⟩ := exists_of_parts hline
  obtain ⟨k, rfl⟩ := Nat.exists_eq_add_of_le' hc
  have hlength : (line.take k).length = k := List.length_take_of_le (by omega)
  have hfront : '\n' ∉ line.take k := fun h => hmem (List.mem_of_mem_take h)
  rw [← List.take_append_drop k line, List.append_assoc] at htext
  have hoffset : i.offsetOf (lines.count '\n' + 1) (k + 1) = byteSize (lines ++ line.take k) := by
    have h := offsetOf_append hlines (line.take k) (line.drop k ++ rest)
    rw [hlength, ← htext] at h
    exact h
  rw [← List.append_assoc] at htext
  rw [hoffset, position_of_append htext, Position.after_start hlines hfront, hlength]
  exact ⟨rfl, rfl⟩

/-- Positions stand in the order of their offsets. -/
theorem position_strictMonoOn (i : Input) :
    StrictMonoOn (fun o => toLex ((i.position o).line, (i.position o).column))
      {o | IsBoundary i.text.toList o} := by
  rintro _ ⟨front, rest, htext, rfl⟩ _ ⟨front', rest', htext', rfl⟩ hlt
  obtain ⟨more, rfl⟩ : ∃ more, front' = front ++ more := by
    rcases List.append_eq_append_iff.1 (htext.symm.trans htext') with
      ⟨more, rfl, -⟩ | ⟨more, rfl, -⟩
    · exact ⟨more, rfl⟩
    · rw [byteSize_append] at hlt
      omega
  obtain ⟨c, more, rfl⟩ : ∃ c more', more = c :: more' := by
    apply List.exists_cons_of_ne_nil
    rintro rfl
    rw [List.append_nil] at hlt
    exact Nat.lt_irrefl _ hlt
  have hstart : Position.start.Counts := ⟨Nat.le_refl 1, Nat.le_refl 1⟩
  have hplace := (Position.after_spec hstart front).1
  have hplace' := (Position.after_spec hstart (front ++ c :: more)).1
  have hbefore := OutputPlace.before_afterChars (OutputPlace.start.afterChars front) c more
  rw [← OutputPlace.afterChars_append, ← show Position.start.place = OutputPlace.start from rfl,
    ← hplace, ← hplace'] at hbefore
  have hcounts := Position.counts_after hstart front
  have hcounts' := Position.counts_after hstart (front ++ c :: more)
  simp only [Prod.Lex.toLex_lt_toLex]
  rw [position_of_append htext, position_of_append htext']
  unfold OutputPlace.Before Position.place at hbefore
  unfold Position.Counts at hcounts hcounts'
  simp only at hbefore ⊢
  omega

/-- **Offsets and positions.** The position of an offset is that of the last character boundary up to
it, and leads back there. The line and column of a place on a line, up to its line break, are found
again at its offset. Positions stand in the order of their offsets. -/
theorem position_offsetOf (i : Input) :
    (∀ o, i.offsetOf (i.position o).line (i.position o).column = (i.position o).offset ∧
      IsGreatest {b | IsBoundary i.text.toList b ∧ b ≤ min o (byteSize i.text.toList)}
        (i.position o).offset) ∧
    (∀ n line, (parts '\n' i.text.toList)[n]? = some line →
      ∀ column, 1 ≤ column → column ≤ line.length + 1 →
        (i.position (i.offsetOf (n + 1) column)).line = n + 1 ∧
          (i.position (i.offsetOf (n + 1) column)).column = column) ∧
    StrictMonoOn (fun o => toLex ((i.position o).line, (i.position o).column))
      {o | IsBoundary i.text.toList o} :=
  ⟨fun o => ⟨i.offsetOf_position o, i.isGreatest_offset o⟩,
    fun _ _ hline _ hc hle => position_offsetOf_of_line hline hc hle, i.position_strictMonoOn⟩

/-- An offset inside a character, the end of the second line, and the start of that character before
the end of the text. -/
theorem position_offsetOf_accented :
    let i : Input := ⟨"a\né", none, "", false, none⟩
    i.offsetOf (i.position 3).line (i.position 3).column = 2 ∧
      IsGreatest {b | IsBoundary i.text.toList b ∧ b ≤ 3} 2 ∧
      (parts '\n' i.text.toList)[1]? = some ['é'] ∧
      (i.position (i.offsetOf 2 2)).line = 2 ∧ (i.position (i.offsetOf 2 2)).column = 2 ∧
      IsBoundary i.text.toList 2 ∧ IsBoundary i.text.toList 4 ∧
      toLex ((i.position 2).line, (i.position 2).column) <
        toLex ((i.position 4).line, (i.position 4).column) := by
  intro i
  have htext : i.text.toList = ['a', '\n', 'é'] := by decide
  have hline : (parts '\n' i.text.toList)[1]? = some ['é'] := by decide
  have hstart : IsBoundary i.text.toList 2 := ⟨['a', '\n'], ['é'], htext, by decide⟩
  have hend : IsBoundary i.text.toList 4 := ⟨['a', '\n', 'é'], [], htext, by decide⟩
  obtain ⟨hinside, hlines, hmono⟩ := position_offsetOf i
  obtain ⟨hback, hgreatest⟩ := hinside 3
  rw [show (i.position 3).offset = 2 by decide] at hback hgreatest
  rw [show min 3 (byteSize i.text.toList) = 3 by decide] at hgreatest
  obtain ⟨hl, hc⟩ := hlines 1 ['é'] hline 2 (by decide) (by decide)
  exact ⟨hback, hgreatest, hline, hl, hc, hstart, hend, hmono hstart hend (by decide)⟩

end Input

end Stylesheet
