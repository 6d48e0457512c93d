import Stylesheet.Proofs.Text.Offsets
import Mathlib.Data.List.DropRight
import Mathlib.Data.Nat.Digits.Defs

/-!
# The lines around an error

`Snippet.Shows` says what the snippet of a range of offsets looks like, by the text in front of the
range and the text inside of it alone: which lines are shown and under which numbers, where the
first caret stands, and how many there are. `Input.snippet_error`: the snippet of an error looks
like that.
-/

set_option autoImplicit false

namespace Stylesheet

open Stylesheet.Text

variable {line cs front rest marked : List Char} {o stop : Nat}

/-! ## Places -/

/-- The line behind whole lines goes on as far as the next line break. -/
theorem getElem?_parts {lines : List Char} (h : IsLines lines) (cs : List Char) :
    (parts '\n' (lines ++ cs))[lines.count '\n']? = some (cs.takeWhile (· ≠ '\n')) := by
  induction lines with
  | nil =>
    rw [List.nil_append, List.count_nil]
    induction cs with
    | nil => rfl
    | cons c cs ih =>
      have hfirst : (cut '\n' cs).1 = cs.takeWhile (· ≠ '\n') := by simpa [parts] using ih
      by_cases hc : c = '\n' <;> simp [parts, cut_cons, hc, hfirst]
  | cons c lines ih =>
    have hpos : 0 < (c :: lines).count '\n' := by
      rcases h with hnil | hlast
      · cases hnil
      · exact List.count_pos_iff.2 (List.mem_of_getLast? hlast)
    have hrest := ih h.tail
    rw [List.cons_append, parts, cut_cons]
    by_cases hc : c = '\n'
    · simpa [hc] using hrest
    · rw [List.count_cons_of_ne hc] at hpos ⊢
      obtain ⟨n, hn⟩ := Nat.exists_eq_add_of_lt hpos
      rw [Nat.zero_add] at hn
      simpa [hc, hn, parts] using hrest

/-- The offset cuts the text behind `front`: a character starts there, or the offset lies inside of
it, or the text ends. -/
structure CutAt (o : Nat) (front rest : List Char) : Prop where
  le : byteSize front ≤ o
  lt : ∀ c ∈ rest.head?, o < byteSize front + c.utf8Size

namespace Position

/-- Two offsets cut a text into three. -/
theorem exists_cut (text : List Char) (h : o ≤ stop) :
    ∃ front marked rest, text = front ++ (marked ++ rest) ∧ CutAt o front (marked ++ rest) ∧
      CutAt stop (front ++ marked) rest ∧ ofOffset text o = start.after front ∧
      ofOffset text stop = start.after (front ++ marked) := by
  obtain ⟨front, behind, htext, hstart, hle, hlt⟩ := exists_ofOffset text o
  obtain ⟨front', rest, htext', hstop, hle', hlt'⟩ := exists_ofOffset text stop
  obtain ⟨marked, rfl⟩ : ∃ marked, front' = front ++ marked := by
    rcases List.append_eq_append_iff.1 (htext.symm.trans htext') with
      ⟨more, rfl, -⟩ | ⟨more, rfl, hrest⟩
    · exact ⟨more, rfl⟩
    · cases more with
      | nil => exact ⟨[], by simp⟩
      | cons c more =>
        -- otherwise more characters end before the smaller offset than before the greater one
        have := hlt' c (by rw [hrest]; rfl)
        rw [byteSize_append, byteSize_cons] at hle
        omega
  rw [List.append_assoc] at htext'
  obtain rfl : behind = marked ++ rest := List.append_cancel_left (htext.symm.trans htext')
  exact ⟨front, marked, rest, htext', ⟨hle, hlt⟩, ⟨hle', hlt'⟩, hstart, hstop⟩

/-- The lines in front of a place are counted by their breaks. -/
theorem line_after (cs : List Char) : (start.after cs).line = cs.count '\n' + 1 := by
  obtain ⟨lines, line, rfl, hlines, hline⟩ := exists_lines cs
  rw [after_start hlines hline, List.count_append, List.count_eq_zero.2 hline, Nat.add_zero]

end Position

namespace Snippet

/-! ## What a snippet looks like -/

/-- A line without the carriage returns at its end. -/
def shown (line : List Char) : List Char := line.rdropWhile (· = '\r')

/-- A line behind its mark and its number, which is set flush right. -/
def numbered (mark : Char) (width number : Nat) (line : List Char) : List Char :=
  mark :: ((toString number).toList.leftpad (width + 1) ' ' ++ (" | ".toList ++ line))

/-- The lines with their numbers, from two above line `n` to two below it. -/
def around (n : Nat) (text : List Char) : List (List Char × Nat) :=
  (((parts '\n' text).map shown).zipIdx 1).filter fun l => l.2 ≤ n + 2 ∧ n ≤ l.2 + 2

/-- How many carets stand below a range: one for each of its characters, but one only if there is
none or a line break is among them. -/
def carets (marked : List Char) : Nat := if marked = [] ∨ '\n' ∈ marked then 1 else marked.length

/-- What is left of a text without its colour sequences, each from an escape character to the next
`m`. `inside` says whether one is going on. -/
def uncolored : (inside : Bool) → List Char → List Char
  | _, [] => []
  | true, c :: cs => uncolored (c != 'm') cs
  | false, c :: cs => if c = '\x1b' then uncolored true cs else c :: uncolored false cs

/-- The snippet of the range from `start` to `stop`. The text is cut into `front`, the `marked`
range and the `rest`; `line` is the reported line as it is shown, and `pad` stands below it in front of
the carets. -/
structure Shows (text : List Char) (start stop : Nat) (snippet : Style → String)
    (front marked rest line pad : List Char) (width : Nat) : Prop where
  split : text = front ++ (marked ++ rest)
  start : CutAt start front (marked ++ rest)
  stop : CutAt stop (front ++ marked) rest
  /-- The reported line is the one that the range starts in. -/
  reported : (line, front.count '\n' + 1) ∈ around (front.count '\n' + 1) text
  rows : parts '\n' (snippet .plain).toList =
    (around (front.count '\n' + 1) text).flatMap fun l =>
      if l.2 = front.count '\n' + 1 then
        [numbered '>' width l.2 l.1, pad ++ List.replicate (carets marked) '^']
      else [numbered ' ' width l.2 l.1]
  /-- There is room for all numbers, so all lines start in one column. -/
  room : ∀ l ∈ around (front.count '\n' + 1) text, (toString l.2).length ≤ width
  /-- The first caret comes behind the padding. -/
  free : '^' ∉ pad
  /-- The padding has its tabs below those of the reported line. -/
  tabs : pad.map (· == '\t') =
    ((numbered '>' width (front.count '\n' + 1) line).take pad.length).map (· == '\t')
  /-- Above the first caret, the reported line goes on as the text does behind `front`. -/
  caret : (numbered '>' width (front.count '\n' + 1) line).drop pad.length =
    shown ((marked ++ rest).takeWhile (· ≠ '\n'))
  /-- The first character of the range stands there, unless the range starts in the carriage
  returns at the end of a line, or in the line break. -/
  visible : (∃ c ∈ (marked ++ rest).takeWhile (· ≠ '\n'), c ≠ '\r') →
    (numbered '>' width (front.count '\n' + 1) line)[pad.length]? = (marked ++ rest).head?
  colors : '\x1b' ∉ text → uncolored false (snippet .color).toList = (snippet .plain).toList

/-! ## Numbers -/

theorem toList_toString (n : Nat) : (toString n).toList = Nat.toDigits 10 n := by
  rw [Nat.toString_eq_ofList_toDigits, String.toList_ofList]

theorem isDigit_of_mem {n : Nat} {c : Char} (h : c ∈ (toString n).toList) : c.isDigit = true :=
  Nat.isDigit_of_mem_toDigits (by decide) (by decide) (toList_toString n ▸ h)

/-- A greater number has no fewer digits. -/
theorem length_toString_mono {m n : Nat} (h : m ≤ n) :
    (toString m).length ≤ (toString n).length := by
  rw [← String.length_toList, ← String.length_toList, toList_toString, toList_toString,
    Nat.length_toDigits_le_iff (by decide) Nat.length_toDigits_pos]
  exact Nat.lt_of_le_of_lt h
    ((Nat.length_toDigits_le_iff (by decide) Nat.length_toDigits_pos).1 (Nat.le_refl _))

/-- The elements with a number above `a`, as far as `b`, are a part of the list. -/
theorem filter_zipIdx {α : Type} (all : List α) (a b : Nat) :
    (all.zipIdx 1).filter (fun l => a < l.2 ∧ l.2 ≤ b) = ((all.take b).drop a).zipIdx (a + 1) := by
  have hbehind : ((all.drop b).zipIdx (1 + (all.take b).length)).filter
      (fun l => a < l.2 ∧ l.2 ≤ b) = [] := by
    refine List.filter_eq_nil_iff.2 fun l hl => ?_
    have hle := List.le_snd_of_mem_zipIdx hl
    have hlt := List.snd_lt_of_mem_zipIdx hl
    rw [List.length_drop, List.length_take] at *
    rw [decide_eq_true_eq]
    omega
  have hfront : (((all.take b).take a).zipIdx 1).filter (fun l => a < l.2 ∧ l.2 ≤ b) = [] := by
    refine List.filter_eq_nil_iff.2 fun l hl => ?_
    have hlt := List.snd_lt_of_mem_zipIdx hl
    rw [List.length_take] at hlt
    rw [decide_eq_true_eq]
    omega
  have hinner : (((all.take b).drop a).zipIdx (1 + ((all.take b).take a).length)).filter
      (fun l => a < l.2 ∧ l.2 ≤ b) = ((all.take b).drop a).zipIdx (a + 1) := by
    by_cases hlen : (all.take b).length ≤ a
    · rw [List.drop_eq_nil_of_le hlen]
      rfl
    · rw [List.length_take_of_le (Nat.le_of_not_le hlen), Nat.add_comm 1 a, List.filter_eq_self]
      intro l hl
      have hle := List.le_snd_of_mem_zipIdx hl
      have hlt := List.snd_lt_of_mem_zipIdx hl
      rw [List.length_drop, List.length_take] at hlt
      rw [decide_eq_true_eq]
      omega
  conv =>
    lhs
    rw [← List.take_append_drop b all, List.zipIdx_append, List.filter_append, hbehind,
      List.append_nil, ← List.take_append_drop a (all.take b), List.zipIdx_append,
      List.filter_append, hfront, hinner]
  rfl

/-! ## Rows -/

variable {width number column : Nat} {mark c : Char}

/-- What stands in front of the carets. -/
def margin (width number : Nat) (line : List Char) (column : Nat) : List Char :=
  ' ' :: ((blankGutter width number).toList ++ (padding line column).toList)

theorem gutter_eq (h : (toString number).length ≤ width) :
    (gutter width number).toList =
      (toString number).toList.leftpad (width + 1) ' ' ++ " | ".toList := by
  have hpad : width + 1 - (toString number).toList.length =
      width - (toString number).length + 1 := by
    rw [String.length_toList]
    omega
  rw [List.leftpad, hpad, List.replicate_succ, gutter]
  simp only [String.toList_append, String.toList_ofList]
  rfl

/-- The reported line up to a column, and from there on. -/
theorem numbered_eq (h : (toString number).length ≤ width) (mark : Char) (line : List Char)
    (column : Nat) : numbered mark width number line =
      (mark :: ((gutter width number).toList ++ line.take (column - 1))) ++
        line.drop (column - 1) := by
  rw [numbered, gutter_eq h, List.cons_append, List.append_assoc, List.append_assoc,
    List.take_append_drop]

theorem mem_gutter (h : c ∈ (gutter width number).toList) :
    c = ' ' ∨ c = '|' ∨ c.isDigit = true := by
  simp only [gutter, String.toList_append, List.mem_append, String.toList_ofList,
    List.mem_replicate] at h
  rcases h with ((h | h) | h) | h
  · exact .inl (List.mem_singleton.1 h)
  · exact .inl h.2
  · exact .inr (.inr (isDigit_of_mem h))
  · have hbar : (" | ".toList.all fun d => d == ' ' || d == '|') = true := by decide
    have hc := List.all_eq_true.1 hbar c h
    rw [Bool.or_eq_true, beq_iff_eq, beq_iff_eq] at hc
    exact hc.imp_right .inl

theorem mem_numbered (h : c ∈ numbered mark width number line)
    (hw : (toString number).length ≤ width) :
    c = mark ∨ c = ' ' ∨ c = '|' ∨ c.isDigit = true ∨ c ∈ line := by
  rw [numbered_eq hw mark line 1, List.cons_append, List.mem_cons, List.append_assoc,
    List.take_append_drop, List.mem_append] at h
  rcases h with h | h | h
  · exact .inl h
  · rcases mem_gutter h with h | h | h <;> simp [h]
  · simp [h]

theorem mem_margin (h : c ∈ margin width number line column) : c = ' ' ∨ c = '|' ∨ c = '\t' := by
  rw [margin, List.mem_cons, List.mem_append] at h
  rcases h with h | h | h
  · exact .inl h
  · rw [blankGutter, String.toList_ofList, List.mem_map] at h
    obtain ⟨d, hd, rfl⟩ := h
    rcases mem_gutter hd with rfl | rfl | hdigit
    · exact .inl rfl
    · exact .inr (.inl rfl)
    · exact .inl (if_pos hdigit)
  · rw [padding, String.toList_ofList, List.mem_map] at h
    obtain ⟨d, -, rfl⟩ := h
    split
    · exact .inr (.inr rfl)
    · exact .inl rfl

theorem not_mem_margin (h : c ≠ ' ' ∧ c ≠ '|' ∧ c ≠ '\t') : c ∉ margin width number line column := by
  intro hmem
  rcases mem_margin hmem with hc | hc | hc
  · exact h.1 hc
  · exact h.2.1 hc
  · exact h.2.2 hc

theorem length_margin (mark : Char) : (margin width number line column).length =
    (mark :: ((gutter width number).toList ++ line.take (column - 1))).length := by
  simp [margin, blankGutter, padding]

/-- Above the margin stands the line up to the column, with its tabs above those of the margin. -/
theorem tabs_margin (h : (toString number).length ≤ width) (hmark : mark ≠ '\t') :
    (margin width number line column).map (· == '\t') = ((numbered mark width number line).take
      (margin width number line column).length).map (· == '\t') := by
  have hgutter (c : Char) (hc : c ∈ (gutter width number).toList) :
      ((if c.isDigit then ' ' else c) == '\t') = (c == '\t') := by
    rcases mem_gutter hc with rfl | rfl | hdigit
    · rfl
    · rfl
    · have hne : c ≠ '\t' := by
        rintro rfl
        exact absurd hdigit (by decide)
      simp [hdigit, hne]
  have hpadding (c : Char) : ((if c = '\t' then '\t' else ' ') == '\t') = (c == '\t') := by
    by_cases hc : c = '\t' <;> simp [hc]
  rw [numbered_eq h mark line column, length_margin mark, List.take_left, List.map_cons,
    List.map_append, beq_false_of_ne hmark]
  simp only [margin, blankGutter, padding, String.toList_ofList, List.map_cons, List.map_append,
    List.map_map, Function.comp_def, hpadding, List.map_congr_left hgutter]
  rfl

/-- Above the first caret the line goes on from the column. -/
theorem drop_margin (h : (toString number).length ≤ width) (mark : Char) :
    (numbered mark width number line).drop (margin width number line column).length =
      line.drop (column - 1) := by
  rw [numbered_eq h mark line column, length_margin mark, List.drop_left]

theorem row_plain {t : Target} (hne : number ≠ t.line) (h : (toString number).length ≤ width) :
    (row .plain t width number line).toList = numbered ' ' width number line := by
  simp [row, hne, numbered, gutter_eq h, Style.aside]

theorem row_reported {t : Target} (h : (toString t.line).length ≤ width) :
    (row .plain t width t.line line).toList = numbered '>' width t.line line ++
      '\n' :: (margin width t.line line t.column ++ List.replicate t.carets '^') := by
  simp [row, numbered, gutter_eq h, Style.aside, Style.mark, margin]

/-! ## Lines -/

/-- A line that is shown from the end of `cs` on. -/
theorem drop_shown (cs ds : List Char) : (shown (cs ++ ds)).drop cs.length = shown ds := by
  unfold shown List.rdropWhile
  rw [List.reverse_append, List.dropWhile_append]
  split
  · next hnil =>
    rw [List.isEmpty_iff] at hnil
    rw [hnil, List.reverse_nil, List.drop_eq_nil_of_le]
    rw [List.length_reverse, ← cs.length_reverse]
    exact (List.dropWhile_suffix _).length_le
  · rw [List.reverse_append, List.reverse_reverse, List.drop_left]

/-- A line with other characters than carriage returns is shown with its first one. -/
theorem head?_shown (h : ∃ c ∈ cs, c ≠ '\r') : (shown cs).head? = cs.head? := by
  obtain ⟨ds, hds⟩ : shown cs <+: cs := List.rdropWhile_prefix _ _
  have hne : shown cs ≠ [] := by
    obtain ⟨c, hc, hcr⟩ := h
    intro hnil
    exact hcr (of_decide_eq_true (List.rdropWhile_eq_nil_iff.1 hnil c hc))
  conv => rhs; rw [← hds]
  cases hs : shown cs with
  | nil => exact absurd hs hne
  | cons c cs => rfl

theorem head?_takeWhile_of_ne_nil {p : Char → Bool} (h : cs.takeWhile p ≠ []) :
    (cs.takeWhile p).head? = cs.head? := by
  cases cs with
  | nil => rfl
  | cons c cs => by_cases hc : p c = true <;> simp_all

/-- The characters of a line are those of the text, without its line breaks. -/
theorem mem_line {text : List Char} {n : Nat} {l : List Char × Nat} (h : l ∈ around n text)
    (hc : c ∈ l.1) : c ∈ text ∧ c ≠ '\n' := by
  obtain ⟨line, k⟩ := l
  have hmem : line ∈ (parts '\n' text).map shown :=
    List.fst_mem_of_mem_zipIdx (List.mem_of_mem_filter h)
  obtain ⟨part, hpart, rfl⟩ := List.mem_map.1 hmem
  exact mem_of_mem_parts hpart ((List.rdropWhile_prefix _ _).subset hc)

theorem snd_le {text : List Char} {n : Nat} {l : List Char × Nat} (h : l ∈ around n text) :
    l.2 ≤ min (n + 2) ((parts '\n' text).map shown).length := by
  obtain ⟨hmem, hnear⟩ := List.mem_filter.1 h
  have hlt := List.snd_lt_of_mem_zipIdx hmem
  rw [decide_eq_true_eq] at hnear
  omega

/-- The lines that are cut out for a snippet are those around the reported one. -/
theorem around_eq {n : Nat} (hn : 1 ≤ n) (text : String) :
    (((lines text).take (min (n + context) (lines text).length)).drop (n - (context + 1))).zipIdx
      (n - (context + 1) + 1) = around n text.toList := by
  have hlines : lines text = (parts '\n' text.toList).map shown := rfl
  have htake : (lines text).take (min (n + context) (lines text).length) =
      (lines text).take (n + 2) := by
    rw [← List.take_take, List.take_length]
    rfl
  rw [htake, ← filter_zipIdx, hlines, around]
  refine List.filter_congr fun l hl => ?_
  have hle := List.le_snd_of_mem_zipIdx hl
  rw [decide_eq_decide, show context = 2 from rfl]
  omega

/-- There is one line under each number. -/
theorem fst_eq {text cs ds : List Char} {n k : Nat} (h : (cs, k) ∈ around n text)
    (h' : (ds, k) ∈ around n text) : cs = ds := by
  have hget := (List.mk_mem_zipIdx_iff_le_and_getElem?_sub.1 (List.mem_of_mem_filter h)).2
  have hget' := (List.mk_mem_zipIdx_iff_le_and_getElem?_sub.1 (List.mem_of_mem_filter h')).2
  exact Option.some.inj (hget.symm.trans hget')

/-- **The rows of a snippet**: one for each line around the reported one, and the carets below
that. -/
theorem parts_render {t : Target} (ht : 1 ≤ t.line) {text : String} {line : List Char}
    (hline : (line, t.line) ∈ around t.line text.toList) :
    ∃ width, (∀ l ∈ around t.line text.toList, (toString l.2).length ≤ width) ∧
      parts '\n' (render .plain t text).toList = (around t.line text.toList).flatMap fun l =>
        if l.2 = t.line then [numbered '>' width l.2 l.1,
          margin width t.line line t.column ++ List.replicate t.carets '^']
        else [numbered ' ' width l.2 l.1] := by
  have hroom : ∀ l ∈ around t.line text.toList, (toString l.2).length ≤
      (toString (min (t.line + context) (lines text).length)).length :=
    fun l hl => length_toString_mono (snd_le hl)
  refine ⟨_, hroom, ?_⟩
  unfold render
  simp only
  generalize (toString (min (t.line + context) (lines text).length)).length = width at hroom ⊢
  rw [around_eq ht, String.toList_intercalate, List.map_map,
    show "\n".toList = ['\n'] from rfl, parts_intercalate (by simpa using List.ne_nil_of_mem hline),
    List.flatMap_map]
  refine List.flatMap_congr fun ⟨cs, number⟩ hl => ?_
  have hfit := hroom _ hl
  have hplain {mark : Char} (hmark : mark ≠ '\n') :
      ∀ c ∈ numbered mark width number cs, c ≠ '\n' := by
    rintro c hc rfl
    rcases mem_numbered hc hfit with h | h | h | h | h
    · exact hmark h.symm
    · exact absurd h (by decide)
    · exact absurd h (by decide)
    · exact absurd h (by decide)
    · exact (mem_line hl h).2 rfl
  simp only [Function.comp_apply]
  split
  · next heq =>
    subst heq
    obtain rfl := fst_eq hl hline
    have hcarets : ∀ c ∈ margin width t.line cs t.column ++ List.replicate t.carets '^',
        c ≠ '\n' := by
      rintro c hc rfl
      rcases List.mem_append.1 hc with hc | hc
      · exact not_mem_margin (by decide) hc
      · exact absurd (List.eq_of_mem_replicate hc) (by decide)
    rw [row_reported hfit, parts_append, parts_of_forall_ne (hplain (by decide)),
      parts_of_forall_ne hcarets]
    rfl
  · next hne => rw [row_plain hne hfit, parts_of_forall_ne (hplain (by decide))]

/-! ## Colours -/

/-- Without its colour sequences the text is `plain`, whatever follows. -/
def Erases (colored plain : List Char) : Prop :=
  ∀ behind, uncolored false (colored ++ behind) = plain ++ uncolored false behind

theorem erases_of_not_mem (h : '\x1b' ∉ cs) : Erases cs cs := by
  intro behind
  induction cs with
  | nil => rfl
  | cons c cs ih =>
    rw [List.mem_cons, not_or] at h
    rw [List.cons_append, uncolored, if_neg (Ne.symm h.1), ih h.2]
    rfl

theorem Erases.append {cs ps ds qs : List Char} (h : Erases cs ps) (h' : Erases ds qs) :
    Erases (cs ++ ds) (ps ++ qs) := by
  intro behind
  rw [List.append_assoc, h, h', List.append_assoc]

theorem Erases.eq {cs ps : List Char} (h : Erases cs ps) : uncolored false cs = ps := by
  simpa [uncolored] using h []

/-- A text between colour sequences. -/
theorem erases_between {start text : String} (hstart : Erases start.toList [])
    (h : '\x1b' ∉ text.toList) : Erases (start ++ text ++ "\x1b[0m").toList text.toList := by
  have hend : Erases "\x1b[0m".toList [] := fun _ => rfl
  rw [String.toList_append, String.toList_append]
  simpa using (hstart.append (erases_of_not_mem h)).append hend

theorem erases_mark {text : String} (h : '\x1b' ∉ text.toList) :
    Erases (Style.color.mark text).toList (Style.plain.mark text).toList :=
  erases_between (fun _ => rfl) h

theorem erases_aside {text : String} (h : '\x1b' ∉ text.toList) :
    Erases (Style.color.aside text).toList (Style.plain.aside text).toList :=
  erases_between (fun _ => rfl) h

theorem erases_intercalate {α : Type} {f g : α → List Char} (sep : List Char)
    (hsep : '\x1b' ∉ sep) : (as : List α) → (∀ a ∈ as, Erases (f a) (g a)) →
    Erases (sep.intercalate (as.map f)) (sep.intercalate (as.map g))
  | [], _ => fun _ => rfl
  | [a], h => by simpa using h a (.head _)
  | a :: b :: as, h => by
    have hrest := erases_intercalate sep hsep (b :: as) fun c hc => h c (.tail _ hc)
    simp only [List.map_cons, List.intercalate_cons_cons] at hrest ⊢
    exact ((h a (.head _)).append (erases_of_not_mem hsep)).append hrest

theorem erases_row {t : Target} (h : '\x1b' ∉ line) : Erases (row .color t width number line).toList
    (row .plain t width number line).toList := by
  have hgutter : '\x1b' ∉ (gutter width number).toList := by
    intro hmem
    rcases mem_gutter hmem with h | h | h <;> exact absurd h (by decide)
  have hmargin (n : Nat) : '\x1b' ∉ margin width number line n := not_mem_margin (by decide)
  have hblank : '\x1b' ∉ (blankGutter width number).toList :=
    fun hmem => hmargin 0 (.tail _ (List.mem_append_left _ hmem))
  have hpadding (n : Nat) : '\x1b' ∉ (padding line n).toList :=
    fun hmem => hmargin n (.tail _ (List.mem_append_right _ hmem))
  have hline : '\x1b' ∉ (String.ofList line).toList := String.toList_ofList.symm ▸ h
  have hcarets (n : Nat) : '\x1b' ∉ (String.ofList (List.replicate n '^')).toList := by
    rw [String.toList_ofList]
    exact fun hmem => absurd (List.eq_of_mem_replicate hmem) (by decide)
  unfold row
  split
  · simp only [String.toList_append]
    exact ((((((erases_mark (by decide)).append (erases_aside hgutter)).append
      (erases_of_not_mem hline)).append (erases_of_not_mem (by decide))).append
      (erases_aside hblank)).append (erases_of_not_mem (hpadding _))).append
      (erases_mark (hcarets _))
  · simp only [String.toList_append]
    exact ((erases_of_not_mem (by decide)).append (erases_aside hgutter)).append
      (erases_of_not_mem hline)

/-- **The coloured snippet** is the plain one with colour sequences. -/
theorem uncolored_render {t : Target} (ht : 1 ≤ t.line) {text : String}
    (h : '\x1b' ∉ text.toList) :
    uncolored false (render .color t text).toList = (render .plain t text).toList := by
  refine Erases.eq ?_
  unfold render
  simp only
  rw [around_eq ht, String.toList_intercalate, String.toList_intercalate, List.map_map,
    List.map_map]
  exact erases_intercalate _ (by decide) _ fun l hl => erases_row fun hmem => h (mem_line hl hmem).1

end Snippet

/-! ## The snippet of an error -/

open Snippet

/-- **The target of a range**: its line and column are those of its start, and the carets those of
its characters. -/
theorem Input.target_error (i : Input) (reason : String) {lines line marked : List Char}
    (hlines : IsLines lines) (hline : '\n' ∉ line)
    (hstart : i.position o = Position.start.after (lines ++ line))
    (hstop : i.position stop = Position.start.after (lines ++ line ++ marked)) :
    (i.error reason o (some stop)).target (lines.count '\n' + 1) =
      ⟨lines.count '\n' + 1, line.length + 1, carets marked⟩ := by
  rw [Position.after_start hlines hline] at hstart
  unfold SourceError.target error errorAt
  simp only [hstart, hstop, Option.map_some, Option.getD_some,
    Nat.max_eq_left (Nat.succ_le_succ (Nat.zero_le line.length))]
  rw [Target.mk.injEq]
  refine ⟨rfl, rfl, ?_⟩
  by_cases hbreak : '\n' ∈ marked
  · have hpos : 0 < marked.count '\n' := List.count_pos_iff.2 hbreak
    have hone : carets marked = 1 := if_pos (.inr hbreak)
    rw [hone, Position.line_after, List.count_append, List.count_append, if_neg (by omega)]
  · have hmore : '\n' ∉ line ++ marked := by simp [hline, hbreak]
    rw [List.append_assoc, Position.after_start hlines hmore, carets]
    by_cases hnil : marked = []
    · simp [hnil]
    · have hlength : 0 < marked.length := List.length_pos_iff.2 hnil
      have hone : ¬(marked = [] ∨ '\n' ∈ marked) := not_or.2 ⟨hnil, hbreak⟩
      have hafter : line.length + 1 < line.length + marked.length + 1 := by omega
      have hcount : line.length + marked.length + 1 - (line.length + 1) = marked.length := by omega
      rw [if_neg hone, List.length_append]
      exact (if_pos ⟨rfl, hafter⟩).trans hcount

/-- **The snippet of an error** in a range of offsets, of any text. -/
theorem Input.snippet_error (i : Input) (reason : String) (h : o ≤ stop) :
    ∃ front marked rest line pad width, Shows i.text.toList o stop
      (i.error reason o (some stop)).snippet front marked rest line pad width := by
  obtain ⟨front, marked, rest, htext, hcut, hcut', hstart, hstop⟩ :=
    Position.exists_cut i.text.toList h
  obtain ⟨lines, line, rfl, hlines, hline⟩ := exists_lines front
  have hcount : (lines ++ line).count '\n' = lines.count '\n' := by
    rw [List.count_append, List.count_eq_zero.2 hline, Nat.add_zero]
  have htarget := i.target_error reason hlines hline hstart hstop
  have hsnippet (style : Style) : (i.error reason o (some stop)).snippet style =
      render style ⟨lines.count '\n' + 1, line.length + 1, carets marked⟩ i.text := by
    have hposition : (i.position o).line = lines.count '\n' + 1 := by
      rw [position, hstart, Position.line_after, hcount]
    rw [← htarget, ← hposition]
    rfl
  -- the reported line, as it goes on behind the start of the range
  let behind := (marked ++ rest).takeWhile (· ≠ '\n')
  have hget : (parts '\n' i.text.toList)[lines.count '\n']? = some (line ++ behind) := by
    rw [htext, List.append_assoc, getElem?_parts hlines, List.takeWhile_append_of_pos]
    simpa using fun c hc => ne_of_mem_of_not_mem hc hline
  have hreported : (shown (line ++ behind), lines.count '\n' + 1) ∈
      around (lines.count '\n' + 1) i.text.toList := by
    refine List.mem_filter.2 ⟨?_, decide_eq_true (by omega)⟩
    rw [List.mk_mem_zipIdx_iff_le_and_getElem?_sub]
    simp [hget]
  obtain ⟨width, hroom, hrows⟩ := parts_render
    (t := ⟨lines.count '\n' + 1, line.length + 1, carets marked⟩) (Nat.le_add_left 1 _) hreported
  have hfit := hroom _ hreported
  have hdrop : (numbered '>' width (lines.count '\n' + 1) (shown (line ++ behind))).drop
      (margin width (lines.count '\n' + 1) (shown (line ++ behind)) (line.length + 1)).length =
      shown behind := by
    rw [drop_margin hfit, Nat.add_sub_cancel, drop_shown]
  refine ⟨lines ++ line, marked, rest, shown (line ++ behind),
    margin width (lines.count '\n' + 1) (shown (line ++ behind)) (line.length + 1), width, ?_⟩
  refine ⟨htext, hcut, hcut', ?_, ?_, ?_, ?_, ?_, ?_, ?_, ?_⟩ <;> try rw [hcount]
  · exact hreported
  · rw [hsnippet]
    exact hrows
  · exact hroom
  · exact not_mem_margin (by decide)
  · exact tabs_margin hfit (by decide)
  · exact hdrop
  · intro hvisible
    rw [← List.head?_drop, hdrop, head?_shown hvisible]
    exact head?_takeWhile_of_ne_nil (List.ne_nil_of_mem hvisible.choose_spec.1)
  · intro hplain
    rw [hsnippet, hsnippet, uncolored_render (Nat.le_add_left 1 _) hplain]

/-- Line 9 of ten, with a tab in front of the range, two bytes in one of its characters, and a
carriage return behind it. -/
theorem Input.snippet_error_tab :
    let i : Input := ⟨"1\n2\n3\n4\n5\n6\n7\n8\n\taéb\r\n10", none, "", false, none⟩
    17 ≤ 20 ∧ (i.error "" 17 (some 20)).snippet .plain =
        "   7 | 7\n   8 | 8\n>  9 | \taéb\n     | \t^^\n  10 | 10" ∧
      ∃ front marked rest line pad width, Shows i.text.toList 17 20
        (i.error "" 17 (some 20)).snippet front marked rest line pad width := by
  intro i
  exact ⟨by decide, by decide +kernel, i.snippet_error "" (by decide)⟩

end Stylesheet
