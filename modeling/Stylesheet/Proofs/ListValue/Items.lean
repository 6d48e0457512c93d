import Stylesheet.ListValue
import Stylesheet.Proofs.Parse.Comment
import Mathlib.Data.List.DropRight

/-!
# The items of a list

`texts` are the items that a list is split into, as characters. `texts_append` reads off the first
of them and `texts_of_whole` the only one; what stands between them and around them is separators
and blanks (`flatMap_core_texts`). Each item is trimmed and holds no separator that counts, and each
but the last reads to the end of its piece, or to a backslash whose blank was trimmed away
(`read_of_mem_dropLast`).

`AreItems.texts_join_iff` says which of such items are read back when they are joined by a separator
and blanks, `texts_join_of_fill` that items as a caller writes them (`IsItem`) always are, and
`texts_comma_join_iff` behind which commas.
-/

set_option autoImplicit false

namespace Stylesheet

open Stylesheet.Text

namespace Text

variable {cs w : List Char}

/-- A text is what trimming leaves, between blanks. -/
theorem exists_trimChars (cs : List Char) : ∃ a b, cs = a ++ trimChars cs ++ b ∧
    (∀ c ∈ a, isBlank c = true) ∧ ∀ c ∈ b, isBlank c = true := by
  by_cases h : trimChars cs = []
  · exact ⟨cs, [], by rw [h, List.append_nil, List.append_nil], all_isBlank_of_trimChars h, nofun⟩
  · refine ⟨_, _, (trimChars_append h).symm, List.all_eq_true.1 List.all_takeWhile, fun c hc => ?_⟩
    exact List.all_eq_true.1 List.all_takeWhile c (List.mem_reverse.1 hc)

/-- Blanks in front of a text are trimmed away. -/
theorem trimChars_blank_append (hw : ∀ c ∈ w, isBlank c = true)
    (cs : List Char) : trimChars (w ++ cs) = trimChars cs := by
  rw [trimChars, List.dropWhile_append_of_pos hw, trimChars]

theorem trimChars_of_blank (hw : ∀ c ∈ w, isBlank c = true) :
    trimChars w = [] := by
  rw [← List.append_nil w, trimChars_blank_append hw]
  rfl

/-- What is left of a text that starts with no blank starts with none. -/
theorem dropWhile_trimRight (h : cs.dropWhile isBlank = cs) :
    (trimRight cs).dropWhile isBlank = trimRight cs := by
  obtain ⟨b, hb⟩ : trimRight cs <+: cs := List.rdropWhile_prefix isBlank _
  generalize trimRight cs = r at hb ⊢
  subst hb
  rw [List.dropWhile_eq_self_iff] at h ⊢
  intro hl
  have hhead := h (by rw [List.length_append]; omega)
  rwa [List.getElem_append_left hl] at hhead

theorem trimChars_trimChars (cs : List Char) : trimChars (trimChars cs) = trimChars cs := by
  have hright : trimRight (trimRight (cs.dropWhile isBlank)) = trimRight (cs.dropWhile isBlank) :=
    List.rdropWhile_idempotent isBlank _
  rw [trimChars, trimChars, dropWhile_trimRight (List.dropWhile_idempotent isBlank cs), hright]

end Text

namespace ListValue

/-! ## Reading -/

namespace Nesting

variable {n : Nesting} {c : Char}

/-- Reads a text. -/
def read (n : Nesting) (cs : List Char) : Nesting := cs.foldl step n

@[simp] theorem read_nil (n : Nesting) : n.read [] = n := rfl

@[simp] theorem read_cons (n : Nesting) (c : Char) (cs : List Char) :
    n.read (c :: cs) = (n.step c).read cs := rfl

@[simp] theorem read_append (n : Nesting) (cs ds : List Char) :
    n.read (cs ++ ds) = (n.read cs).read ds := List.foldl_append

/-- Behind a backslash, outside of quotes and parentheses. -/
def escape : Nesting := ⟨true, none, 0⟩

/-- If a quote is open, it is one of the two that there are. -/
def IsSound (n : Nesting) : Prop := ∀ q, n.quote = some q → isStructural q = true

theorem isSound_top : top.IsSound := nofun

theorem IsSound.step (h : n.IsSound) (c : Char) : (n.step c).IsSound := by
  unfold Nesting.step
  split
  · exact h
  split
  · exact h
  split
  · split
    · exact nofun
    · exact h
  · split
    · next hc =>
      rintro q ⟨⟩
      simp only [Bool.or_eq_true, decide_eq_true_eq] at hc
      rcases hc with rfl | rfl <;> decide
    · split
      · exact h
      · split <;> exact h

theorem IsSound.read (h : n.IsSound) (cs : List Char) : (n.read cs).IsSound := by
  induction cs generalizing n with
  | nil => exact h
  | cons c cs ih => exact ih (h.step c)

/-- A character that is not structural only ends an escape. -/
theorem IsSound.step_plain (h : n.IsSound) (hc : isStructural c = false) :
    n.step c = { n with escaped := false } := by
  obtain ⟨escaped, quote, depth⟩ := n
  simp only [isStructural, Bool.or_eq_false_iff, decide_eq_false_iff_not] at hc
  cases escaped <;> cases quote with
  | none => simp [Nesting.step, hc]
  | some q =>
    have hq := h q rfl
    have hne : c ≠ q := by
      rintro rfl
      simp [isStructural, hc] at hq
    simp [Nesting.step, hc, hne]

theorem isStructural_of_isBlank (h : isBlank c = true) : isStructural c = false := by
  rw [← Bool.not_eq_true]
  intro hs
  simp only [isStructural, Bool.or_eq_true, decide_eq_true_eq] at hs
  rcases hs with (((rfl | rfl) | rfl) | rfl) | rfl <;> revert h <;> decide

theorem IsSound.read_blanks (h : n.IsSound) {w : List Char} (hw : ∀ c ∈ w, isBlank c = true)
    (hne : w ≠ []) : n.read w = { n with escaped := false } := by
  induction w generalizing n with
  | nil => exact absurd rfl hne
  | cons c w ih =>
    obtain ⟨hc, hw⟩ := List.forall_mem_cons.1 hw
    rw [read_cons, h.step_plain (isStructural_of_isBlank hc)]
    by_cases hnil : w = []
    · rw [hnil, read_nil]
    · rw [ih (show IsSound { n with escaped := false } from h) hw hnil]

/-- Blanks at the top level do not change the nesting. -/
theorem top_read_blanks {w : List Char} (hw : ∀ c ∈ w, isBlank c = true) : top.read w = top := by
  by_cases hnil : w = []
  · rw [hnil, read_nil]
  · exact isSound_top.read_blanks hw hnil

/-- Trimming a text that ends at the top level leaves one that does, or one that ends in a backslash
whose blank is gone. -/
theorem read_trimChars {cs : List Char} (h : top.read cs = top) :
    top.read (trimChars cs) = top ∨ top.read (trimChars cs) = escape := by
  obtain ⟨a, b, hcs, ha, hb⟩ := exists_trimChars cs
  rw [hcs, read_append, read_append, top_read_blanks ha] at h
  have hsound := isSound_top.read (trimChars cs)
  generalize top.read (trimChars cs) = n at h hsound
  by_cases hnil : b = []
  · rw [hnil, read_nil] at h
    exact .inl h
  · rw [hsound.read_blanks hb hnil] at h
    obtain ⟨escaped, quote, depth⟩ := n
    obtain ⟨-, rfl, rfl⟩ := Nesting.mk.injEq .. ▸ h
    cases escaped
    · exact .inl rfl
    · exact .inr rfl

end Nesting

/-! ## Separators that count -/

variable {separators cs ds s w x : List Char} {n : Nesting} {c : Char} {last : Bool}

/-- No character of the text separates where it is read from `n` on. -/
def Whole (separators : List Char) (n : Nesting) (cs : List Char) : Prop :=
  ∀ front c rest, cs = front ++ c :: rest → separates separators (n.read front) c = false

theorem whole_nil (separators : List Char) (n : Nesting) : Whole separators n [] := by
  intro front c rest h
  cases front <;> cases h

theorem whole_cons : Whole separators n (c :: cs) ↔
    separates separators n c = false ∧ Whole separators (n.step c) cs := by
  constructor
  · exact fun h => ⟨h [] c cs rfl, fun front d rest he => h (c :: front) d rest (by rw [he]; rfl)⟩
  · rintro ⟨hc, h⟩ front d rest he
    cases front with
    | nil =>
      cases he
      exact hc
    | cons e front =>
      obtain ⟨rfl, htail⟩ := List.cons.inj he
      exact h front d rest htail

instance decidableWhole (separators : List Char) :
    (n : Nesting) → (cs : List Char) → Decidable (Whole separators n cs)
  | n, [] => .isTrue (whole_nil separators n)
  | n, c :: cs =>
    have := decidableWhole separators (n.step c) cs
    decidable_of_iff _ whole_cons.symm

theorem whole_append : Whole separators n (cs ++ ds) ↔
    Whole separators n cs ∧ Whole separators (n.read cs) ds := by
  induction cs generalizing n with
  | nil => simp [whole_nil]
  | cons c cs ih => rw [List.cons_append, whole_cons, whole_cons, ih, Nesting.read_cons, and_assoc]

/-- Only at the top level a character separates. -/
theorem eq_top_of_separates (h : separates separators n c = true) : n = .top := by
  simp only [separates, Bool.and_eq_true, decide_eq_true_eq] at h
  exact h.1.1

/-- A text without a separator stays in one piece. -/
theorem pieces_of_whole (h : Whole separators n cs) (ds : List Char) :
    pieces separators n (cs ++ ds) = (cs ++ (pieces separators (n.read cs) ds).1,
      (pieces separators (n.read cs) ds).2) := by
  induction cs generalizing n with
  | nil => rfl
  | cons c cs ih =>
    obtain ⟨hc, h⟩ := whole_cons.1 h
    rw [List.cons_append, pieces, hc, ih h]
    rfl

theorem pieces_of_separates (h : separates separators n c = true) (cs : List Char) :
    pieces separators n (c :: cs) =
      ([], (pieces separators n cs).1 :: (pieces separators n cs).2) := by
  rw [pieces, h]
  rfl

/-- **The pieces of a text** hold no separator that counts, and each but the last ends at the top
level. -/
theorem pieces_spec (separators : List Char) (n : Nesting) (cs : List Char) :
    Whole separators n (pieces separators n cs).1 ∧
      ((pieces separators n cs).2 ≠ [] → n.read (pieces separators n cs).1 = .top) ∧
      (∀ p ∈ (pieces separators n cs).2, Whole separators .top p) ∧
      ∀ p ∈ (pieces separators n cs).2.dropLast, Nesting.top.read p = .top := by
  induction cs generalizing n with
  | nil => exact ⟨whole_nil _ _, fun h => absurd rfl h, nofun, nofun⟩
  | cons c cs ih =>
    obtain ⟨hfirst, hend, hothers, hends⟩ := ih (if separates separators n c then n else n.step c)
    by_cases hc : separates separators n c = true
    · obtain rfl := eq_top_of_separates hc
      rw [if_pos hc] at hfirst hend hothers hends
      rw [pieces_of_separates hc]
      refine ⟨whole_nil _ _, fun _ => rfl, List.forall_mem_cons.2 ⟨hfirst, hothers⟩, ?_⟩
      generalize pieces separators .top cs = r at *
      obtain ⟨p, _ | ⟨q, others⟩⟩ := r
      · nofun
      · exact List.forall_mem_cons.2 ⟨hend (List.cons_ne_nil _ _), hends⟩
    · rw [if_neg hc] at hfirst hend hothers hends
      rw [Bool.not_eq_true] at hc
      rw [pieces, hc]
      exact ⟨whole_cons.2 ⟨hc, hfirst⟩, hend, hothers, hends⟩

/-! ## Items -/

/-- The items that a text is split into. -/
def texts (separators : List Char) (last : Bool) (cs : List Char) : List (List Char) :=
  items last (pieces separators .top cs).1 (pieces separators .top cs).2

theorem split_eq (value : String) (separators : List Char) (last : Bool) :
    split value separators last = (texts separators last value.toList).map String.ofList := rfl

theorem map_ofList_eq_iff {cs : List (List Char)} {new : List String} :
    cs.map String.ofList = new ↔ cs = new.map String.toList := by
  have hof (cs : List (List Char)) : (cs.map String.ofList).map String.toList = cs := by
    simp [List.map_map, Function.comp_def]
  constructor
  · rintro rfl
    exact (hof cs).symm
  · rintro rfl
    simp [List.map_map, Function.comp_def]

/-- **The first item** is what stands before the first separator that counts. -/
theorem texts_append (hs : Whole separators .top s) (hclosed : Nesting.top.read s = .top)
    (hc : separates separators .top c = true) (cs : List Char) :
    texts separators last (s ++ c :: cs) =
      if s = [] then texts separators last cs else trimChars s :: texts separators last cs := by
  rw [texts, pieces_of_whole hs, hclosed, pieces_of_separates hc, List.append_nil, items]
  simp only [List.isEmpty_iff]
  rfl

/-- A text without a separator is the only item. -/
theorem texts_of_whole (hs : Whole separators .top s) :
    texts separators last s = if last = true ∨ s ≠ [] then [trimChars s] else [] := by
  have h := pieces_of_whole hs []
  rw [List.append_nil] at h
  rw [texts, h]
  simp [pieces, items]

/-- With the last text there is an item. -/
theorem texts_ne_nil (separators cs : List Char) : texts separators true cs ≠ [] := by
  rw [texts]
  generalize pieces separators .top cs = r
  obtain ⟨p, others⟩ := r
  induction others generalizing p with
  | nil => exact List.cons_ne_nil _ _
  | cons q others ih =>
    rw [items]
    split
    · exact ih q
    · exact List.cons_ne_nil _ _

/-- The characters that are neither blank nor separators. -/
def core (separators cs : List Char) : List Char :=
  cs.filter fun c => !isBlank c && !separators.contains c

theorem core_append (separators cs ds : List Char) :
    core separators (cs ++ ds) = core separators cs ++ core separators ds := List.filter_append ..

theorem core_blanks (separators : List Char) (hw : ∀ c ∈ w, isBlank c = true) :
    core separators w = [] :=
  List.filter_eq_nil_iff.2 fun c hc => by simp [hw c hc]

theorem core_trimChars (separators cs : List Char) :
    core separators (trimChars cs) = core separators cs := by
  obtain ⟨a, b, hcs, ha, hb⟩ := exists_trimChars cs
  conv => rhs; rw [hcs, core_append, core_append, core_blanks _ ha, core_blanks _ hb]
  rw [List.nil_append, List.append_nil]

theorem flatMap_core_pieces (separators : List Char) (n : Nesting) (cs : List Char) :
    core separators (pieces separators n cs).1 ++
      (pieces separators n cs).2.flatMap (core separators) = core separators cs := by
  induction cs generalizing n with
  | nil => rfl
  | cons c cs ih =>
    by_cases hc : separates separators n c = true
    · have hmem : c ∈ separators := List.contains_iff_mem.1 (Bool.and_eq_true_iff.1 hc).2
      rw [pieces_of_separates hc, List.flatMap_cons, ih]
      simp [core, hmem]
    · rw [Bool.not_eq_true] at hc
      rw [pieces, hc]
      have hcons (ds : List Char) : core separators (c :: ds) =
          core separators [c] ++ core separators ds := core_append separators [c] ds
      simp only [Bool.false_eq_true, if_false]
      rw [hcons, hcons cs, List.append_assoc, ih]

theorem flatMap_core_items (separators : List Char) (last : Bool) (p : List Char)
    (others : List (List Char)) : (items last p others).flatMap (core separators) =
      core separators p ++ others.flatMap (core separators) := by
  induction others generalizing p with
  | nil =>
    rw [items]
    split
    · simp [core_trimChars]
    · next h =>
      rw [Bool.not_eq_true, Bool.or_eq_false_iff, Bool.not_eq_false', List.isEmpty_iff] at h
      rw [h.2]
      rfl
  | cons q others ih =>
    rw [items]
    split
    · next h =>
      rw [List.isEmpty_iff.1 h, ih, List.flatMap_cons]
      rfl
    · rw [List.flatMap_cons, ih, core_trimChars, List.flatMap_cons]

/-- **Splitting takes away blanks and separators only.** -/
theorem flatMap_core_texts (separators : List Char) (last : Bool) (cs : List Char) :
    (texts separators last cs).flatMap (core separators) = core separators cs := by
  rw [texts, flatMap_core_items, flatMap_core_pieces]

/-- Each item is a piece without the blanks around it. -/
theorem exists_of_mem_items {p : List Char} {others : List (List Char)}
    (hs : s ∈ items last p others) : ∃ q ∈ p :: others, s = trimChars q := by
  induction others generalizing p with
  | nil =>
    rw [items] at hs
    split at hs
    · exact ⟨p, .head _, List.mem_singleton.1 hs⟩
    · cases hs
  | cons q others ih =>
    rw [items] at hs
    split at hs
    · obtain ⟨r, hr, he⟩ := ih hs
      exact ⟨r, .tail _ hr, he⟩
    · rcases List.mem_cons.1 hs with rfl | hs
      · exact ⟨p, .head _, rfl⟩
      · obtain ⟨r, hr, he⟩ := ih hs
        exact ⟨r, .tail _ hr, he⟩

/-- Each item but the last is a piece before the last one. -/
theorem exists_of_mem_dropLast_items {p : List Char} {others : List (List Char)}
    (hs : s ∈ (items last p others).dropLast) : ∃ q ∈ (p :: others).dropLast, s = trimChars q := by
  induction others generalizing p with
  | nil =>
    rw [items] at hs
    split at hs <;> cases hs
  | cons q others ih =>
    have htail (h : s ∈ (items last q others).dropLast) :
        ∃ r ∈ (p :: q :: others).dropLast, s = trimChars r := by
      obtain ⟨r, hr, he⟩ := ih h
      exact ⟨r, .tail _ hr, he⟩
    rw [items] at hs
    split at hs
    · exact htail hs
    · cases hitems : items last q others with
      | nil =>
        rw [hitems] at hs
        cases hs
      | cons y ys =>
        rw [hitems, List.dropLast_cons_cons] at hs
        rcases List.mem_cons.1 hs with rfl | hs
        · exact ⟨p, .head _, rfl⟩
        · exact htail (by rwa [hitems])

/-- **An item** is trimmed and holds no separator that counts. -/
theorem whole_of_mem_texts (hs : s ∈ texts separators last cs) :
    trimChars s = s ∧ Whole separators .top s := by
  obtain ⟨q, hq, rfl⟩ := exists_of_mem_items hs
  refine ⟨trimChars_trimChars q, ?_⟩
  obtain ⟨hfirst, -, hothers, -⟩ := pieces_spec separators .top cs
  have hwhole : Whole separators .top q := by
    rcases List.mem_cons.1 hq with rfl | hq
    · exact hfirst
    · exact hothers q hq
  obtain ⟨a, b, hsplit, ha, -⟩ := exists_trimChars q
  rw [hsplit, List.append_assoc, whole_append, Nesting.top_read_blanks ha, whole_append] at hwhole
  exact hwhole.2.1

/-- An item before the last one ends at the top level, unless it ends in a backslash whose blank was
trimmed away. -/
theorem read_of_mem_dropLast (hs : s ∈ (texts separators last cs).dropLast) :
    Nesting.top.read s = .top ∨ Nesting.top.read s = .escape := by
  obtain ⟨q, hq, rfl⟩ := exists_of_mem_dropLast_items hs
  apply Nesting.read_trimChars
  obtain ⟨-, hend, -, hends⟩ := pieces_spec separators .top cs
  generalize pieces separators .top cs = r at *
  obtain ⟨p, _ | ⟨q', others⟩⟩ := r
  · cases hq
  · rw [List.dropLast_cons_cons] at hq
    rcases List.mem_cons.1 hq with rfl | hq
    · exact hend (List.cons_ne_nil _ _)
    · exact hends q hq

/-! ## Joining -/

variable {b : List Char} {ss : List (List Char)}

/-- Blanks that do not separate. -/
def IsFill (separators w : List Char) : Prop :=
  ∀ d ∈ w, isBlank d = true ∧ separates separators .top d = false

theorem IsFill.isBlank (hw : IsFill separators w) : ∀ d ∈ w, isBlank d = true :=
  fun d hd => (hw d hd).1

theorem IsFill.read (hw : IsFill separators w) : Nesting.top.read w = .top :=
  Nesting.top_read_blanks hw.isBlank

theorem IsFill.whole (hw : IsFill separators w) : Whole separators .top w := by
  rintro front c rest rfl
  rw [Nesting.top_read_blanks fun d hd => hw.isBlank d (by simp [hd])]
  exact (hw c (by simp)).2

theorem IsFill.whole_append (hb : IsFill separators b) (hs : Whole separators .top s) :
    Whole separators .top (b ++ s) := by
  rw [ListValue.whole_append, hb.read]
  exact ⟨hb.whole, hs⟩

/-- The first item, behind blanks. -/
theorem IsFill.texts_append (hb : IsFill separators b) (hs : Whole separators .top s)
    (hclosed : Nesting.top.read s = .top) (hc : separates separators .top c = true)
    (cs : List Char) : texts separators last (b ++ (s ++ c :: cs)) =
      if b ++ s = [] then texts separators last cs
      else trimChars s :: texts separators last cs := by
  have hread : Nesting.top.read (b ++ s) = .top := by rw [Nesting.read_append, hb.read, hclosed]
  rw [← List.append_assoc, ListValue.texts_append (hb.whole_append hs) hread hc,
    trimChars_blank_append hb.isBlank]

theorem intercalate_merge (sep s s' : List Char) (ss : List (List Char)) :
    sep.intercalate (s :: s' :: ss) = sep.intercalate ((s ++ sep ++ s') :: ss) := by
  cases ss <;> simp [List.intercalate_cons_cons]

/-- What `whole_of_mem_texts` and `read_of_mem_dropLast` say of items: none holds a separator that
counts, and each but the last ends at the top level or in a backslash. -/
structure AreItems (separators : List Char) (ss : List (List Char)) : Prop where
  whole : ∀ x ∈ ss, Whole separators .top x
  ends : ∀ x ∈ ss.dropLast, Nesting.top.read x = .top ∨ Nesting.top.read x = .escape

namespace AreItems

variable {s' : List Char}

theorem of_texts (separators : List Char) (last : Bool) (cs : List Char) :
    AreItems separators (texts separators last cs) :=
  ⟨fun _ hx => (whole_of_mem_texts hx).2, fun _ hx => read_of_mem_dropLast hx⟩

theorem tail (h : AreItems separators (s :: s' :: ss)) : AreItems separators (s' :: ss) :=
  ⟨fun x hx => h.whole x (.tail _ hx), fun x hx => h.ends x (.tail _ hx)⟩

theorem head_ends (h : AreItems separators (s :: s' :: ss)) :
    Nesting.top.read s = .top ∨ Nesting.top.read s = .escape := h.ends s (.head _)

/-- Behind a trailing backslash the next separator does not count: two items become one. -/
theorem merge (h : AreItems separators (s :: s' :: ss)) (hw : IsFill separators w)
    (hescape : Nesting.top.read s = .escape) :
    AreItems separators ((s ++ (c :: w) ++ s') :: ss) := by
  have hstep : Nesting.escape.step c = .top := rfl
  have hread : Nesting.top.read (s ++ (c :: w)) = .top := by
    rw [Nesting.read_append, hescape, Nesting.read_cons, hstep, hw.read]
  constructor
  · refine List.forall_mem_cons.2 ⟨?_, fun x hx => h.tail.whole x (.tail _ hx)⟩
    rw [whole_append, whole_append, whole_cons, hread, hescape, hstep]
    exact ⟨⟨h.whole s (.head _), rfl, hw.whole⟩, h.tail.whole s' (.head _)⟩
  · cases ss with
    | nil => nofun
    | cons s'' ss =>
      refine List.forall_mem_cons.2 ⟨?_, h.tail.tail.ends⟩
      rw [Nesting.read_append, hread]
      exact h.tail.head_ends

/-- There are no more items than were joined. -/
theorem length_texts_join_le (h : AreItems separators (s :: ss))
    (hc : separates separators .top c = true) (hw : IsFill separators w)
    (hb : IsFill separators b) :
    (texts separators last (b ++ (c :: w).intercalate (s :: ss))).length ≤ ss.length + 1 := by
  induction ss generalizing s b with
  | nil =>
    rw [List.intercalate_singleton, texts_of_whole (hb.whole_append (h.whole s (.head _)))]
    split <;> simp
  | cons s' ss ih =>
    rcases h.head_ends with hclosed | hescape
    · rw [List.intercalate_cons_cons, List.append_assoc, List.cons_append,
        hb.texts_append (h.whole s (.head _)) hclosed hc]
      split
      · exact Nat.le_succ_of_le (ih h.tail hw)
      · exact Nat.succ_le_succ (ih h.tail hw)
    · rw [intercalate_merge]
      exact Nat.le_succ_of_le (ih (h.merge hw hescape) hb)

theorem texts_join_ne (h : AreItems separators (s :: ss)) (hc : separates separators .top c = true)
    (hw : IsFill separators w) (hb : IsFill separators b) (t t' : List Char) :
    texts separators last (b ++ (c :: w).intercalate (s :: ss)) ≠ t :: t' :: ss := by
  intro he
  have hle : (texts separators last (b ++ (c :: w).intercalate (s :: ss))).length ≤ ss.length + 1 :=
    h.length_texts_join_le hc hw hb
  rw [he, List.length_cons, List.length_cons] at hle
  omega

/-- **Which items are read back** when they are joined by a separator and blanks: each one before
the last closes, and it is not empty or stands behind blanks. -/
theorem texts_join_iff (h : AreItems separators (s :: ss)) (htrim : ∀ x ∈ s :: ss, trimChars x = x)
    (hc : separates separators .top c = true) (hw : IsFill separators w)
    (hb : IsFill separators b) :
    texts separators true (b ++ (c :: w).intercalate (s :: ss)) = s :: ss ↔
      (∀ x ∈ (s :: ss).dropLast, Nesting.top.read x = .top) ∧
        ∀ x ∈ ((b ++ s) :: ss.map (w ++ ·)).dropLast, x ≠ [] := by
  induction ss generalizing s b with
  | nil =>
    rw [List.intercalate_singleton, texts_of_whole (hb.whole_append (h.whole s (.head _))),
      if_pos (.inl rfl), trimChars_blank_append hb.isBlank, htrim s (.head _)]
    exact iff_of_true rfl ⟨nofun, nofun⟩
  | cons s' ss ih =>
    obtain ⟨hfirst, hothers⟩ := List.forall_mem_cons.1 htrim
    rw [List.map_cons, List.dropLast_cons_cons, List.dropLast_cons_cons, List.forall_mem_cons,
      List.forall_mem_cons]
    rcases h.head_ends with hclosed | hescape
    · rw [List.intercalate_cons_cons, List.append_assoc, List.cons_append,
        hb.texts_append (h.whole s (.head _)) hclosed hc]
      split
      · next hnil =>
        exact iff_of_false (h.tail.texts_join_ne hc hw hw s s') fun hall => hall.2.1 hnil
      · next hne =>
        rw [hfirst, List.cons.injEq, ih h.tail hothers hw]
        simp [hclosed, hne]
    · rw [intercalate_merge, hescape]
      exact iff_of_false ((h.merge hw hescape).texts_join_ne hc hw hb s s') fun hall =>
        absurd hall.1.1 (by decide)

end AreItems

/-- An item as a caller may write it: trimmed, closed, without a separator that counts. -/
structure IsItem (separators s : List Char) : Prop where
  nonempty : s ≠ []
  trimmed : trimChars s = s
  closed : Nesting.top.read s = .top
  whole : Whole separators .top s

theorem isItem_iff : IsItem separators s ↔ s ≠ [] ∧ trimChars s = s ∧
    Nesting.top.read s = .top ∧ Whole separators .top s :=
  ⟨fun ⟨hne, htrim, hclosed, hwhole⟩ => ⟨hne, htrim, hclosed, hwhole⟩,
    fun ⟨hne, htrim, hclosed, hwhole⟩ => ⟨hne, htrim, hclosed, hwhole⟩⟩

instance : Decidable (IsItem separators s) := decidable_of_iff _ isItem_iff.symm

/-- Separators in front of a text are no items. -/
theorem texts_separators_append (hx : ∀ d ∈ x, separates separators .top d = true)
    (cs : List Char) : texts separators last (x ++ cs) = texts separators last cs := by
  induction x with
  | nil => rfl
  | cons d x ih =>
    obtain ⟨hd, hx⟩ := List.forall_mem_cons.1 hx
    have hfirst : texts separators last (d :: (x ++ cs)) = texts separators last (x ++ cs) :=
      (texts_append (whole_nil separators .top) rfl hd (x ++ cs)).trans (if_pos rfl)
    exact hfirst.trans (ih hx)

/-- **Items are read back** when separators and then blanks stand between them. -/
theorem texts_join_of_fill (hs : ∀ y ∈ s :: ss, IsItem separators y)
    (hc : separates separators .top c = true)
    (hx : ∀ d ∈ x, separates separators .top d = true) (hw : IsFill separators w)
    (hb : IsFill separators b) :
    texts separators last (b ++ (c :: (x ++ w)).intercalate (s :: ss)) = s :: ss := by
  induction ss generalizing s b with
  | nil =>
    have hitem := hs s (.head _)
    rw [List.intercalate_singleton, texts_of_whole (hb.whole_append hitem.whole),
      if_pos (.inr fun h => hitem.nonempty (List.append_eq_nil_iff.1 h).2),
      trimChars_blank_append hb.isBlank, hitem.trimmed]
  | cons s' ss ih =>
    obtain ⟨hitem, hothers⟩ := List.forall_mem_cons.1 hs
    rw [List.intercalate_cons_cons, List.append_assoc, List.cons_append,
      hb.texts_append hitem.whole hitem.closed hc,
      if_neg fun h => hitem.nonempty (List.append_eq_nil_iff.1 h).2, hitem.trimmed,
      List.append_assoc, texts_separators_append hx, ih hothers hw]

/-! ## Commas -/

/-- Commas, and blanks behind them. -/
def IsPadding (w : List Char) : Prop := ∀ d ∈ w.dropWhile (· = ','), isBlank d = true

instance (w : List Char) : Decidable (IsPadding w) := List.decidableBAll ..

theorem separates_comma : separates [','] .top ',' = true := by decide

theorem separates_commas {v : List Char} (hv : ∀ d ∈ v, d = ',') :
    ∀ d ∈ v, separates [','] .top d = true := fun d hd => hv d hd ▸ separates_comma

theorem takeWhile_commas (w : List Char) : ∀ d ∈ w.takeWhile (· = ','), d = ',' :=
  fun d hd => of_decide_eq_true (List.all_eq_true.1 List.all_takeWhile d hd)

theorem isFill_comma (hw : ∀ d ∈ w, isBlank d = true) : IsFill [','] w := by
  refine fun d hd => ⟨hw d hd, ?_⟩
  have hne : d ≠ ',' := by
    rintro rfl
    exact absurd (hw _ hd) (by decide)
  simp [separates, hne]

theorem length_core_join_ge (separators sep : List Char) (ss : List (List Char)) :
    (ss.flatMap (core separators)).length ≤ (core separators (sep.intercalate ss)).length := by
  induction ss with
  | nil => exact Nat.zero_le _
  | cons s ss ih =>
    cases ss with
    | nil => simp
    | cons s' ss =>
      rw [List.intercalate_cons_cons, core_append, core_append, List.flatMap_cons,
        List.length_append, List.length_append, List.length_append]
      omega

/-- Nothing but blanks and separators stands between items that are read back. -/
theorem core_eq_nil_of_texts {sep s' : List Char}
    (h : texts separators last (sep.intercalate (s :: s' :: ss)) = s :: s' :: ss) :
    core separators sep = [] := by
  have hcore := congrArg List.length (flatMap_core_texts separators last
    (sep.intercalate (s :: s' :: ss)))
  have hge := length_core_join_ge separators sep (s' :: ss)
  rw [h, List.intercalate_cons_cons, core_append, core_append, List.flatMap_cons,
    List.length_append, List.length_append, List.length_append] at hcore
  exact List.eq_nil_of_length_eq_zero (by omega)

/-- Commas and blanks that are no padding have a comma behind blanks. -/
theorem exists_of_not_isPadding (hw : ∀ d ∈ w, isBlank d = false → d = ',')
    (h : ¬ IsPadding w) : ∃ v b u, w = v ++ (b ++ ',' :: u) ∧ (∀ d ∈ v, d = ',') ∧
      (∀ d ∈ b, isBlank d = true) ∧ b ≠ [] := by
  have hsplit : w.takeWhile (· = ',') ++ w.dropWhile (· = ',') = w :=
    List.takeWhile_append_dropWhile
  have hhead := List.head?_dropWhile_not (· = ',') w
  unfold IsPadding at h
  generalize w.dropWhile (· = ',') = t at hsplit hhead h
  have hblanks : ∀ d ∈ t.takeWhile isBlank, isBlank d = true :=
    List.all_eq_true.1 List.all_takeWhile
  have ht : t.takeWhile isBlank ++ t.dropWhile isBlank = t := List.takeWhile_append_dropWhile
  have hnext := List.head?_dropWhile_not isBlank t
  generalize t.takeWhile isBlank = b at hblanks ht
  cases hu : t.dropWhile isBlank with
  | nil =>
    rw [hu, List.append_nil] at ht
    exact absurd (ht ▸ hblanks) h
  | cons d u =>
    rw [hu] at ht hnext
    obtain rfl : d = ',' := hw d (by rw [← hsplit, ← ht]; simp) (by simpa using hnext)
    refine ⟨_, b, u, by rw [ht, hsplit], takeWhile_commas w, hblanks, ?_⟩
    rintro rfl
    rw [← ht] at hhead
    simp at hhead

/-- Commas behind the blanks of a separator make one more item, an empty one. -/
theorem isPadding_of_texts {s' : List Char} (hs : IsItem [','] s) (hs' : s' ≠ [])
    (h : texts [','] last ((',' :: w).intercalate (s :: s' :: ss)) = s :: s' :: ss) :
    IsPadding w := by
  have hw : ∀ d ∈ w, isBlank d = false → d = ',' := by
    have hcore := List.filter_eq_nil_iff.1 (core_eq_nil_of_texts h)
    intro d hd hblank
    simpa [hblank] using hcore d (.tail _ hd)
  rw [List.intercalate_cons_cons, List.append_assoc, List.cons_append,
    texts_append hs.whole hs.closed separates_comma, if_neg hs.nonempty, hs.trimmed] at h
  obtain ⟨-, hrest⟩ := List.cons.inj h
  by_contra hpadding
  obtain ⟨v, b, u, rfl, hv, hb, hne⟩ := exists_of_not_isPadding hw hpadding
  have hfill := isFill_comma hb
  rw [List.append_assoc, texts_separators_append (separates_commas hv), List.append_assoc,
    List.cons_append, texts_append hfill.whole hfill.read separates_comma, if_neg hne,
    trimChars_of_blank hb] at hrest
  exact hs' (List.cons.inj hrest).1.symm

/-- **Items joined by a comma and more** are read back exactly if there is one of them only, or if
what stands behind the comma is padding. -/
theorem texts_comma_join_iff (hs : ∀ y ∈ s :: ss, IsItem [','] y) :
    texts [','] last ((',' :: w).intercalate (s :: ss)) = s :: ss ↔ ss = [] ∨ IsPadding w := by
  constructor
  · intro h
    cases ss with
    | nil => exact .inl rfl
    | cons s' ss =>
      exact .inr (isPadding_of_texts (hs s (.head _)) (hs s' (by simp)).nonempty h)
  · rintro (rfl | hw)
    · have hitem := hs s (.head _)
      rw [List.intercalate_singleton, texts_of_whole hitem.whole, if_pos (.inr hitem.nonempty),
        hitem.trimmed]
    · rw [← List.takeWhile_append_dropWhile (p := (· = ',')) (l := w)]
      exact texts_join_of_fill hs separates_comma (separates_commas (takeWhile_commas w))
        (isFill_comma hw) (b := []) nofun

end ListValue

end Stylesheet
