/-!
# Cutting texts

`cut` divides a text at every occurrence of a separator; `after?` takes a fixed text off the
front.
-/

set_option autoImplicit false

namespace Stylesheet.Text

/-- Cuts a text at every `sep`: the part before the first one and the parts behind each. -/
def cut (sep : Char) : List Char → List Char × List (List Char)
  | [] => ([], [])
  | c :: rest =>
    let (s, others) := cut sep rest
    if c = sep then ([], s :: others) else (c :: s, others)

/-- The parts of a text between separators; there is always one. -/
def parts (sep : Char) (cs : List Char) : List (List Char) :=
  (cut sep cs).1 :: (cut sep cs).2

section
variable {sep : Char} {cs ds : List Char}

theorem cut_cons (c : Char) : cut sep (c :: cs) =
    if c = sep then ([], parts sep cs) else (c :: (cut sep cs).1, (cut sep cs).2) := rfl

theorem cut_append (h : ∀ c ∈ cs, c ≠ sep) :
    cut sep (cs ++ ds) = (cs ++ (cut sep ds).1, (cut sep ds).2) := by
  induction cs with
  | nil => rfl
  | cons c cs ih =>
    rw [List.cons_append, cut_cons, ih fun d hd => h d (.tail _ hd), if_neg (h c (.head _))]
    rfl

/-- A text without separators is its only part. -/
theorem parts_of_forall_ne (h : ∀ c ∈ cs, c ≠ sep) : parts sep cs = [cs] := by
  have hcut : cut sep (cs ++ []) = _ := cut_append h
  rw [List.append_nil] at hcut
  rw [parts, hcut, cut, List.append_nil]

/-- A part holds characters of the text, and no separator. -/
theorem mem_of_mem_parts {s : List Char} {c : Char} (hs : s ∈ parts sep cs) (hc : c ∈ s) :
    c ∈ cs ∧ c ≠ sep := by
  induction cs generalizing s with
  | nil =>
    rw [parts, cut, List.mem_singleton] at hs
    exact absurd (hs ▸ hc) List.not_mem_nil
  | cons d cs ih =>
    have hrest : ∀ {t : List Char}, t ∈ parts sep cs → c ∈ t → c ∈ d :: cs ∧ c ≠ sep :=
      fun ht hct => ⟨.tail _ (ih ht hct).1, (ih ht hct).2⟩
    rw [parts, cut_cons] at hs
    by_cases hd : d = sep
    · rw [if_pos hd] at hs
      rcases List.mem_cons.1 hs with rfl | hs
      · exact absurd hc List.not_mem_nil
      · exact hrest hs hc
    · rw [if_neg hd] at hs
      rcases List.mem_cons.1 hs with rfl | hs
      · rcases List.mem_cons.1 hc with rfl | hc
        · exact ⟨.head _, hd⟩
        · exact hrest (.head _) hc
      · exact hrest (.tail _ hs) hc

/-- The parts on both sides of a separator. -/
theorem parts_append (sep : Char) (cs ds : List Char) :
    parts sep (cs ++ sep :: ds) = parts sep cs ++ parts sep ds := by
  induction cs with
  | nil =>
    rw [List.nil_append, parts, cut_cons, if_pos rfl]
    rfl
  | cons c cs ih =>
    obtain ⟨hfirst, hrest⟩ := List.cons.inj ih
    rw [List.cons_append, parts, parts, cut_cons, cut_cons]
    by_cases hc : c = sep
    · simp [hc, ih]
    · simp [hc, hfirst, hrest]

/-- Texts that are joined by a separator are cut there again. -/
theorem parts_intercalate {ts : List (List Char)} (h : ts ≠ []) :
    parts sep ([sep].intercalate ts) = ts.flatMap (parts sep) := by
  induction ts with
  | nil => exact absurd rfl h
  | cons t ts ih =>
    cases ts with
    | nil => simp
    | cons u us =>
      rw [List.intercalate_cons_cons, List.append_assoc, List.singleton_append, parts_append,
        ih (List.cons_ne_nil _ _), List.flatMap_cons (x := t)]

end

/-- What follows a fixed text at the start of characters. -/
def after? : List Char → List Char → Option (List Char)
  | [], cs => some cs
  | _ :: _, [] => none
  | k :: keys, c :: cs => if k = c then after? keys cs else none

theorem after?_eq_some_iff {keys cs rest : List Char} :
    after? keys cs = some rest ↔ cs = keys ++ rest := by
  induction keys generalizing cs with
  | nil => simp [after?, eq_comm]
  | cons k keys ih =>
    cases cs with
    | nil => simp [after?]
    | cons c cs =>
      by_cases h : k = c
      · simp [after?, h, ih]
      · simp [after?, h, show ¬c = k from fun e => h e.symm]

/-- Whether a text starts with another. -/
def startsWith (s key : String) : Bool := (after? key.toList s.toList).isSome

end Stylesheet.Text
