import Stylesheet.Proofs.ListValue.Items

/-!
# Lists that are joined and split again

`Closed` is the grammar of a text whose quotes and parentheses are closed and which holds no
separator outside of them; it says nothing of how a text is read. `Closed.isItem`: such a text is
read back to the top level, and no separator counts on the way. So `split_intercalate`: texts of
this form are split again as they were joined, and an item that was split off is a list of itself.
-/

set_option autoImplicit false

namespace Stylesheet.ListValue

open Stylesheet.Text

/-! ## The grammar -/

/-- What follows an opening quote, through the quote that closes it. -/
inductive Quoted (q : Char) : List Char → Prop
  | close : Quoted q [q]
  | escape (c : Char) {cs : List Char} : Quoted q cs → Quoted q ('\\' :: c :: cs)
  | plain {c : Char} {cs : List Char} : c ≠ q → c ≠ '\\' → Quoted q cs → Quoted q (c :: cs)

/-- Texts that close the quotes and parentheses that they open, and no others. A backslash takes the
next character with it. No separator stands at the top level; inside of parentheses any character
may stand. -/
inductive Closed : (separators : List Char) → List Char → Prop
  | nil (separators : List Char) : Closed separators []
  | plain {separators : List Char} {c : Char} {cs : List Char} : isStructural c = false →
      c ∉ separators → Closed separators cs → Closed separators (c :: cs)
  | escape {separators : List Char} (c : Char) {cs : List Char} : Closed separators cs →
      Closed separators ('\\' :: c :: cs)
  | quote {separators : List Char} {q : Char} {body cs : List Char} : q = '"' ∨ q = '\'' →
      Quoted q body → Closed separators cs → Closed separators (q :: (body ++ cs))
  | nest {separators inner cs : List Char} : Closed [] inner → Closed separators cs →
      Closed separators ('(' :: (inner ++ ')' :: cs))

/-! ## Reading closed texts -/

variable {separators cs : List Char} {q c : Char} {depth : Nat} {last : Bool}

theorem isSound_unquoted (escaped : Bool) (depth : Nat) :
    (Nesting.mk escaped none depth).IsSound := by
  rintro q ⟨⟩

theorem step_quote (hq : q = '"' ∨ q = '\'') (depth : Nat) :
    Nesting.step ⟨false, none, depth⟩ q = ⟨false, some q, depth⟩ := by
  rcases hq with rfl | rfl <;> rfl

/-- Behind the closing quote the reader stands where it stood before the opening one. -/
theorem Quoted.read (hq : q = '"' ∨ q = '\'') (h : Quoted q cs) (depth : Nat) :
    Nesting.read ⟨false, some q, depth⟩ cs = ⟨false, none, depth⟩ := by
  induction h with
  | close => rcases hq with rfl | rfl <;> rfl
  | escape c _ ih => exact ih
  | plain hne hback _ ih => simpa [Nesting.step, hne, hback] using ih

/-- A closed text leaves the reader where it was. -/
theorem Closed.read (h : Closed separators cs) (depth : Nat) :
    Nesting.read ⟨false, none, depth⟩ cs = ⟨false, none, depth⟩ := by
  induction h generalizing depth with
  | nil => rfl
  | plain hc _ _ ih =>
    rw [Nesting.read_cons, (isSound_unquoted false depth).step_plain hc]
    exact ih depth
  | escape c _ ih => exact ih depth
  | quote hq hbody _ ih =>
    rw [Nesting.read_cons, step_quote hq, Nesting.read_append, hbody.read hq, ih]
  | nest _ _ ihinner ih =>
    have hopen : Nesting.step ⟨false, none, depth⟩ '(' = ⟨false, none, depth + 1⟩ := rfl
    have hclose : Nesting.step ⟨false, none, depth + 1⟩ ')' = ⟨false, none, depth⟩ := rfl
    rw [Nesting.read_cons, hopen, Nesting.read_append, ihinner, Nesting.read_cons, hclose, ih]

/-! ## No separator counts -/

/-- Behind a backslash, in quotes and in parentheses nothing separates. -/
theorem separates_inside {n : Nesting} (h : n.escaped = true ∨ n.quote ≠ none ∨ n.depth ≠ 0) :
    separates separators n c = false := by
  have hne : n ≠ .top := by
    rintro rfl
    simp [Nesting.top] at h
  simp [separates, hne]

theorem separates_quoted (escaped : Bool) (q : Char) (depth : Nat) :
    separates separators ⟨escaped, some q, depth⟩ c = false :=
  separates_inside (.inr (.inl (Option.some_ne_none q)))

theorem separates_escaped (quote : Option Char) (depth : Nat) :
    separates separators ⟨true, quote, depth⟩ c = false :=
  separates_inside (.inl rfl)

theorem separates_of_isStructural (n : Nesting) (h : isStructural c = true) :
    separates separators n c = false := by
  simp [separates, h]

theorem Quoted.whole (h : Quoted q cs) (depth : Nat) :
    Whole separators ⟨false, some q, depth⟩ cs := by
  induction h with
  | close => exact whole_cons.2 ⟨separates_quoted _ _ _, whole_nil _ _⟩
  | escape c _ ih =>
    exact whole_cons.2 ⟨separates_quoted _ _ _, whole_cons.2 ⟨separates_quoted _ _ _, ih⟩⟩
  | plain hne hback _ ih =>
    refine whole_cons.2 ⟨separates_quoted _ _ _, ?_⟩
    simpa [Nesting.step, hne, hback] using ih

/-- No character of a closed text separates: neither one that the grammar keeps out, nor any inside
of parentheses. -/
theorem Closed.whole {separators' : List Char} (h : Closed separators' cs) (depth : Nat)
    (htop : depth = 0 → separators ⊆ separators') : Whole separators ⟨false, none, depth⟩ cs := by
  induction h generalizing depth with
  | nil => exact whole_nil _ _
  | @plain separators' c cs hc hmem _ ih =>
    have hstep : Nesting.step ⟨false, none, depth⟩ c = ⟨false, none, depth⟩ :=
      (isSound_unquoted false depth).step_plain hc
    refine whole_cons.2 ⟨?_, by rw [hstep]; exact ih depth htop⟩
    by_cases hdepth : depth = 0
    · have hne : c ∉ separators := fun hmem' => hmem (htop hdepth hmem')
      simp [separates, hne]
    · exact separates_inside (.inr (.inr hdepth))
  | escape c _ ih =>
    exact whole_cons.2 ⟨separates_of_isStructural _ rfl,
      whole_cons.2 ⟨separates_escaped _ _, ih depth htop⟩⟩
  | quote hq hbody _ ih =>
    refine whole_cons.2 ⟨separates_of_isStructural _ (by rcases hq with rfl | rfl <;> rfl), ?_⟩
    rw [step_quote hq, whole_append, hbody.read hq]
    exact ⟨hbody.whole depth, ih depth htop⟩
  | nest hinner _ ihinner ih =>
    refine whole_cons.2 ⟨separates_of_isStructural _ rfl, ?_⟩
    have hopen : Nesting.step ⟨false, none, depth⟩ '(' = ⟨false, none, depth + 1⟩ := rfl
    rw [hopen, whole_append, hinner.read, whole_cons]
    have hbelow : depth + 1 = 0 → separators ⊆ [] := fun hzero => absurd hzero depth.succ_ne_zero
    exact ⟨ihinner (depth + 1) hbelow, separates_of_isStructural _ rfl, ih depth htop⟩

/-- **A closed text is an item**, if it is not empty and trimmed. -/
theorem Closed.isItem (h : Closed separators cs) (hne : cs ≠ []) (htrim : trimChars cs = cs) :
    IsItem separators cs :=
  ⟨hne, htrim, h.read 0, h.whole 0 fun _ => List.Subset.refl _⟩

/-! ## Joining and splitting -/

/-- Blanks behind a separator that is none itself do not separate. -/
theorem isFill_of_not_isBlank {w : List Char} (hw : ∀ d ∈ w, isBlank d = true)
    (hc : isBlank c = true → w = []) : IsFill [c] w := by
  refine fun d hd => ⟨hw d hd, ?_⟩
  have hne : d ≠ c := by
    rintro rfl
    rw [hc (hw d hd)] at hd
    cases hd
  simp [separates, hne]

/-- An item that was split off is the only item of itself. -/
theorem texts_of_mem_texts {s : List Char} (h : s ∈ texts separators last cs) (hne : s ≠ []) :
    texts separators false s = [s] := by
  obtain ⟨htrim, hwhole⟩ := whole_of_mem_texts h
  rw [texts_of_whole hwhole, if_pos (.inr hne), htrim]

/-- **Lists that are joined and split again.** Closed items are split as they were joined, by a
separator with blanks behind it if it is none itself. An item that was split off is not split any
further, whatever the value was. -/
theorem split_intercalate :
    (∀ (c : Char) (w : List Char) (ss : List String) (last : Bool), isStructural c = false →
      (∀ d ∈ w, isBlank d = true) → (isBlank c = true → w = []) → ss ≠ [] →
      (∀ s ∈ ss, s ≠ "" ∧ trim s = s ∧ Closed [c] s.toList) →
        split ((String.ofList (c :: w)).intercalate ss) [c] last = ss) ∧
    ∀ (value : String) (separators : List Char) (last : Bool), ∀ s ∈ split value separators last,
      s ≠ "" → split s separators false = [s] := by
  constructor
  · intro c w ss last hc hw hblank hne hss
    obtain ⟨s, rest, rfl⟩ := List.exists_cons_of_ne_nil hne
    have hitems : ∀ y ∈ s.toList :: rest.map String.toList, IsItem [c] y := by
      rw [← List.map_cons, List.forall_mem_map]
      intro y hy
      obtain ⟨hne, htrim, hclosed⟩ := hss y hy
      refine hclosed.isItem (fun h => hne (String.toList_eq_nil_iff.1 h)) ?_
      exact String.toList_ofList.symm.trans (congrArg String.toList htrim)
    have hsep : separates [c] .top c = true := by simp [separates, hc]
    have hjoin : texts [c] last ([] ++ (c :: ([] ++ w)).intercalate
        (s.toList :: rest.map String.toList)) = s.toList :: rest.map String.toList :=
      texts_join_of_fill hitems hsep (List.forall_mem_nil _) (isFill_of_not_isBlank hw hblank)
        (List.forall_mem_nil _)
    rw [split_eq, map_ofList_eq_iff, String.toList_intercalate, String.toList_ofList]
    exact hjoin
  · intro value separators last s hs hne
    rw [split_eq, List.mem_map] at hs
    obtain ⟨cs, hcs, rfl⟩ := hs
    have hne' : cs ≠ [] := fun h => hne (h ▸ rfl)
    rw [split_eq, String.toList_ofList, texts_of_mem_texts hcs hne']
    rfl

/-- Items with a function inside of a function, quotes of both kinds and escapes; and an item that
ends in a backslash, since the blank behind that was trimmed away. -/
theorem split_intercalate_nested :
    split "f(a,(b)), \"c,\\\"d\", \\,e'('" [','] true = ["f(a,(b))", "\"c,\\\"d\"", "\\,e'('"] ∧
      "a\\" ∈ split "a\\ ,b" [','] true ∧ split "a\\" [','] false = ["a\\"] := by
  obtain ⟨hjoin, hagain⟩ := split_intercalate
  have hb : Closed [] ['b'] := .plain rfl (by decide) (.nil _)
  have hinner : Closed [] "a,(b)".toList :=
    .plain rfl (by decide) (.plain rfl (by decide) (.nest hb (.nil _)))
  have hfirst : Closed [','] "f(a,(b))".toList := .plain rfl (by decide) (.nest hinner (.nil _))
  have hdouble : Quoted '"' "c,\\\"d\"".toList :=
    .plain (by decide) (by decide) (.plain (by decide) (by decide)
      (.escape '"' (.plain (by decide) (by decide) .close)))
  have hsecond : Closed [','] "\"c,\\\"d\"".toList := .quote (.inl rfl) hdouble (.nil _)
  have hsingle : Quoted '\'' ['(', '\''] := .plain (by decide) (by decide) .close
  have hthird : Closed [','] "\\,e'('".toList :=
    .escape ',' (.plain rfl (by decide) (.quote (.inr rfl) hsingle (.nil _)))
  have hsplit := hjoin ',' [' '] ["f(a,(b))", "\"c,\\\"d\"", "\\,e'('"] true rfl
    (List.forall_mem_singleton.2 rfl) (by decide) (List.cons_ne_nil _ _)
    (List.forall_mem_cons.2 ⟨⟨by decide, by decide, hfirst⟩,
      List.forall_mem_cons.2 ⟨⟨by decide, by decide, hsecond⟩,
        List.forall_mem_singleton.2 ⟨by decide, by decide, hthird⟩⟩⟩)
  have hmem : "a\\" ∈ split "a\\ ,b" [','] true := by decide
  exact ⟨hsplit, hmem, hagain _ _ _ _ hmem (by decide)⟩

end Stylesheet.ListValue
