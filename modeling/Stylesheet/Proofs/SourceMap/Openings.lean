import Stylesheet.Proofs.SourceMap.Identity

/-!
# Openings of link comments

`MapLink.opening?` accepts a text that starts with the opening of a link comment: two marks, blanks,
`#`, blanks and a name (`IsOpening`). The name of no comment is cut in two when something is taken
out of a text: an opening that reaches over the place has only its slash before it, or what stands
behind the place is not shielded by a slash or a semicolon of its own (`Shields`).
-/

set_option autoImplicit false

namespace Stylesheet

open Stylesheet.Text

namespace MapLink

/-- The opening of a link comment. -/
def IsOpening (o : List Char) : Prop :=
  ∃ before behind, (∀ c ∈ before, isBlank c = true) ∧ (∀ c ∈ behind, isBlank c = true) ∧
    o = '/' :: '*' :: (before ++ '#' :: (behind ++ "sourceMappingURL=".toList))

/-- The text starts, after blanks, with a slash or a semicolon. -/
def Shields (cs : List Char) : Prop :=
  ∃ blanks c rest, cs = blanks ++ c :: rest ∧ (∀ d ∈ blanks, isBlank d = true) ∧
    (c = '/' ∨ c = ';')

section
variable {o x cs rest : List Char}

theorem dropWhile_blanks {blanks : List Char} {c : Char} (hb : ∀ d ∈ blanks, isBlank d = true)
    (hc : isBlank c = false) (rest : List Char) :
    (blanks ++ c :: rest).dropWhile isBlank = c :: rest := by
  rw [List.dropWhile_append_of_pos hb, List.dropWhile_cons, hc]
  rfl

/-- **A text starts with an opening** exactly when one can be cut off. -/
theorem opening?_isSome_iff :
    (opening? cs).isSome ↔ ∃ o rest, IsOpening o ∧ cs = o ++ rest := by
  constructor
  · intro h
    obtain ⟨rest, h⟩ := Option.isSome_iff_exists.1 h
    unfold opening? at h
    simp only [Option.bind_eq_bind, Option.bind_eq_some_iff, after?_eq_some_iff] at h
    obtain ⟨cs₁, hstar, cs₂, hhash, hname⟩ := h
    have hblank : ∀ ds : List Char, ∀ c ∈ ds.takeWhile isBlank, isBlank c = true :=
      fun ds c hc => List.all_eq_true.1 List.all_takeWhile c hc
    refine ⟨_, rest, ⟨_, _, hblank cs₁, hblank cs₂, rfl⟩, ?_⟩
    have hbehind : cs₂ = cs₂.takeWhile isBlank ++ ("sourceMappingURL=".toList ++ rest) := by
      rw [← hname, List.takeWhile_append_dropWhile]
    have hbefore : cs₁ = cs₁.takeWhile isBlank ++ '#' :: cs₂ := by
      rw [← List.singleton_append, ← hhash, List.takeWhile_append_dropWhile]
    rw [hstar]
    conv => lhs; rw [hbefore, hbehind]
    simp
  · rintro ⟨o, rest, ⟨before, behind, hbefore, hbehind, rfl⟩, rfl⟩
    have hstar : after? "/*".toList ('/' :: '*' ::
        (before ++ '#' :: (behind ++ "sourceMappingURL=".toList)) ++ rest) =
        some (before ++ '#' :: (behind ++ ('s' :: "ourceMappingURL=".toList ++ rest))) := by
      rw [after?_eq_some_iff]
      simp
    have hname : after? "sourceMappingURL=".toList
        ('s' :: ("ourceMappingURL=".toList ++ rest)) = some rest := after?_eq_some_iff.2 rfl
    unfold opening?
    simp only [Option.bind_eq_bind, hstar, Option.bind_some]
    rw [dropWhile_blanks hbefore (by decide)]
    simp only [after?, if_true, Option.bind_some, List.cons_append]
    rw [dropWhile_blanks hbehind (by decide)]
    exact Option.isSome_iff_exists.2 ⟨rest, hname⟩

/-- Behind its slash an opening has no slash, no semicolon and no brace. -/
theorem IsOpening.not_mem_tail {c : Char} (h : IsOpening (x ++ o)) (hx : x ≠ [])
    (hc : c ∈ o ∨ c ∈ x.tail) : c ≠ '/' ∧ c ≠ ';' ∧ c ≠ '}' := by
  obtain ⟨before, behind, hbefore, hbehind, heq⟩ := h
  obtain ⟨d, ds, rfl⟩ := List.exists_cons_of_ne_nil hx
  have hmem : c ∈ '*' :: (before ++ '#' :: (behind ++ "sourceMappingURL=".toList)) := by
    rw [← (List.cons.inj heq).2]
    exact List.mem_append.2 hc.symm
  rw [List.mem_cons, List.mem_append, List.mem_cons, List.mem_append] at hmem
  rcases hmem with rfl | hmem | rfl | hmem | hmem
  · decide
  · refine ⟨?_, ?_, ?_⟩ <;> rintro rfl <;> exact absurd (hbefore _ hmem) (by decide)
  · decide
  · refine ⟨?_, ?_, ?_⟩ <;> rintro rfl <;> exact absurd (hbehind _ hmem) (by decide)
  · refine ⟨?_, ?_, ?_⟩ <;> rintro rfl <;> exact absurd hmem (by decide)

theorem IsOpening.head (h : IsOpening o) : o.head? = some '/' := by
  obtain ⟨before, behind, -, -, rfl⟩ := h
  rfl

theorem IsOpening.getLast? (h : IsOpening (x ++ o)) (ho : o ≠ []) : o.getLast? = some '=' := by
  obtain ⟨before, behind, -, -, heq⟩ := h
  have hname : '/' :: '*' :: (before ++ '#' :: (behind ++ "sourceMappingURL=".toList)) =
      '/' :: '*' :: (before ++ '#' :: (behind ++ "sourceMappingURL".toList)) ++ ['='] := by simp
  have hlast := congrArg List.getLast? (heq.trans hname)
  rwa [List.getLast?_concat, List.getLast?_append, List.getLast?_eq_some_getLast ho,
    Option.some_or, ← List.getLast?_eq_some_getLast ho] at hlast

/-- A text starts with an opening, or with a part of one that what stands behind it continues. -/
theorem opening?_append_cases (h : (opening? (x ++ cs)).isSome) :
    (opening? x).isSome ∨ ∃ o rest, o ≠ [] ∧ cs = o ++ rest ∧ IsOpening (x ++ o) := by
  obtain ⟨o, rest, ho, heq⟩ := opening?_isSome_iff.1 h
  rcases List.append_eq_append_iff.1 heq with ⟨more, rfl, rfl⟩ | ⟨more, rfl, rfl⟩
  · by_cases hmore : more = []
    · subst hmore
      rw [List.append_nil] at ho
      exact .inl (opening?_isSome_iff.2 ⟨x, [], ho, (List.append_nil x).symm⟩)
    · exact .inr ⟨more, rest, hmore, rfl, ho⟩
  · exact .inl (opening?_isSome_iff.2 ⟨o, more, ho, rfl⟩)

theorem opening?_append (h : (opening? x).isSome) (cs : List Char) :
    (opening? (x ++ cs)).isSome := by
  obtain ⟨o, rest, ho, rfl⟩ := opening?_isSome_iff.1 h
  exact opening?_isSome_iff.2 ⟨o, rest ++ cs, ho, List.append_assoc ..⟩

/-- No opening reaches from a text into one that is shielded. -/
theorem opening?_of_shields (hx : x ≠ []) (hcs : Shields cs) (h : (opening? (x ++ cs)).isSome) :
    (opening? x).isSome := by
  rcases opening?_append_cases h with h | ⟨o, rest, ho, heq, hopen⟩
  · exact h
  obtain ⟨blanks, c, more, rfl, hblanks, hc⟩ := hcs
  have hlast := List.mem_of_getLast? (hopen.getLast? ho)
  have hmem : c ∈ o := by
    rcases List.append_eq_append_iff.1 heq with ⟨ds, rfl, hds⟩ | ⟨ds, rfl, -⟩
    · cases ds with
      | nil =>
        rw [List.append_nil] at hlast
        exact absurd (hblanks _ hlast) (by decide)
      | cons d ds =>
        rw [(List.cons.inj hds).1]
        simp
    · exact absurd (hblanks _ (List.mem_append_left _ hlast)) (by decide)
  have hne := hopen.not_mem_tail hx (.inl hmem)
  rcases hc with rfl | rfl
  · exact absurd rfl hne.1
  · exact absurd rfl hne.2.1

/-- An opening that starts in a text with such an end lies inside it, or the text is its slash. -/
theorem opening?_of_getLast? {c : Char} (hlast : x.getLast? = some c)
    (hc : c = '}' ∨ c = ';' ∨ c = '/') (h : (opening? (x ++ cs)).isSome) :
    (opening? x).isSome ∨ x = ['/'] := by
  rcases opening?_append_cases h with h | ⟨o, rest, ho, -, hopen⟩
  · exact .inl h
  cases x with
  | nil => cases hlast
  | cons d ds =>
    cases ds with
    | nil =>
      have := hopen.head
      rw [List.singleton_append, List.head?_cons, Option.some.injEq] at this
      exact .inr (by rw [this])
    | cons e ds =>
      rw [List.getLast?_cons_cons] at hlast
      have hne := hopen.not_mem_tail (List.cons_ne_nil _ _) (.inr (List.mem_of_getLast? hlast))
      rcases hc with rfl | rfl | rfl
      · exact absurd rfl hne.2.2
      · exact absurd rfl hne.2.1
      · exact absurd rfl hne.1

theorem lastOpening?_eq_none (h : lastOpening? (cs ++ x) = none) : opening? x = none := by
  rw [← Option.not_isSome_iff_eq_none]
  intro hx
  have := lastOpening?_append cs hx
  rw [h] at this
  cases this

theorem opening?_head (h : (opening? cs).isSome) : cs.head? = some '/' := by
  obtain ⟨o, rest, ⟨before, behind, -, -, rfl⟩, rfl⟩ := opening?_isSome_iff.1 h
  rfl

/-- A text has no opening if one of the characters of openings is missing. -/
theorem lastOpening?_of_not_mem {c : Char} (hc : ∀ o, IsOpening o → c ∈ o) (h : c ∉ cs) :
    lastOpening? cs = none := by
  induction cs with
  | nil => rfl
  | cons d cs ih =>
    rw [lastOpening?, ih (fun hc => h (.tail _ hc))]
    refine Option.not_isSome_iff_eq_none.1 fun hopen => h ?_
    obtain ⟨o, rest, ho, he⟩ := opening?_isSome_iff.1 hopen
    rw [he]
    exact List.mem_append_left _ (hc o ho)

theorem IsOpening.star_mem {o : List Char} (h : IsOpening o) : '*' ∈ o := by
  obtain ⟨before, behind, -, -, rfl⟩ := h
  simp

theorem IsOpening.hash_mem {o : List Char} (h : IsOpening o) : '#' ∈ o := by
  obtain ⟨before, behind, -, -, rfl⟩ := h
  simp

theorem equals_mem (h : (opening? cs).isSome) : '=' ∈ cs := by
  obtain ⟨o, rest, ho, rfl⟩ := opening?_isSome_iff.1 h
  have hne : o ≠ [] := by
    rintro rfl
    cases ho.head
  exact List.mem_append_left _ (List.mem_of_getLast? (@IsOpening.getLast? _ [] ho hne))

/-- No opening starts in a URL that holds none and reaches into the end of the comment. -/
theorem opening?_url {url : List Char} (hurl : lastOpening? url = none) {before behind : List Char}
    (h : url ++ " */".toList = before ++ behind) : opening? behind = none := by
  rw [← Option.not_isSome_iff_eq_none]
  intro hopen
  have hend : '=' ∉ " */".toList := by decide
  rcases List.append_eq_append_iff.1 h with ⟨more, rfl, hmore⟩ | ⟨more, rfl, rfl⟩
  · exact hend (hmore ▸ List.mem_append_right _ (equals_mem hopen))
  · rcases opening?_append_cases hopen with hopen | ⟨o, rest, ho, heq, hopen⟩
    · rw [lastOpening?_eq_none hurl] at hopen
      cases hopen
    · exact hend (heq ▸ List.mem_append_left _ (List.mem_of_getLast? (hopen.getLast? ho)))

/-- The comment that names a map opens one link comment, at its start. -/
theorem opening?_comment_iff {url : List Char} (hurl : lastOpening? url = none)
    {before behind : List Char}
    (h : "/*# sourceMappingURL=".toList ++ (url ++ " */".toList) = before ++ behind) :
    (opening? behind).isSome ↔ before = [] := by
  constructor
  · intro hopen
    rcases List.append_eq_append_iff.1 h with ⟨more, rfl, hmore⟩ | ⟨more, heq, rfl⟩
    · rw [opening?_url hurl hmore] at hopen
      cases hopen
    · cases before with
      | nil => rfl
      | cons c before =>
        cases more with
        | nil =>
          rw [List.nil_append, opening?_url hurl (List.nil_append _).symm] at hopen
          cases hopen
        | cons d more =>
          obtain ⟨o, rest, ho, hopen⟩ := opening?_isSome_iff.1 hopen
          have hhead := congrArg List.head? hopen
          obtain ⟨e, es, rfl⟩ := List.exists_cons_of_ne_nil (show o ≠ [] by
            rintro rfl
            cases ho.head)
          have he := ho.head
          simp only [List.cons_append, List.head?_cons, Option.some.injEq] at hhead he
          have hname : "*# sourceMappingURL=".toList = before ++ d :: more :=
            (List.cons.inj heq).2
          have hslash : '/' ∈ "*# sourceMappingURL=".toList :=
            hname ▸ List.mem_append_right _ (List.mem_cons.2 (.inl (hhead.trans he).symm))
          exact absurd hslash (by decide)
  · rintro rfl
    rw [List.nil_append] at h
    rw [← h]
    exact opening?_isSome_iff.2 ⟨"/*# sourceMappingURL=".toList, _,
      ⟨[], [' '], by simp, by simp; decide, rfl⟩, rfl⟩

/-- On a line of its own, the comment is all that follows an opening. -/
theorem opening?_line {url eol : List Char} (hurl : lastOpening? url = none)
    (heol : '/' ∉ eol) {before behind : List Char}
    (h : eol ++ ("/*# sourceMappingURL=".toList ++ (url ++ " */".toList)) = before ++ behind)
    (hopen : (opening? behind).isSome) :
    behind = "/*# sourceMappingURL=".toList ++ (url ++ " */".toList) := by
  rcases List.append_eq_append_iff.1 h with ⟨more, rfl, hmore⟩ | ⟨more, rfl, rfl⟩
  · rw [(opening?_comment_iff hurl hmore).1 hopen, List.nil_append] at hmore
    exact hmore.symm
  · cases more with
    | nil => rfl
    | cons c more =>
      have := opening?_head hopen
      rw [List.cons_append, List.head?_cons, Option.some.injEq] at this
      exact absurd (List.mem_append_right _ (this ▸ .head _)) heol

end

end MapLink

end Stylesheet
