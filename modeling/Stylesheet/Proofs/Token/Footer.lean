import Stylesheet.Proofs.Token.Tiling

/-!
# The tokens of a text with a footer

A footer is a comment on a line of its own behind a text. `Lexer.tokens_footer`: a text that has no
lexical fault has the same tokens with a footer behind it, except that blanks at its end become one
token with the line break. No construct reaches into the footer: whatever the end of the text stops
is stopped by a line break (`Lexer.cut_append_line`).
-/

set_option autoImplicit false

namespace Stylesheet

open Stylesheet.Text

namespace Lexer

/-- The text starts with a line break. -/
def StartsLine (cs : List Char) : Prop := ∃ c rest, cs = c :: rest ∧ (c = '\n' ∨ c = '\r')

/-- A line break and a comment. -/
structure Footer (eol note : List Char) : Prop where
  line : StartsLine eol
  blank : ∀ c ∈ eol, isSpace c = true
  note : ∃ body, note = '/' :: '*' :: body ∧ cutComment body = some (body, [])

variable {more : List Char}

theorem StartsLine.append {cs : List Char} (h : StartsLine cs) (rest : List Char) :
    StartsLine (cs ++ rest) := by
  obtain ⟨c, cs, rfl, hc⟩ := h
  exact ⟨c, cs ++ rest, rfl, hc⟩

/-- **No token but a blank reaches over a line break** behind the text. -/
theorem cut_append_line {word : String} {c : Char} {rest : List Char} {r : Cut}
    (h : cut word c rest = .ok r) (hm : StartsLine more) (hr : r.kind = .space → r.rest ≠ []) :
    cut word c (rest ++ more) = .ok { r with rest := r.rest ++ more } := by
  obtain ⟨kind, a, b, rfl, rfl, hcut⟩ := exists_isCut h
  obtain ⟨d, more, rfl, hd⟩ := hm
  have hbreak : isSpace d = true ∧ spoilsBrackets d = true ∧ endsWord d = true := by
    rcases hd with rfl | rfl <;> decide
  have hhead : ∀ e ∈ (b ++ d :: more).head?, b.head? = some e ∨ e = d := by
    cases b with
    | nil => exact fun e he => .inr (Option.some.inj he).symm
    | cons f b => exact fun e he => .inl he
  have hline : cutWord (d :: more) = ([], d :: more) :=
    cutWord_eq_nil_iff.2 fun e he => .inl (Option.some.inj he ▸ hbreak.2.2)
  rw [List.append_assoc]
  refine (hcut.congr (fun e he => ?_) (fun hk e he => ?_) (fun _ hnone => ⟨?_, ?_⟩)
    (fun _ e he => ?_) fun hb => cutWord_nil_append hb fun _ => hline).cut_eq
  · rcases hhead e he with he | rfl
    · exact .inl he
    · exact .inr (.inr hd)
  · obtain ⟨f, b, rfl⟩ := List.exists_cons_of_ne_nil (hr hk)
    exact .inl he
  · cases b with
    | nil => exact nofun
    | cons f b => exact id
  · exact cutBrackets_append_eq_none hnone (.inr ⟨d, rfl, hbreak.2.1⟩)
  · rcases hhead e he with he | rfl
    · exact .inl he
    · exact .inr hbreak.1

/-! ## The tokens -/

variable {eol note : List Char}

/-- Blanks in front of the comment. -/
theorem cut_blanks (hf : Footer eol note) {word : String} {c : Char} {cs : List Char}
    (hcs : ∀ d ∈ c :: cs, isSpace d = true) :
    cut word c (cs ++ note) = .ok ⟨.space, c :: cs, note⟩ := by
  obtain ⟨hc, hcs⟩ := List.forall_mem_cons.1 hcs
  obtain ⟨body, rfl, -⟩ := hf.note
  refine (IsCut.space hc (cutBefore_eq_iff.2 ⟨by simpa using hcs, ?_⟩)).cut_eq
  rintro _ ⟨⟩
  rfl

/-- A blank at the end of the text takes the line break of the footer as well. -/
theorem cut_space_footer {word : String} {c : Char} {rest : List Char} {r : Cut}
    (h : cut word c rest = .ok r) (hf : Footer eol note) (hk : r.kind = .space)
    (hr : r.rest = []) : cut word c (rest ++ (eol ++ note)) = .ok ⟨.space, r.chars ++ eol, note⟩ := by
  obtain ⟨kind, a, b, rfl, rfl, hcut⟩ := exists_isCut h
  obtain rfl : kind = .space := hk
  obtain rfl : b = [] := hr
  have hblank : ∀ d ∈ c :: (a ++ eol), isSpace d = true := by
    have ha : ∀ d ∈ c :: a, isSpace d = true := by simpa using (hcut.shaped 0).space rfl
    exact fun d hd => (List.mem_append.1 hd).elim (ha d) (hf.blank d)
  rw [List.append_nil, ← List.append_assoc]
  exact cut_blanks hf hblank

/-- A comment by itself. -/
theorem tokens_note {l : Lexer} (hl : l.returned = []) (hr : l.rest = note)
    (hf : Footer eol note) :
    l.tokens = ([tokenAt l.offset .comment note], none) := by
  obtain ⟨-, -, body, rfl, hbody⟩ := hf
  have hc (word : String) : cut word '/' ('*' :: body) =
      .ok ⟨.comment, '/' :: '*' :: body, []⟩ := by
    have hcut : IsCut word .comment '/' ('*' :: body) [] := .comment (by simpa using hbody)
    simpa using hcut.cut_eq
  rw [tokens_some (next_of_cut hl hr (hc _)), tokens_of_rest_nil rfl rfl]

/-- The lexer of a text with more behind it. -/
def withMore (l : Lexer) (more : List Char) : Lexer := { l with rest := l.rest ++ more }

/-- **The tokens of a text with a footer behind it**: those of the text, the blanks at its end
together with the line break, and the comment. -/
theorem tokens_footer {l : Lexer} (hl : l.returned = []) (h : l.tokens.2 = none)
    (hf : Footer eol note) : ∃ front blanks space comment, l.tokens.1 = front ++ blanks ∧
      (l.withMore (eol ++ note)).tokens = (front ++ [space, comment], none) ∧
      (∀ t ∈ blanks, t.kind = .space) ∧ space.kind = .space ∧
      space.chars = tokenChars blanks ++ eol ∧ comment.kind = .comment ∧ comment.chars = note := by
  have hm : StartsLine (eol ++ note) := hf.line.append note
  induction l using tokens.induct with
  | case1 l l' hn =>
    have hrest := next_none hl hn
    obtain ⟨c, eol', heol, -⟩ := hf.line
    have hc (word : String) : cut word c (eol' ++ note) = .ok ⟨.space, eol, note⟩ := by
      rw [heol]
      exact cut_blanks hf (heol ▸ hf.blank)
    have hr : (l.withMore (eol ++ note)).rest = c :: (eol' ++ note) := by
      rw [withMore, hrest, heol]
      rfl
    have hnext := next_of_cut (l := l.withMore (eol ++ note)) hl hr (hc _)
    refine ⟨[], [], tokenAt l.offset .space eol, tokenAt (l.offset + byteSize eol) .comment note,
      by rw [tokens_none hn]; rfl, ?_, by simp, rfl, by simp, rfl, by simp⟩
    rw [tokens_some hnext, tokens_note rfl rfl hf]
    rfl
  | case2 l e l' hn =>
    rw [tokens_error hn] at h
    cases h
  | case3 l t l' hn _ _ _ _ ih =>
    obtain ⟨c, rest, r, hrest, hc, rfl, rfl⟩ := exists_cut hl hn
    rw [tokens_some hn] at h ⊢
    have hr : (l.withMore (eol ++ note)).rest = c :: (rest ++ (eol ++ note)) := by
      rw [withMore, hrest]
      rfl
    by_cases hend : r.kind = .space ∧ r.rest = []
    · have hnext := next_of_cut (l := l.withMore (eol ++ note)) hl hr
        (cut_space_footer hc hf hend.1 hend.2)
      refine ⟨[], [tokenAt l.offset r.kind r.chars], tokenAt l.offset .space (r.chars ++ eol),
        tokenAt (l.offset + byteSize (r.chars ++ eol)) .comment note, ?_, ?_, ?_, rfl, by simp, rfl,
        by simp⟩
      · rw [tokens_of_rest_nil rfl hend.2]
        rfl
      · rw [tokens_some hnext, tokens_note rfl rfl hf]
        rfl
      · simpa [tokenAt] using hend.1
    · have hnext := next_of_cut (l := l.withMore (eol ++ note)) hl hr
        (cut_append_line hc hm fun hk hr => hend ⟨hk, hr⟩)
      obtain ⟨front, blanks, space, comment, hfront, hmore, hspec⟩ := ih rfl h
      refine ⟨tokenAt l.offset r.kind r.chars :: front, blanks, space, comment, ?_, ?_, hspec⟩
      · rw [hfront, List.cons_append]
      · rw [tokens_some hnext, show (l.withMore (eol ++ note)).behind c
          { r with rest := r.rest ++ (eol ++ note) } = (l.behind c r).withMore (eol ++ note) from
          rfl, hmore]
        rfl

end Lexer

end Stylesheet
