import Mathlib.Data.List.Chain
import Stylesheet.Proofs.Token.Footer
import Stylesheet.Proofs.Token.Spelling

/-!
# Blanks and comments between words

A `Mixture` is what may stand between two words: runs of blanks and comments, in any order. The
lexer cuts it off piece by piece (`Mixture.cutOff`).
-/

set_option autoImplicit false

namespace Stylesheet

/-- The kind of a piece is that of blanks or that of comments. -/
inductive Spelling.IsFiller (s : Spelling) : Prop
  | blanks : s.1 = .space → s.2 ≠ "" → (∀ c ∈ s.2.toList, Lexer.isSpace c = true) → IsFiller s
  | comment {cs : List Char} : s.1 = .comment → s.2.toList = '/' :: '*' :: cs →
      Lexer.cutComment cs = some (cs, []) → IsFiller s

/-- Blanks and comments in any order; blanks that stand next to each other are one piece. -/
structure Mixture (ss : List Spelling) : Prop where
  isFiller : ∀ s ∈ ss, s.IsFiller
  apart : ss.IsChain fun s t => ¬(s.1 = .space ∧ t.1 = .space)

/-! ## Words of letters -/

/-- A property of letters, shown letter by letter. -/
theorem of_isLower_toLower {q : Char → Bool}
    (hq : ∀ n < 26, q (Char.ofNat (97 + n)) = true ∧ q (Char.ofNat (65 + n)) = true) {c : Char}
    (h : c.toLower.isLower = true) : q c = true := by
  by_cases hu : 65 ≤ c.toNat ∧ c.toNat ≤ 90
  · have := (hq (c.toNat - 65) (by omega)).2
    rwa [show 65 + (c.toNat - 65) = c.toNat by omega, Char.ofNat_toNat] at this
  · refine of_isLower (fun n hn => (hq n hn).1) ?_
    have hself : c.toLower = c := by
      unfold Char.toLower
      split
      · next hc => exact absurd ⟨UInt32.le_iff_toNat_le.1 hc.1, UInt32.le_iff_toNat_le.1 hc.2⟩ hu
      · rfl
    rwa [hself] at h

namespace Lexer

/-- A word of letters behind a first character is cut off before anything that ends words. -/
theorem cuts_letters {s : String} {c : Char} {cs rest : List Char} (hs : s.toList = c :: cs)
    (hc : startsWord c = true) (hcs : ∀ d ∈ cs, d.toLower.isLower = true)
    (hrest : cutWord rest = ([], rest)) : Cuts (.word, s) rest := by
  refine cuts_plain hs hc (fun d hd => ?_) hrest
  simpa using @of_isLower_toLower (fun d => !endsWord d && d ≠ '/') (by decide) d (hcs d hd)

end Lexer

namespace Mixture

open Lexer

variable {s : Spelling} {ss : List Spelling}

theorem tail (h : Mixture (s :: ss)) : Mixture ss where
  isFiller t ht := h.isFiller t (.tail _ ht)
  apart := h.apart.tail

/-- A mixture starts with a blank or with a comment. -/
theorem head (h : Mixture (s :: ss)) : ∃ c cs, s.2.toList = c :: cs ∧
    (isSpace c = true ∧ s.1 = .space ∨ c = '/' ∧ cs.head? = some '*' ∧ s.1 = .comment) := by
  cases h.isFiller s (.head _) with
  | blanks hk hne hs =>
    cases htext : s.2.toList with
    | nil => exact absurd (String.toList_eq_nil_iff.1 htext) hne
    | cons c cs => exact ⟨c, cs, rfl, .inl ⟨hs c (by simp [htext]), hk⟩⟩
  | comment hk htext _ => exact ⟨_, _, htext, .inr ⟨rfl, rfl, hk⟩⟩

/-- A mixture is cut off in front of a text that does not start with a blank. -/
theorem cutOff {rest : List Char} (h : Mixture ss) (hrest : ∀ c ∈ rest.head?, isSpace c = false) :
    CutOff ss rest := by
  induction ss with
  | nil => trivial
  | cons s ss ih =>
    refine ⟨?_, ih h.tail⟩
    cases h.isFiller s (.head _) with
    | blanks hk hne hs =>
      rw [show s = (.space, s.2) from Prod.ext hk rfl]
      refine cuts_space hne hs ?_
      cases ss with
      | nil => exact hrest
      | cons t ss =>
        obtain ⟨c, cs, htext, hc⟩ := h.tail.head
        rw [Spelling.chars_cons, htext]
        rintro _ ⟨⟩
        rcases hc with ⟨-, hk'⟩ | ⟨rfl, -, -⟩
        · exact absurd ⟨hk, hk'⟩ (List.isChain_cons_cons.1 h.apart).1
        · rfl
    | comment hk htext hcut =>
      rw [show s = (.comment, s.2) from Prod.ext hk rfl]
      exact cuts_commentText htext hcut

/-- A mixture ends a word. -/
theorem cutWord {rest : List Char} (h : Mixture ss)
    (hrest : ss = [] → Lexer.cutWord rest = ([], rest)) :
    Lexer.cutWord (Spelling.chars ss ++ rest) = ([], Spelling.chars ss ++ rest) := by
  cases ss with
  | nil => exact hrest rfl
  | cons s ss =>
    obtain ⟨c, cs, htext, hc⟩ := h.head
    rw [Spelling.chars_cons, htext, List.cons_append, List.cons_append, Lexer.cutWord, if_pos]
    rcases hc with ⟨hc, -⟩ | ⟨rfl, hc, -⟩
    · simp [endsWord, endsAnyWord, hc]
    · cases cs with
      | nil => cases hc
      | cons d cs => simpa using Or.inr hc

end Mixture

end Stylesheet
