import Stylesheet.Parser
import Stylesheet.Proofs.Print.Formatted
import Stylesheet.Proofs.Token.Tiling

/-!
# Where the nodes of a parsed tree stand in its text

`Placed done xs`: printed behind the text `done`, the pieces `xs` start and end where their nodes
say they do. Two kinds of nodes do not: a declaration with a hack starts at its mark, which is
printed before it (`Parsed.BehindHack`), and a rule with a semicolon of its own ends there, not at
its brace. Between the mark of a comment and its text there are only blanks.
-/

set_option autoImplicit false

namespace Stylesheet

open Stylesheet.Text

/-- The wording of a node that was read. -/
def Parsed.wording (n : Parsed) : Wording := ⟨n.data, n.raws⟩

/-! ## Starts and ends -/

/-- The node is a declaration that starts at the mark of a hack, the last character of `done`. The
mark belongs to what stands before the declaration. -/
def Parsed.BehindHack (n : Parsed) (done : List Char) : Prop :=
  n.data.kind = .declaration ∧
    ∃ before c, done = before ++ [c] ∧ (c = '*' ∨ c = '_') ∧ n.start = byteSize before ∧
      (n.wording.slot "before").toList.getLast? = some c

/-- The node starts with `text`, behind `done`. -/
def Parsed.StartsBehind (n : Parsed) (done text : List Char) : Prop :=
  (n.start = byteSize done ∧ text ≠ []) ∨ n.BehindHack done

/-- The node ends with the last character of `done`, which ends no line. -/
def Parsed.EndsWith (n : Parsed) (done : List Char) : Prop :=
  ∃ before c, done = before ++ [c] ∧ c ≠ '\n' ∧ n.last = some (byteSize before)

/-- The node, printed as `text` behind `done`, ends with the last character of what is kept of this
text. All of it is kept but for blanks at the end of an at-rule, which may also have no end. -/
def Parsed.Stops (n : Parsed) (done text : List Char) : Prop :=
  ∃ kept blanks, text = kept ++ blanks ∧ (∀ c ∈ blanks, Lexer.isSpace c = true) ∧
    (blanks = [] ∧ n.last ≠ none ∨ n.data.kind = .atRule) ∧
    ∀ last, n.last = some last → ∃ front c, done ++ kept = front ++ [c] ∧ last = byteSize front

theorem Tiled.tokenChars_ne_nil {offset : Nat} {ts : List Token} {t : Token}
    (h : Tiled offset ts) (hlast : ts.getLast? = some t) : tokenChars ts ≠ [] := by
  intro he
  have := h.getLast? hlast
  rw [he, List.getLast?_nil, eq_comm, List.getLast?_eq_none_iff] at this
  exact (h.shaped (List.mem_of_getLast? hlast)).solid this

theorem Parsed.EndsWith.stops {n : Parsed} {done text : List Char}
    (h : n.EndsWith (done ++ text)) : n.Stops done text := by
  obtain ⟨front, c, hdone, -, hlast⟩ := h
  refine ⟨text, [], (List.append_nil _).symm, by simp, .inl ⟨rfl, by simp [hlast]⟩, ?_⟩
  intro last hl
  rw [hlast, Option.some.injEq] at hl
  exact ⟨front, c, hdone, hl.symm⟩

/-- Tokens that stand behind `done` end with the last character of the last one. -/
theorem Tiled.ends {done : List Char} {ts : List Token} {t : Token}
    (h : Tiled (byteSize done) ts) (hlast : ts.getLast? = some t) :
    ∃ front c, done ++ tokenChars ts = front ++ [c] ∧ t.last = byteSize front := by
  have hne := h.tokenChars_ne_nil hlast
  refine ⟨done ++ (tokenChars ts).dropLast, (tokenChars ts).getLast hne, ?_, ?_⟩
  · rw [List.append_assoc, List.dropLast_concat_getLast]
  · rw [h.last hlast, byteSize_append]

/-- A node stops where its last token ends. -/
theorem Parsed.stops_of_tiled {n : Parsed} {done base text : List Char} {ts : List Token}
    {t : Token} (ht : Tiled (byteSize done) ts) (hlast : ts.getLast? = some t)
    (hn : n.last = some t.last) (htext : base ++ text = done ++ tokenChars ts) :
    n.Stops base text := by
  obtain ⟨front, c, hdone, hfront⟩ := ht.ends hlast
  refine ⟨text, [], (List.append_nil _).symm, by simp, .inl ⟨rfl, by simp [hn]⟩, ?_⟩
  intro last hl
  rw [hn, Option.some.injEq] at hl
  exact ⟨front, c, htext.trans hdone, hl.symm.trans hfront⟩

/-- A node ends with its last token, unless that is a blank. -/
theorem Parsed.endsWith_of_tiled {n : Parsed} {done : List Char} {ts : List Token} {t : Token}
    (ht : Tiled (byteSize done) ts) (hlast : ts.getLast? = some t) (hk : t.kind ≠ .space)
    (hn : n.last = some t.last) : n.EndsWith (done ++ tokenChars ts) := by
  have hmem := List.mem_of_getLast? hlast
  have hne := ht.tokenChars_ne_nil hlast
  refine ⟨done ++ (tokenChars ts).dropLast, (tokenChars ts).getLast hne, ?_, fun hc => ?_, ?_⟩
  · rw [List.append_assoc, List.dropLast_concat_getLast]
  · have := ht.getLast? hlast
    rw [List.getLast?_eq_some_getLast hne, hc] at this
    exact (ht.shaped hmem).line hk this.symm
  · rw [hn, ht.last hlast, byteSize_append]

/-- The piece, printed behind `done`, starts and ends where its node does. -/
structure Piece.FitsNode (done : List Char) (x : Piece Parsed) (n : Parsed) : Prop where
  start : x.role ≠ some .stop → n.StartsBehind done x.text.toList
  stop : x.role ≠ some .start → x.visible = true →
    (n.wording.own ≠ "" → x.text = n.wording.own) → n.EndsWith (done ++ x.text.toList)
  stops : x.role ≠ some .start → (n.wording.own ≠ "" → x.text = n.wording.own) →
    n.Stops done x.text.toList
  left : n.data.kind = .comment → ∀ c ∈ (n.wording.slot "left").toList, isBlank c = true

/-- The piece, printed behind `done`, fits the node it belongs to. -/
def Piece.Fits (done : List Char) (x : Piece Parsed) : Prop :=
  ∀ n, x.node = some n → x.FitsNode done n

/-- The pieces, printed behind `done`, start and end where their nodes do. -/
def Placed : List Char → List (Piece Parsed) → Prop
  | _, [] => True
  | done, x :: xs => x.Fits done ∧ Placed (done ++ x.text.toList) xs

theorem placed_append {done : List Char} {xs ys : List (Piece Parsed)} :
    Placed done (xs ++ ys) ↔ Placed done xs ∧ Placed (done ++ Piece.chars xs) ys := by
  induction xs generalizing done with
  | nil => simp [Placed]
  | cons x xs ih => simp [Placed, ih, and_assoc]

theorem placed_gap (done : List Char) (text : String) : Placed done (Piece.gap text) := by
  by_cases h : text = ""
  · simp [Piece.gap, h, Placed]
  · simp [Piece.gap, h, Placed, Piece.Fits]

/-- Every piece of placed ones fits what stands before it. -/
theorem Placed.fits {done : List Char} {xs ys : List (Piece Parsed)} {x : Piece Parsed}
    (h : Placed done (xs ++ x :: ys)) : x.Fits (done ++ Piece.chars xs) :=
  (placed_append.1 h).2.1

end Stylesheet
