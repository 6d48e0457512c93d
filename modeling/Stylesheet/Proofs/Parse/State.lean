import Stylesheet.Proofs.Parse.Layout

/-!
# What a parser has read

`Parser.pieces` prints what a parser holds, the open blocks without their ends. A parser that has
read the text `done` `Covers` it: its pieces and the blanks since the last statement are `done`, and
every piece stands where its node says. Whether the last statement is printed with a semicolon
depends on what follows; `Parser.Inv` says which of the ways of printing it cover the text, given
the tokens that are still to be read.
-/

set_option autoImplicit false

namespace Stylesheet

open Stylesheet.Text Stylesheet.Tree

/-- Two nodes that say the same have the same opening if they agree in its slots. -/
theorem opening_text_congr {n m : Parsed} (hd : n.data = m.data)
    (hr : ∀ slot ∈ ["selector", "params", "afterName", "between"],
      n.raws.get? slot = m.raws.get? slot) :
    (Tree.opening Parsed.wording n).text = (Tree.opening Parsed.wording m).text := by
  simp only [Tree.opening, Wording.head, Wording.slot, Wording.part, Raws.lexemeFor, Raws.text?,
    Parsed.wording, hd, hr "selector" (by simp), hr "params" (by simp), hr "afterName" (by simp),
    hr "between" (by simp)]
  rfl

/-! ## Open blocks -/

namespace OpenBlock

/-- A block of a rule or an at-rule, with the slots that its opening asks for. -/
structure Inner (b : OpenBlock) : Prop where
  data : b.node.data.kind = .rule ∨ b.node.data.kind = .atRule
  before : b.node.raws.contains "before"
  between : b.node.raws.contains "between"
  own : b.node.raws.get? "ownSemicolon" = none

/-- What is printed of a block before its statements. -/
def opening (b : OpenBlock) : List (Piece Parsed) :=
  match b.node.data with
  | .root => []
  | _ => Piece.gap (b.node.wording.slot "before") ++ [Tree.opening Parsed.wording b.node]

/-- What is printed of an open block. `semicolon` says whether a semicolon follows the last
statement, `visible` whether its end can be seen. -/
def pieces (b : OpenBlock) (semicolon visible : Bool) : List (Piece Parsed) :=
  b.opening ++ piecesAll Parsed.wording semicolon visible b.reversed.reverse

theorem Inner.data_ne_root {b : OpenBlock} (h : b.Inner) : b.node.data ≠ .root := by
  intro he
  rcases h.data with hk | hk <;> rw [he] at hk <;> cases hk

theorem Inner.opening_eq {b : OpenBlock} (h : b.Inner) :
    b.opening = Piece.gap (b.node.wording.slot "before") ++
      [Tree.opening Parsed.wording b.node] := by
  have := h.data_ne_root
  unfold opening
  split <;> simp_all

theorem pieces_push (b : OpenBlock) (t : Tree Parsed) (semicolon visible : Bool) :
    (b.push t).pieces semicolon visible =
      b.pieces (semicolon || !t.isComment Parsed.wording) true ++
        (Piece.gap ((Parsed.wording t.label).slot "before") ++
          t.pieces Parsed.wording semicolon visible) := by
  simp [pieces, push, opening, piecesAll_append]

/-! ## Closing a block -/

/-- The formatting of a block that ends. -/
def closeRaws (b : OpenBlock) (spaces : String) (semicolon : Bool) : Raws :=
  (if b.reversed.isEmpty then b.node.raws
    else b.node.raws.set "semicolon" (.flag semicolon)).setText "after" spaces

/-- The node of a block that ends. -/
def closeNode (b : OpenBlock) (spaces : String) (semicolon : Bool) (last : Option Nat) : Parsed :=
  { b.node with raws := b.closeRaws spaces semicolon, last }

theorem close_eq (b : OpenBlock) (spaces : String) (semicolon : Bool) (last : Option Nat) :
    b.close spaces semicolon last =
      .block (b.closeNode spaces semicolon last) b.reversed.reverse := rfl

section
variable (b : OpenBlock) (spaces : String) (semicolon : Bool) (last : Option Nat)

theorem get?_closeRaws_after : (b.closeRaws spaces semicolon).get? "after" = some (.text spaces) :=
  Raws.get?_set_self ..

theorem get?_closeRaws {slot : String} (ha : slot ≠ "after") (hs : slot ≠ "semicolon") :
    (b.closeRaws spaces semicolon).get? slot = b.node.raws.get? slot := by
  rw [closeRaws, Raws.setText, Raws.get?_set_of_ne _ _ ha]
  split
  · rfl
  · exact Raws.get?_set_of_ne _ _ hs

theorem get?_closeRaws_semicolon (h : b.reversed ≠ []) :
    (b.closeRaws spaces semicolon).get? "semicolon" = some (.flag semicolon) := by
  rw [closeRaws, Raws.setText, Raws.get?_set_of_ne _ _ (by decide), if_neg (by simpa using h),
    Raws.get?_set_self]

/-- A block with statements knows whether the last of them ends in a semicolon. -/
theorem closed_closeNode (h : b.reversed ≠ []) :
    (b.closeNode spaces semicolon last).wording.closed = semicolon := by
  have hs : (b.closeNode spaces semicolon last).raws.get? "semicolon" = some (.flag semicolon) :=
    b.get?_closeRaws_semicolon spaces semicolon h
  simp [Wording.closed, Parsed.wording, hs, RawValue.isTruthy]

/-- The statements of a closed block are printed as the parser last saw them. -/
theorem piecesAll_close :
    piecesAll Parsed.wording (b.closeNode spaces semicolon last).wording.closed
      (b.closeNode spaces semicolon last).wording.closed b.reversed.reverse =
      piecesAll Parsed.wording semicolon semicolon b.reversed.reverse := by
  by_cases h : b.reversed = []
  · rw [h]; rfl
  · rw [b.closed_closeNode spaces semicolon last h]

theorem slot_closeNode {slot : String} (ha : slot ≠ "after") (hs : slot ≠ "semicolon") :
    (b.closeNode spaces semicolon last).wording.slot slot = b.node.wording.slot slot := by
  have hg : (b.closeNode spaces semicolon last).raws.get? slot = b.node.raws.get? slot :=
    b.get?_closeRaws spaces semicolon ha hs
  simp [Wording.slot, Raws.text?, Parsed.wording, hg]

theorem slot_closeNode_after :
    (b.closeNode spaces semicolon last).wording.slot "after" = spaces := by
  have hg : (b.closeNode spaces semicolon last).raws.get? "after" = some (.text spaces) :=
    b.get?_closeRaws_after spaces semicolon
  simp [Wording.slot, Raws.text?, Parsed.wording, hg, RawValue.toText]

theorem opening_text_closeNode :
    (Tree.opening Parsed.wording (b.closeNode spaces semicolon last)).text =
      (Tree.opening Parsed.wording b.node).text := by
  refine opening_text_congr rfl fun slot hs => b.get?_closeRaws spaces semicolon ?_ ?_
  · rintro rfl; simp at hs
  · rintro rfl; simp at hs

end

theorem Inner.pieces_close {b : OpenBlock} (h : b.Inner) (spaces : String) (semicolon : Bool)
    (last : Option Nat) (s v : Bool) :
    (b.close spaces semicolon last).pieces Parsed.wording s v =
      Tree.opening Parsed.wording (b.closeNode spaces semicolon last) ::
        piecesAll Parsed.wording semicolon semicolon b.reversed.reverse ++
        (Piece.gap spaces ++
          [⟨"\x7d", some (b.closeNode spaces semicolon last), some .stop, true⟩]) := by
  have hown : (b.closeNode spaces semicolon last).wording.own = "" := by
    have hg : (b.closeNode spaces semicolon last).raws.get? "ownSemicolon" = none := by
      rw [← h.own]; exact b.get?_closeRaws spaces semicolon (by decide) (by decide)
    simp only [Wording.own, Wording.slot, Raws.text?, Parsed.wording, hg]
    split <;> rfl
  have hafter := b.slot_closeNode_after spaces semicolon last
  rw [close_eq, Tree.pieces]
  rw [show Parsed.wording (b.closeNode spaces semicolon last) =
    (b.closeNode spaces semicolon last).wording from rfl, piecesAll_close]
  split
  · next he => exact absurd he h.data_ne_root
  · rw [Tree.ending, show Parsed.wording (b.closeNode spaces semicolon last) =
      (b.closeNode spaces semicolon last).wording from rfl, hown, hafter, if_pos rfl]

/-- A block that is closed has all its formatting. -/
theorem Inner.formatted_close {b : OpenBlock} (h : b.Inner)
    (hf : ∀ t ∈ b.reversed, t.Formatted Parsed.wording) (spaces : String) (semicolon : Bool)
    (last : Option Nat) : (b.close spaces semicolon last).Formatted Parsed.wording := by
  have hg : ∀ slot, slot ≠ "after" → slot ≠ "semicolon" →
      (b.closeRaws spaces semicolon).get? slot = b.node.raws.get? slot :=
    fun slot ha hs => b.get?_closeRaws spaces semicolon ha hs
  refine ⟨⟨h.data, ?_, ?_, ?_⟩, fun hne => ?_, formattedAll_iff.2 (by simpa using hf)⟩
  · show ((b.closeRaws spaces semicolon).get? "before").isSome
    rw [hg _ (by decide) (by decide)]; exact h.before
  · show ((b.closeRaws spaces semicolon).get? "between").isSome
    rw [hg _ (by decide) (by decide)]; exact h.between
  · show ((b.closeRaws spaces semicolon).get? "after").isSome
    rw [get?_closeRaws_after]; rfl
  · show ((b.closeRaws spaces semicolon).get? "semicolon").isSome
    rw [get?_closeRaws_semicolon _ _ _ (by simpa using hne)]; rfl

end OpenBlock

/-! ## Parsers -/

namespace Parser

/-- What is printed of what a parser holds. A block stands behind the statements of the blocks
around it, so that a semicolon follows these. -/
def pieces (p : Parser) (semicolon visible : Bool) : List (Piece Parsed) :=
  p.outer.reverse.flatMap (·.pieces true true) ++ p.current.pieces semicolon visible

/-- The parser has read the text `done`, if the last statement is printed as said. -/
structure Covers (p : Parser) (semicolon visible : Bool) (done : List Char) : Prop where
  text : Piece.chars (p.pieces semicolon visible) ++ p.spaces.toList = done
  placed : Placed [] (p.pieces semicolon visible)

/-- The outermost block is the root, as it was at the start. -/
def Stacked : OpenBlock → List OpenBlock → Prop
  | b, [] => b.node = ⟨.root, Raws.empty, 0, none⟩
  | b, c :: outer => b.Inner ∧ Stacked c outer

/-- The blocks and statements of a parser have the formatting that they have so far. -/
structure Built (p : Parser) : Prop where
  stacked : Stacked p.current p.outer
  formatted : ∀ b ∈ p.current :: p.outer, ∀ t ∈ b.reversed, t.Formatted Parsed.wording

/-- Statements do not matter to the order of the blocks. -/
theorem Stacked.congr {b c : OpenBlock} {outer : List OpenBlock} (hs : Stacked b outer)
    (h : c.node = b.node) : Stacked c outer := by
  cases outer with
  | nil => exact h.trans hs
  | cons d outer => exact ⟨⟨h ▸ hs.1.data, h ▸ hs.1.before, h ▸ hs.1.between, h ▸ hs.1.own⟩, hs.2⟩

variable {p q : Parser} {done text : List Char} {s v s' v' : Bool}

/-- What is added to the pieces is added to the text. -/
theorem Covers.extend (h : p.Covers s' v' done) (xs : List (Piece Parsed))
    (hq : q.pieces s v = p.pieces s' v' ++ xs)
    (ht : Piece.chars xs ++ q.spaces.toList = p.spaces.toList ++ text)
    (hp : ∀ base, base ++ p.spaces.toList = done → Placed base xs) :
    q.Covers s v (done ++ text) := by
  refine ⟨?_, ?_⟩
  · rw [hq, Piece.chars_append, List.append_assoc, ht, ← List.append_assoc, h.text]
  · rw [hq, placed_append, List.nil_append]
    exact ⟨h.placed, hp _ h.text⟩

/-- More blanks. -/
theorem Covers.blank (h : p.Covers s v done) (t : Token) :
    ({ p with spaces := p.spaces ++ t.text } : Parser).Covers s v (done ++ t.chars) :=
  h.extend [] (List.append_nil _).symm (by simp [Token.chars]) fun _ _ => trivial

/-! ### A statement -/

theorem pieces_add (p : Parser) (t : Tree Parsed) (semicolon : Bool) (s v : Bool) :
    (p.add t semicolon).pieces s v = p.pieces (s || !t.isComment Parsed.wording) true ++
      (Piece.gap ((Parsed.wording t.label).slot "before") ++ t.pieces Parsed.wording s v) := by
  simp [pieces, add, OpenBlock.pieces_push]

theorem Covers.add {t : Tree Parsed} {semicolon : Bool}
    (h : p.Covers (s || !t.isComment Parsed.wording) true done)
    (ht : ((Parsed.wording t.label).slot "before").toList ++
      Piece.chars (t.pieces Parsed.wording s v) = p.spaces.toList ++ text)
    (hp : ∀ base, base ++ p.spaces.toList = done →
      Placed (base ++ ((Parsed.wording t.label).slot "before").toList)
        (t.pieces Parsed.wording s v)) :
    (p.add t semicolon).Covers s v (done ++ text) := by
  refine h.extend _ (pieces_add p t semicolon s v) ?_ fun base hbase => ?_
  · simpa [Parser.add] using ht
  · rw [placed_append, Piece.chars_gap]
    exact ⟨placed_gap _ _, hp base hbase⟩

/-- A statement without a block. -/
theorem Covers.leaf {n : Parsed} {semicolon : Bool} (h : p.Covers true true done)
    (hk : n.data.kind ≠ .comment)
    (ht : (n.wording.slot "before").toList ++ (n.wording.leaf s).toList = p.spaces.toList ++ text)
    (hs : ∀ base, base ++ p.spaces.toList = done →
      n.StartsBehind (base ++ (n.wording.slot "before").toList) (n.wording.leaf s).toList)
    (hstops : ∀ base, base ++ p.spaces.toList = done →
      n.Stops (base ++ (n.wording.slot "before").toList) (n.wording.leaf s).toList)
    (he : v = true → n.EndsWith (done ++ text)) :
    (p.add (.leaf n) semicolon).Covers s v (done ++ text) := by
  have hcomment : (Tree.leaf n).isComment Parsed.wording = false := decide_eq_false hk
  refine Covers.add ?_ ?_ fun base hbase => ⟨fun m hm => ?_, trivial⟩
  · rwa [hcomment, Bool.not_false, Bool.or_true]
  · simpa [Tree.pieces, label] using ht
  · cases hm
    refine ⟨fun _ => hs base hbase, fun _ hv _ => ?_, fun _ _ => hstops base hbase,
      fun hc => absurd hc hk⟩
    have hv : v = true := by
      simpa [show (Parsed.wording n).data.kind ≠ .comment from hk] using hv
    have := he hv
    rwa [← hbase, List.append_assoc, ← ht, ← List.append_assoc] at this

/-- Blanks that the statement leaves. -/
theorem Covers.withSpaces (h : p.Covers s v done) (hp : p.spaces = "") (spaces : String) :
    ({ p with spaces } : Parser).Covers s v (done ++ spaces.toList) :=
  h.extend [] (List.append_nil _).symm (by simp [hp]) fun _ _ => trivial

theorem Built.add {t : Tree Parsed} (h : p.Built) (ht : t.Formatted Parsed.wording)
    (semicolon : Bool) : (p.add t semicolon).Built := by
  refine ⟨h.stacked.congr rfl, fun b hb u hu => ?_⟩
  · rcases List.mem_cons.1 hb with rfl | hb
    · rcases List.mem_cons.1 hu with rfl | hu
      · exact ht
      · exact h.formatted p.current (.head _) u hu
    · exact h.formatted b (.tail _ hb) u hu

/-! ### The start of a block -/

theorem Built.enter (h : p.Built) {node : Parsed} (hn : (⟨node, []⟩ : OpenBlock).Inner) :
    (p.enter node).Built := by
  refine ⟨⟨hn, h.stacked⟩, fun b hb u hu => ?_⟩
  rcases List.mem_cons.1 hb with rfl | hb
  · cases hu
  · exact h.formatted b hb u hu

theorem Covers.enter (h : p.Covers true true done) {node : Parsed}
    (hn : (⟨node, []⟩ : OpenBlock).Inner)
    (hb : node.wording.slot "before" = p.spaces)
    (ht : (Tree.opening Parsed.wording node).text.toList = text)
    (hs : node.start = byteSize done) (s v : Bool) :
    (p.enter node).Covers s v (done ++ text) := by
  refine h.extend (Piece.gap (node.wording.slot "before") ++
    [Tree.opening Parsed.wording node]) ?_ ?_ fun base hbase => ?_
  · simp [pieces, Parser.enter, OpenBlock.pieces, hn.opening_eq, piecesAll]
  · simp [Parser.enter, hb, ht]
  · rw [placed_append, Piece.chars_gap]
    refine ⟨placed_gap _ _, fun n he => ?_, trivial⟩
    cases he
    refine ⟨fun _ => .inl ⟨by rw [hb, hbase, hs], by simp [Tree.opening]⟩,
      fun hr => absurd rfl hr, fun hr => absurd rfl hr, fun hc => ?_⟩
    rcases hn.data with hk | hk <;> rw [hk] at hc <;> cases hc

/-! ### The end of a block -/

/-- The opening of a block stands where it stood when its node changes elsewhere. -/
theorem placed_opening_congr {n m : Parsed} {xs : List (Piece Parsed)}
    (hk : n.data.kind = .rule ∨ n.data.kind = .atRule) (hd : m.data = n.data)
    (hs : m.start = n.start)
    (ht : (Tree.opening Parsed.wording m).text = (Tree.opening Parsed.wording n).text)
    (h : Placed done (Tree.opening Parsed.wording n :: xs)) :
    Placed done (Tree.opening Parsed.wording m :: xs) := by
  obtain ⟨hfit, hxs⟩ := h
  refine ⟨fun k he => ?_, by rw [ht]; exact hxs⟩
  cases he
  refine ⟨fun hr => ?_, fun hr => absurd rfl hr, fun hr => absurd rfl hr, fun hc => ?_⟩
  · rcases (hfit n rfl).start hr with ⟨hstart, hne⟩ | ⟨hdecl, -⟩
    · rw [ht]
      exact .inl ⟨hs.trans hstart, hne⟩
    · rcases hk with hk | hk <;> rw [hk] at hdecl <;> cases hdecl
  · rw [hd] at hc
    rcases hk with hk | hk <;> rw [hk] at hc <;> cases hc

theorem leave_ok {t : Token} (h : p.leave t = .ok q) :
    ∃ b outer, p.outer = b :: outer ∧
      q = ⟨b.push (p.current.close p.spaces p.semicolon (some t.first)), outer, "", false⟩ := by
  unfold leave at h
  split at h
  · cases h
  · next b outer he =>
    cases h
    exact ⟨b, outer, he, rfl⟩

theorem Built.leave {t : Token} (hb : p.Built) (h : p.leave t = .ok q) : q.Built := by
  obtain ⟨b, outer, he, rfl⟩ := leave_ok h
  have hs := hb.stacked
  rw [he] at hs
  refine ⟨hs.2.congr rfl, fun c hc u hu => ?_⟩
  · rcases List.mem_cons.1 hc with rfl | hc
    · rcases List.mem_cons.1 hu with rfl | hu
      · exact hs.1.formatted_close (hb.formatted _ (.head _)) _ _ _
      · exact hb.formatted b (by simp [he]) u hu
    · exact hb.formatted c (by simp [he, hc]) u hu

/-- The block that is left keeps its place; its end is added. -/
theorem pieces_leave {t : Token} (hb : p.Built) (hl : p.leave t = .ok q) :
    ∃ front xs, p.pieces p.semicolon p.semicolon =
      front ++ Tree.opening Parsed.wording p.current.node :: xs ∧
      ∀ s v, q.pieces s v = front ++
        Tree.opening Parsed.wording
          (p.current.closeNode p.spaces p.semicolon (some t.first)) :: xs ++
        (Piece.gap p.spaces ++ [⟨"\x7d",
          some (p.current.closeNode p.spaces p.semicolon (some t.first)), some .stop, true⟩]) := by
  obtain ⟨b, outer, he, rfl⟩ := leave_ok hl
  have hs := hb.stacked
  rw [he] at hs
  refine ⟨outer.reverse.flatMap (·.pieces true true) ++ b.pieces true true ++
      Piece.gap (p.current.node.wording.slot "before"),
    piecesAll Parsed.wording p.semicolon p.semicolon p.current.reversed.reverse, ?_, fun s v => ?_⟩
  · simp [pieces, he, OpenBlock.pieces, hs.1.opening_eq]
  · have hcomment : (p.current.close p.spaces p.semicolon (some t.first)).isComment
        Parsed.wording = false := by
      simp only [isComment, decide_eq_false_iff_not]
      intro hc
      rcases hs.1.data with hk | hk <;> exact absurd (hk.symm.trans hc) (by decide)
    have hbefore : (Parsed.wording (p.current.close p.spaces p.semicolon
        (some t.first)).label).slot "before" = p.current.node.wording.slot "before" :=
      p.current.slot_closeNode _ _ _ (by decide) (by decide)
    simp only [pieces, OpenBlock.pieces_push, hs.1.pieces_close, hcomment, hbefore,
      Bool.not_false, Bool.or_true, List.append_assoc, List.cons_append]

theorem Covers.leave {t : Token} (hb : p.Built) (h : p.Covers p.semicolon p.semicolon done)
    (ht : t.At (byteSize done)) (hk : t.kind = .closeCurly) (hl : p.leave t = .ok q)
    (s v : Bool) : q.Covers s v (done ++ t.chars) := by
  have hinner : p.current.Inner := by
    obtain ⟨b, outer, he, -⟩ := leave_ok hl
    have hs := hb.stacked
    rw [he] at hs
    exact hs.1
  have hspaces : q.spaces = "" := by
    obtain ⟨b, outer, -, rfl⟩ := leave_ok hl
    rfl
  obtain ⟨front, xs, hold, hnew⟩ := pieces_leave hb hl
  have hopening := p.current.opening_text_closeNode p.spaces p.semicolon (some t.first)
  generalize hn : p.current.closeNode p.spaces p.semicolon (some t.first) = node at hnew hopening
  have hchars : t.chars = ['}'] := ht.shaped.mark _ (by rw [hk]; rfl)
  have htext : Piece.chars (front ++ Tree.opening Parsed.wording node :: xs) ++
      p.spaces.toList = done := by
    rw [← h.text, hold]
    simp [hopening]
  refine ⟨?_, ?_⟩
  · rw [hnew, hspaces, Piece.chars_append, hchars, ← htext]
    simp
  · obtain ⟨hfront, hblock⟩ := placed_append.1 (hold ▸ h.placed)
    rw [hnew, placed_append, @placed_append _ (Piece.gap _), Piece.chars_gap, List.nil_append]
    refine ⟨placed_append.2 ⟨hfront, placed_opening_congr hinner.data (by rw [← hn]; rfl)
      (by rw [← hn]; rfl) hopening hblock⟩, placed_gap _ _, fun n hn' => ?_, trivial⟩
    cases hn'
    rw [htext]
    have hend : node.EndsWith (done ++ "\x7d".toList) :=
      ⟨done, '}', rfl, by decide, by rw [← hn]; exact congrArg some ht.first⟩
    refine ⟨fun hr => absurd rfl hr, fun _ _ _ => hend, fun _ _ => hend.stops, fun hc => ?_⟩
    · rw [← hn] at hc
      rcases hinner.data with hk' | hk' <;> exact absurd (hk'.symm.trans hc) (by decide)

/-! ### A semicolon behind a rule -/

/-- The rule with a semicolon of its own. -/
def closeOwn (n : Parsed) (spaces : String) (last : Nat) : Parsed :=
  { n with raws := n.raws.setText "ownSemicolon" spaces, last := some last }

theorem freeSemicolon_cases (p : Parser) (t : Token) :
    p.freeSemicolon t = { p with spaces := p.spaces ++ t.text } ∨
    ∃ n ts earlier, p.current.reversed = .block n ts :: earlier ∧ n.data.kind = .rule ∧
      n.raws.get? "ownSemicolon" = none ∧
      p.freeSemicolon t = { p with
        current := { p.current with
          reversed := .block (closeOwn n (p.spaces ++ t.text) t.first) ts :: earlier }
        spaces := "" } := by
  unfold freeSemicolon
  simp only
  split
  · next n ts earlier hr =>
    split
    · next hn =>
      simp only [Bool.and_eq_true, decide_eq_true_eq, Bool.not_eq_true', Raws.contains,
        Option.isSome_eq_false_iff, Option.isNone_iff_eq_none] at hn
      exact .inr ⟨n, ts, earlier, hr, hn.1, hn.2, rfl⟩
    · exact .inl rfl
  · exact .inl rfl

theorem get?_closeOwn (n : Parsed) (spaces : String) (last : Nat) {slot : String}
    (h : slot ≠ "ownSemicolon") : (closeOwn n spaces last).raws.get? slot = n.raws.get? slot :=
  Raws.get?_set_of_ne _ _ h

theorem slot_closeOwn (n : Parsed) (spaces : String) (last : Nat) {slot : String}
    (h : slot ≠ "ownSemicolon") :
    (closeOwn n spaces last).wording.slot slot = n.wording.slot slot := by
  simp [Wording.slot, Raws.text?, Parsed.wording, get?_closeOwn _ _ _ h]

theorem opening_text_closeOwn (n : Parsed) (spaces : String) (last : Nat) :
    (Tree.opening Parsed.wording (closeOwn n spaces last)).text =
      (Tree.opening Parsed.wording n).text := by
  refine opening_text_congr rfl fun slot hs => get?_closeOwn n spaces last ?_
  rintro rfl
  simp at hs

theorem own_closeOwn {n : Parsed} (hk : n.data.kind = .rule) (spaces : String) (last : Nat) :
    (closeOwn n spaces last).wording.own = spaces := by
  cases hd : n.data with
  | rule selector =>
    simp [Wording.own, Wording.slot, Raws.text?, Parsed.wording, closeOwn, hd, Raws.setText,
      RawValue.toText]
  | _ => rw [hd] at hk; cases hk

/-- The pieces of a rule, before and after it gets a semicolon of its own. -/
theorem pieces_closeOwn {n : Parsed} (ts : List (Tree Parsed)) (hk : n.data.kind = .rule)
    (ho : n.raws.get? "ownSemicolon" = none) {spaces : String} (hs : spaces ≠ "") (last : Nat) :
    ∃ xs : List (Piece Parsed), (∀ s v, (Tree.block n ts).pieces Parsed.wording s v =
      Tree.opening Parsed.wording n :: xs ++ [⟨"\x7d", some n, some .stop, true⟩]) ∧
      ∀ s v, (Tree.block (closeOwn n spaces last) ts).pieces Parsed.wording s v =
        Tree.opening Parsed.wording (closeOwn n spaces last) :: xs ++
          [⟨"\x7d", some (closeOwn n spaces last), some .stop, true⟩,
            ⟨spaces, some (closeOwn n spaces last), some .stop, true⟩] := by
  cases hd : n.data with
  | root => rw [hd] at hk; cases hk
  | atRule => rw [hd] at hk; cases hk
  | declaration => rw [hd] at hk; cases hk
  | comment => rw [hd] at hk; cases hk
  | rule selector =>
    have hown : (Parsed.wording n).own = "" := by
      simp [Wording.own, Wording.slot, Raws.text?, Parsed.wording, hd, ho]
    have hown' : (Parsed.wording (closeOwn n spaces last)).own = spaces := own_closeOwn hk _ _
    have hclosed : (Parsed.wording (closeOwn n spaces last)).closed =
        (Parsed.wording n).closed := by
      simp [Wording.closed, Parsed.wording, get?_closeOwn]
    have hafter : (Parsed.wording (closeOwn n spaces last)).slot "after" =
        (Parsed.wording n).slot "after" := slot_closeOwn n spaces last (by decide)
    refine ⟨piecesAll Parsed.wording (Parsed.wording n).closed (Parsed.wording n).closed ts ++
      Piece.gap ((Parsed.wording n).slot "after"), fun s v => ?_, fun s v => ?_⟩
    · rw [Tree.pieces, show (Parsed.wording n).data = .rule selector from hd, Tree.ending, hown]
      simp
    · rw [Tree.pieces, show (Parsed.wording (closeOwn n spaces last)).data = .rule selector from hd,
        Tree.ending, hown', hclosed, hafter, if_neg hs]
      simp

theorem formatted_closeOwn {n : Parsed} {ts : List (Tree Parsed)}
    (h : (Tree.block n ts).Formatted Parsed.wording) (spaces : String) (last : Nat) :
    (Tree.block (closeOwn n spaces last) ts).Formatted Parsed.wording := by
  have hg : ∀ slot, slot ≠ "ownSemicolon" →
      (Parsed.wording (closeOwn n spaces last)).raws.contains slot =
        (Parsed.wording n).raws.contains slot :=
    fun slot hs => congrArg Option.isSome (get?_closeOwn n spaces last hs)
  refine ⟨⟨h.1.data, ?_, ?_, ?_⟩, ?_, h.2.2⟩
  · rw [hg _ (by decide)]; exact h.1.before
  · rw [hg _ (by decide)]; exact h.1.between
  · rw [hg _ (by decide)]; exact h.1.after
  · rw [hg _ (by decide)]; exact h.2.1

theorem Built.freeSemicolon (h : p.Built) (t : Token) : (p.freeSemicolon t).Built := by
  rcases freeSemicolon_cases p t with he | ⟨n, ts, earlier, hr, hk, ho, he⟩
  · rw [he]; exact ⟨h.stacked, h.formatted⟩
  · rw [he]
    refine ⟨h.stacked.congr rfl, fun b hb u hu => ?_⟩
    · rcases List.mem_cons.1 hb with rfl | hb
      · rcases List.mem_cons.1 hu with rfl | hu
        · have hlast := h.formatted p.current (.head _) (.block n ts) (by rw [hr]; exact .head _)
          exact formatted_closeOwn hlast _ _
        · exact h.formatted p.current (.head _) u (by rw [hr]; exact .tail _ hu)
      · exact h.formatted b (.tail _ hb) u hu

/-- A rule that stands last is printed behind the statements before it. -/
theorem pieces_rule {n : Parsed} {ts earlier : List (Tree Parsed)}
    (hr : p.current.reversed = .block n ts :: earlier) (hk : n.data.kind = .rule) (s v : Bool) :
    p.pieces s v = p.outer.reverse.flatMap (·.pieces true true) ++
      (⟨p.current.node, earlier⟩ : OpenBlock).pieces true true ++
      Piece.gap (n.wording.slot "before") ++ (Tree.block n ts).pieces Parsed.wording s v := by
  have hc : (Tree.block n ts).isComment Parsed.wording = false := by
    simp [isComment, label, Parsed.wording, hk]
  have hcurrent : p.current = ⟨p.current.node, .block n ts :: earlier⟩ := by rw [← hr]
  have hpush := OpenBlock.pieces_push ⟨p.current.node, earlier⟩ (.block n ts) s v
  rw [hc, Bool.not_false, Bool.or_true] at hpush
  rw [pieces, hcurrent]
  refine (congrArg (_ ++ ·) hpush).trans ?_
  simp [label]

/-- The pieces of a rule that gets a semicolon of its own: one more behind it, and its node. -/
theorem pieces_freeSemicolon {n : Parsed} {ts earlier : List (Tree Parsed)} {spaces : String}
    (hr : p.current.reversed = .block n ts :: earlier) (hk : n.data.kind = .rule)
    (ho : n.raws.get? "ownSemicolon" = none) (hs : spaces ≠ "") (last : Nat) (s v : Bool) :
    ∃ front xs, p.pieces s v =
        front ++ (Tree.opening Parsed.wording n :: xs ++ [⟨"\x7d", some n, some .stop, true⟩]) ∧
      ({ p with
        current := { p.current with reversed := .block (closeOwn n spaces last) ts :: earlier }
        spaces := "" } : Parser).pieces s v =
        front ++ (Tree.opening Parsed.wording (closeOwn n spaces last) :: xs ++
          [⟨"\x7d", some (closeOwn n spaces last), some .stop, true⟩,
            ⟨spaces, some (closeOwn n spaces last), some .stop, true⟩]) := by
  obtain ⟨xs, hold, hnew⟩ := pieces_closeOwn ts hk ho hs last
  have hb := slot_closeOwn n spaces last (by decide : "before" ≠ "ownSemicolon")
  refine ⟨_, xs, (pieces_rule hr hk s v).trans (by rw [hold]), ?_⟩
  have hkind : (closeOwn n spaces last).data.kind = .rule := hk
  refine (pieces_rule rfl hkind s v).trans ?_
  rw [hb, hnew]

/-- The brace of a rule with a semicolon of its own is not its end. -/
theorem fits_brace {n : Parsed} (hk : n.data.kind = .rule) {spaces : String} (hs : spaces ≠ "")
    (hne : spaces ≠ "\x7d") (last : Nat) (done : List Char) :
    Piece.Fits done ⟨"\x7d", some (closeOwn n spaces last), some .stop, true⟩ := by
  intro k he
  cases he
  have hown : ¬((closeOwn n spaces last).wording.own ≠ "" →
      "\x7d" = (closeOwn n spaces last).wording.own) := by
    rw [own_closeOwn hk]
    exact fun ho => hne (ho hs).symm
  exact ⟨fun hr => absurd rfl hr, fun _ _ ho => absurd ho hown, fun _ ho => absurd ho hown,
    fun hc => absurd (hk.symm.trans hc) (by decide)⟩

theorem fits_own {n : Parsed} (hk : n.data.kind = .rule) {spaces : String} {last : Nat}
    {done front : List Char} (h : done ++ spaces.toList = front ++ [';'])
    (hl : last = byteSize front) :
    Piece.Fits done ⟨spaces, some (closeOwn n spaces last), some .stop, true⟩ := by
  intro k he
  cases he
  have hend : (closeOwn n spaces last).EndsWith (done ++ spaces.toList) :=
    ⟨front, ';', h, by decide, congrArg some hl⟩
  exact ⟨fun hr => absurd rfl hr, fun _ _ _ => hend, fun _ _ => hend.stops,
    fun hc => absurd (hk.symm.trans hc) (by decide)⟩

theorem Covers.freeSemicolon {t : Token} (h : p.Covers s v done) (ht : t.At (byteSize done))
    (hk : t.kind = .semicolon) : (p.freeSemicolon t).Covers s v (done ++ t.chars) := by
  rcases freeSemicolon_cases p t with he | ⟨n, ts, earlier, hr, hrule, ho, he⟩
  · rw [he]
    exact h.blank t
  · have hchars : t.text.toList = [';'] := ht.shaped.mark _ (by rw [hk]; rfl)
    have hend : (p.spaces ++ t.text).toList.getLast? = some ';' := by simp [hchars]
    have hspaces : p.spaces ++ t.text ≠ "" := by
      intro he
      rw [he] at hend
      cases hend
    have hbrace : p.spaces ++ t.text ≠ "\x7d" := by
      intro he
      rw [he] at hend
      cases hend
    obtain ⟨front, xs, hp, hq⟩ := pieces_freeSemicolon hr hrule ho hspaces t.first s v
    have hopening := opening_text_closeOwn n (p.spaces ++ t.text) t.first
    have htext := h.text
    have hplaced := h.placed
    rw [hp] at htext hplaced
    rw [he]
    refine ⟨?_, ?_⟩
    · rw [hq, ← htext]
      simp [hopening, Token.chars]
    · rw [List.cons_append, placed_append, ← List.cons_append, placed_append] at hplaced
      rw [hq, placed_append, @placed_append _ (_ :: xs)]
      refine ⟨hplaced.1, placed_opening_congr (.inl hrule) rfl rfl hopening hplaced.2.1,
        fits_brace hrule hspaces hbrace _ _, fits_own hrule ?_ ht.first, trivial⟩
      rw [← htext]
      simp [hopening, hchars]

end Parser

end Stylesheet
