import Stylesheet.Proofs.Parse.State

/-!
# Comments, blanks and braces

The steps of the parser that take one token. Each keeps the invariant `Parser.Inv`, which says of a
parser that has read `done` how its last statement may be printed: as the parser would close the
block now (`closing`), with a comment behind it, unless the block ends at once (`comments`), and
with a statement behind it, unless the block ends behind blanks and comments (`statements`).
-/

set_option autoImplicit false

namespace Stylesheet

open Stylesheet.Text Stylesheet.Tree

/-! ## Trimming -/

namespace Text

theorem trimRight_append (cs : List Char) :
    trimRight cs ++ (cs.reverse.takeWhile isBlank).reverse = cs := by
  rw [trimRight, ← List.reverse_append, List.takeWhile_append_dropWhile, List.reverse_reverse]

/-- A text is what trimming leaves, with the blanks at its ends. -/
theorem trimChars_append {cs : List Char} (h : trimChars cs ≠ []) :
    cs.takeWhile isBlank ++ trimChars cs ++ (cs.reverse.takeWhile isBlank).reverse = cs := by
  have hsplit := List.takeWhile_append_dropWhile (p := isBlank) (l := cs)
  have hend : cs.reverse.takeWhile isBlank = (cs.dropWhile isBlank).reverse.takeWhile isBlank := by
    conv => lhs; rw [← hsplit, List.reverse_append, List.takeWhile_append]
    refine if_neg fun hlen => h ?_
    have := (List.takeWhile_prefix (l := (cs.dropWhile isBlank).reverse) isBlank).eq_of_length hlen
    have hnil := List.takeWhile_append_dropWhile (p := isBlank)
      (l := (cs.dropWhile isBlank).reverse)
    rw [this, List.append_right_eq_self] at hnil
    rw [trimChars, trimRight, hnil, List.reverse_nil]
  rw [hend, List.append_assoc, trimChars, trimRight_append, hsplit]

/-- Nothing but blanks is trimmed to nothing. -/
theorem all_isBlank_of_trimChars {cs : List Char} (h : trimChars cs = []) :
    ∀ c ∈ cs, isBlank c = true := by
  have hsplit := List.takeWhile_append_dropWhile (p := isBlank) (l := cs)
  have hend := trimRight_append (cs.dropWhile isBlank)
  rw [show trimRight (cs.dropWhile isBlank) = [] from h, List.nil_append] at hend
  intro c hc
  rw [← hsplit, ← hend, List.mem_append, List.mem_reverse] at hc
  rcases hc with hc | hc
  · exact List.all_eq_true.1 List.all_takeWhile c hc
  · exact List.all_eq_true.1 List.all_takeWhile c hc

end Text

namespace Parser

/-! ## The invariant -/

/-- The block ends before anything else is read. -/
def EndsBlock : List Token → Prop
  | [] => True
  | t :: _ => t.kind = .closeCurly

/-- A parser that has read `done`, before the tokens `rest`. -/
structure Inv (done : List Char) (p : Parser) (rest : List Token) : Prop where
  built : p.Built
  tiled : Tiled (byteSize done) rest
  closing : p.Covers p.semicolon p.semicolon done
  comments : ¬EndsBlock rest → p.Covers p.semicolon true done
  statements : ¬EndsBlock (rest.dropWhile Token.isFiller) → p.Covers true true done

variable {p q : Parser} {done : List Char} {t : Token} {rest : List Token}

/-- What comes next does not matter to the printing of the last statement. -/
theorem Inv.of_all (hb : p.Built) (ht : Tiled (byteSize done) rest)
    (h : ∀ s v, p.Covers s v done) : Inv done p rest :=
  ⟨hb, ht, h _ _, fun _ => h _ _, fun _ => h _ _⟩

/-- The last statement ends in a semicolon. -/
theorem Inv.of_semicolon (hb : p.Built) (ht : Tiled (byteSize done) rest)
    (hs : p.semicolon = true) (h : p.Covers true true done) : Inv done p rest :=
  ⟨hb, ht, hs ▸ h, fun _ => hs ▸ h, fun _ => h⟩

/-- A statement that is no filler can be read. -/
theorem Inv.covers (h : Inv done p (t :: rest)) (hf : t.isFiller = false)
    (hk : t.kind ≠ .closeCurly) : p.Covers true true done := by
  refine h.statements ?_
  rw [List.dropWhile_cons, hf]
  exact hk

theorem Inv.tiled_rest (h : Inv done p (t :: rest)) : Tiled (byteSize (done ++ t.chars)) rest := by
  rw [byteSize_append]
  exact h.tiled.2

/-! ## Steps -/

theorem Inv.space (h : Inv done p (t :: rest)) (hk : t.kind = .space) :
    Inv (done ++ t.chars) { p with spaces := p.spaces ++ t.text } rest := by
  refine ⟨⟨h.built.stacked, h.built.formatted⟩, h.tiled_rest, h.closing.blank t, fun _ => ?_,
    fun he => ?_⟩
  · exact (h.comments (by simp [EndsBlock, hk])).blank t
  · refine (h.statements ?_).blank t
    rwa [List.dropWhile_cons, if_pos (by simp [Token.isFiller, hk])]

theorem Inv.freeSemicolon (h : Inv done p (t :: rest)) (hk : t.kind = .semicolon) :
    Inv (done ++ t.chars) (p.freeSemicolon t) rest := by
  have hsame : (p.freeSemicolon t).semicolon = p.semicolon := by
    rcases freeSemicolon_cases p t with he | ⟨n, ts, earlier, -, -, -, he⟩ <;> rw [he]
  have ht := h.tiled.1
  refine ⟨h.built.freeSemicolon t, h.tiled_rest, ?_, fun _ => ?_, fun _ => ?_⟩
  · rw [hsame]; exact h.closing.freeSemicolon ht hk
  · rw [hsame]; exact (h.comments (by simp [EndsBlock, hk])).freeSemicolon ht hk
  · exact (h.covers (by simp [Token.isFiller, hk]) (by simp [hk])).freeSemicolon ht hk

theorem Inv.leave (h : Inv done p (t :: rest)) (hk : t.kind = .closeCurly)
    (hl : p.leave t = .ok q) : Inv (done ++ t.chars) q rest :=
  .of_all (h.built.leave hl) h.tiled_rest (h.closing.leave h.built h.tiled.1 hk hl)

theorem Inv.emptyRule (h : Inv done p (t :: rest)) (hk : t.kind = .openCurly) :
    Inv (done ++ t.chars) (p.emptyRule t) rest := by
  have hn : (⟨⟨.rule "", (Raws.empty.setText "before" p.spaces).setText "between" "", t.first,
      none⟩, []⟩ : OpenBlock).Inner := ⟨.inl rfl, rfl, rfl, rfl⟩
  have hchars : t.chars = ['\x7b'] := h.tiled.1.shaped.mark _ (by rw [hk]; rfl)
  have htext : (Tree.opening Parsed.wording ⟨.rule "",
      (Raws.empty.setText "before" p.spaces).setText "between" "", t.first, none⟩).text =
      "" ++ "" ++ "\x7b" := rfl
  refine .of_all (h.built.enter hn) h.tiled_rest ?_
  exact (h.covers (by simp [Token.isFiller, hk]) (by simp [hk])).enter hn rfl
    (by rw [htext, hchars]; simp) h.tiled.1.first

/-! ## Comments -/

/-- The text of a comment, with the blanks before and behind it. -/
def commentParts (inner : List Char) : List Char × List Char × List Char :=
  let trimmed := trimChars inner
  if trimmed.isEmpty then (inner, trimmed, [])
  else (inner.takeWhile isBlank, trimmed, (inner.reverse.takeWhile isBlank).reverse)

/-- The node of a comment. -/
def commentNode (spaces : String) (t : Token) : Parsed :=
  let parts := commentParts ((t.text.toList.drop 2).dropLast.dropLast)
  ⟨.comment (String.ofList parts.2.1),
    ((Raws.empty.setText "before" spaces).setText "left" (String.ofList parts.1)).setText
      "right" (String.ofList parts.2.2), t.first, some t.last⟩

theorem comment_eq (p : Parser) (t : Token) :
    p.comment t = p.add (.leaf (commentNode p.spaces t)) p.semicolon := by
  unfold comment commentNode commentParts
  by_cases h : (trimChars ((t.text.toList.drop 2).dropLast.dropLast)).isEmpty = true <;> simp [h]

theorem commentParts_spec (inner : List Char) :
    (commentParts inner).1 ++ (commentParts inner).2.1 ++ (commentParts inner).2.2 = inner ∧
      ∀ c ∈ (commentParts inner).1, isBlank c = true := by
  unfold commentParts
  by_cases h : trimChars inner = []
  · simp only [h, List.isEmpty_nil, if_true, List.append_nil, true_and]
    exact all_isBlank_of_trimChars h
  · simp only [List.isEmpty_iff, h, if_false]
    exact ⟨trimChars_append h, fun c hc => List.all_eq_true.1 List.all_takeWhile c hc⟩

theorem commentNode_spec (spaces : String) {t : Token} (ht : t.Shaped) (hk : t.kind = .comment) :
    let n := commentNode spaces t
    n.wording.LeafFormatted ∧ n.wording.slot "before" = spaces ∧
      (∀ c ∈ (n.wording.slot "left").toList, isBlank c = true) ∧
      ∀ s, (n.wording.leaf s).toList = t.chars := by
  obtain ⟨inner, hi⟩ := ht.comment hk
  have hinner : (t.text.toList.drop 2).dropLast.dropLast = inner := by
    rw [show t.text.toList = t.chars from rfl, hi, List.drop_succ_cons, List.drop_succ_cons,
      List.drop_zero, show inner ++ ['*', '/'] = inner ++ ['*'] ++ ['/'] by simp,
      List.dropLast_concat, List.dropLast_concat]
  obtain ⟨hparts, hleft⟩ := commentParts_spec inner
  have hslots : (commentNode spaces t).wording.slot "left" =
        String.ofList (commentParts inner).1 ∧
      (commentNode spaces t).wording.slot "right" = String.ofList (commentParts inner).2.2 := by
    simp only [commentNode, hinner]
    exact ⟨rfl, rfl⟩
  intro n
  refine ⟨⟨rfl, rfl, rfl⟩, rfl, ?_, fun s => ?_⟩
  · rw [hslots.1, String.toList_ofList]
    exact hleft
  · have : n.wording.leaf s = "/*" ++ n.wording.slot "left" ++
        String.ofList (commentParts ((t.text.toList.drop 2).dropLast.dropLast)).2.1 ++
        n.wording.slot "right" ++ "*/" := rfl
    rw [this, hslots.1, hslots.2, hinner, hi]
    conv => rhs; rw [← hparts]
    simp

theorem Inv.comment (h : Inv done p (t :: rest)) (hk : t.kind = .comment) :
    Inv (done ++ t.chars) (p.comment t) rest := by
  obtain ⟨hformatted, hbefore, hleft, hleaf⟩ :=
    commentNode_spec p.spaces h.tiled.1.shaped hk
  have hslash : ∃ front, t.chars = front ++ ['/'] := by
    obtain ⟨inner, hi⟩ := h.tiled.1.shaped.comment hk
    exact ⟨'/' :: '*' :: (inner ++ ['*']), by simp [hi]⟩
  obtain ⟨front, hfront⟩ := hslash
  -- a comment is printed alike in all cases, and so are the statements before it
  have hadd : ∀ s v, p.Covers s true done → (p.add (.leaf (commentNode p.spaces t))
      p.semicolon).Covers s v (done ++ t.chars) := by
    intro s v hc
    have hcomment : (Tree.leaf (commentNode p.spaces t)).isComment Parsed.wording = true := rfl
    refine Covers.add ?_ ?_ fun base hbase => ?_
    · simpa [hcomment] using hc
    · rw [show (Parsed.wording (Tree.leaf (commentNode p.spaces t)).label).slot "before" =
        p.spaces from hbefore]
      simp [Tree.pieces, hleaf]
    · rw [show (Parsed.wording (Tree.leaf (commentNode p.spaces t)).label).slot "before" =
        p.spaces from hbefore, hbase]
      refine ⟨fun n hn => ?_, trivial⟩
      cases hn
      have htext : (Parsed.wording (commentNode p.spaces t)).leaf s = t.text :=
        String.ext (hleaf s)
      have hend : (commentNode p.spaces t).EndsWith
          (done ++ ((Parsed.wording (commentNode p.spaces t)).leaf s).toList) := by
        rw [htext, show t.text.toList = front ++ ['/'] from hfront]
        refine ⟨done ++ front, '/', by simp, by decide, ?_⟩
        have hlast := h.tiled.1.last
        rw [hfront, List.dropLast_concat, ← byteSize_append] at hlast
        exact congrArg some hlast
      refine ⟨fun _ => .inl ⟨h.tiled.1.first, ?_⟩, fun _ _ _ => hend, fun _ _ => hend.stops,
        fun _ => hleft⟩
      rw [htext]
      exact h.tiled.1.shaped.solid
  rw [comment_eq]
  refine ⟨h.built.add (t := .leaf _) hformatted _, h.tiled_rest, ?_, fun _ => ?_, fun he => ?_⟩
  · exact hadd _ _ (h.comments (by simp [EndsBlock, hk]))
  · exact hadd _ _ (h.comments (by simp [EndsBlock, hk]))
  · refine hadd _ _ (h.statements ?_)
    rwa [List.dropWhile_cons, if_pos (by simp [Token.isFiller, hk])]

end Parser

end Stylesheet
