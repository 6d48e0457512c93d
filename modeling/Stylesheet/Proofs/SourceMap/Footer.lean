import Stylesheet.Proofs.Cursor.Steady
import Stylesheet.Proofs.Parse.Footer
import Stylesheet.Proofs.SourceMap.Clearing

/-!
# The tree of a text with a link comment behind it

The comment that names the map is the last node of the tree, and is removed before this is printed,
or the end of the text takes it in. Either way the marks are those of the text without it
(`Keeps.clearLinks_footer`).
-/

set_option autoImplicit false

namespace Stylesheet

open Stylesheet.Text Stylesheet.Tree

variable {α : Type}

/-! ## Marks of trees that differ at the end -/

theorem Tree.sizeAll_append (ts us : List (Tree α)) :
    sizeAll (ts ++ us) = sizeAll ts + sizeAll us := by
  simp [sizeAll, preorderAll_eq]

theorem Tree.numberedAll_append (n : Nat) (ts us : List (Tree α)) :
    numberedAll n (ts ++ us) = numberedAll n ts ++ numberedAll (n + sizeAll ts) us := by
  induction ts generalizing n with
  | nil => rfl
  | cons t ts ih => simp [numberedAll, ih, Nat.add_assoc]

section
variable {text more : List Char} {a b d d' : Parsed} {ts : List (Tree Parsed)}

theorem Parsed.body_congr (h : ts ≠ [] → b.wording.closed = a.wording.closed) :
    b.body ts = a.body ts := by
  cases ts with
  | nil => rfl
  | cons t ts => rw [Parsed.body, Parsed.body, h (by simp)]

/-- What stands behind a text does not matter to its nodes. -/
theorem Stands.append {xs : List (Piece Parsed)} (h : Stands text xs) (more : List Char) :
    Stands (text ++ more) xs := by
  obtain ⟨rest, htext⟩ := h.text
  exact ⟨⟨rest ++ more, by rw [htext, List.append_assoc]⟩, h.placed, h.isPieceOf, h.noHack⟩

/-- A statement without a block at the end is printed behind all the rest. -/
theorem Parsed.body_concat (ts : List (Tree Parsed)) (ha : a.wording.closed = false)
    (hd : d.data.kind ≠ .comment) :
    a.body (ts ++ [.leaf d]) = piecesAll Parsed.wording true true ts ++
      Piece.gap (d.wording.slot "before") ++ [⟨d.wording.leaf false, some d, none, false⟩] := by
  have hc : (Tree.leaf d).isComment Parsed.wording = false := decide_eq_false hd
  have hv : (false || decide (d.wording.data.kind = .comment)) = false := decide_eq_false hd
  rw [Parsed.body, ha, piecesAll_append, hc, pieces, hv]
  rfl

namespace Parsed.Twins

/-- Of a statement that reaches to the end only the start is marked. -/
theorem marksAll (h : d.Twins d') (ha : a.wording.closed = false) (hb : b.wording.closed = false) :
    Piece.marksAll 0 (b.body (ts ++ [.leaf d'])) = Piece.marksAll 0 (a.body (ts ++ [.leaf d])) := by
  have hd' : d'.data.kind ≠ .comment := h.kind ▸ h.statement
  rw [Parsed.body_concat ts ha h.statement, Parsed.body_concat ts hb hd', h.before]
  simp [Piece.marksAll_append, Piece.marksAll, Piece.marks, h.start]

/-- If the one statement at the end has no hack, neither has the other. -/
theorem stands (h : d.Twins d') (ha : a.wording.closed = false) (hb : b.wording.closed = false)
    (hs : Stands text (a.body (ts ++ [.leaf d])))
    (hf : FormattedAll Parsed.wording (ts ++ [.leaf d']))
    (ht : ∃ rest, more = Piece.chars (b.body (ts ++ [.leaf d'])) ++ rest)
    (hp : Placed [] (b.body (ts ++ [.leaf d']))) : Stands more (b.body (ts ++ [.leaf d'])) := by
  refine ⟨ht, hp, fun x hx n hn => isPieceOf_of_memAll hn _ hf hx, fun before x behind n hx hn => ?_⟩
  have hd' : d'.data.kind ≠ .comment := h.kind ▸ h.statement
  have hbody := Parsed.body_concat ts ha h.statement
  rw [Parsed.body_concat ts hb hd', h.before] at hx
  rcases List.eq_nil_or_concat behind with rfl | ⟨behind, y, rfl⟩
  · obtain ⟨rfl, hlast⟩ := List.append_inj' hx rfl
    rw [← List.singleton_inj.1 hlast, Option.some.injEq] at hn
    subst hn
    intro hhack
    refine hs.noHack _ _ _ d hbody rfl ?_
    rw [BehindHack, h.before] at hhack
    rwa [BehindHack, ← h.kind, ← h.start]
  · rw [List.concat_eq_append, ← List.cons_append, ← List.append_assoc] at hx
    obtain ⟨hx, -⟩ := List.append_inj' hx rfl
    rw [hx] at hbody
    exact hs.noHack before x _ n (by rw [hbody, List.append_assoc, List.cons_append]) hn

end Parsed.Twins

end

/-! ## Taking out the link comment -/

namespace Forest

variable {f g : Forest} {root : NodeId} {input : InputId} {i : Input} {a b d : Parsed}
  {ts us : List (Tree Parsed)}

theorem Alike.keeps (hfg : Alike f g) (h : f.Keeps root input i a ts) :
    g.Keeps root input i a ts where
  hangs := h.hangs.congr fun id _ _ _ _ hs =>
    ⟨(hfg.congr Node.toElement (fun _ _ => rfl) id).trans hs.element,
      (hfg.congr Node.parent (fun _ _ => rfl) id).trans hs.parent,
      (hfg.congr Node.children (fun _ _ => rfl) id).trans hs.children⟩
  size_le := hfg.size ▸ h.size_le
  input := by
    rw [input?, hfg.inputs]
    exact h.input
  formatted := h.formatted

/-- A link comment that is the only one, at the end, is removed. -/
theorem Keeps.clearLinks_concat (h : f.Keeps root input i a (ts ++ [.leaf d]))
    (hd : d.data.isLink = true) (hts : ∀ t ∈ ts, t.label.data.isLink = false) :
    (f.clearLinks root).Keeps root input i a ts := by
  obtain ⟨hsize, hinputs⟩ := f.clearLinks_frame root
  have hkept : (numberedAll (root + 1) (ts ++ [.leaf d])).filter (!·.label.2.data.isLink) =
      numberedAll (root + 1) ts := by
    rw [numberedAll_append, List.filter_append, List.filter_eq_self.2, List.filter_eq_nil_iff.2,
      List.append_nil]
    · simp [numberedAll, numbered, label, hd]
    · intro u hu
      have := hts _ (map_snd_mem hu)
      rw [label_map] at this
      rw [this]
      rfl
  have hhangs := h.hangs_clearLinks
  rw [hkept] at hhangs
  refine ⟨hhangs, ?_, ?_, h.formatted.data, fun _ => h.formatted.semicolon (by simp),
    formattedAll_iff.2 fun t ht => formattedAll_iff.1 h.formatted.children t (by simp [ht])⟩
  · have := h.size_le
    rw [size_block, sizeAll_append] at this
    rw [hsize, size_block]
    omega
  · rw [input?, hinputs]
    exact h.input

/-- **Taking out the link comment behind a text** that has none: what is left has the marks of the
text. -/
theorem Keeps.clearLinks_footer {text more note : List Char} (h : f.Keeps root input i b us)
    (hf : Parser.Footed note (.block a ts) (.block b us)) (hi : i.text.toList = text ++ more)
    (hnote : ∀ spaces t, t.chars = note → (Parser.commentNode spaces t).data.isLink = true)
    (hts : ∀ t ∈ ts, t.label.data.isLink = false) (hs : Stands text (a.body ts))
    (hbody : ∃ rest, i.text.toList = Piece.chars (b.body us) ++ rest) (hp : Placed [] (b.body us)) :
    ∃ us', (f.clearLinks root).Keeps root input i b us' ∧ Stands i.text.toList (b.body us') ∧
      Piece.marksAll 0 (b.body us') = Piece.marksAll 0 (a.body ts) := by
  have hstands := hs.append more
  rw [← hi] at hstands
  cases hf with
  | @comment _ _ _ spaces t hclosed ht =>
    rw [← Parsed.body_congr hclosed] at hstands
    exact ⟨ts, h.clearLinks_concat (hnote spaces t ht) hts, hstands,
      by rw [Parsed.body_congr hclosed]⟩
  | blank hclosed =>
    rw [← Parsed.body_congr hclosed] at hstands
    refine ⟨ts, ?_, hstands, by rw [Parsed.body_congr hclosed]⟩
    rwa [clearLinks_eq fun id hid => h.namesMap_eq_false hid hts]
  | @last _ _ d d' ts htwins ha hb =>
    refine ⟨_, ?_, htwins.stands ha hb hs h.formatted.children hbody hp, htwins.marksAll ha hb⟩
    rwa [clearLinks_eq fun id hid => h.namesMap_eq_false hid fun t ht => ?_]
    rcases List.mem_append.1 ht with ht | ht
    · exact hts t (List.mem_append_left _ ht)
    · rw [List.mem_singleton.1 ht]
      have := htwins.kind ▸ htwins.statement
      unfold NodeData.isLink
      split
      · next hdata => exact absurd (by rw [show d'.data = _ from hdata]; rfl) this
      · rfl

end Forest

end Stylesheet
