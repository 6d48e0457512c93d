import Stylesheet.Proofs.Parse.Gaps
import Stylesheet.Proofs.Ranges
import Stylesheet.Proofs.SourceMap.Clearing
import Stylesheet.Proofs.SourceMap.Openings
import Stylesheet.Proofs.Text.Base64

/-!
# The one link comment of the output

`Forest.output_opening_iff`: if all openings of link comments in a text lie in comments at its top
level that name a map, then the text that is written opens one link comment, the one at its end.

Taking out a comment joins what stands before it with what stands behind it. An opening that
reaches over such a place would have to get over the end of a statement or the start of a comment
(`Tree.opening?_cleared`): it starts with the slash that ends a comment, which was the slash of an
opening in the text as well, but of one that is in no comment.
-/

set_option autoImplicit false

namespace Stylesheet

open Stylesheet.Text Stylesheet.Tree Stylesheet.MapLink

/-! ## Gaps -/

/-- A gap does not take away the shield behind it. -/
theorem IsGap.shields {gap cs : List Char} (h : IsGap gap) (hcs : Shields cs) :
    Shields (gap ++ cs) := by
  induction gap with
  | nil => exact hcs
  | cons c gap ih =>
    rcases h c (.head _) with hc | rfl
    · obtain ⟨blanks, d, rest, heq, hblanks, hd⟩ := ih fun e he => h e (.tail _ he)
      refine ⟨c :: blanks, d, rest, by rw [List.cons_append, heq, List.cons_append], ?_, hd⟩
      exact List.forall_mem_cons.2 ⟨isBlank_of_isSpace hc, hblanks⟩
    · exact ⟨[], ';', gap ++ cs, rfl, by simp, .inr rfl⟩

theorem shields_comment (cs : List Char) : Shields ('/' :: cs) :=
  ⟨[], '/', cs, rfl, by simp, .inl rfl⟩

theorem NodeData.kind_of_isLink {d : NodeData} (h : d.isLink = true) : d.kind = .comment := by
  unfold isLink at h
  split at h
  · rfl
  · cases h

/-! ## What is printed of statements -/

namespace Tree

variable {s : Bool} {t : Tree Parsed} {ts : List (Tree Parsed)} {after note x : List Char}

/-- What is printed of a statement, with what stands before it. -/
def written (s : Bool) (t : Tree Parsed) : List Char :=
  (t.label.wording.slot "before").toList ++ Piece.chars (t.pieces Parsed.wording s false)

/-- What is printed of statements. -/
def writtenAll (s : Bool) (ts : List (Tree Parsed)) : List Char :=
  Piece.chars (piecesAll Parsed.wording s s ts)

/-- Whether a statement other than a comment is among the statements. -/
def hasStatement (ts : List (Tree Parsed)) : Bool := ts.any (!·.isComment Parsed.wording)

/-- What can be seen does not matter to what is printed. -/
theorem chars_pieces_visible (t : Tree Parsed) (s v v' : Bool) :
    Piece.chars (t.pieces Parsed.wording s v) = Piece.chars (t.pieces Parsed.wording s v') := by
  cases t with
  | leaf n => simp [pieces]
  | block n ts => simp only [pieces]

theorem writtenAll_cons (s : Bool) (t : Tree Parsed) (ts : List (Tree Parsed)) :
    writtenAll s (t :: ts) = written (s || hasStatement ts) t ++ writtenAll s ts := by
  rw [writtenAll, piecesAll, Piece.chars_append, Piece.chars_append, Piece.chars_gap,
    t.chars_pieces_visible _ _ false]
  rfl

/-- A character that ends a statement behind which others follow. -/
def Ends (c : Char) : Prop := c = '}' ∨ c = ';' ∨ c = '/'

theorem chars_ending (n : Parsed) : Piece.chars (ending Parsed.wording n) =
    (n.wording.slot "after").toList ++ '}' :: n.wording.own.toList := by
  by_cases h : n.wording.own = "" <;> simp [ending, h]

/-- A comment starts and ends with a slash. -/
theorem chars_comment (hf : t.Formatted Parsed.wording) (hc : t.isComment Parsed.wording = true)
    (s : Bool) : ∃ inner, Piece.chars (t.pieces Parsed.wording s false) =
      '/' :: (inner ++ ['/']) := by
  have hk : t.label.data.kind = .comment := of_decide_eq_true hc
  cases t with
  | block n ts => rcases hf.1.data with hk' | hk' <;> exact absurd (hk'.symm.trans hk) (by decide)
  | leaf n =>
    rw [label] at hk
    cases hd : n.data with
    | comment text =>
      refine ⟨("*" ++ n.wording.slot "left" ++ text ++ n.wording.slot "right" ++ "*").toList, ?_⟩
      simp [pieces, Wording.leaf, Parsed.wording, hd]
    | _ => rw [hd] at hk; cases hk

theorem getLast?_comment (hf : t.Formatted Parsed.wording)
    (hc : t.isComment Parsed.wording = true) (s : Bool) :
    (written s t).getLast? = some '/' := by
  obtain ⟨inner, h⟩ := chars_comment hf hc s
  rw [written, h, List.append_cons, ← List.append_assoc, List.getLast?_concat]

/-- A comment and the gap before it are a shield. -/
theorem shields_written (hf : t.Formatted Parsed.wording) (ha : t.Apart)
    (hc : t.isComment Parsed.wording = true) (cs : List Char) : Shields (written s t ++ cs) := by
  obtain ⟨inner, h⟩ := chars_comment hf hc s
  rw [written, h, List.append_assoc]
  exact (ha.before hc).shields (shields_comment _)

/-- A statement ends, if a semicolon is asked for behind it or it is a comment. -/
theorem getLast?_written (hf : t.Formatted Parsed.wording) (ha : t.Apart)
    (hs : s = true ∨ t.isComment Parsed.wording = true) :
    ∃ c, (written s t).getLast? = some c ∧ Ends c := by
  cases hc : t.isComment Parsed.wording with
  | true => exact ⟨_, getLast?_comment hf hc s, .inr (.inr rfl)⟩
  | false =>
    obtain rfl : s = true := hs.resolve_right (by simp [hc])
    cases t with
    | leaf n =>
      have hk : n.data.kind ≠ .comment := of_decide_eq_false hc
      refine ⟨';', ?_, .inr (.inl rfl)⟩
      have : written true (.leaf n) = (n.wording.slot "before").toList ++
          (n.wording.leaf true).toList := by simp [written, pieces, label]
      rw [this, Parser.leaf_true hk, ← List.append_assoc, List.getLast?_concat]
    | block n ts =>
      have hlast : (written true (.block n ts)).getLast? =
          ('}' :: n.wording.own.toList).getLast? := by
        rw [written, pieces_of_blockFormatted hf.1, Piece.chars_append, chars_ending,
          ← List.append_assoc, ← List.append_assoc, List.getLast?_append_cons]
      rw [hlast]
      by_cases ho : n.wording.own = ""
      · exact ⟨'}', by rw [ho]; rfl, .inl rfl⟩
      · have : n.wording.own.toList.getLast? = some ';' := ha.own ho
        exact ⟨';', by rw [List.getLast?_cons, this]; rfl, .inr (.inl rfl)⟩

/-! ## Statements of which link comments are taken out -/

/-- The statements that are no link comments. -/
def cleared (ts : List (Tree Parsed)) : List (Tree Parsed) := ts.filter (!·.label.data.isLink)

theorem cleared_cons_of_isLink (h : t.label.data.isLink = true) :
    cleared (t :: ts) = cleared ts := by
  simp [cleared, h]

theorem cleared_cons (h : t.label.data.isLink = false) : cleared (t :: ts) = t :: cleared ts := by
  simp [cleared, h]

theorem isComment_of_isLink (h : t.label.data.isLink = true) :
    t.isComment Parsed.wording = true := decide_eq_true (NodeData.kind_of_isLink h)

/-- Only comments are taken out. -/
theorem hasStatement_cleared (ts : List (Tree Parsed)) :
    hasStatement (cleared ts) = hasStatement ts := by
  induction ts with
  | nil => rfl
  | cons t ts ih =>
    unfold hasStatement at ih ⊢
    cases h : t.label.data.isLink with
    | true => rw [cleared_cons_of_isLink h, ih, List.any_cons, isComment_of_isLink h]; rfl
    | false => rw [cleared_cons h, List.any_cons, List.any_cons, ih]

/-- Statements in a text, with what stands between them and behind the last one. -/
structure Separate (after : List Char) (ts : List (Tree Parsed)) : Prop where
  formatted : ∀ t ∈ ts, t.Formatted Parsed.wording
  apart : ∀ t ∈ ts, t.Apart
  last : ∀ us u, ts = us ++ [u] → u.isComment Parsed.wording = true → IsGap after

theorem Separate.tail (h : Separate after (t :: ts)) : Separate after ts where
  formatted u hu := h.formatted u (.tail _ hu)
  apart u hu := h.apart u (.tail _ hu)
  last us u hts := h.last (t :: us) u (congrArg (t :: ·) hts)

/-- Of statements behind a link comment, the first one that stays is a statement, or what is left
is a shield. -/
theorem Separate.shields_cleared (h : Separate after (t :: ts))
    (ht : t.isComment Parsed.wording = true) (hn : Shields note) :
    hasStatement ts = true ∨ Shields (writtenAll s (cleared ts) ++ after ++ note) := by
  induction ts generalizing t with
  | nil => exact .inr ((h.last [] t rfl ht).shields hn)
  | cons u ts ih =>
    cases hu : u.isComment Parsed.wording with
    | false => exact .inl (by simp [hasStatement, hu])
    | true =>
      cases hl : u.label.data.isLink with
      | true =>
        rw [cleared_cons_of_isLink hl]
        refine (ih h.tail hu).imp_left fun hs => ?_
        simp only [hasStatement, List.any_cons, Bool.or_eq_true] at hs ⊢
        exact .inr hs
      | false =>
        rw [cleared_cons hl, writtenAll_cons, List.append_assoc, List.append_assoc]
        exact .inr (shields_written (h.formatted u (by simp)) (h.apart u (by simp)) hu _)

/-! ## Openings -/

/-- The two bytes from `k` on lie in a link comment. -/
def InLink (s : Bool) : List (Tree Parsed) → Nat → Prop
  | [], _ => False
  | t :: ts, k =>
    let size := byteSize (written (s || hasStatement ts) t)
    t.label.data.isLink = true ∧ k + 2 ≤ size ∨ size ≤ k ∧ InLink s ts (k - size)

/-- All openings in the text of statements lie in link comments. -/
def OpensInLinks (s : Bool) (ts : List (Tree Parsed)) (after : List Char) : Prop :=
  ∀ before rest, writtenAll s ts ++ after = before ++ rest → (opening? rest).isSome →
    InLink s ts (byteSize before)

theorem OpensInLinks.tail (h : OpensInLinks s (t :: ts) after) : OpensInLinks s ts after := by
  intro before rest heq ho
  have := h (written (s || hasStatement ts) t ++ before) rest (by
    rw [writtenAll_cons, List.append_assoc, heq, List.append_assoc]) ho
  rw [InLink, byteSize_append] at this
  rcases this with ⟨-, hlt⟩ | ⟨-, hin⟩
  · omega
  · rwa [Nat.add_sub_cancel_left] at hin

/-- No opening starts in a statement that is no link comment. -/
theorem OpensInLinks.statement (h : OpensInLinks s (t :: ts) after)
    (ht : t.label.data.isLink = false) {front : List Char}
    (heq : written (s || hasStatement ts) t = front ++ x) (hx : x ≠ []) :
    opening? (x ++ (writtenAll s ts ++ after)) = none := by
  rw [← Option.not_isSome_iff_eq_none]
  intro ho
  have := h front _ (by rw [writtenAll_cons, heq, List.append_assoc, List.append_assoc]) ho
  obtain ⟨c, x, rfl⟩ := List.exists_cons_of_ne_nil hx
  have hpos := c.utf8Size_pos
  rw [InLink, heq, byteSize_append, byteSize_cons, ht] at this
  rcases this with ⟨hl, -⟩ | ⟨hle, -⟩
  · cases hl
  · omega

/-- No opening starts with the slash at the end of a link comment. -/
theorem OpensInLinks.slash (h : OpensInLinks s (t :: ts) after)
    (ht : (written (s || hasStatement ts) t).getLast? = some '/') :
    opening? ('/' :: (writtenAll s ts ++ after)) = none := by
  rw [← Option.not_isSome_iff_eq_none]
  intro ho
  obtain ⟨front, heq⟩ := List.getLast?_eq_some_iff.1 ht
  have := h front _ (by rw [writtenAll_cons, heq]; simp) ho
  rw [InLink, heq, byteSize_append] at this
  have hone : byteSize ['/'] = 1 := rfl
  rcases this with ⟨-, hlt⟩ | ⟨hle, -⟩ <;> omega

/-- What an opening reaches over if comments are taken out of what is behind its start: nothing,
or all that was there. -/
theorem opening?_cleared (h : Separate after ts) (ho : OpensInLinks s ts after)
    (hn : Shields note) (hx : x ≠ [])
    (hend : hasStatement ts = true → ∃ c, x.getLast? = some c ∧ Ends c)
    (hopen : (opening? (x ++ (writtenAll s (cleared ts) ++ after ++ note))).isSome) :
    (opening? (x ++ (writtenAll s ts ++ after))).isSome := by
  induction ts generalizing x with
  | nil =>
    rw [← List.append_assoc] at hopen
    exact opening?_of_shields (by simp [hx]) hn hopen
  | cons t ts ih =>
    cases ht : t.label.data.isLink with
    | false =>
      rw [cleared_cons ht, writtenAll_cons, hasStatement_cleared] at hopen
      rw [writtenAll_cons, List.append_assoc, ← List.append_assoc x]
      refine ih h.tail ho.tail (by simp [hx]) (fun hs => ?_) (by simpa using hopen)
      obtain ⟨c, hc, hends⟩ := @getLast?_written (s || hasStatement ts) t (h.formatted t (.head _))
        (h.apart t (.head _)) (.inl (by simp [hs]))
      exact ⟨c, by rw [List.getLast?_append, hc, Option.some_or], hends⟩
    | true =>
      have hcomment := isComment_of_isLink ht
      rw [cleared_cons_of_isLink ht] at hopen
      rcases h.shields_cleared hcomment hn with hs | hshield
      · obtain ⟨c, hc, hends⟩ := hend (by
          simp only [hasStatement, List.any_cons, Bool.or_eq_true]
          exact .inr hs)
        rcases opening?_of_getLast? hc hends hopen with hfirst | rfl
        · exact opening?_append hfirst _
        · -- the slash stood at the end of the comment that is taken out
          have := ih h.tail ho.tail hx (fun _ => ⟨'/', rfl, .inr (.inr rfl)⟩) hopen
          rw [List.singleton_append,
            ho.slash (getLast?_comment (h.formatted t (.head _)) hcomment _)] at this
          cases this
      · exact opening?_append (opening?_of_shields hx hshield hopen) _

/-- **No opening is left** in the text of statements of which the link comments are taken out. -/
theorem opening?_of_cleared (h : Separate after ts) (ho : OpensInLinks s ts after)
    (hn : Shields note) {before : List Char}
    (heq : writtenAll s (cleared ts) ++ after = before ++ x) (hx : x ≠ []) :
    opening? (x ++ note) = none := by
  rw [← Option.not_isSome_iff_eq_none]
  intro hopen
  induction ts generalizing before with
  | nil => exact ho before x heq (opening?_of_shields hx hn hopen)
  | cons t ts ih =>
    cases ht : t.label.data.isLink with
    | true =>
      rw [cleared_cons_of_isLink ht] at heq
      exact ih h.tail ho.tail heq
    | false =>
      rw [cleared_cons ht, writtenAll_cons, hasStatement_cleared, List.append_assoc] at heq
      rcases List.append_eq_append_iff.1 heq with ⟨more, rfl, hmore⟩ | ⟨more, hmore, rfl⟩
      · exact ih h.tail ho.tail hmore
      · by_cases hnil : more = []
        · exact @ih h.tail ho.tail [] (by simp [hnil])
        · have := opening?_cleared h.tail ho.tail hn hnil (fun hs => ?_) (by simpa using hopen)
          · rw [ho.statement ht hmore hnil] at this
            cases this
          · obtain ⟨c, hc, hends⟩ := @getLast?_written (s || hasStatement ts) t
              (h.formatted t (.head _)) (h.apart t (.head _)) (.inl (by simp [hs]))
            rw [hmore, List.getLast?_append, List.getLast?_eq_some_getLast hnil,
              Option.some_or] at hc
            exact ⟨c, by rw [List.getLast?_eq_some_getLast hnil, hc], hends⟩

/-- The range of a link comment lies in what is printed of it. -/
theorem inLink_of_range {v : Bool} {done rest text : List Char} {u : Tree Parsed} {k stop : Nat}
    (hf : FormattedAll Parsed.wording ts) (hp : Placed done (piecesAll Parsed.wording s v ts))
    (ht : text = done ++ Piece.chars (piecesAll Parsed.wording s v ts) ++ rest) (hu : u ∈ ts)
    (hl : u.label.data.isLink = true) (hstart : u.label.start ≤ byteSize done + k)
    (hstop : u.label.stop? text = some stop) (hle : byteSize done + k + 2 ≤ stop) :
    InLink s ts k := by
  induction ts generalizing done k with
  | nil => cases hu
  | cons t ts ih =>
    rw [piecesAll, placed_append, placed_append, Piece.chars_gap] at hp
    obtain ⟨⟨-, hplaced⟩, hrest⟩ := hp
    have hfirst := occupies hf.1 hplaced
    simp only [piecesAll, Piece.chars_append, Piece.chars_gap, ← List.append_assoc] at hrest ht
    have hsize : byteSize (done ++ (t.label.wording.slot "before").toList ++
        Piece.chars (t.pieces Parsed.wording (s || ts.any (!·.isComment Parsed.wording))
          (v || !ts.isEmpty))) = byteSize done + byteSize (written (s || hasStatement ts) t) := by
      rw [List.append_assoc, byteSize_append, t.chars_pieces_visible _ _ false]
      rfl
    rcases List.mem_cons.1 hu with rfl | hu
    · rw [ht, List.append_assoc _ _ rest] at hstop
      have := hfirst.stops.le hstop
      rw [hsize] at this
      exact .inl ⟨hl, by omega⟩
    · have := ((ranges_all hf.2 hrest ht).1 u hu).1
      have hsize' : byteSize done + byteSize (written (s || hasStatement ts) t) ≤ u.label.start :=
        hsize ▸ this
      have hk : byteSize done + byteSize (written (s || hasStatement ts) t) +
          (k - byteSize (written (s || hasStatement ts) t)) = byteSize done + k := by omega
      refine .inr ⟨by omega, ih hf.2 hrest ht hu ?_ ?_⟩ <;>
        · rw [hsize, hk]
          assumption

end Tree

namespace Forest

/-- Whether the two bytes from `k` on lie in a comment at the top level that names a map. -/
def inLink (f : Forest) (root : NodeId) (k : Nat) : Bool :=
  (f.children root).any fun id => f.namesMap id &&
    match (f.source id).start, (f.source id).stop with
    | some p, some q => p.offset ≤ k && k + 2 ≤ q.offset
    | _, _ => false

section
variable {f : Forest} {root : NodeId} {input : InputId} {i : Input} {a : Parsed}
  {ts : List (Tree Parsed)}

theorem Reads.text_eq (h : f.Reads root input i a ts) : i.text.toList =
    writtenAll a.wording.closed ts ++ (a.wording.slot "after").toList := by
  rw [← h.text, Tree.pieces, show a.wording.data = .root from h.formatted.data]
  simp only [Piece.chars_append, Piece.chars_gap]
  rfl

theorem Reads.separate (h : f.Reads root input i a ts) :
    Separate (a.wording.slot "after").toList ts :=
  have ⟨hapart, hlast⟩ := Parser.gaps_parse h.parsed
  ⟨formattedAll_iff.1 h.formatted.children, hapart, hlast⟩

/-- What the numbers of a forest say of openings, said of the tree that was read. -/
theorem Reads.opensInLinks (h : f.Reads root input i a ts)
    (hlinks : ∀ before rest, i.text.toList = before ++ rest → (opening? rest).isSome →
      f.inLink root (byteSize before) = true) :
    OpensInLinks a.wording.closed ts (a.wording.slot "after").toList := by
  intro before rest heq ho
  have hin := hlinks before rest (h.text_eq.trans heq) ho
  obtain ⟨id, hid, hin⟩ := List.any_eq_true.1 hin
  rw [h.keeps.children_eq] at hid
  obtain ⟨u, hu, rfl⟩ := List.mem_map.1 hid
  obtain ⟨hnames, hrange⟩ := Bool.and_eq_true_iff.1 hin
  have htop := h.top (mem_subtreesAll hu)
  have hlink : (u.map Prod.snd).label.data.isLink = true := by
    rw [label_map, ← h.keeps.data (label_mem_preorderAll hu), ← namesMap_eq]
    exact hnames
  split at hrange
  · next p q hp hq =>
    simp only [Bool.and_eq_true, decide_eq_true_eq] at hrange
    rw [htop.offset_start hp] at hrange
    obtain ⟨-, hplaced⟩ := h.body_spec
    have htext : i.text.toList = [] ++ writtenAll a.wording.closed ts ++
        (a.wording.slot "after").toList := h.text_eq
    refine inLink_of_range h.formatted.children hplaced htext (map_snd_mem hu) hlink ?_
      (htop.offset_stop hq) ?_
    · simpa using hrange.1
    · simpa using hrange.2
  · cases hrange

end

end Forest

/-! ## The comment at the end -/

namespace MapPlan

/-- A data URL opens no comment. -/
theorem lastOpening?_url {p : MapPlan} (h : p.isInline = false → ∀ m,
    lastOpening? (p.url m).toList = none) (m : SourceMap) : lastOpening? (p.url m).toList = none := by
  cases hi : p.isInline with
  | false => exact h hi m
  | true =>
    refine lastOpening?_of_not_mem (fun _ => IsOpening.star_mem) ?_
    rw [url, if_pos hi, String.toList_append, List.mem_append, not_or]
    refine ⟨by decide, ?_⟩
    rw [String.toList_ofList]
    exact Base64.star_not_mem_encode _

/-- The comment is a line break and a link comment. -/
theorem comment_eq (p : MapPlan) (css : String) (m : SourceMap) :
    ∃ eol, IsGap eol ∧ '/' ∉ eol ∧ (p.comment css m).toList =
      eol ++ ("/*# sourceMappingURL=".toList ++ ((p.url m).toList ++ " */".toList)) := by
  unfold comment
  split
  · exact ⟨['\r', '\n'], by simp [IsGap]; decide, by decide, by simp⟩
  · exact ⟨['\n'], by simp [IsGap]; decide, by decide, by simp⟩

end MapPlan

namespace Forest

/-! ## The output -/

/-- What is written with a link comment behind it is the tree without other link comments. -/
theorem output_css {g : Forest} {root : NodeId} {o : RunOptions}
    (hclear : (MapPlan.make g root o).options.link ≠ .disabled)
    (hmap : (MapPlan.make g root o).hasMap = true)
    (hlink : (MapPlan.make g root o).hasLink = true) :
    ∃ m, (g.output root o).1.css = (g.clearLinks root).css root ++
      (MapPlan.make g root o).comment ((g.clearLinks root).css root) m := by
  unfold output
  simp only [if_neg hclear, hmap, hlink, Bool.not_true, Bool.false_eq_true, if_false, if_true]
  exact ⟨_, rfl⟩

/-- **The output opens one link comment**, the one at its end, if all openings in the text lie in
comments that name a map. -/
theorem output_opening_iff {f g : Forest} {files : Files} {text : String} {file : Option String}
    {setting : MapSetting} {root : NodeId} {o : RunOptions}
    (h : f.parse files text file setting = .ok (root, g))
    (hlinks : ∀ before rest, (Input.dropBom text).1.toList = before ++ rest →
      (opening? rest).isSome → g.inLink root (byteSize before) = true)
    (hclear : (MapPlan.make g root o).options.link ≠ .disabled)
    (hmap : (MapPlan.make g root o).hasMap = true)
    (hlink : (MapPlan.make g root o).hasLink = true)
    (hurl : (MapPlan.make g root o).isInline = false → ∀ m,
      lastOpening? ((MapPlan.make g root o).url m).toList = none) :
    ∃ kept m, (g.output root o).1.css = kept ++ (MapPlan.make g root o).comment kept m ∧
      ∀ before rest, (g.output root o).1.css.toList = before ++ rest →
        ((opening? rest).isSome ↔ rest =
          ("/*# sourceMappingURL=" ++ (MapPlan.make g root o).url m ++ " */").toList) := by
  obtain ⟨i, a, ts, hmake, -, -, -, hreads⟩ := parse_spec h
  rw [← (Input.make_ok hmake).1] at hlinks
  obtain ⟨m, hcss⟩ := output_css hclear hmap hlink
  refine ⟨_, m, hcss, fun before rest heq => ?_⟩
  have hkept := hreads.keeps.css_clearLinks
  rw [hcss, String.toList_append] at heq
  generalize MapPlan.make g root o = p at hurl heq ⊢
  generalize (g.clearLinks root).css root = kept at hkept heq
  obtain ⟨eol, hgap, heol, hcomment⟩ := p.comment_eq kept m
  have hurl := MapPlan.lastOpening?_url hurl m
  have hurl' : ("/*# sourceMappingURL=" ++ p.url m ++ " */").toList =
      "/*# sourceMappingURL=".toList ++ ((p.url m).toList ++ " */".toList) := by simp
  rw [hcomment] at heq
  rw [hurl']
  constructor
  · intro hopen
    rcases List.append_eq_append_iff.1 heq with ⟨more, rfl, hmore⟩ | ⟨more, hmore, rfl⟩
    · exact opening?_line hurl heol hmore hopen
    by_cases hnil : more = []
    · rw [hnil, List.nil_append] at hopen ⊢
      exact opening?_line hurl heol (List.nil_append _).symm hopen
    · have hnote : Shields (eol ++ ("/*# sourceMappingURL=".toList ++
          ((p.url m).toList ++ " */".toList))) :=
        hgap.shields (shields_comment ("*# sourceMappingURL=".toList ++ _))
      rw [opening?_of_cleared hreads.separate (hreads.opensInLinks hlinks) hnote
        (hkept.symm.trans hmore) hnil] at hopen
      cases hopen
  · rintro rfl
    exact (opening?_comment_iff hurl (List.nil_append _).symm).2 rfl

/-- A check of all ways to cut a text in two. -/
theorem all_splits {P : List Char → List Char → Bool} {text before rest : List Char}
    (h : (List.range (text.length + 1)).all fun n => P (text.take n) (text.drop n))
    (heq : text = before ++ rest) : P before rest = true := by
  have hlength : before.length < text.length + 1 := by
    rw [heq, List.length_append]
    omega
  have := List.all_eq_true.1 h before.length (List.mem_range.2 hlength)
  rwa [heq, List.take_left, List.drop_left] at this

/-- Two comments that name maps are taken out, next to two that stay. -/
theorem output_opening_iff_cleared : ∃ root g,
    Forest.empty.parse .empty
      "/*x*//*# sourceMappingURL=a*/a\x7b\x7d/*# sourceMappingURL=b */;/*c*/" (some "a.css") .auto =
        .ok (root, g) ∧
    (g.output root { map := .enabled { inline := some false } }).1.css =
      "/*x*/a\x7b\x7d;/*c*/\n/*# sourceMappingURL=to.css.map */" ∧
    ∀ before rest, "/*x*/a\x7b\x7d;/*c*/\n/*# sourceMappingURL=to.css.map */".toList =
      before ++ rest →
        ((opening? rest).isSome ↔ rest = "/*# sourceMappingURL=to.css.map */".toList) := by
  obtain ⟨root, g, h, hlinks, hauto, hmap, hlink, hinline, hfile, hcss⟩ : ∃ root g,
      Forest.empty.parse .empty
        "/*x*//*# sourceMappingURL=a*/a\x7b\x7d/*# sourceMappingURL=b */;/*c*/" (some "a.css")
        .auto = .ok (root, g) ∧
      let p := MapPlan.make g root { map := .enabled { inline := some false } }
      let text := (Input.dropBom
        "/*x*//*# sourceMappingURL=a*/a\x7b\x7d/*# sourceMappingURL=b */;/*c*/").1.toList
      ((List.range (text.length + 1)).all fun n =>
        !(opening? (text.drop n)).isSome || g.inLink root (byteSize (text.take n))) = true ∧
      p.options.link = .auto ∧ p.hasMap = true ∧ p.hasLink = true ∧ p.isInline = false ∧
      p.naming.outputFile = "to.css" ∧
      (g.output root { map := .enabled { inline := some false } }).1.css =
        "/*x*/a\x7b\x7d;/*c*/\n/*# sourceMappingURL=to.css.map */" := by
    decide +kernel
  have hurl : ∀ m, (MapPlan.make g root { map := .enabled { inline := some false } }).url m =
      "to.css.map" := fun m => by simp [MapPlan.url, hinline, hauto, hfile]
  obtain ⟨kept, m, -, hopen⟩ := output_opening_iff h (fun before rest heq ho => by
      have := @all_splits (fun before rest => !(opening? rest).isSome ||
        g.inLink root (byteSize before)) _ _ _ hlinks heq
      rwa [ho] at this)
    (by rw [hauto]; decide) hmap hlink (fun _ m => by rw [hurl]; decide)
  rw [hcss, hurl] at hopen
  exact ⟨root, g, h, hcss, hopen⟩

/-- A link comment without a blank behind its mark names a map for the next reader, but it is not
taken out: the output opens two. -/
theorem output_two_openings : ∃ root g link,
    Forest.empty.parse .empty "/*#sourceMappingURL=old.map*/a\x7b\x7d" (some "a.css") .auto =
      .ok (root, g) ∧
    (g.output root { map := .enabled { inline := some false } }).1.css.toList =
      "/*#sourceMappingURL=old.map*/a\x7b\x7d\n".toList ++ link ∧
    (opening? ("/*#sourceMappingURL=old.map*/a\x7b\x7d\n".toList ++ link)).isSome ∧
    (opening? link).isSome := by
  obtain ⟨root, g, h, hcss⟩ : ∃ root g,
      Forest.empty.parse .empty "/*#sourceMappingURL=old.map*/a\x7b\x7d" (some "a.css") .auto =
        .ok (root, g) ∧
      (g.output root { map := .enabled { inline := some false } }).1.css =
        "/*#sourceMappingURL=old.map*/a\x7b\x7d\n" ++ "/*# sourceMappingURL=to.css.map */" := by
    decide +kernel
  exact ⟨root, g, "/*# sourceMappingURL=to.css.map */".toList, h,
    (congrArg String.toList hcss).trans String.toList_append, by decide, by decide⟩

end Forest

end Stylesheet
