import Stylesheet.Proofs.Parse.Printed
import Stylesheet.Proofs.Parse.Standing

/-!
# A text divided into parts

Every text that can be read is spelled by a tree of parts. `Parser.Divides` says so of what a parser
has read: each open block has its tokens, and the statements in it are settled. The steps of the
parser keep it; a statement that no semicolon ends is the last one of its block, so it is taken
together with the blanks and comments behind it (`Parser.Parted`). `parted_of_statements` is the
induction over the tokens.

What is printed of the nodes goes along: the parts are `Printed` and `Flagged` as the parser has it.
-/

set_option autoImplicit false

namespace Stylesheet

open Stylesheet.Text Stylesheet.Tree Stylesheet.Spelling

theorem Spelling.chars_map (ts : List Token) : chars (ts.map Token.spelling) = tokenChars ts := by
  simp only [chars, tokenChars, List.flatMap_map]
  rfl

namespace Tree

variable {safe : Prop} {inner : Bool} {tail : List Spelling} {ts us : List (Tree Part)}

theorem Contents.of_settled (h : ∀ t ∈ ts, t.Settled safe) (htail : Gap tail) :
    Contents safe inner tail ts := by
  induction ts with
  | nil => exact htail
  | cons t ts ih =>
    obtain ⟨ht, hts⟩ := List.forall_mem_cons.1 h
    exact .inl ⟨ht, ih hts⟩

/-- Settled trees before others. -/
theorem Contents.behind (h : ∀ t ∈ ts, t.Settled safe) (hu : Contents safe inner tail us) :
    Contents safe inner tail (ts ++ us) := by
  induction ts with
  | nil => exact hu
  | cons t ts ih =>
    obtain ⟨ht, hts⟩ := List.forall_mem_cons.1 h
    exact .inl ⟨ht, ih hts⟩

end Tree

/-! ## Open blocks with their tokens -/

/-- A block that is open, with its tokens. -/
structure Opened where
  head : Part
  children : List (Tree Part)

namespace Opened

/-- The tokens of the block so far. -/
def source (o : Opened) : List Spelling := o.head.gap ++ o.head.body ++ sourceAll o.children

/-- The block as the parser has it. -/
structure Notes (o : Opened) (b : OpenBlock) : Prop where
  node : o.head.node = b.node
  children : o.children.map (Tree.map Part.node) = b.reversed.reverse
  printed : PrintedAll o.children

/-- A block of a rule or an at-rule is opened wherever its tokens stand. -/
structure Inner (o : Opened) : Prop where
  gap : Gap o.head.gap
  opens : Parser.Opens o.head.body o.head.data
  ends : ∃ s, o.head.body.getLast? = some s ∧ s.Ends
  printed : o.head.HeadPrinted

end Opened

namespace Parser

/-- The open blocks with their tokens, the innermost first. The statements of the blocks around the
innermost one are settled. -/
def Stacks (safe : Prop) : Opened → List Opened → OpenBlock → List OpenBlock → Prop
  | o, [], b, [] => o.Notes b ∧ o.head.gap = [] ∧ o.head.body = []
  | o, o' :: os, b, b' :: bs =>
    o.Notes b ∧ o.Inner ∧ (∀ t ∈ o'.children, t.Settled safe) ∧ Stacks safe o' os b' bs
  | _, _, _, _ => False

/-- The tokens of open blocks. -/
def spelled : Opened → List Opened → List Spelling
  | o, [] => o.source
  | o, o' :: os => spelled o' os ++ o.source

/-- The parser has read the tokens, and the statements of the innermost block are settled. -/
def Divides (safe : Prop) (p : Parser) (ss : List Spelling) : Prop :=
  ∃ o os gap, Stacks safe o os p.current p.outer ∧ (∀ t ∈ o.children, t.Settled safe) ∧
    Flagged p.semicolon o.children ∧ Gap gap ∧ chars gap = p.spaces.toList ∧
    ss = spelled o os ++ gap

/-- The parser has read the tokens, if the innermost block ends behind them. -/
def Parted (safe : Prop) (inner : Bool) (p : Parser) (ss : List Spelling) : Prop :=
  ∃ o os tail, Stacks safe o os p.current p.outer ∧ Contents safe inner tail o.children ∧
    Flagged p.semicolon o.children ∧ chars tail = p.spaces.toList ∧ ss = spelled o os ++ tail

variable {safe : Prop} {inner : Bool} {p q : Parser} {ss : List Spelling} {done : List Char}
  {o : Opened} {os : List Opened} {b : OpenBlock} {bs : List OpenBlock} {n : Parsed}

theorem Divides.parted (h : Divides safe p ss) (inner : Bool) : Parted safe inner p ss := by
  obtain ⟨o, os, gap, hstack, hsettled, hflagged, hgap, hchars, hss⟩ := h
  exact ⟨o, os, gap, hstack, .of_settled hsettled hgap, hflagged, hchars, hss⟩

theorem Stacks.notes (h : Stacks safe o os b bs) : o.Notes b := by
  cases os <;> cases bs <;> first | exact h.1 | exact h.elim

/-- The innermost block with other statements. -/
theorem Stacks.replace (h : Stacks safe o os b bs) {ts : List (Tree Part)} {b' : OpenBlock}
    (hb : b'.node = b.node) (hts : ts.map (Tree.map Part.node) = b'.reversed.reverse)
    (hprinted : PrintedAll ts) : Stacks safe { o with children := ts } os b' bs := by
  have hnotes : Opened.Notes { o with children := ts } b' :=
    ⟨h.notes.node.trans hb.symm, hts, hprinted⟩
  cases os with
  | nil =>
    cases bs with
    | nil => exact ⟨hnotes, h.2⟩
    | cons _ _ => exact h
  | cons _ _ =>
    cases bs with
    | nil => exact h
    | cons _ _ => exact ⟨hnotes, ⟨h.2.1.gap, h.2.1.opens, h.2.1.ends, h.2.1.printed⟩, h.2.2⟩

theorem spelled_eq (o : Opened) (os : List Opened) : ∃ front, ∀ ts,
    spelled { o with children := ts } os = front ++ sourceAll ts := by
  cases os with
  | nil => exact ⟨o.head.gap ++ o.head.body, fun ts => rfl⟩
  | cons o' os =>
    exact ⟨spelled o' os ++ (o.head.gap ++ o.head.body), fun ts => by
      simp [spelled, Opened.source]⟩

theorem spelled_append (o : Opened) (os : List Opened) (ts : List (Tree Part)) :
    spelled { o with children := o.children ++ ts } os = spelled o os ++ sourceAll ts := by
  obtain ⟨front, hfront⟩ := spelled_eq o os
  rw [hfront, sourceAll_append, ← List.append_assoc, ← hfront o.children]

/-! ## Steps -/

/-- One more tree in the innermost block. -/
theorem Stacks.push (h : Stacks safe o os b bs) {t : Tree Part} (ht : t.Printed) :
    Stacks safe { o with children := o.children ++ [t] } os (b.push (t.map Part.node)) bs := by
  refine h.replace rfl ?_ (printedAll_append.2 ⟨h.notes.printed, ht, trivial⟩)
  rw [List.map_append, h.notes.children]
  simp [OpenBlock.push]

/-- A settled tree is added. -/
theorem Divides.push (h : Divides safe p ss) {semicolon : Bool} {u : Tree Parsed}
    {ws : List Spelling}
    (hu : ∀ gap, Gap gap → chars gap = p.spaces.toList → ∃ t : Tree Part, t.map Part.node = u ∧
      t.source = gap ++ ws ∧ t.Settled safe ∧ t.Printed ∧
      (t.isSolid = true ∧ Flagged semicolon [t] ∨ t.isSolid = false ∧ semicolon = p.semicolon)) :
    Divides safe (p.add u semicolon) (ss ++ ws) := by
  obtain ⟨o, os, gap, hstack, hsettled, hflagged, hgap, hchars, rfl⟩ := h
  obtain ⟨t, rfl, hsource, ht, hprinted, hflag⟩ := hu gap hgap hchars
  refine ⟨{ o with children := o.children ++ [t] }, os, [], hstack.push hprinted,
    List.forall_mem_append.2 ⟨hsettled, by simpa using ht⟩, ?_, gap_nil, rfl, ?_⟩
  · rcases hflag with ⟨hsolid, hone⟩ | ⟨hcomment, rfl⟩
    · exact Flagged.append hsettled hone (by simpa using hsolid)
    · exact hflagged.comments (List.forall_mem_singleton.2 ⟨ht, hcomment⟩)
  · rw [spelled_append, sourceAll, sourceAll, List.append_nil, hsource, List.append_nil,
      List.append_assoc]

theorem Divides.space (h : Divides safe p ss) {t : Token} (ht : t.kind = .space) :
    Divides safe { p with spaces := p.spaces ++ t.text } (ss ++ [t.spelling]) := by
  obtain ⟨o, os, gap, hstack, hsettled, hflagged, hgap, hchars, rfl⟩ := h
  refine ⟨o, os, gap ++ [t.spelling], hstack, hsettled, hflagged,
    hgap.append (by simpa [Gap, Token.spelling] using .inl ht), ?_, by simp⟩
  rw [chars_append, hchars]
  simp [Token.spelling]

/-- A comment. -/
theorem Divides.comment (h : Divides safe p ss) {t : Token} (ht : t.Shaped)
    (hk : t.kind = .comment) : Divides safe (p.comment t) (ss ++ [t.spelling]) := by
  rw [comment_eq]
  obtain ⟨-, hbefore, -, hleaf⟩ := commentNode_spec p.spaces ht hk
  refine h.push fun gap hgap hchars => ?_
  refine ⟨.leaf ⟨commentNode p.spaces t, gap, [t.spelling], false, [], []⟩, rfl,
    by simp [source, Part.leaf], ⟨hgap, ?_, ?_, t.spelling, rfl, .inr (.inl hk)⟩, ?_,
    .inr ⟨?_, rfl⟩⟩
  · exact iff_of_false (by simp) (by simp [Part.data, commentNode, NodeData.kind])
  · exact yields_comment (s := t.spelling) hk
  · show chars gap ++ chars [t.spelling] = _
    rw [hchars, hbefore, hleaf]
    simp [Token.spelling, Token.chars]
  · simp [isSolid, label, Part.data, commentNode, NodeData.kind]

/-- A statement with a semicolon. -/
theorem Divides.closed (h : Divides safe p ss) {ws : List Spelling} (hk : n.data.kind ≠ .comment)
    (hy : Yields (ws ++ [Spelling.semicolon]) [.leaf n.data])
    (hprinted : p.spaces.toList ++ chars ws =
      (n.wording.slot "before").toList ++ (n.wording.leaf false).toList) :
    Divides safe (p.add (.leaf n) true) (ss ++ (ws ++ [Spelling.semicolon])) := by
  refine h.push fun gap hgap hchars => ?_
  have hsolid : (Tree.leaf ⟨n, gap, ws, true, [], []⟩ : Tree Part).isSolid = true :=
    isSolid_iff.2 hk
  refine ⟨.leaf ⟨n, gap, ws, true, [], []⟩, rfl, rfl, ⟨hgap, iff_of_true rfl hk, hy,
    Spelling.semicolon, List.getLast?_concat, .inl rfl⟩, ?_, .inl ⟨hsolid, fun a ha => ?_,
    trivial⟩⟩
  · show chars gap ++ chars ws = _
    rw [hchars, hprinted]
  · cases ha
    rw [hsolid]
    rfl

/-- A block is opened. -/
theorem Divides.enter (h : Divides safe p ss) {ws : List Spelling} (hopens : Opens ws n.data)
    (hends : ∃ s, ws.getLast? = some s ∧ s.Ends)
    (hbefore : n.wording.slot "before" = p.spaces)
    (hopening : chars ws = (Tree.opening Parsed.wording n).text.toList) :
    Divides safe (p.enter n) (ss ++ ws) := by
  obtain ⟨o, os, gap, hstack, hsettled, hflagged, hgap, hchars, rfl⟩ := h
  refine ⟨⟨⟨n, gap, ws, false, [], []⟩, []⟩, o :: os, [], ⟨⟨rfl, rfl, trivial⟩,
    ⟨hgap, hopens, hends, ⟨?_, hopening⟩⟩, hsettled, hstack⟩, by simp, trivial, gap_nil, rfl, ?_⟩
  · rw [hbefore]
    exact hchars
  · simp [spelled, Opened.source, sourceAll]

/-- The innermost block with its end. -/
def closedPart (p : Parser) (o : Opened) (tail : List Spelling) (stop : Nat) : Part :=
  { o.head with
    node := p.current.closeNode p.spaces p.semicolon (some stop), tail, own := [] }

/-- A block that ends is printed as it was read. -/
theorem printed_closedPart (hnotes : o.Notes p.current) (hinner : o.Inner)
    (hown : p.current.node.raws.get? "ownSemicolon" = none)
    (hflagged : Flagged p.semicolon o.children) {tail : List Spelling}
    (htail : chars tail = p.spaces.toList) (stop : Nat) :
    (Tree.block (closedPart p o tail stop) o.children).Printed := by
  have hnone : (p.current.closeNode p.spaces p.semicolon (some stop)).raws.get?
      "ownSemicolon" = none :=
    (p.current.get?_closeRaws p.spaces p.semicolon (by decide) (by decide)).trans hown
  refine ⟨⟨⟨?_, ?_⟩, ?_, ?_, fun _ => rfl⟩, ?_, hnotes.printed⟩
  · show chars o.head.gap = _
    rw [hinner.printed.before, hnotes.node]
    exact congrArg String.toList
      (p.current.slot_closeNode p.spaces p.semicolon _ (by decide) (by decide)).symm
  · show chars o.head.body = _
    rw [hinner.printed.opening, hnotes.node]
    exact congrArg String.toList
      (p.current.opening_text_closeNode p.spaces p.semicolon (some stop)).symm
  · show chars tail = _
    rw [htail]
    exact congrArg String.toList
      (p.current.slot_closeNode_after p.spaces p.semicolon (some stop)).symm
  · show ([] : List Char) = _
    have : (closedPart p o tail stop).node.wording.own = "" := by
      simp only [Wording.own, Wording.slot, Raws.text?, Parsed.wording, closedPart, hnone]
      split <;> rfl
    rw [this]
    rfl
  · show Flagged (p.current.closeNode p.spaces p.semicolon (some stop)).wording.closed _
    by_cases hne : p.current.reversed = []
    · have hnil : o.children = [] := by simpa [hne] using hnotes.children
      rw [hnil]
      trivial
    · rw [p.current.closed_closeNode p.spaces p.semicolon (some stop) hne]
      exact hflagged

/-- A block ends. -/
theorem Parted.leave (h : Parted safe true p ss) (hb : p.Built) {t : Token}
    (hl : p.leave t = .ok q) : Divides safe q (ss ++ [brace]) := by
  obtain ⟨b, outer, he, rfl⟩ := leave_ok hl
  have hblock := hb.stacked
  obtain ⟨o, os, tail, hstack, hcontents, hflagged, hchars, rfl⟩ := h
  rw [he] at hstack hblock
  obtain _ | ⟨o', os⟩ := os
  · exact hstack.elim
  obtain ⟨hnotes, hinner, hsettled, hstack⟩ := hstack
  have hprinted := printed_closedPart hnotes hinner hblock.1.own hflagged hchars t.first
  have hdata : (closedPart p o tail t.first).data = o.head.data := by
    show p.current.node.data = o.head.node.data
    rw [hnotes.node]
  have hmap : (Tree.block (closedPart p o tail t.first) o.children).map Part.node =
      p.current.close p.spaces p.semicolon (some t.first) := by
    rw [Tree.map, mapAll_eq, hnotes.children, OpenBlock.close_eq]
    rfl
  have hsolid : (Tree.block (closedPart p o tail t.first) o.children).isSolid = true := by
    have hkind : (closedPart p o tail t.first).data.kind ≠ .comment := by
      show p.current.node.data.kind ≠ .comment
      rcases hblock.1.data with hk | hk <;> rw [hk] <;> decide
    exact isSolid_iff.2 hkind
  refine ⟨{ o' with children := o'.children ++ [.block (closedPart p o tail t.first) o.children] },
    os, [], ?_, ?_, ?_, gap_nil, rfl, ?_⟩
  · rw [← hmap]
    exact hstack.push hprinted
  · refine List.forall_mem_append.2 ⟨hsettled, List.forall_mem_singleton.2 ?_⟩
    exact ⟨⟨hinner.gap, hdata ▸ hinner.opens, hinner.ends, gap_nil, by simp [closedPart]⟩,
      hcontents⟩
  · exact Flagged.append hsettled ⟨by rintro c ⟨⟩, trivial⟩ (by simpa using hsolid)
  · rw [spelled_append]
    simp [spelled, Opened.source, sourceAll, Tree.source, closedPart]

/-- A rule with a semicolon behind its brace is printed as it was read. -/
theorem printed_closeOwn {a : Part} {us : List (Tree Part)} {own : List Spelling} {spaces : String}
    (h : (Tree.block a us).Printed) (hk : a.node.data.kind = .rule)
    (hown : chars own = spaces.toList) (stop : Nat) :
    (Tree.block { a with node := closeOwn a.node spaces stop, own } us).Printed := by
  obtain ⟨hblock, hflags, hall⟩ := h
  refine ⟨⟨⟨?_, ?_⟩, ?_, ?_, fun hnone => ?_⟩, ?_, hall⟩
  · exact hblock.before.trans
      (congrArg String.toList (slot_closeOwn a.node _ _ (by decide)).symm)
  · exact hblock.opening.trans
      (congrArg String.toList (opening_text_closeOwn a.node _ _).symm)
  · exact hblock.after.trans
      (congrArg String.toList (slot_closeOwn a.node _ _ (by decide)).symm)
  · exact hown.trans (congrArg String.toList (own_closeOwn hk _ _).symm)
  · exact absurd ((Raws.get?_set_self ..).symm.trans hnone) (Option.some_ne_none _)
  · have hclosed : (closeOwn a.node spaces stop).wording.closed = a.node.wording.closed := by
      simp [Wording.closed, Parsed.wording, get?_closeOwn]
    show Flagged (closeOwn a.node spaces stop).wording.closed us
    rw [hclosed]
    exact hflags

/-- A semicolon that ends no statement. -/
theorem Divides.freeSemicolon (h : Divides safe p ss) {t : Token} (ht : t.kind = .semicolon) :
    Divides safe (p.freeSemicolon t) (ss ++ [t.spelling]) := by
  obtain ⟨o, os, gap, hstack, hsettled, hflagged, hgap, hchars, rfl⟩ := h
  have hgap' : Gap (gap ++ [t.spelling]) :=
    hgap.append (by simpa [Gap, Token.spelling] using .inr ht)
  have hchars' : chars (gap ++ [t.spelling]) = (p.spaces ++ t.text).toList := by
    rw [chars_append, hchars]
    simp [Token.spelling]
  rcases freeSemicolon_cases p t with he | ⟨m, ts, earlier, hr, hk, hown, he⟩
  · rw [he]
    exact ⟨o, os, gap ++ [t.spelling], hstack, hsettled, hflagged, hgap', hchars', by simp⟩
  rw [he]
  -- the rule that stands last takes the semicolon
  have hnotes := hstack.notes
  obtain ⟨init, last, hchildren⟩ : ∃ init last, o.children = init ++ [last] := by
    rcases List.eq_nil_or_concat o.children with hnil | ⟨init, last, hlast⟩
    · have := hnotes.children
      rw [hnil, hr] at this
      simp at this
    · exact ⟨init, last, hlast.trans (List.concat_eq_append ..)⟩
  have hmap := hnotes.children
  rw [hchildren, hr, List.map_append, List.reverse_cons] at hmap
  obtain ⟨hinit, hlast⟩ := List.append_inj' hmap (by simp)
  obtain ⟨a, us, rfl⟩ : ∃ a us, last = .block a us := by
    cases last with
    | leaf a => simp [Tree.map] at hlast
    | block a us => exact ⟨a, us, rfl⟩
  simp only [Tree.map, List.map_cons, List.map_nil, List.cons.injEq, Tree.block.injEq,
    and_true] at hlast
  obtain ⟨rfl, hus⟩ := hlast
  rw [hchildren] at hsettled hflagged
  obtain ⟨hinits, hlasts⟩ := List.forall_mem_append.1 hsettled
  obtain ⟨hframed, hcontents⟩ := List.forall_mem_singleton.1 hlasts
  have hprints := hnotes.printed
  rw [hchildren] at hprints
  obtain ⟨hprint, hblock, -⟩ := printedAll_append.1 hprints
  have hnil : a.own = [] := hblock.1.bare hown
  let a' : Part := { a with
    node := closeOwn a.node (p.spaces ++ t.text) t.first, own := gap ++ [t.spelling] }
  have hprinted : (Tree.block a' us).Printed := printed_closeOwn hblock hk hchars' t.first
  refine ⟨{ o with children := init ++ [.block a' us] }, os, [], ?_, ?_, ?_, gap_nil, rfl, ?_⟩
  · refine hstack.replace rfl ?_ (printedAll_append.2 ⟨hprint, hprinted, trivial⟩)
    simp [Tree.map, hus, hinit, a']
  · refine List.forall_mem_append.2 ⟨hinits, List.forall_mem_singleton.2 ?_⟩
    refine ⟨⟨hframed.gap, hframed.opens, hframed.ends, hgap', ?_⟩, hcontents⟩
    intro s hs
    obtain rfl : t.spelling = s := by simpa [a'] using hs
    exact .inl ht
  · exact Flagged.append hinits ⟨by rintro c ⟨⟩, trivial⟩
      (by simp [isSolid, label, Part.data, a', closeOwn, hk])
  · obtain ⟨front, hfront⟩ := spelled_eq o os
    have hold := hfront o.children
    have hold : spelled o os = front ++ sourceAll o.children := hold
    rw [hold, hfront, hchildren, sourceAll_append, sourceAll_append]
    simp [sourceAll, Tree.source, a', hnil]

/-! ## Statements that their block ends -/

/-- A statement without a semicolon, with the comments behind it. -/
theorem Divides.last (h : Divides safe p ss) {ws tail : List Spelling} {cs : List (Tree Part)}
    (hk : n.data.kind ≠ .comment)
    (hprinted : p.spaces.toList ++ chars ws =
      (n.wording.slot "before").toList ++ (n.wording.leaf false).toList)
    (hy : YieldsLast inner (ws ++ sourceAll cs ++ tail) (.leaf n.data :: mapAll Part.data cs))
    (hclosable : inner = true ∨ safe → Yields (ws ++ [Spelling.semicolon]) [.leaf n.data] ∧
      ∃ s, ws.getLast? = some s ∧ s.1 ≠ .openParen)
    (hcs : ∀ t ∈ cs, t.Remark) (hprints : PrintedAll cs) (hloose : Loose tail)
    (hblanks : inner = true → Gap tail) (houter : q.outer = p.outer)
    (hnode : q.current.node = p.current.node)
    (hread : q.current.reversed =
      (cs.map (Tree.map Part.node)).reverse ++ .leaf n :: p.current.reversed)
    (hsemicolon : q.semicolon = false) (hspaces : chars tail = q.spaces.toList) :
    Parted safe inner q (ss ++ (ws ++ sourceAll cs ++ tail)) := by
  obtain ⟨o, os, gap, hstack, hsettled, hflagged, hgap, hchars, rfl⟩ := h
  let a : Part := ⟨n, gap, ws, false, [], []⟩
  refine ⟨{ o with children := o.children ++ .leaf a :: cs }, os, tail, ?_, ?_, ?_, hspaces, ?_⟩
  · rw [houter]
    refine hstack.replace hnode ?_ (printedAll_append.2 ⟨hstack.notes.printed, ?_, hprints⟩)
    · rw [hread, List.map_append, hstack.notes.children]
      simp [Tree.map, a]
    · show chars gap ++ chars ws = _
      rw [hchars, hprinted]
  · refine Contents.behind hsettled (.inr ⟨a, rfl, hgap, rfl, hk, hcs, ?_, fun hc => ?_, hloose,
      hblanks⟩)
    · have hleaf : a.leaf = ws := List.append_nil ws
      rw [hleaf]
      exact hy
    · exact ⟨(hclosable hc).1, (hclosable hc).2⟩
  · have hsolid : (Tree.leaf a).isSolid = true := isSolid_iff.2 hk
    refine Flagged.append hsettled ?_ (by rw [List.any_cons, hsolid, Bool.true_or])
    have hcomments : ∀ c ∈ cs, c.Settled safe ∧ c.isSolid = false := by
      intro c hc
      obtain ⟨c, rfl, hc, hsettled, -⟩ := hcs c hc
      exact ⟨hsettled, decide_eq_false (not_not.2 hc)⟩
    have hone : Flagged q.semicolon [.leaf a] :=
      ⟨fun b hb => by cases hb; rw [hsemicolon, hsolid]; rfl, trivial⟩
    exact hone.comments hcomments
  · rw [spelled_append, sourceAll]
    simp [Tree.source, Part.leaf, a]

/-- Blanks and comments behind a statement. -/
theorem statements_filling {xs fin : List Token} (hx : Filling xs) (hi : Inv done p (xs ++ fin))
    {gap : List Spelling} (hgap : ∀ s ∈ gap, s.1 = .space) (hchars : chars gap = p.spaces.toList) :
    ∃ (q : Parser) (cs : List (Tree Part)) (tail : List Spelling) (done' : List Char),
      statements none p (xs ++ fin) = statements none q fin ∧ Inv done' q fin ∧
      q.outer = p.outer ∧ q.current.node = p.current.node ∧
      q.current.reversed = (cs.map (Tree.map Part.node)).reverse ++ p.current.reversed ∧
      q.semicolon = p.semicolon ∧ chars tail = q.spaces.toList ∧ (∀ s ∈ tail, s.1 = .space) ∧
      gap ++ xs.map Token.spelling = sourceAll cs ++ tail ∧
      mapAll Part.data cs = remarks (xs.map Token.spelling) ∧ (∀ t ∈ cs, t.Remark) ∧
      PrintedAll cs := by
  induction xs generalizing p gap done with
  | nil =>
    exact ⟨p, [], gap, done, rfl, hi, rfl, rfl, rfl, rfl, hchars, hgap, by simp [sourceAll], rfl,
      by simp, trivial⟩
  | cons x xs ih =>
    obtain ⟨hx, hxs⟩ := List.forall_mem_cons.1 hx
    have hk : x.kind = .space ∨ x.kind = .comment := by simpa [Token.isFiller] using hx
    rcases hk with hk | hk
    · -- a blank
      have hgap' : ∀ s ∈ gap ++ [x.spelling], s.1 = .space :=
        List.forall_mem_append.2 ⟨hgap, by simpa [Token.spelling] using hk⟩
      obtain ⟨q, cs, tail, done', hq, hi', ho, hn, hr, hs, ht, hts, hsource, hdata, hcs, hps⟩ :=
        ih hxs (hi.space hk) hgap' (by rw [chars_append, hchars]; simp [Token.spelling])
      have hcomment : x.kind ≠ .comment := by rw [hk]; decide
      refine ⟨q, cs, tail, done', (statements_space hk).trans hq, hi', ho, hn, hr, hs, ht, hts, ?_,
        ?_, hcs, hps⟩
      · rw [← hsource]
        simp
      · rw [hdata, List.map_cons, remarks, if_neg (by exact hcomment)]
    · -- a comment
      obtain ⟨-, hbefore, -, hleaf⟩ := commentNode_spec p.spaces hi.tiled.1.shaped hk
      let c : Part := ⟨commentNode p.spaces x, gap, [x.spelling], false, [], []⟩
      have hkind : c.data.kind = .comment := rfl
      have hspaces : (p.comment x).spaces = "" := by rw [comment_eq]; rfl
      obtain ⟨q, cs, tail, done', hq, hi', ho, hn, hr, hs, ht, hts, hsource, hdata, hcs, hps⟩ :=
        @ih (p.comment x) (done ++ x.chars) hxs (hi.comment hk) [] (by simp) (by rw [hspaces]; rfl)
      rw [comment_eq] at ho hn hr hs
      refine ⟨q, .leaf c :: cs, tail, done', (statements_comment hk).trans hq, hi', ho, hn, ?_, hs,
        ht, hts, ?_, ?_, List.forall_mem_cons.2 ⟨⟨c, rfl, hkind, ?_, ?_⟩, hcs⟩, ?_, hps⟩
      · rw [hr]
        simp [Tree.map, Parser.add, OpenBlock.push, c]
      · rw [List.nil_append] at hsource
        simp [sourceAll, Tree.source, Part.leaf, c, hsource]
      · rw [mapAll, hdata, List.map_cons, remarks, if_pos (by exact hk)]
        rfl
      · refine ⟨fun s hs => .inl (hgap s hs), iff_of_false (by simp [c]) (by simp [hkind]),
          yields_comment (s := x.spelling) hk, x.spelling, rfl, .inr (.inl hk)⟩
      · intro s hs
        rcases List.mem_append.1 hs with hs | hs
        · exact .inl (hgap s hs)
        · rw [List.mem_singleton.1 hs]
          exact .inr hk
      · show chars gap ++ chars [x.spelling] = _
        rw [hchars, hbefore, hleaf]
        simp [Token.spelling, Token.chars]

/-! ## Runs -/

variable {t : Token} {rest rest' : List Token}

theorem Token.Shaped.spelling_semicolon (h : t.Shaped) (hk : t.kind = .semicolon) :
    t.spelling = Spelling.semicolon :=
  Prod.ext hk (String.ext (h.mark ';' (by rw [hk]; rfl)))

theorem Token.Shaped.spelling_brace (h : t.Shaped) (hk : t.kind = .closeCurly) :
    t.spelling = brace :=
  Prod.ext hk (String.ext (h.mark '}' (by rw [hk]; rfl)))

theorem getLast?_spelling {ts : List Token} {k : TokenKind}
    (h : ∀ v ∈ (t :: ts).getLast?, v.kind ≠ k) :
    ∃ s, ((t :: ts).map Token.spelling).getLast? = some s ∧ s.1 ≠ k :=
  ⟨_, by rw [List.getLast?_map, List.getLast?_cons]; rfl, h _ (by rw [List.getLast?_cons]; rfl)⟩

/-- A run that its block ends: the declaration `t :: ts`, and the blanks and comments `xs` that it
leaves. -/
structure Lasts (p : Parser) (n : Parsed) (t : Token) (ts xs fin : List Token) : Prop where
  runs : Runs t ts
  colon : (nest t ts).colon = true
  parse : Declaration.parse p.spaces (t :: ts) none (isCustom t) = .ok n
  filling : Filling xs
  cut : runEnd (isCustom t) (ts ++ xs) = (ts, xs)
  ends : EndsBlock fin

/-- What is printed of a declaration is what it was read from. -/
theorem printed_of_parse {ts : List Token} {closing : Option Token} {custom : Bool}
    (hc : p.Covers true true done) (ht : Tiled (byteSize done) (t :: ts))
    (h : Declaration.parse p.spaces (t :: ts) closing custom = .ok n) :
    n.data.kind ≠ .comment ∧ p.spaces.toList ++ chars ((t :: ts).map Token.spelling) =
      (n.wording.slot "before").toList ++ (n.wording.leaf false).toList := by
  have hlaid := (laid_of_parse (by simp) ht h hc.text).1
  refine ⟨by rw [hlaid.kind]; decide, ?_⟩
  rw [Spelling.chars_map, hlaid.text]

theorem filling_runEnd (custom : Bool) (ts : List Token) : Filling (runEnd custom ts).2 := by
  intro u hu
  cases custom with
  | true => cases hu
  | false => exact List.all_eq_true.1 List.all_takeWhile u (List.mem_reverse.1 hu)

theorem runEnd_runEnd (custom : Bool) (ts : List Token) :
    runEnd custom ((runEnd custom ts).1 ++ (runEnd custom ts).2) = runEnd custom ts := by
  rw [runEnd_append]

theorem Inv.covers_run (hi : Inv done p (t :: rest)) (hk : startsRun t.kind = true) :
    p.Covers true true done := by
  refine hi.covers ?_ ?_
  · cases hkind : t.kind <;> simp [Token.isFiller, hkind, startsRun] at hk ⊢
  · cases hkind : t.kind <;> simp [hkind, startsRun] at hk ⊢

/-- A declaration that no semicolon ends leaves the blanks and comments at its end. -/
theorem lasts_runEnd {ts fin : List Token} (hruns : Runs t ts) (hcolon : (nest t ts).colon = true)
    (hparse : Declaration.parse p.spaces (t :: (runEnd (isCustom t) ts).1) none (isCustom t) =
      .ok n) (hfin : EndsBlock fin) :
    Lasts p n t (runEnd (isCustom t) ts).1 (runEnd (isCustom t) ts).2 fin := by
  have hsplit := runEnd_append (isCustom t) ts
  have hx := filling_runEnd (isCustom t) ts
  have hcut := runEnd_runEnd (isCustom t) ts
  generalize runEnd (isCustom t) ts = cut at hparse hsplit hx hcut ⊢
  rw [← hsplit] at hruns hcolon
  rw [Runs.nest_append hx] at hcolon
  exact ⟨(Runs.append_iff hx).1 hruns, hcolon, hparse, hx, hcut, hfin⟩

/-- A run is settled, or its block ends it. -/
theorem Divides.run (h : Divides safe p ss) (hi : Inv done p (t :: rest))
    (hk : startsRun t.kind = true) (hr : p.run none t rest = .ok (q, rest')) :
    (∃ used, t :: rest = used ++ rest' ∧ Divides safe q (ss ++ used.map Token.spelling)) ∨
    ∃ ts xs fin n, t :: rest = t :: ts ++ xs ++ fin ∧ rest' = xs ++ fin ∧ Lasts p n t ts xs fin ∧
      q = p.add (.leaf n) false := by
  have hcovers := hi.covers_run hk
  obtain ⟨hruns, hnest, hcolon⟩ := runs_gather hk hr
  have hrun := run_ok hr
  obtain ⟨closing, hts, hends⟩ := Phrase.gather_append (isCustom t)
    (Phrase.Nest.start.step (isCustom t) t) rest
  have hcloser := @Phrase.closer?_gather (isCustom t) (Phrase.Nest.start.step (isCustom t) t) rest
  simp only [← show isCustom t = Text.startsWith t.text "--" from rfl] at hrun
  generalize Phrase.gather (isCustom t) (Phrase.Nest.start.step (isCustom t) t) rest = g at *
  have hused : t :: rest = t :: g.tokens ++ closing ++ g.rest := by rw [hts]; simp
  have htiled := hi.tiled
  rw [hused] at htiled
  obtain ⟨hhead, -⟩ := tiled_append.1 htiled
  obtain ⟨hword, hclosing⟩ := tiled_append.1 hhead
  -- a run that no semicolon ends
  have hend : closing = [] → EndsBlock g.rest → (∀ c, g.ending ≠ .openCurly c) →
      (rest' = (runEnd (isCustom t) g.tokens).2 ++ g.rest ∧ ∃ d,
        Declaration.parse p.spaces (t :: (runEnd (isCustom t) g.tokens).1) none (isCustom t) =
          .ok d ∧ q = p.add (.leaf d) false) →
      ∃ ts xs fin n, t :: rest = t :: ts ++ xs ++ fin ∧ rest' = xs ++ fin ∧
        Lasts p n t ts xs fin ∧ q = p.add (.leaf n) false := by
    rintro rfl hfin hne ⟨rfl, d, hd, rfl⟩
    refine ⟨_, _, g.rest, d, ?_, rfl, lasts_runEnd hruns (hnest ▸ hcolon hne) hd hfin, rfl⟩
    rw [hused, List.append_nil]
    exact congrArg (t :: · ++ g.rest) (runEnd_append (isCustom t) g.tokens).symm
  cases he : g.ending with
  | semicolon s =>
    rw [he] at hrun hends
    obtain ⟨rfl, d, hd, rfl⟩ := hrun
    obtain ⟨rfl, hs⟩ := hends
    obtain ⟨hkind, hprinted⟩ := printed_of_parse hcovers hword hd
    refine .inl ⟨_, hused, ?_⟩
    have hspelling := Token.Shaped.spelling_semicolon hclosing.1.shaped hs
    rw [List.map_append, List.map_singleton, hspelling]
    exact h.closed hkind (yields_declaration hruns (hnest ▸ hcolon (by simp [he])) hd) hprinted
  | openCurly c =>
    rw [he] at hrun hends
    obtain ⟨rfl, rfl⟩ := hrun
    obtain ⟨rfl, hc⟩ := hends
    obtain ⟨-, hslot, hopening⟩ := ruleNode_spec p.spaces t (t :: g.tokens)
    have hchars : c.chars = ['\x7b'] := hclosing.1.shaped.mark _ (by rw [hc]; rfl)
    refine .inl ⟨_, hused, ?_⟩
    rw [rule_eq, List.map_append, List.map_singleton]
    refine h.enter (opens_rule hruns (hnest ▸ hcloser he) hc p.spaces)
      ⟨c.spelling, List.getLast?_concat, .inr (.inr (.inl hc))⟩ hslot ?_
    rw [hopening, chars_append, Spelling.chars_map, ← hchars]
    simp [Token.spelling, Token.chars]
  | closeCurly =>
    rw [he] at hrun hends
    exact .inr (hend hends.1 hends.2 (by simp [he]) hrun)
  | endOfText =>
    rw [he] at hrun hends
    exact .inr (hend hends.1 (by rw [hends.2]; trivial) (by simp [he]) hrun)

/-- A declaration that its block ends, and the comments behind it. -/
theorem Divides.lasts (h : Divides safe p ss) {ts xs fin : List Token}
    (hl : Lasts p n t ts xs fin) (hi : Inv done p (t :: ts ++ xs ++ fin))
    (hc : p.Covers true true done)
    {done' : List Char} (hi' : Inv done' (p.add (.leaf n) false) (xs ++ fin)) :
    ∃ q done'', statements none (p.add (.leaf n) false) (xs ++ fin) = statements none q fin ∧
      Inv done'' q fin ∧
      ∀ inner, Parted safe inner q (ss ++ (t :: ts ++ xs).map Token.spelling) := by
  obtain ⟨q, cs, tail, done'', hq, hinv, ho, hn, hread, hs, ht, hts, hsource, hdata, hcs, hps⟩ :=
    statements_filling hl.filling hi' (show ∀ s ∈ ([] : List Spelling), s.1 = .space from nofun) rfl
  rw [List.nil_append] at hsource
  obtain ⟨hkind, hprinted⟩ := printed_of_parse hc (tiled_append.1 (tiled_append.1 hi.tiled).1).1
    hl.parse
  have hgap : Gap tail := fun s hs => .inl (hts s hs)
  refine ⟨q, done'', hq, hinv, fun inner => ?_⟩
  rw [List.map_append, hsource, ← List.append_assoc _ (sourceAll cs)]
  refine h.last hkind hprinted ?_ (fun _ => ⟨yields_declaration hl.runs hl.colon hl.parse, ?_⟩) hcs
    hps hgap.loose (fun _ => hgap) ho hn hread hs ht
  · rw [List.append_assoc, ← hsource, hdata]
    exact yieldsLast_declaration hl.runs hl.colon hl.parse hl.filling hl.cut inner
  · exact getLast?_spelling hl.runs.getLast?_ne

/-! ## At-rules -/

/-- What the end of the text leaves of parameters: blanks and comments at their end. -/
theorem exists_left (spaces : String) (ts : List Token) (e : Params.Ending)
    (hleft : e ≠ .endOfParams → (Params.divide spaces ts e).2.2 = "") :
    ∃ us xs, ts = us ++ xs ∧ Filling xs ∧
      (Params.divide spaces ts e).2.2.toList = tokenChars xs := by
  by_cases he : e = .endOfParams
  · subst he
    by_cases hcore : (Token.cutEnd Token.isFiller ts).1.dropWhile Token.isFiller = []
    · obtain ⟨-, hnil⟩ := @Params.divided_of_nil spaces ts .endOfParams hcore "" 0 none
      exact ⟨ts, [], (List.append_nil ts).symm, nofun, by rw [hnil]; rfl⟩
    · refine ⟨_, _, (Token.cutEnd_append Token.isFiller ts).symm, filling_runEnd false ts, ?_⟩
      rw [Params.divide_endOfParams hcore, toList_concat]
  · exact ⟨ts, [], (List.append_nil ts).symm, nofun, by rw [hleft he]; rfl⟩

/-- Where the text ends in the parameters of an at-rule, no bracket is open in them. -/
def Tidy (ts : List Token) : Prop :=
  ∀ front t rest, ts = front ++ t :: rest → t.kind = .atWord →
    (Params.gather [] .endOfName rest).ending.AtEnd → Params.behind [] rest = []

theorem Tidy.behind {ts us : List Token} (h : Tidy (ts ++ us)) : Tidy us :=
  fun front t rest he => h (ts ++ front) t rest (by rw [he, List.append_assoc])

theorem AtRuleNode.printed {ts : List Token} {e : Params.Ending} (h : p.AtRuleNode done t ts e n)
    (he : e ≠ .endOfParams) : p.spaces.toList ++ Spelling.chars ((t :: ts).map Token.spelling) =
      (n.wording.slot "before").toList ++ (n.wording.leaf false).toList := by
  rw [h.leaf, h.slot_before, Spelling.chars_map, ← h.chars he]
  simp

section
variable {ts : List Token} {e : Params.Ending} (h : Divides safe p ss) (hd : Directs t ts)
  (hn : p.AtRuleNode done t ts e n)
  (hdata : n.data = .atRule (atName t) (Params.divide p.spaces ts e).1)
include h hd hn hdata

theorem Divides.atRule_semicolon (he : e ≠ .endOfParams) (hb : Params.behind [] ts = []) :
    Divides safe (p.add (.leaf n) true)
      (ss ++ ((t :: ts).map Token.spelling ++ [Spelling.semicolon])) := by
  have hy := yields_atRule hd p.spaces e hb (List.forall_mem_nil _)
  rw [List.append_nil, ← hdata] at hy
  exact h.closed (by rw [hn.kind]; decide) hy (hn.printed he)

theorem Divides.atRule_block (he : e ≠ .endOfParams) (hb : Params.behind [] ts = []) {c : Token}
    (hc : c.kind = .openCurly) (hchars : c.chars = ['\x7b']) :
    Divides safe (p.enter n) (ss ++ ((t :: ts).map Token.spelling ++ [c.spelling])) := by
  refine h.enter (hdata ▸ opens_atRule hd p.spaces e hb hc)
    ⟨c.spelling, List.getLast?_concat, .inr (.inr (.inl hc))⟩ hn.slot_before ?_
  have hopening : (Tree.opening Parsed.wording n).text =
    n.wording.head ++ n.wording.slot "between" ++ "\x7b" := rfl
  rw [hopening, chars_append, Spelling.chars_map, ← hn.chars he]
  simp [Token.spelling, hchars, show c.text.toList = c.chars from rfl]

/-- The brace of the block around the at-rule ends both. -/
theorem Divides.atRule_brace (he : e ≠ .endOfParams) (hb : Params.behind [] ts = [])
    (hbuilt : p.Built) {c : Token} (hl : (p.add (.leaf n) false).leave c = .ok q) :
    Divides safe q (ss ++ ((t :: ts).map Token.spelling ++ [brace])) := by
  have hy := yieldsLast_atRule hd p.spaces e
    (show true = true → Params.behind [] ts = [] from fun _ => hb)
  have hsettled := yields_atRule hd p.spaces e hb (List.forall_mem_nil _)
  rw [← hdata] at hy
  rw [List.append_nil, ← hdata] at hsettled
  have hlast : Parted safe true (p.add (.leaf n) false)
      (ss ++ ((t :: ts).map Token.spelling ++ sourceAll [] ++ [])) :=
    h.last (by rw [hn.kind]; decide) (hn.printed he) (by simpa [sourceAll, mapAll] using hy)
      (fun _ => ⟨hsettled, getLast?_spelling (hd.getLast?_ne hb)⟩) (List.forall_mem_nil _) trivial
      gap_nil.loose (fun _ => gap_nil) rfl rfl rfl rfl rfl
  have hleave := hlast.leave (hbuilt.add hn.formatted _) hl
  simpa [sourceAll] using hleave

/-- The text ends in the at-rule; blanks and comments at the end of its parameters are left over. -/
theorem Divides.atRule_end (htidy : safe → Params.behind [] ts = []) :
    Parted safe false
      { p.add (.leaf n) false with spaces := (Params.divide p.spaces ts e).2.2 }
      (ss ++ (t :: ts).map Token.spelling) := by
  obtain ⟨us, xs, hsplit, hx, hleft⟩ := exists_left p.spaces ts e hn.left
  have htext := hn.text
  rw [hleft, hsplit, tokenChars_append, ← List.append_assoc t.chars] at htext
  replace htext := List.append_cancel_right htext
  have hy := yieldsLast_atRule hd p.spaces e fun h => absurd h Bool.false_ne_true
  rw [← hdata] at hy
  have hd' : Directs t us :=
    ⟨hd.kind, hd.name, (Params.passes_append.1 (hsplit ▸ hd.passes)).1⟩
  have hclosable : false = true ∨ safe →
      Yields ((t :: us).map Token.spelling ++ [Spelling.semicolon]) [.leaf n.data] ∧
        ∃ s, ((t :: us).map Token.spelling).getLast? = some s ∧ s.1 ≠ .openParen := by
    intro hs
    have hb := htidy (hs.resolve_left Bool.false_ne_true)
    rw [hsplit, Params.behind, List.foldl_append] at hb
    replace hb : Params.behind [] us = [] :=
      ((Params.sane_nil.behind us).behind_filling hx).symm.trans hb
    have hone := yields_atRule hd' p.spaces e hb hx
    rw [← hsplit, ← hdata] at hone
    exact ⟨hone, getLast?_spelling (hd'.getLast?_ne hb)⟩
  have hsource : (t :: ts).map Token.spelling =
      (t :: us).map Token.spelling ++ sourceAll [] ++ xs.map Token.spelling := by
    rw [hsplit]
    simp [sourceAll]
  rw [hsource]
  refine h.last (by rw [hn.kind]; decide) ?_ ?_ hclosable (List.forall_mem_nil _) trivial ?_
    (fun h => absurd h Bool.false_ne_true) rfl rfl rfl rfl ?_
  · rw [hn.leaf, hn.slot_before, Spelling.chars_map, tokenChars_cons, ← htext]
    simp
  · rw [← hsource]
    simpa [mapAll] using hy
  · exact fun s hs => (hx.fillers s hs).imp_right .inr
  · rw [Spelling.chars_map, ← hleft]

end

/-- An at-rule is settled, or the text ends behind it. -/
theorem Divides.atRule (h : Divides safe p ss) (hi : Inv done p (t :: rest))
    (hk : t.kind = .atWord) (hsafe : safe → Tidy (t :: rest))
    (hr : p.atRule none t rest = .ok (q, rest')) :
    (∃ used, t :: rest = used ++ rest' ∧ Divides safe q (ss ++ used.map Token.spelling)) ∨
    rest' = [] ∧ Parted safe false q (ss ++ (t :: rest).map Token.spelling) := by
  have hd := directs_gather hk hr
  obtain ⟨rfl, hq⟩ := atRule_ok hr
  obtain ⟨closing, hts, hends⟩ := Params.gather_append [] (.inl rfl) rest
  have hbehind := @Params.behind_gather [] .endOfName rest Params.sane_nil (.inl rfl)
  have hend := @Params.gather_atEnd [] .endOfName rest (.inl rfl)
  have htidy : safe → (Params.gather [] .endOfName rest).ending.AtEnd →
      Params.behind [] rest = [] := fun hs he => hsafe hs [] t rest rfl hk he
  generalize Params.gather [] .endOfName rest = g at *
  have hused : t :: rest = t :: g.tokens ++ closing ++ g.rest := by rw [hts]; simp
  have htiled := hi.tiled
  rw [hused] at htiled
  obtain ⟨hhead, -⟩ := tiled_append.1 htiled
  obtain ⟨hword, hclosing⟩ := tiled_append.1 hhead
  have hnode := atRuleNode (p := p) hword hk g.ending g.last
  generalize hn : Params.node p.spaces t g.tokens g.ending g.last = n at hq hnode
  have hdata : n.data = .atRule (atName t) (Params.divide p.spaces g.tokens g.ending).1 := by
    rw [← hn]
    rfl
  have hatEnd : g.ending.AtEnd →
      q = { p.add (.leaf n) false with
        spaces := (Params.divide p.spaces g.tokens g.ending).2.2 } →
      g.rest = [] ∧ Parted safe false q (ss ++ (t :: rest).map Token.spelling) := by
    rintro he rfl
    have hg := hend he
    have htokens : g.tokens = rest := congrArg Params.Gathered.tokens hg
    refine ⟨congrArg Params.Gathered.rest hg, ?_⟩
    rw [← htokens] at htidy ⊢
    exact h.atRule_end hd hnode hdata fun hs => htidy hs he
  cases he : g.ending with
  | semicolon s =>
    rw [he] at hq hends hnode hdata
    obtain ⟨rfl, hs⟩ := hends
    have hb : Params.behind [] g.tokens = [] := hbehind (by rw [he]; rintro (h | h) <;> cases h)
    refine .inl ⟨_, hused, ?_⟩
    rw [List.map_append, List.map_singleton,
      Token.Shaped.spelling_semicolon hclosing.1.shaped hs, hq]
    exact h.atRule_semicolon hd hnode hdata nofun hb
  | openCurly =>
    rw [he] at hq hends hnode hdata
    obtain ⟨c, rfl, hc⟩ := hends
    have hb : Params.behind [] g.tokens = [] := hbehind (by rw [he]; rintro (h | h) <;> cases h)
    refine .inl ⟨_, hused, ?_⟩
    rw [List.map_append, List.map_singleton, hq]
    exact h.atRule_block hd hnode hdata nofun hb hc (hclosing.1.shaped.mark _ (by rw [hc]; rfl))
  | closeCurly c =>
    rw [he] at hq hends hnode hdata
    obtain ⟨rfl, hc⟩ := hends
    have hb : Params.behind [] g.tokens = [] := hbehind (by rw [he]; rintro (h | h) <;> cases h)
    refine .inl ⟨_, hused, ?_⟩
    rw [List.map_append, List.map_singleton,
      Token.Shaped.spelling_brace hclosing.1.shaped hc]
    exact h.atRule_brace hd hnode hdata nofun hb hi.built hq
  | endOfParams =>
    rw [he] at hq hatEnd
    exact .inr (hatEnd (.inr rfl) hq)
  | endOfName =>
    rw [he] at hq hatEnd
    exact .inr (hatEnd (.inl rfl) hq)

/-! ## The whole text -/

theorem Divides.emptyRule (h : Divides safe p ss) (ht : t.Shaped) (hk : t.kind = .openCurly) :
    Divides safe (p.emptyRule t) (ss ++ [t.spelling]) := by
  have hchars : t.chars = ['\x7b'] := ht.mark _ (by rw [hk]; rfl)
  refine h.enter (opens_emptyRule (s := t.spelling) hk)
    ⟨t.spelling, rfl, .inr (.inr (.inl hk))⟩ rfl ?_
  have hopening : (Tree.opening Parsed.wording ⟨.rule "",
    (Raws.empty.setText "before" p.spaces).setText "between" "", t.first, none⟩).text =
      "" ++ "" ++ "\x7b" := rfl
  rw [hopening]
  simp [Token.spelling, show t.text.toList = t.chars from rfl, hchars]

/-- Some of the tokens are read, and what they make up is settled; the others are read next. -/
def Advances (safe : Prop) (q : Parser) (ss : List Spelling) (ts : List Token) : Prop :=
  ∃ (used rest : List Token) (p : Parser) (done : List Char), ts = used ++ rest ∧ used ≠ [] ∧
    Divides safe p (ss ++ used.map Token.spelling) ∧ Inv done p rest ∧
    statements none p rest = .ok q

/-- A run, with the brace of the block that it stands last in. -/
theorem Divides.advances_run (h : Divides safe p ss) (hi : Inv done p (t :: rest))
    (hk : startsRun t.kind = true) (hq : statements none p (t :: rest) = .ok q) :
    Advances safe q ss (t :: rest) ∨
      Parted safe false q (ss ++ (t :: rest).map Token.spelling) := by
  obtain ⟨p', rest', hs, hrest⟩ := statements_cons hq
  obtain ⟨_, -, hi'⟩ := hi.step hs
  have hlength := length_step hs
  rw [step_of_startsRun hk] at hs
  rcases h.run hi hk hs with ⟨used, hused, hd⟩ | ⟨ts, xs, fin, m, hsplit, rfl, hlasts, rfl⟩
  · refine .inl ⟨used, rest', p', _, hused, ?_, hd, hi', hrest⟩
    rintro rfl
    obtain rfl : t :: rest = rest' := hused
    exact absurd hlength (by simp)
  -- the statement stands last in its block
  obtain ⟨r, done', hr, hinv, hparted⟩ := h.lasts hlasts (hsplit ▸ hi) (hi.covers_run hk) hi'
  rw [hr] at hrest
  cases fin with
  | nil =>
    obtain ⟨-, rfl⟩ := statements_nil hrest
    rw [hsplit, List.append_nil]
    exact .inr (hparted false)
  | cons c fin =>
    have hck : c.kind = .closeCurly := hlasts.ends
    obtain ⟨r', fin', hs', hrest'⟩ := statements_cons hrest
    simp only [step, hck] at hs'
    obtain ⟨left, hl, he⟩ := Except.map_ok hs'
    cases he
    refine .inl ⟨t :: ts ++ xs ++ [c], fin, _, _, by simp [hsplit], by simp, ?_, hinv.leave hck hl,
      hrest'⟩
    have hleave := (hparted true).leave hinv.built hl
    rw [List.map_append, List.map_singleton,
      Token.Shaped.spelling_brace hinv.tiled.1.shaped hck, ← List.append_assoc]
    exact hleave

/-- One step: some tokens are read, or the text ends. -/
theorem Divides.advances (h : Divides safe p ss) (hi : Inv done p (t :: rest))
    (hsafe : safe → Tidy (t :: rest)) (hq : statements none p (t :: rest) = .ok q) :
    Advances safe q ss (t :: rest) ∨
      Parted safe false q (ss ++ (t :: rest).map Token.spelling) := by
  by_cases hrun : startsRun t.kind = true
  · exact h.advances_run hi hrun hq
  obtain ⟨p', rest', hs, hrest⟩ := statements_cons hq
  obtain ⟨_, -, hi'⟩ := hi.step hs
  have hshaped := hi.tiled.1.shaped
  have one (hrest' : rest' = rest) (hd : Divides safe p' (ss ++ [t.spelling])) :
      Advances safe q ss (t :: rest) := by
    subst hrest'
    exact ⟨[t], rest', p', _, rfl, List.cons_ne_nil _ _, hd, hi', hrest⟩
  have hlength := length_step hs
  cases hk : t.kind <;> simp [hk, startsRun] at hrun
  all_goals simp only [step, hk] at hs
  case space =>
    cases hs
    exact .inl (one rfl (h.space hk))
  case semicolon =>
    cases hs
    exact .inl (one rfl (h.freeSemicolon hk))
  case comment =>
    cases hs
    exact .inl (one rfl (h.comment hshaped hk))
  case openCurly =>
    cases hs
    exact .inl (one rfl (h.emptyRule hshaped hk))
  case closeCurly =>
    obtain ⟨left, hl, he⟩ := Except.map_ok hs
    cases he
    refine .inl (one rfl ?_)
    rw [Token.Shaped.spelling_brace hshaped hk]
    exact (h.parted true).leave hi.built hl
  case atWord =>
    rcases h.atRule hi hk hsafe hs with ⟨used, hused, hd⟩ | ⟨rfl, hparted⟩
    · refine .inl ⟨used, rest', p', _, hused, ?_, hd, hi', hrest⟩
      rintro rfl
      obtain rfl : t :: rest = rest' := hused
      exact absurd hlength (by simp)
    · obtain ⟨-, rfl⟩ := statements_nil hrest
      exact .inr hparted

/-- **A text that can be read is divided into parts.** -/
theorem parted_of_statements {ts : List Token} (h : Divides safe p ss) (hi : Inv done p ts)
    (hsafe : safe → Tidy ts) (hq : statements none p ts = .ok q) :
    Parted safe false q (ss ++ ts.map Token.spelling) := by
  -- a step may use many tokens, so the induction is on how many are left
  induction hn : ts.length using Nat.strongRecOn generalizing p ts ss done with
  | ind n ih =>
    cases ts with
    | nil =>
      obtain ⟨-, rfl⟩ := statements_nil hq
      simpa using h.parted false
    | cons t rest =>
      rcases h.advances hi hsafe hq with ⟨used, rest', _, _, hused, hne, hd, hi', hrest⟩ | hparted
      · have hlt : rest'.length < n := by
          have hpos := List.length_pos_iff.2 hne
          rw [← hn, hused, List.length_append]
          omega
        have htidy : safe → Tidy rest' := fun hs => (hused ▸ hsafe hs : Tidy (used ++ rest')).behind
        have := ih _ hlt hd hi' htidy hrest rfl
        rw [hused]
        simpa using this
      · exact hparted

/-- A text that can be read has tokens to its end, which are read. -/
theorem parse_ok {text : List Char} {t : Tree Parsed} (h : parse text = .ok t) :
    (Lexer.ofChars text).tokens.2 = none ∧
      ∃ q, statements none start (Lexer.ofChars text).tokens.1 = .ok q ∧ q.finish = .ok t := by
  unfold parse at h
  obtain ⟨q, hs, hfinish⟩ := Except.bind_ok h
  obtain ⟨hnone, -⟩ := statements_inv hs (start_inv (Lexer.tokens_tiled (.ofChars text) rfl))
  exact ⟨hnone, q, by rwa [hnone] at hs, hfinish⟩

/-- What a text is read as, with its tokens. -/
structure Spelt (safe : Prop) (a : Parsed) (ts : List (Tree Parsed)) (us : List (Tree Part))
    (tail ss : List Spelling) : Prop where
  children : us.map (Tree.map Part.node) = ts
  contents : Contents safe false tail us
  printed : PrintedAll us
  flagged : Flagged a.wording.closed us
  after : chars tail = (a.wording.slot "after").toList
  source : sourceAll us ++ tail = ss

/-- **The tree of a text has its tokens.** -/
theorem exists_spelt {text : List Char} {a : Parsed} {ts : List (Tree Parsed)}
    (h : parse text = .ok (.block a ts)) (hsafe : safe → Tidy (Lexer.ofChars text).tokens.1) :
    ∃ us tail, Spelt safe a ts us tail ((Lexer.ofChars text).tokens.1.map Token.spelling) := by
  obtain ⟨-, q, hs, hfinish⟩ := parse_ok h
  have htiled := Lexer.tokens_tiled (.ofChars text) rfl
  have hstart : Divides safe start [] := by
    refine ⟨⟨⟨start.current.node, [], [], false, [], []⟩, []⟩, [], [],
      ⟨⟨rfl, rfl, trivial⟩, rfl, rfl⟩,
      nofun, trivial, gap_nil, rfl, rfl⟩
  obtain ⟨o, os, tail, hstack, hcontents, hflagged, hchars, hss⟩ :=
    parted_of_statements hstart (start_inv htiled) hsafe hs
  unfold finish at hfinish
  split at hfinish
  · next houter =>
    cases hfinish
    rw [List.isEmpty_iff.1 houter] at hstack
    obtain _ | ⟨o', os⟩ := os
    · obtain ⟨hnotes, hgap, hbody⟩ := hstack
      refine ⟨o.children, tail, hnotes.children, hcontents, hnotes.printed, ?_, ?_, ?_⟩
      · show Flagged (q.current.closeNode q.spaces q.semicolon none).wording.closed _
        by_cases hne : q.current.reversed = []
        · have hnil : o.children = [] := by simpa [hne] using hnotes.children
          rw [hnil]
          trivial
        · rw [q.current.closed_closeNode q.spaces q.semicolon none hne]
          exact hflagged
      · rw [hchars]
        exact congrArg String.toList
          (q.current.slot_closeNode_after q.spaces q.semicolon none).symm
      · rw [List.nil_append] at hss
        rw [hss]
        simp [spelled, Opened.source, hgap, hbody]
    · exact hstack.elim
  · cases hfinish

end Parser

end Stylesheet
