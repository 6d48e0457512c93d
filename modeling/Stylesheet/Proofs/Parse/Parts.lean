import Stylesheet.Proofs.Parse.Bare

/-!
# Trees with their tokens

A `Part` is a node together with the tokens that it was read from, and `Tree.source` is what a tree
of parts is spelled with. `Tree.Settled` says of such a tree that it is read wherever its tokens
stand, `Tree.Contents` says of the nodes of a block that they are read where the block ends behind
them: the last statement may still need that end (`Pending`). The conditions are about one node
each, so a node can be put behind the others (`Contents.concat`): a semicolon is put behind the
statement before it, and all of the new contents are read as well (`Contents.yields`).
-/

set_option autoImplicit false

namespace Stylesheet

open Stylesheet.Tree

/-! ## Parts -/

/-- A node with the tokens that it was read from. -/
structure Part where
  node : Parsed
  /-- The blanks and stray semicolons before the node. -/
  gap : List Spelling
  /-- The tokens of a node without a block, or those that open a block. -/
  body : List Spelling
  /-- Whether a semicolon stands behind a node without a block. -/
  closed : Bool
  /-- The blanks and stray semicolons before the brace that closes a block. -/
  tail : List Spelling
  /-- The semicolon of its own behind a rule, with the blanks before it. -/
  own : List Spelling

namespace Spelling

/-- A semicolon. -/
def semicolon : Spelling := (.semicolon, ";")

/-- The end of a block. -/
def brace : Spelling := (.closeCurly, "\x7d")

/-- Only blanks and stray semicolons, which add no node. -/
def Gap (ss : List Spelling) : Prop := ∀ s ∈ ss, s.1 = .space ∨ s.1 = .semicolon

/-- Only blanks, stray semicolons and comments. -/
def Loose (ss : List Spelling) : Prop := ∀ s ∈ ss, s.1 = .space ∨ s.1 = .semicolon ∨ s.1 = .comment

/-- A token that ends whatever stands behind it. -/
def Ends (s : Spelling) : Prop :=
  s.1 = .semicolon ∨ s.1 = .comment ∨ s.1 = .openCurly ∨ s.1 = .closeCurly

theorem gap_nil : Gap [] := nofun

theorem Gap.loose {ss : List Spelling} (h : Gap ss) : Loose ss :=
  fun s hs => (h s hs).imp_right .inl

theorem Gap.append {ss ts : List Spelling} (hs : Gap ss) (ht : Gap ts) : Gap (ss ++ ts) :=
  List.forall_mem_append.2 ⟨hs, ht⟩

end Spelling

open Spelling

namespace Part

/-- What the node says. -/
def data (a : Part) : NodeData := a.node.data

/-- The tokens of a node without a block. -/
def leaf (a : Part) : List Spelling := a.body ++ if a.closed then [semicolon] else []

/-- The part with a semicolon behind it, unless it is a comment. -/
def close (a : Part) : Part := if a.data.kind = .comment then a else { a with closed := true }

end Part

namespace Tree

mutual

/-- The tokens of a tree. -/
def source : Tree Part → List Spelling
  | .leaf a => a.gap ++ a.leaf
  | .block a ts => a.gap ++ a.body ++ sourceAll ts ++ a.tail ++ brace :: a.own

/-- The tokens of trees. -/
def sourceAll : List (Tree Part) → List Spelling
  | [] => []
  | t :: ts => source t ++ sourceAll ts

end

theorem sourceAll_append (ts us : List (Tree Part)) :
    sourceAll (ts ++ us) = sourceAll ts ++ sourceAll us := by
  induction ts with
  | nil => rfl
  | cons t ts ih => simp [sourceAll, ih]

/-- The tree with a semicolon behind it, where it is a statement without a block. -/
def close : Tree Part → Tree Part
  | .leaf a => .leaf a.close
  | .block a ts => .block a ts

end Tree

/-! ## What tokens add, wherever they stand -/

namespace Parser

/-- Wherever they stand, the tokens add the nodes to the innermost block. -/
def Yields (ss : List Spelling) (us : List (Tree NodeData)) : Prop :=
  ∀ ts fin, ts.map Token.spelling = ss → Adds ts fin us

/-- The block ends here: at its brace, or at the end of the text if it is the root. -/
def EndsAt (inner : Bool) : List Token → Prop
  | [] => inner = false
  | t :: _ => inner = true ∧ t.kind = .closeCurly

/-- The tokens add the nodes if the block ends behind them. -/
def YieldsLast (inner : Bool) (ss : List Spelling) (us : List (Tree NodeData)) : Prop :=
  ∀ ts fin, ts.map Token.spelling = ss → EndsAt inner fin → Adds ts fin us

/-- Wherever they stand, the tokens open a block of the node. -/
def Opens (ss : List Spelling) (d : NodeData) : Prop :=
  ∀ ts rest, ts.map Token.spelling = ss → ∀ p : Parser, ∃ n : Parsed, n.data = d ∧
    statements none p (ts ++ rest) = statements none (p.enter n) rest

variable {inner : Bool} {ss ss' : List Spelling} {us us' : List (Tree NodeData)}

theorem yields_nil : Yields [] [] := by
  intro ts fin hts
  obtain rfl : ts = [] := List.map_eq_nil_iff.1 hts
  exact adds_nil

theorem Yields.append (h : Yields ss us) (h' : Yields ss' us') :
    Yields (ss ++ ss') (us ++ us') := by
  intro ts fin hts
  obtain ⟨ts, ts', rfl, hs, hs'⟩ := List.map_eq_append_iff.1 hts
  exact (h ts (ts' ++ fin) hs).append (h' ts' fin hs')

theorem Yields.last (h : Yields ss us) (inner : Bool) : YieldsLast inner ss us :=
  fun ts fin hts _ => h ts fin hts

theorem YieldsLast.behind (h : Yields ss us) (h' : YieldsLast inner ss' us') :
    YieldsLast inner (ss ++ ss') (us ++ us') := by
  intro ts fin hts hfin
  obtain ⟨ts, ts', rfl, hs, hs'⟩ := List.map_eq_append_iff.1 hts
  exact (h ts (ts' ++ fin) hs).append (h' ts' fin hs' hfin)

theorem gains_freeSemicolon (p : Parser) (t : Token) : p.Gains (p.freeSemicolon t) [] := by
  rcases freeSemicolon_cases p t with he | ⟨n, ts, earlier, hr, -, -, he⟩
  · rw [he]
    exact gains_spaces p _
  · rw [he]
    refine ⟨rfl, rfl, ?_⟩
    simp [hr, Tree.map, closeOwn]

/-- Blanks and stray semicolons add nothing. -/
theorem yields_gap (h : Gap ss) : Yields ss [] := by
  induction ss with
  | nil => exact yields_nil
  | cons s ss ih =>
    obtain ⟨hs, hss⟩ := List.forall_mem_cons.1 h
    refine show Yields ([s] ++ ss) ([] ++ []) from Yields.append (fun ts fin hts => ?_) (ih hss)
    obtain ⟨t, rfl, ht⟩ := List.map_eq_singleton_iff.1 hts
    have hk := Token.kind_of_spelling ht
    rcases hs with hs | hs
    · exact adds_space (hk.trans hs)
    · refine adds_of_step fun p => ⟨p.freeSemicolon t, ?_, gains_freeSemicolon p t⟩
      simp only [step, hk, hs, List.nil_append]

/-- A block with its contents. -/
theorem Opens.yields {d : NodeData} (h : Opens ss d) (h' : YieldsLast true ss' us) :
    Yields (ss ++ ss' ++ [brace]) [.block d us] := by
  intro ts fin hts
  obtain ⟨ws, close, rfl, hws, hclose⟩ := List.map_eq_append_iff.1 hts
  obtain ⟨head, body, rfl, hhead, hbody⟩ := List.map_eq_append_iff.1 hws
  obtain ⟨c, rfl, hc⟩ := List.map_eq_singleton_iff.1 hclose
  have hck : c.kind = .closeCurly := Token.kind_of_spelling hc
  exact adds_block hck (h head _ hhead) (h' body (c :: fin) hbody ⟨rfl, hck⟩)

end Parser

/-! ## Settled trees -/

namespace Part

/-- A comment, or a statement with a semicolon, that is read wherever it stands. -/
structure Settled (a : Part) : Prop where
  gap : Gap a.gap
  closed : a.closed = true ↔ a.data.kind ≠ .comment
  yields : Parser.Yields a.leaf [.leaf a.data]
  ends : ∃ s, a.leaf.getLast? = some s ∧ s.Ends

/-- What opens and ends a block, which is read wherever it stands. -/
structure Framed (a : Part) : Prop where
  gap : Gap a.gap
  opens : Parser.Opens a.body a.data
  ends : ∃ s, a.body.getLast? = some s ∧ s.Ends
  own : Gap a.own
  ownEnds : ∀ s ∈ a.own.getLast?, s.Ends

/-- A statement without a semicolon, which is read with one wherever it stands. -/
structure Closable (a : Part) : Prop where
  yields : Parser.Yields (a.body ++ [semicolon]) [.leaf a.data]
  last : ∃ s, a.body.getLast? = some s ∧ s.1 ≠ .openParen

end Part

namespace Tree

/-- A comment, with only blanks before it. -/
def Remark (t : Tree Part) : Prop :=
  ∃ c : Part, t = .leaf c ∧ c.data.kind = .comment ∧ c.Settled ∧
    ∀ s ∈ c.gap ++ c.body, s.1 = .space ∨ s.1 = .comment

/-- A statement without a semicolon that only comments follow in its block. It is read because the
block ends behind these. `safe` is what must hold at the end of the text for the statement to be
read with a semicolon as well. -/
structure Pending (inner : Bool) (safe : Prop) (tail : List Spelling) (a : Part)
    (ts : List (Tree Part)) : Prop where
  gap : Gap a.gap
  closed : a.closed = false
  kind : a.data.kind ≠ .comment
  comments : ∀ t ∈ ts, t.Remark
  yields : Parser.YieldsLast inner (a.leaf ++ sourceAll ts ++ tail)
    (.leaf a.data :: mapAll Part.data ts)
  closable : inner = true ∨ safe → a.Closable
  loose : Loose tail
  blanks : inner = true → Gap tail

mutual

/-- The tree is read wherever its tokens stand. -/
def Settled (safe : Prop) : Tree Part → Prop
  | .leaf a => a.Settled
  | .block a ts => a.Framed ∧ Contents safe true a.tail ts

/-- The trees are read where the block ends behind them and behind the tokens `tail`. -/
def Contents (safe : Prop) (inner : Bool) (tail : List Spelling) : List (Tree Part) → Prop
  | [] => Gap tail
  | t :: ts => Settled safe t ∧ Contents safe inner tail ts ∨
      ∃ a, t = .leaf a ∧ Pending inner safe tail a ts

end

variable {safe : Prop} {inner : Bool} {tail : List Spelling}

mutual

/-- **A settled tree is read wherever its tokens stand.** -/
theorem Settled.yields : {t : Tree Part} → t.Settled safe → Parser.Yields t.source [t.map Part.data]
  | .leaf a, h => by
    have ha : a.Settled := h
    exact (Parser.yields_gap ha.gap).append ha.yields
  | .block a ts, h => by
    obtain ⟨hframed, hcontents⟩ := h
    have hblock := hframed.opens.yields (Contents.yields hcontents)
    have := ((Parser.yields_gap hframed.gap).append hblock).append (Parser.yields_gap hframed.own)
    simpa [source, map, List.append_assoc] using this

/-- **The contents of a block are read** where the block ends behind them. -/
theorem Contents.yields : {inner : Bool} → {tail : List Spelling} → {ts : List (Tree Part)} →
    Contents safe inner tail ts →
    Parser.YieldsLast inner (sourceAll ts ++ tail) (mapAll Part.data ts)
  | inner, _, [], h => (Parser.yields_gap h).last inner
  | _, _, t :: ts, h => by
    rcases h with ⟨ht, hts⟩ | ⟨a, rfl, hpending⟩
    · have := Parser.YieldsLast.behind (Settled.yields ht) (Contents.yields hts)
      simpa [sourceAll, mapAll, List.append_assoc] using this
    · have := Parser.YieldsLast.behind (Parser.yields_gap hpending.gap) hpending.yields
      simpa [sourceAll, source, mapAll, map, List.append_assoc] using this

end

/-! ## A node behind the others -/

theorem close_eq_self {t : Tree Part} (h : t.Settled safe) : t.close = t := by
  cases t with
  | leaf a =>
    have hclosed := h.closed
    show leaf a.close = _
    unfold Part.close
    split
    · rfl
    · next hk =>
      obtain ⟨node, gap, body, closed, tail, own⟩ := a
      obtain rfl : closed = true := hclosed.2 hk
      rfl
  | block a ts => rfl

/-- **A node is put behind the others.** The statement before it gets a semicolon. -/
theorem Contents.concat {d : Tree Part} : {ts : List (Tree Part)} →
    Contents safe inner tail ts → inner = true ∨ safe → Contents safe inner tail [d] →
    Contents safe inner tail (ts.map close ++ [d])
  | [], _, _, hd => hd
  | t :: ts, h, hsafe, hd => by
    rcases h with ⟨ht, hts⟩ | ⟨a, rfl, hpending⟩
    · rw [List.map_cons, close_eq_self ht]
      exact .inl ⟨ht, hts.concat hsafe hd⟩
    · have hclosable := hpending.closable hsafe
      have hclose : a.close = { a with closed := true } := if_neg hpending.kind
      have hcomments : ∀ us : List (Tree Part), (∀ t ∈ us, t ∈ ts) →
          Contents safe inner tail (us.map close ++ [d]) := by
        intro us hus
        induction us with
        | nil => exact hd
        | cons u us ih =>
          obtain ⟨c, rfl, -, hsettled, -⟩ := hpending.comments u (hus u (.head _))
          rw [List.map_cons, @close_eq_self safe (.leaf c) hsettled]
          exact .inl ⟨hsettled, ih fun t ht => hus t (.tail _ ht)⟩
      refine .inl ⟨?_, hcomments ts fun t ht => ht⟩
      show a.close.Settled
      rw [hclose]
      exact ⟨hpending.gap, iff_of_true rfl hpending.kind, hclosable.yields, semicolon,
        List.getLast?_concat, .inl rfl⟩

end Tree

end Stylesheet
