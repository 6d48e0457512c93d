import Stylesheet.Proofs.Parse.Gaps
import Stylesheet.Proofs.Token.Fillers
import Stylesheet.Proofs.Token.Splice

/-!
# Slots without any words

`Text.solid` is what a text says apart from blanks and comments. `Parser.spaced_parse`: in a tree
that was read, what stands before a node that is no declaration and before the end of a block is
blank but for stray semicolons, and what stands before a brace, or behind the parameters of an
at-rule, is blanks and comments alone. Only a declaration has words in such a slot: the mark of a
hack and whatever else stands before the property, and its colon.
-/

set_option autoImplicit false

namespace Stylesheet

open Stylesheet.Text Stylesheet.Tree

/-! ## Texts without blanks and comments -/

namespace Text

/-- The characters outside of comments that are not blank. What opens a comment that never ends is
no comment. -/
def solid : List Char → List Char
  | [] => []
  | c :: cs =>
    if isBlank c then solid cs
    else if c = '/' && cs.head? = some '*' then
      match _h : Lexer.cutComment cs.tail with
      | some (_, rest) => solid rest
      | none => c :: solid cs
    else c :: solid cs
termination_by cs => cs.length
decreasing_by
  all_goals simp only [List.length_cons]
  · omega
  · have := congrArg List.length (Lexer.cutComment_append _h)
    simp only [List.length_append, List.length_tail] at this
    omega
  · omega
  · omega

@[simp] theorem solid_nil : solid [] = [] := by
  rw [solid]

theorem solid_blank {c : Char} (h : isBlank c = true) (cs : List Char) :
    solid (c :: cs) = solid cs := by
  rw [solid, if_pos h]

/-- A comment in front of a text is skipped. -/
theorem solid_comment {body : List Char} (h : Lexer.cutComment body = some (body, []))
    (rest : List Char) : solid ('/' :: '*' :: (body ++ rest)) = solid rest := by
  rw [solid, if_neg (by decide), if_pos (by simp)]
  split
  · next a b heq =>
    rw [List.tail_cons, Lexer.cutComment_more h rest] at heq
    cases heq
    rfl
  · next heq =>
    rw [List.tail_cons, Lexer.cutComment_more h rest] at heq
    cases heq

/-- What is left is part of the text, and not blank. -/
theorem mem_solid {c : Char} {cs : List Char} (h : c ∈ solid cs) : c ∈ cs ∧ isBlank c = false := by
  fun_induction solid cs with
  | case1 => cases h
  | case2 d cs hd ih => exact ⟨.tail _ (ih h).1, (ih h).2⟩
  | case3 d cs hd hslash a rest hcut ih =>
    obtain ⟨hc, hblank⟩ := ih h
    refine ⟨.tail _ (List.mem_of_mem_tail ?_), hblank⟩
    rw [← Lexer.cutComment_append hcut]
    exact List.mem_append_right a hc
  | case4 d cs hd hslash hcut ih =>
    rcases List.mem_cons.1 h with rfl | h
    · exact ⟨.head _, Bool.not_eq_true _ ▸ hd⟩
    · exact ⟨.tail _ (ih h).1, (ih h).2⟩
  | case5 d cs hd hslash ih =>
    rcases List.mem_cons.1 h with rfl | h
    · exact ⟨.head _, Bool.not_eq_true _ ▸ hd⟩
    · exact ⟨.tail _ (ih h).1, (ih h).2⟩

theorem solid_of_blank {cs : List Char} (h : ∀ c ∈ cs, isBlank c = true) : solid cs = [] := by
  apply List.eq_nil_iff_forall_not_mem.2
  intro c hc
  obtain ⟨hmem, hblank⟩ := mem_solid hc
  rw [h c hmem] at hblank
  cases hblank

/-- Of a gap only the semicolons are left. -/
theorem eq_semicolon_of_mem_solid {c : Char} {cs : List Char} (h : IsGap cs) (hc : c ∈ solid cs) :
    c = ';' := by
  obtain ⟨hmem, hblank⟩ := mem_solid hc
  refine (h c hmem).resolve_left fun hspace => ?_
  rw [isBlank_of_isSpace hspace] at hblank
  cases hblank

/-- Blanks and comments in front of a text are skipped. -/
theorem solid_append_of_nil {cs : List Char} (h : solid cs = []) (rest : List Char) :
    solid (cs ++ rest) = solid rest := by
  fun_induction solid cs with
  | case1 => rfl
  | case2 c cs hc ih => rw [List.cons_append, solid_blank hc, ih h]
  | case3 c cs hc hslash body behind hcut ih =>
    obtain ⟨hc, hstar⟩ := Bool.and_eq_true_iff.1 hslash
    obtain ⟨ds, rfl⟩ := List.head?_eq_some_iff.1 (of_decide_eq_true hstar)
    obtain rfl := of_decide_eq_true hc
    have hds : body ++ behind = ds := Lexer.cutComment_append hcut
    have hbody := Lexer.cutComment_replace (by rwa [hds]) []
    rw [List.append_nil] at hbody
    rw [← hds, List.cons_append, List.cons_append, List.append_assoc, solid_comment hbody, ih h]
  | case4 => cases h
  | case5 => cases h

/-- Nothing is left of blanks and comments. -/
theorem solid_fillers {ts : List Token} (h : ∀ t ∈ ts, t.spelling.IsFiller) :
    solid (tokenChars ts) = [] := by
  induction ts with
  | nil => exact solid_nil
  | cons t ts ih =>
    obtain ⟨ht, hts⟩ := List.forall_mem_cons.1 h
    rw [tokenChars_cons]
    cases ht with
    | blanks _ _ hblank =>
      have hchars : ∀ c ∈ t.chars, isBlank c = true := fun c hc => isBlank_of_isSpace (hblank c hc)
      rw [solid_append_of_nil (solid_of_blank hchars), ih hts]
    | comment _ htext hcut =>
      have hchars : t.chars = _ := htext
      rw [hchars, List.cons_append, List.cons_append, solid_comment hcut, ih hts]

end Text

/-! ## The fillers of a text -/

namespace Lexer

/-- A comment is cut off whole. -/
theorem exists_body_of_cut {word : String} {c : Char} {rest : List Char} {r : Cut}
    (h : cut word c rest = .ok r) (hk : r.kind = .comment) :
    ∃ body, r.chars = '/' :: '*' :: body ∧ cutComment body = some (body, []) := by
  obtain ⟨kind, a, b, rfl, rfl, hcut⟩ := exists_isCut h
  obtain rfl : kind = .comment := hk
  cases hcut with
  | comment hcut => exact ⟨_, rfl, by simpa using cutComment_replace hcut []⟩
  | mark hmark => cases mark?_punctuation hmark

/-- The blanks and comments among the tokens of a text are fillers. -/
theorem isFiller_tokens {l : Lexer} (hl : l.returned = []) {t : Token} (ht : t ∈ l.tokens.1)
    (hf : t.isFiller = true) : t.spelling.IsFiller := by
  induction l using tokens.induct with
  | case1 l l' hn =>
    rw [tokens_none hn] at ht
    cases ht
  | case2 l e l' hn =>
    rw [tokens_error hn] at ht
    cases ht
  | case3 l u l' hn _ _ _ _ ih =>
    rw [tokens_some hn, List.mem_cons] at ht
    rcases ht with rfl | ht
    · obtain ⟨c, rest, r, -, hcut, rfl, -⟩ := exists_cut hl hn
      rw [Token.isFiller, Bool.or_eq_true, decide_eq_true_iff, decide_eq_true_iff] at hf
      rcases hf with hk | hk
      · have hshaped := cut_shaped hcut l.offset
        exact .blanks hk (mt String.toList_eq_nil_iff.2 hshaped.solid) (hshaped.space hk)
      · obtain ⟨body, hchars, hbody⟩ := exists_body_of_cut hcut hk
        exact .comment hk ((String.toList_ofList).trans hchars) hbody
    · exact ih (next_some hl hn).2.1 ht

end Lexer

/-! ## Spaced nodes -/

/-- The slots of a node that is no declaration hold no words. -/
structure Parsed.Spaced (n : Parsed) : Prop where
  before : IsGap (n.wording.slot "before").toList
  between : solid (n.wording.slot "between").toList = []
  after : IsGap (n.wording.slot "after").toList

/-- Nodes with the same texts in these slots. -/
theorem Parsed.Spaced.congr {n m : Parsed} (h : n.Spaced)
    (hslot : ∀ slot ∈ ["before", "between", "after"], m.wording.slot slot = n.wording.slot slot) :
    m.Spaced where
  before := by
    rw [hslot _ (.head _)]
    exact h.before
  between := by
    rw [hslot _ (.tail _ (.head _))]
    exact h.between
  after := by
    rw [hslot _ (.tail _ (.tail _ (.head _)))]
    exact h.after

namespace Parser

variable {p q : Parser} {done : List Char} {t : Token} {rest rest' : List Token} {n : Parsed}
  {fault : Option LexError}

/-- The nodes that the parser holds. -/
def nodes (p : Parser) : List Parsed :=
  (p.current :: p.outer).flatMap fun b => b.node :: preorderAll b.reversed

theorem mem_nodes_add {u : Tree Parsed} {semicolon : Bool} :
    n ∈ (p.add u semicolon).nodes ↔ n ∈ u.preorder ∨ n ∈ p.nodes := by
  simp only [nodes, add, OpenBlock.push, preorderAll, List.flatMap_cons, List.mem_append,
    List.mem_cons]
  grind

theorem mem_nodes_enter {node : Parsed} : n ∈ (p.enter node).nodes ↔ n = node ∨ n ∈ p.nodes := by
  simp [nodes, enter, preorderAll]

/-- A block that ends changes its node. -/
theorem mem_nodes_leave (h : p.leave t = .ok q) (hn : n ∈ q.nodes) :
    n ∈ p.nodes ∨ n = p.current.closeNode p.spaces p.semicolon (some t.first) := by
  obtain ⟨b, outer, ho, rfl⟩ := leave_ok h
  simp only [nodes, ho, OpenBlock.push, OpenBlock.close_eq, preorder, preorderAll_eq,
    List.flatMap_cons, List.mem_append, List.mem_cons, List.mem_flatMap,
    List.mem_reverse] at hn ⊢
  grind

/-- A stray semicolon may change the node of the rule before it. -/
theorem mem_nodes_freeSemicolon (hn : n ∈ (p.freeSemicolon t).nodes) :
    n ∈ p.nodes ∨ ∃ m ∈ p.nodes, m.data.kind = .rule ∧
      ∃ spaces last, n = closeOwn m spaces last := by
  rcases freeSemicolon_cases p t with he | ⟨m, ts, earlier, hr, hk, -, he⟩
  · rw [he] at hn
    exact .inl hn
  · rw [he] at hn
    have hm : m ∈ p.nodes := by simp [nodes, hr, preorderAll, preorder]
    simp only [nodes, hr, preorderAll, preorder, List.flatMap_cons, List.mem_append,
      List.mem_cons] at hn ⊢
    grind

/-! ### Single nodes -/

/-- The texts in the slots of a node. -/
theorem slot_of_get? {slot text : String} (h : n.raws.get? slot = some (.text text)) :
    n.wording.slot slot = text := by
  simp [Wording.slot, Raws.text?, Parsed.wording, h, RawValue.toText]

theorem slot_of_get?_none {slot : String} (h : n.raws.get? slot = none) :
    n.wording.slot slot = "" := by
  simp [Wording.slot, Raws.text?, Parsed.wording, h]

/-- Fillers among tokens. -/
abbrev Filled (ts : List Token) : Prop := ∀ t ∈ ts, t.isFiller = true → t.spelling.IsFiller

theorem solid_cutEnd {ts : List Token} (h : Filled ts) :
    solid (Token.concat (Token.cutEnd Token.isFiller ts).2).toList = [] := by
  rw [toList_concat]
  apply solid_fillers
  intro u hu
  have hfiller : u ∈ ts.reverse.takeWhile Token.isFiller := List.mem_reverse.1 hu
  refine h u ?_ (List.all_eq_true.1 List.all_takeWhile u hfiller)
  exact List.mem_reverse.1 ((List.takeWhile_sublist _).subset hfiller)

theorem spaced_ruleNode {spaces : String} (h : IsGap spaces.toList) (first : Token)
    {ts : List Token} (hts : Filled ts) : (ruleNode spaces first ts).Spaced := by
  have hget (slot : String) (hs : slot ≠ "selector") :
      (ruleNode spaces first ts).raws.get? slot = ((Raws.empty.setText "before" spaces).setText
        "between" (Token.concat (Token.cutEnd Token.isFiller ts).2)).get? slot :=
    get?_cleanInto hs
  refine ⟨?_, ?_, ?_⟩
  · rwa [slot_of_get? (hget "before" (by decide))]
  · rw [slot_of_get? (hget "between" (by decide))]
    exact solid_cutEnd hts
  · rw [slot_of_get?_none (hget "after" (by decide))]
    exact isGap_nil

theorem get?_divide (spaces : String) (ts : List Token) (e : Params.Ending) :
    (Params.divide spaces ts e).2.1.get? "before" = some (.text spaces) ∧
      (Params.divide spaces ts e).2.1.get? "after" = none ∧
      ∃ b, (Params.divide spaces ts e).2.1.get? "between" = some (.text b) ∧
        (b = "" ∨ b = Token.concat (Token.cutEnd Token.isFiller ts).2) := by
  unfold Params.divide
  simp only
  split
  · exact ⟨rfl, rfl, _, rfl, .inr rfl⟩
  · have hget (slot b : String) (hb : slot ≠ "between") (hp : slot ≠ "params") (raws : Raws)
        (ps : List Token) : ((cleanInto raws "params" true ps).2.setText "between" b).get? slot =
          raws.get? slot := by
      rw [Raws.setText, Raws.get?_set_of_ne _ _ hb, get?_cleanInto hp]
    split
    · refine ⟨?_, ?_, "", Raws.get?_set_self .., .inl rfl⟩
      · exact hget "before" _ (by decide) (by decide) _ _
      · exact hget "after" _ (by decide) (by decide) _ _
    · refine ⟨?_, ?_, _, Raws.get?_set_self .., .inr rfl⟩
      · exact hget "before" _ (by decide) (by decide) _ _
      · exact hget "after" _ (by decide) (by decide) _ _

theorem spaced_atRule {spaces : String} (h : IsGap spaces.toList) (t : Token) {ts : List Token}
    (hts : Filled ts) (e : Params.Ending) (last : Option Nat) :
    (Params.node spaces t ts e last).Spaced := by
  obtain ⟨hbefore, hafter, b, hbetween, hb⟩ := get?_divide spaces ts e
  refine ⟨?_, ?_, ?_⟩
  · rwa [@slot_of_get? (Params.node spaces t ts e last) _ _ hbefore]
  · rw [@slot_of_get? (Params.node spaces t ts e last) _ _ hbetween]
    rcases hb with rfl | rfl
    · exact solid_nil
    · exact solid_cutEnd hts
  · rw [@slot_of_get?_none (Params.node spaces t ts e last) _ hafter]
    exact isGap_nil

theorem spaced_commentNode {spaces : String} (h : IsGap spaces.toList) (t : Token) :
    (commentNode spaces t).Spaced :=
  ⟨h, solid_nil, isGap_nil⟩

/-! ### Steps -/

/-- Only declarations have words in their slots. -/
def Spaced (p : Parser) : Prop := ∀ n ∈ p.nodes, n.data.kind ≠ .declaration → n.Spaced

theorem Spaced.add (h : p.Spaced) (hn : n.data.kind ≠ .declaration → n.Spaced) (semicolon : Bool) :
    (p.add (.leaf n) semicolon).Spaced := by
  intro m hm hk
  rw [mem_nodes_add, preorder, List.mem_singleton] at hm
  rcases hm with rfl | hm
  · exact hn hk
  · exact h m hm hk

theorem Spaced.enter (h : p.Spaced) (hn : n.Spaced) : (p.enter n).Spaced := by
  intro m hm hk
  rw [mem_nodes_enter] at hm
  rcases hm with rfl | hm
  · exact hn
  · exact h m hm hk

theorem Spaced.leave (h : p.Spaced) (hgap : IsGap p.spaces.toList) (hl : p.leave t = .ok q) :
    q.Spaced := by
  intro m hm hk
  rcases mem_nodes_leave hl hm with hm | rfl
  · exact h m hm hk
  · have hnode := h p.current.node (by simp [nodes]) hk
    refine ⟨?_, ?_, ?_⟩
    · rw [OpenBlock.slot_closeNode _ _ _ _ (by decide) (by decide)]
      exact hnode.before
    · rw [OpenBlock.slot_closeNode _ _ _ _ (by decide) (by decide)]
      exact hnode.between
    · rwa [OpenBlock.slot_closeNode_after]

theorem Spaced.freeSemicolon (h : p.Spaced) (t : Token) : (p.freeSemicolon t).Spaced := by
  intro m hm hk
  rcases mem_nodes_freeSemicolon hm with hm | ⟨n, hn, hrule, spaces, last, rfl⟩
  · exact h m hm hk
  · apply (h n hn (by rw [hrule]; decide)).congr
    intro slot hslot
    apply slot_closeOwn
    rintro rfl
    exact absurd hslot (by decide)

theorem Spaced.atRule (h : p.Spaced) (hgap : IsGap p.spaces.toList) (hrest : Filled rest)
    (hr : p.atRule fault t rest = .ok (q, rest')) : q.Spaced := by
  obtain ⟨-, hq⟩ := atRule_ok hr
  obtain ⟨closing, hsplit, -⟩ := Params.gather_append [] (.inl rfl) rest
  generalize Params.gather [] .endOfName rest = g at hq hsplit
  have hnode : (Params.node p.spaces t g.tokens g.ending g.last).Spaced := by
    apply spaced_atRule hgap
    intro u hu
    apply hrest
    rw [hsplit]
    simp [hu]
  generalize Params.node p.spaces t g.tokens g.ending g.last = node at hq hnode
  have hadd := h.add (n := node) fun _ => hnode
  cases he : g.ending with
  | openCurly =>
    simp only [he] at hq
    exact hq ▸ h.enter hnode
  | closeCurly c =>
    simp only [he] at hq
    exact (hadd false).leave isGap_nil hq
  | semicolon c =>
    simp only [he] at hq
    exact hq ▸ hadd true
  | endOfParams =>
    simp only [he] at hq
    exact hq ▸ hadd false
  | endOfName =>
    simp only [he] at hq
    exact hq ▸ hadd false

theorem Spaced.run (h : p.Spaced) (hgap : IsGap p.spaces.toList) (hrest : Filled (t :: rest))
    (hr : p.run fault t rest = .ok (q, rest')) : q.Spaced := by
  have hadd : ∀ {ts closing custom d semicolon},
      Declaration.parse p.spaces ts closing custom = .ok d →
        (p.add (.leaf d) semicolon).Spaced := by
    intro ts closing custom d semicolon hd
    obtain ⟨_, _, _, _, -, -, rfl⟩ := Declaration.parse_ok hd
    exact h.add (fun hk => absurd rfl hk) _
  have hrun := run_ok hr
  obtain ⟨closing, hsplit, -⟩ := Phrase.gather_append (Text.startsWith t.text "--")
    (Phrase.Nest.start.step (Text.startsWith t.text "--") t) rest
  simp only at hrun
  split at hrun
  · obtain ⟨-, d, hd, rfl⟩ := hrun
    exact hadd hd
  · obtain ⟨-, rfl⟩ := hrun
    rw [rule_eq]
    apply h.enter
    apply spaced_ruleNode hgap
    intro u hu
    apply hrest
    rw [hsplit]
    rcases List.mem_cons.1 hu with rfl | hu
    · exact .head _
    · simp [hu]
  · obtain ⟨-, d, hd, rfl⟩ := hrun
    exact hadd hd

theorem Spaced.step (h : p.Spaced) (hg : Gaps p (t :: rest)) (hrest : Filled (t :: rest))
    (hs : p.step fault t rest = .ok (q, rest')) : q.Spaced := by
  have hgap := hg.isGap
  unfold Parser.step at hs
  split at hs
  · cases hs
    exact h
  · cases hs
    exact h.freeSemicolon t
  · obtain ⟨p', hl, he⟩ := Except.map_ok hs
    cases he
    exact h.leave hgap hl
  · cases hs
    rw [comment_eq]
    exact h.add (fun _ => spaced_commentNode hgap t) _
  · exact h.atRule hgap (fun u hu => hrest u (.tail _ hu)) hs
  · cases hs
    exact h.enter ⟨hgap, solid_nil, isGap_nil⟩
  · exact h.run hgap hrest hs

theorem spaced_statements {ts : List Token} (h : statements fault p ts = .ok q) (hi : Inv done p ts)
    (hg : Gaps p ts) (hp : p.Spaced) (hts : Filled ts) : q.Spaced := by
  obtain ⟨-, -, -, hq, -⟩ := statements_keeps (I := fun _ p ts => Gaps p ts ∧ p.Spaced ∧ Filled ts)
    h hi ⟨hg, hp, hts⟩ fun hs hused hi ⟨hg, hp, hts⟩ =>
      ⟨hg.step hi hs, hp.step hg hts hs, fun u hu => hts u (hused ▸ List.mem_append_right _ hu)⟩
  exact hq

/-- **Only declarations have words in their slots**: the other nodes below the root have blanks,
comments and stray semicolons there. -/
theorem spaced_parse {text : List Char} {a : Parsed} {ts : List (Tree Parsed)}
    (h : parse text = .ok (.block a ts)) (hn : n ∈ preorderAll ts)
    (hk : n.data.kind ≠ .declaration) : n.Spaced := by
  unfold parse at h
  obtain ⟨q, hs, hfinish⟩ := Except.bind_ok h
  have hstart : start.Spaced := by
    intro m hm _
    obtain rfl : m = ⟨.root, Raws.empty, 0, none⟩ := by simpa [nodes, start, preorderAll] using hm
    exact ⟨isGap_nil, solid_nil, isGap_nil⟩
  have hq := spaced_statements hs (start_inv (Lexer.tokens_tiled (.ofChars text) rfl))
    (gaps_start _) hstart fun u hu => Lexer.isFiller_tokens rfl hu
  unfold finish at hfinish
  split at hfinish
  · rw [OpenBlock.close_eq, Except.ok.injEq, Tree.block.injEq] at hfinish
    obtain ⟨-, rfl⟩ := hfinish
    refine hq n ?_ hk
    simp only [preorderAll_eq, List.mem_flatMap, List.mem_reverse] at hn
    obtain ⟨u, hu, hn⟩ := hn
    simp only [nodes, List.flatMap_cons, List.mem_append, List.mem_cons, preorderAll_eq,
      List.mem_flatMap]
    exact .inl (.inr ⟨u, hu, hn⟩)
  · cases hfinish

end Parser

end Stylesheet
