import Stylesheet.Proofs.Parse.Statements

/-!
# What stands between statements

`Parser.gaps_parse`: before a comment of a text that was read there are only blanks and semicolons,
and the same between a comment that ends the text and its end. The one thing that a parser leaves
behind besides these are the comments behind the parameters of an at-rule that the text ends in
(`Parser.Gaps.spaces`). A semicolon that belongs to a rule is the last character of what is printed
for it.
-/

set_option autoImplicit false

namespace Stylesheet

open Stylesheet.Text Stylesheet.Tree

/-- Only blanks and semicolons. -/
def IsGap (cs : List Char) : Prop := ∀ c ∈ cs, Lexer.isSpace c = true ∨ c = ';'

theorem isGap_nil : IsGap [] := by
  rintro _ ⟨⟩

theorem isGap_append {cs ds : List Char} : IsGap (cs ++ ds) ↔ IsGap cs ∧ IsGap ds :=
  List.forall_mem_append

/-- A statement of a block: a comment stands behind a gap, and what belongs to a rule behind its
block ends in a semicolon. -/
structure Tree.Apart (t : Tree Parsed) : Prop where
  before : t.isComment Parsed.wording = true → IsGap (t.label.wording.slot "before").toList
  own : t.label.wording.own ≠ "" → t.label.wording.own.toList.getLast? = some ';'

/-- A statement that is no comment and has no semicolon of its own. -/
theorem Tree.apart_of_kind {t : Tree Parsed} (hk : t.label.data.kind ≠ .comment)
    (ho : t.label.data.kind = .rule → t.label.raws.get? "ownSemicolon" = none) : t.Apart where
  before h := absurd (of_decide_eq_true h) hk
  own h := by
    refine absurd ?_ h
    unfold Wording.own
    split
    · next hd =>
      simp [Wording.slot, Raws.text?, Parsed.wording,
        ho (by rw [show t.label.data = _ from hd]; rfl)]
    · rfl

namespace Parser

variable {p q : Parser} {done : List Char} {t : Token} {rest rest' : List Token}

/-- A parser before the tokens `rest`: its statements stand apart, and it has passed a gap since
the last one, or what the text ends in behind an at-rule. -/
structure Gaps (p : Parser) (rest : List Token) : Prop where
  apart : ∀ b ∈ p.current :: p.outer, ∀ u ∈ b.reversed, u.Apart
  spaces : IsGap p.spaces.toList ∨ rest = [] ∧
    ∃ u earlier, p.current.reversed = u :: earlier ∧ u.isComment Parsed.wording = false

theorem Gaps.isGap (h : Gaps p (t :: rest)) : IsGap p.spaces.toList :=
  h.spaces.resolve_right fun hr => List.cons_ne_nil _ _ hr.1

theorem Gaps.add (h : Gaps p rest) {u : Tree Parsed} (hu : u.Apart) (semicolon : Bool)
    (rest' : List Token) : Gaps (p.add u semicolon) rest' := by
  refine ⟨fun b hb v hv => ?_, .inl (by simp [IsGap, Parser.add])⟩
  rcases List.mem_cons.1 hb with rfl | hb
  · rcases List.mem_cons.1 hv with rfl | hv
    · exact hu
    · exact h.apart _ (.head _) v hv
  · exact h.apart b (.tail _ hb) v hv

theorem Gaps.enter (h : Gaps p rest) (node : Parsed) (rest' : List Token) :
    Gaps (p.enter node) rest' := by
  refine ⟨fun b hb v hv => ?_, .inl (by simp [IsGap, Parser.enter])⟩
  rcases List.mem_cons.1 hb with rfl | hb
  · cases hv
  · exact h.apart b hb v hv

/-- A block that ends has no semicolon of its own yet. -/
theorem Gaps.leave (h : Gaps p rest) (hs : Stacked p.current p.outer) (hl : p.leave t = .ok q)
    (rest' : List Token) : Gaps q rest' := by
  obtain ⟨b, outer, ho, rfl⟩ := leave_ok hl
  rw [ho] at hs
  have hclosed : (p.current.close p.spaces p.semicolon (some t.first)).Apart := by
    rw [OpenBlock.close_eq]
    refine apart_of_kind ?_ fun _ => ?_
    · show p.current.node.data.kind ≠ .comment
      rcases hs.1.data with hk | hk <;> rw [hk] <;> decide
    · exact (OpenBlock.get?_closeRaws _ _ _ (by decide) (by decide)).trans hs.1.own
  refine ⟨fun c hc v hv => ?_, .inl (by simp [IsGap])⟩
  rcases List.mem_cons.1 hc with rfl | hc
  · rcases List.mem_cons.1 hv with rfl | hv
    · exact hclosed
    · exact h.apart b (by simp [ho]) v hv
  · exact h.apart c (by simp [ho, hc]) v hv

/-- A stray semicolon belongs to the gap, or to the rule before it. -/
theorem Gaps.freeSemicolon (h : Gaps p (t :: rest)) (ht : t.Shaped) (hk : t.kind = .semicolon) :
    Gaps (p.freeSemicolon t) rest := by
  have hchars : t.text.toList = [';'] := ht.mark _ (by rw [hk]; rfl)
  rcases freeSemicolon_cases p t with he | ⟨n, ts, earlier, hr, hn, -, he⟩
  · rw [he]
    refine ⟨h.apart, .inl ?_⟩
    rw [String.toList_append, hchars, isGap_append]
    exact ⟨h.isGap, by simp [IsGap]⟩
  · rw [he]
    refine ⟨fun b hb v hv => ?_, .inl (by simp [IsGap])⟩
    rcases List.mem_cons.1 hb with rfl | hb
    · rcases List.mem_cons.1 hv with rfl | hv
      · refine ⟨fun hc => ?_, fun _ => ?_⟩
        · have hc : n.data.kind = .comment := of_decide_eq_true hc
          rw [hn] at hc
          cases hc
        · rw [label, own_closeOwn hn, String.toList_append, hchars, List.getLast?_concat]
      · exact h.apart _ (.head _) v (by simp [hr, hv])
    · exact h.apart b (.tail _ hb) v hv

theorem Gaps.comment (h : Gaps p (t :: rest)) : Gaps (p.comment t) rest := by
  rw [comment_eq]
  refine h.add ⟨fun _ => ?_, fun ho => absurd rfl ho⟩ _ _
  exact h.isGap

/-- What stands behind the parameters at the end of the text is left to the block. -/
theorem Gaps.atRule {fault : Option LexError} (h : Gaps p (t :: rest))
    (hs : Stacked p.current p.outer) (hr : p.atRule fault t rest = .ok (q, rest')) :
    Gaps q rest' := by
  obtain ⟨hrest, hq⟩ := atRule_ok hr
  obtain ⟨closing, -, hends⟩ := Params.gather_append [] (.inl rfl) rest
  generalize Params.gather [] .endOfName rest = g at hrest hq hends
  subst hrest
  generalize hnode : Params.node p.spaces t g.tokens g.ending g.last = node at hq
  have hkind : node.data.kind = .atRule := by rw [← hnode]; rfl
  have hleaf : (Tree.leaf node).Apart :=
    apart_of_kind (by rw [label, hkind]; decide) (by rw [label, hkind]; simp)
  have hend : g.rest = [] → Gaps { p.add (.leaf node) false with
      spaces := (Params.divide p.spaces g.tokens g.ending).2.2 } g.rest := by
    intro hnil
    refine ⟨(h.add hleaf false g.rest).apart, .inr ⟨hnil, _, _, rfl, ?_⟩⟩
    simp [isComment, label, Parsed.wording, hkind]
  cases he : g.ending with
  | openCurly =>
    simp only [he] at hq
    exact hq ▸ h.enter node _
  | closeCurly c =>
    simp only [he] at hq
    exact (h.add hleaf false (t :: rest)).leave (hs.congr rfl) hq _
  | semicolon c =>
    simp only [he] at hq
    exact hq ▸ h.add hleaf true _
  | endOfParams =>
    rw [he] at hends
    simp only [he] at hq hend
    exact hq ▸ hend hends.2
  | endOfName =>
    rw [he] at hends
    simp only [he] at hq hend
    exact hq ▸ hend hends.2

theorem Gaps.run {fault : Option LexError} (h : Gaps p (t :: rest))
    (hr : p.run fault t rest = .ok (q, rest')) : Gaps q rest' := by
  have hadd : ∀ {ts closing custom d semicolon},
      Declaration.parse p.spaces ts closing custom = .ok d →
      Gaps (p.add (.leaf d) semicolon) rest' := by
    intro ts closing custom d semicolon hd
    obtain ⟨_, _, _, _, -, -, rfl⟩ := Declaration.parse_ok hd
    exact h.add (apart_of_kind (fun hk => by cases hk) fun hk => by cases hk) _ _
  have hrun := run_ok hr
  simp only at hrun
  split at hrun
  · obtain ⟨-, d, hd, rfl⟩ := hrun
    exact hadd hd
  · obtain ⟨-, rfl⟩ := hrun
    rw [rule_eq]
    exact h.enter _ _
  · obtain ⟨-, d, hd, rfl⟩ := hrun
    exact hadd hd

theorem Gaps.step {fault : Option LexError} (h : Gaps p (t :: rest)) (hi : Inv done p (t :: rest))
    (hs : p.step fault t rest = .ok (q, rest')) : Gaps q rest' := by
  have hshaped := hi.tiled.1.shaped
  unfold Parser.step at hs
  split at hs
  · next hk =>
    cases hs
    refine ⟨h.apart, .inl ?_⟩
    rw [String.toList_append, isGap_append]
    exact ⟨h.isGap, fun c hc => .inl (hshaped.space hk c hc)⟩
  · next hk =>
    cases hs
    exact h.freeSemicolon hshaped hk
  · obtain ⟨p', hl, he⟩ := Except.map_ok hs
    cases he
    exact h.leave hi.built.stacked hl _
  · cases hs
    exact h.comment
  · exact h.atRule hi.built.stacked hs
  · cases hs
    exact h.enter _ _
  · exact h.run hs

theorem gaps_statements {fault : Option LexError} {ts : List Token}
    (h : statements fault p ts = .ok q) (hi : Inv done p ts) (hp : Gaps p ts) : Gaps q [] :=
  (statements_keeps (I := fun _ => Gaps) h hi hp fun hs _ hi hp => hp.step hi hs).2.2

theorem gaps_start (ts : List Token) : Gaps start ts := by
  refine ⟨fun b hb u hu => ?_, .inl isGap_nil⟩
  rw [List.mem_singleton.1 hb] at hu
  cases hu

/-- **The statements at the top of a text stand apart**, and a comment that is the last of them
stands apart from the end. -/
theorem gaps_parse {text : List Char} {a : Parsed} {ts : List (Tree Parsed)}
    (h : parse text = .ok (.block a ts)) :
    (∀ u ∈ ts, u.Apart) ∧ ∀ us u, ts = us ++ [u] → u.isComment Parsed.wording = true →
      IsGap (a.wording.slot "after").toList := by
  unfold parse at h
  obtain ⟨q, hs, hfinish⟩ := Except.bind_ok h
  have hq := gaps_statements hs (start_inv (Lexer.tokens_tiled (.ofChars text) rfl))
    (gaps_start _)
  unfold finish at hfinish
  split at hfinish
  · rw [OpenBlock.close_eq, Except.ok.injEq, Tree.block.injEq] at hfinish
    obtain ⟨rfl, rfl⟩ := hfinish
    refine ⟨fun u hu => hq.apart _ (.head _) u (List.mem_reverse.1 hu), fun us u hts hu => ?_⟩
    rw [OpenBlock.slot_closeNode_after]
    refine hq.spaces.resolve_right ?_
    rintro ⟨-, v, earlier, hr, hv⟩
    rw [hr, List.reverse_cons] at hts
    obtain ⟨-, hlast⟩ := List.append_inj' hts rfl
    rw [(List.cons.inj hlast).1, hu] at hv
    cases hv
  · cases hfinish

end Parser

end Stylesheet
