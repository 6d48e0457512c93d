import Stylesheet.Proofs.Parse.Statements

/-!
# What closes an at-rule without a block

`Parser.closedIn_parse`: in a text that was read, a semicolon follows an at-rule without a block, or
the brace that ends the block around it, or the text ends. Such an at-rule is a leaf of the tree,
and a leaf that was added is never changed, so that the invariant is about the leaves alone: a step
adds no other than the at-rule that it reads (`Parser.leaves_step`).
-/

set_option autoImplicit false

namespace Stylesheet

open Stylesheet.Text Stylesheet.Tree

/-! ## Leaves -/

namespace Tree

variable {α : Type}

mutual

/-- The labels of the nodes without a block. -/
def leaves : Tree α → List α
  | leaf a => [a]
  | block _ ts => leavesAll ts

/-- The labels of the nodes without a block, one tree after the other. -/
def leavesAll : List (Tree α) → List α
  | [] => []
  | t :: ts => leaves t ++ leavesAll ts

end

theorem mem_leavesAll {a : α} {ts : List (Tree α)} : a ∈ leavesAll ts ↔ ∃ t ∈ ts, a ∈ t.leaves := by
  induction ts with
  | nil => simp [leavesAll]
  | cons t ts ih => simp [leavesAll, ih]

end Tree

namespace Parser

variable {p q : Parser} {done : List Char} {t : Token} {rest rest' : List Token} {n : Parsed}

/-- The nodes without a block that the parser holds. -/
def leaves (p : Parser) : List Parsed := (p.current :: p.outer).flatMap (leavesAll ·.reversed)

theorem mem_leaves_add {u : Tree Parsed} {semicolon : Bool} :
    n ∈ (p.add u semicolon).leaves ↔ n ∈ u.leaves ∨ n ∈ p.leaves := by
  simp [leaves, add, OpenBlock.push, leavesAll]

theorem mem_leaves_enter {node : Parsed} : n ∈ (p.enter node).leaves ↔ n ∈ p.leaves := by
  simp [leaves, enter, leavesAll]

theorem mem_leaves_leave (h : p.leave t = .ok q) : n ∈ q.leaves ↔ n ∈ p.leaves := by
  obtain ⟨b, outer, ho, rfl⟩ := leave_ok h
  have hclose : n ∈ (p.current.close p.spaces p.semicolon (some t.first)).leaves ↔
      n ∈ leavesAll p.current.reversed := by
    simp [OpenBlock.close_eq, Tree.leaves, mem_leavesAll]
  simp [leaves, OpenBlock.push, leavesAll, ho, hclose]

theorem mem_leaves_freeSemicolon : n ∈ (p.freeSemicolon t).leaves ↔ n ∈ p.leaves := by
  rcases freeSemicolon_cases p t with he | ⟨m, ts, earlier, hr, -, -, he⟩
  · rw [he]
    rfl
  · rw [he]
    simp [leaves, hr, leavesAll, Tree.leaves]

/-- An at-rule adds itself to the leaves, unless it opens a block. -/
theorem leaves_atRule {fault : Option LexError} (h : p.atRule fault t rest = .ok (q, rest'))
    (hn : n ∈ q.leaves) : n ∈ p.leaves ∨ (Params.gather [] .endOfName rest).ending ≠ .openCurly ∧
      n = Params.node p.spaces t (Params.gather [] .endOfName rest).tokens
        (Params.gather [] .endOfName rest).ending (Params.gather [] .endOfName rest).last := by
  obtain ⟨-, hq⟩ := atRule_ok h
  generalize Params.gather [] .endOfName rest = g at hq ⊢
  generalize Params.node p.spaces t g.tokens g.ending g.last = node at hq ⊢
  have hadd : ∀ semicolon, n ∈ (p.add (.leaf node) semicolon).leaves → n ∈ p.leaves ∨ n = node := by
    intro semicolon hadd
    rw [mem_leaves_add, Tree.leaves, List.mem_singleton] at hadd
    exact hadd.symm
  cases he : g.ending with
  | openCurly =>
    simp only [he] at hq
    subst hq
    exact .inl (mem_leaves_enter.1 hn)
  | closeCurly c =>
    simp only [he] at hq
    exact (hadd false ((mem_leaves_leave hq).1 hn)).imp_right fun h => ⟨by simp, h⟩
  | semicolon c =>
    simp only [he] at hq
    subst hq
    exact (hadd true hn).imp_right fun h => ⟨by simp, h⟩
  | endOfParams =>
    simp only [he] at hq
    subst hq
    exact (hadd false hn).imp_right fun h => ⟨by simp, h⟩
  | endOfName =>
    simp only [he] at hq
    subst hq
    exact (hadd false hn).imp_right fun h => ⟨by simp, h⟩

/-- A run adds declarations only. -/
theorem leaves_run {fault : Option LexError} (h : p.run fault t rest = .ok (q, rest'))
    (hn : n ∈ q.leaves) : n ∈ p.leaves ∨ n.data.kind = .declaration := by
  have hadd : ∀ {ts closing custom d semicolon},
      Declaration.parse p.spaces ts closing custom = .ok d →
      n ∈ (p.add (.leaf d) semicolon).leaves → n ∈ p.leaves ∨ n.data.kind = .declaration := by
    intro ts closing custom d semicolon hd hadd
    obtain ⟨_, _, _, _, -, -, rfl⟩ := Declaration.parse_ok hd
    rw [mem_leaves_add, Tree.leaves, List.mem_singleton] at hadd
    rcases hadd with rfl | hadd
    · exact .inr rfl
    · exact .inl hadd
  have hrun := run_ok h
  simp only at hrun
  split at hrun
  · obtain ⟨-, d, hd, rfl⟩ := hrun
    exact hadd hd hn
  · obtain ⟨-, rfl⟩ := hrun
    rw [rule_eq] at hn
    exact .inl (mem_leaves_enter.1 hn)
  · obtain ⟨-, d, hd, rfl⟩ := hrun
    exact hadd hd hn

/-! ## At-rules without a block -/

end Parser

/-- An at-rule without a block is closed in the text: by the semicolon it ends with, by the brace of
the block around it, or by the end of the text. -/
def Parsed.ClosedIn (n : Parsed) (text : List Char) : Prop :=
  ∃ before rest, text = before ++ (n.wording.leaf false).toList ++ rest ∧
    n.start = byteSize before ∧
    (rest.head? = some ';' ∧ n.last = some (byteSize (before ++ (n.wording.leaf false).toList)) ∨
      rest.head? = some '}' ∨
      (n.last = none → rest = []) ∧ ∀ last, n.last = some last → ∃ front c,
        before ++ (n.wording.leaf false).toList = front ++ [c] ∧ last = byteSize front)

namespace Parser

variable {p q : Parser} {done : List Char} {t : Token} {rest rest' : List Token} {n : Parsed}

/-- The at-rule that is read is closed in the text. -/
theorem closedIn_node (h : Tiled (byteSize done) (t :: rest)) (hk : t.kind = .atWord)
    (he : (Params.gather [] .endOfName rest).ending ≠ .openCurly) :
    (Params.node p.spaces t (Params.gather [] .endOfName rest).tokens
      (Params.gather [] .endOfName rest).ending
      (Params.gather [] .endOfName rest).last).ClosedIn (done ++ tokenChars (t :: rest)) := by
  obtain ⟨closing, hts, hends⟩ := Params.gather_append [] (.inl rfl) rest
  generalize Params.gather [] .endOfName rest = g at he hts hends ⊢
  rw [hts, ← List.cons_append, ← List.cons_append] at h ⊢
  obtain ⟨hhead, hclosing⟩ := tiled_append.1 (tiled_append.1 h).1
  have hnode := p.atRuleNode hhead hk g.ending g.last
  have hlast : (Params.node p.spaces t g.tokens g.ending g.last).last = g.last := rfl
  generalize Params.node p.spaces t g.tokens g.ending g.last = n at hnode hlast ⊢
  have hleaf := hnode.leaf false
  rw [if_neg (by simp), List.append_nil] at hleaf
  have hends' : g.ending = .endOfParams ∨ g.ending = .endOfName → n.ClosedIn
      (done ++ tokenChars (t :: g.tokens ++ closing ++ g.rest)) := by
    intro hend
    have hnone : closing = [] ∧ g.rest = [] := by rcases hend with hend | hend <;> rwa [hend] at hends
    obtain ⟨hleft, hfront⟩ := hnode.ends_end hhead (by
      rw [hlast, Params.Gathered.last]
      rcases hend with hend | hend <;> simp [hend])
    refine ⟨done, (Params.divide p.spaces g.tokens g.ending).2.2.toList, ?_, hnode.start,
      .inr (.inr ⟨fun hnone => by rw [hleft hnone]; rfl, hfront⟩)⟩
    rw [hnone.1, hnone.2, List.append_nil, List.append_nil, List.append_assoc, hleaf, hnode.text]
    rfl
  cases hend : g.ending with
  | openCurly => exact absurd hend he
  | endOfParams => exact hends' (.inl hend)
  | endOfName => exact hends' (.inr hend)
  | semicolon c =>
    rw [hend] at hends hnode
    obtain ⟨rfl, hc⟩ := hends
    have hchars : c.chars = [';'] := hclosing.1.shaped.mark _ (by rw [hc]; rfl)
    have hlen := hnode.chars (by simp)
    refine ⟨done, tokenChars (c :: g.rest), ?_, hnode.start, .inl ⟨?_, ?_⟩⟩
    · rw [hleaf, hlen]
      simp
    · rw [tokenChars_cons, hchars]
      rfl
    · rw [hlast, Params.Gathered.last, hend, hleaf, hlen, byteSize_append]
      exact congrArg some hclosing.1.first
  | closeCurly c =>
    rw [hend] at hends hnode
    obtain ⟨rfl, hc⟩ := hends
    have hchars : c.chars = ['}'] := hclosing.1.shaped.mark _ (by rw [hc]; rfl)
    have hlen := hnode.chars (by simp)
    refine ⟨done, tokenChars (c :: g.rest), ?_, hnode.start, .inr (.inl ?_)⟩
    · rw [hleaf, hlen]
      simp
    · rw [tokenChars_cons, hchars]
      rfl

/-- A step adds no at-rule without a block but one that is closed in the text. -/
theorem leaves_step {fault : Option LexError} (ht : Tiled (byteSize done) (t :: rest))
    (h : p.step fault t rest = .ok (q, rest')) (hn : n ∈ q.leaves) (hk : n.data.kind = .atRule) :
    n ∈ p.leaves ∨ n.ClosedIn (done ++ tokenChars (t :: rest)) := by
  unfold Parser.step at h
  split at h
  · cases h; exact .inl hn
  · cases h; exact .inl (mem_leaves_freeSemicolon.1 hn)
  · obtain ⟨p', hl, he⟩ := Except.map_ok h
    cases he
    exact .inl ((mem_leaves_leave hl).1 hn)
  · cases h
    rw [comment_eq, mem_leaves_add, Tree.leaves, List.mem_singleton] at hn
    rcases hn with rfl | hn
    · cases hk
    · exact .inl hn
  · next hat =>
    rcases leaves_atRule h hn with hn | ⟨he, rfl⟩
    · exact .inl hn
    · exact .inr (closedIn_node ht hat he)
  · cases h
    exact .inl (mem_leaves_enter.1 hn)
  · rcases leaves_run h hn with hn | hd
    · exact .inl hn
    · rw [hk] at hd
      cases hd

/-- All at-rules without a block are closed in the text that is read. -/
theorem closedIn_statements {fault : Option LexError} {ts : List Token}
    (h : statements fault p ts = .ok q) (hi : Inv done p ts)
    (hp : ∀ n ∈ p.leaves, n.data.kind = .atRule → n.ClosedIn (done ++ tokenChars ts)) :
    ∀ n ∈ q.leaves, n.data.kind = .atRule → n.ClosedIn (done ++ tokenChars ts) := by
  have hkept := statements_keeps (I := fun done p ts => ∀ n ∈ p.leaves, n.data.kind = .atRule →
    n.ClosedIn (done ++ tokenChars ts)) h hi hp fun hs hused hi hp n hn hk => ?_
  · simpa using hkept.2.2
  rw [List.append_assoc, ← tokenChars_append, ← hused]
  rcases leaves_step hi.tiled hs hn hk with hn | hn
  · exact hp n hn hk
  · exact hn

/-- **In a text that can be read all at-rules without a block are closed.** -/
theorem closedIn_parse {text : List Char} {u : Tree Parsed} (h : parse text = .ok u) :
    ∀ n ∈ u.leaves, n.data.kind = .atRule → n.ClosedIn text := by
  unfold parse at h
  obtain ⟨q, hs, hfinish⟩ := Except.bind_ok h
  have hi := start_inv (Lexer.tokens_tiled (.ofChars text) rfl)
  obtain ⟨hnone, -⟩ := statements_inv hs hi
  have hq := closedIn_statements hs hi fun n hn => by simp [leaves, start, leavesAll] at hn
  rw [List.nil_append, Lexer.chars_tokens _ rfl hnone] at hq
  unfold finish at hfinish
  split at hfinish
  · next ho =>
    cases hfinish
    intro n hn
    refine hq n ?_
    rw [OpenBlock.close_eq, Tree.leaves, mem_leavesAll] at hn
    rw [leaves, List.isEmpty_iff.1 ho]
    simpa [mem_leavesAll] using hn
  · cases hfinish

end Parser

end Stylesheet
