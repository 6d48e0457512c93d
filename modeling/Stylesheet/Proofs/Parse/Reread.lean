import Stylesheet.Proofs.Parse.Footer
import Stylesheet.Proofs.Print.Spelling

/-!
# Reading a tree without formatting

The tokens that a tree in words is spelled with are read as that tree again, but for one thing:
an at-rule without a block takes in all blanks and comments up to the end of its block. So the
comments behind such an at-rule are lost if no other statement follows (`Tree.absorbedAll`).

A lemma for each kind of statement says which nodes its tokens add to the innermost block
(`Parser.Adds`), whatever stands before them; `adds_spellAll` is the induction over the tree.
-/

set_option autoImplicit false

namespace Stylesheet

open Stylesheet.Tree

namespace Tree

/-- Whether the tree is an at-rule without a block. -/
def isStatement (t : Tree NodeData) : Bool := !t.hasBlock && t.label.kind = .atRule

mutual

/-- The tree without the comments that an at-rule before them takes in. -/
def absorbed : Tree NodeData → Tree NodeData
  | .leaf d => .leaf d
  | .block d ts => .block d (absorbedAll ts)

/-- The trees without the comments that an at-rule before them takes in. -/
def absorbedAll : List (Tree NodeData) → List (Tree NodeData)
  | [] => []
  | t :: ts => absorbed t :: if t.isStatement && onlyComments ts then [] else absorbedAll ts

end

end Tree

namespace Token

variable {t : Token} {s : Spelling}

theorem kind_of_spelling (h : t.spelling = s) : t.kind = s.1 := congrArg Prod.fst h

theorem text_of_spelling (h : t.spelling = s) : t.text = s.2 := congrArg Prod.snd h

/-- The token is a blank, a comment, a word or a colon. -/
def Plain (t : Token) : Prop :=
  t.kind = .space ∨ t.kind = .comment ∨ t.kind = .word ∨ t.kind = .colon

theorem Plain.of_isFiller (h : t.isFiller = true) : t.Plain := by
  simp only [Token.isFiller, Bool.or_eq_true, decide_eq_true_eq] at h
  exact h.imp_right .inl

end Token

/-! ## Gathering -/

namespace Phrase

/-- Tokens that neither end a run nor open a bracket are gathered. -/
theorem gather_plain {custom : Bool} (colon : Bool) {ts : List Token} (hts : ∀ t ∈ ts, t.Plain)
    (rest : List Token) :
    gather custom ⟨colon, [], none⟩ (ts ++ rest) =
      let g := gather custom ⟨colon || ts.any (·.kind = .colon), [], none⟩ rest
      { g with tokens := ts ++ g.tokens } := by
  induction ts generalizing colon with
  | nil => simp
  | cons t ts ih =>
    obtain ⟨ht, hts⟩ := List.forall_mem_cons.1 hts
    have hend : ending? custom ⟨colon, [], none⟩ t = none := by
      rcases ht with ht | ht | ht | ht <;> simp [ending?, closer?, ht]
    have hstep : Nest.step custom ⟨colon, [], none⟩ t = ⟨colon || t.kind = .colon, [], none⟩ := by
      rcases ht with ht | ht | ht | ht <;> simp [Nest.step, closer?, ht]
    rw [List.cons_append, gather, hend, hstep]
    simp only [ih _ hts, List.any_cons, Bool.or_assoc, List.cons_append]

end Phrase

namespace Params

/-- Tokens that neither end parameters nor open a bracket are gathered. -/
theorem gather_plain {e : Ending} {ts : List Token} (hts : ∀ t ∈ ts, t.Plain) (rest : List Token) :
    gather [] e (ts ++ rest) =
      let g := gather [] (if ts.isEmpty then e else .endOfParams) rest
      { g with tokens := ts ++ g.tokens } := by
  induction ts generalizing e with
  | nil => simp
  | cons t ts ih =>
    obtain ⟨ht, hts⟩ := List.forall_mem_cons.1 hts
    have hend : ending? t = none := by
      rcases ht with ht | ht | ht | ht <;> simp [ending?, ht]
    have hstep : step [] t = [] := by
      rcases ht with ht | ht | ht | ht <;> simp [step, ht]
    rw [List.cons_append, gather, hend, hstep]
    simp [ih hts]

end Params

/-! ## Words -/

theorem cleanInto_word {w : Token} (hw : w.kind = .word) (raws : Raws) (slot : String)
    (trimEnd : Bool) : cleanInto raws slot trimEnd [w] = (w.text, raws) := by
  simp [cleanInto, Cleaning.clean, hw]

/-- Blanks and comments are cut off behind a token that is none. -/
theorem cutEnd_concat_filling {ts xs : List Token} {t : Token} (ht : t.isFiller = false)
    (hx : Filling xs) : Token.cutEnd Token.isFiller (ts ++ [t] ++ xs) = (ts ++ [t], xs) := by
  rw [cutEnd_filling hx]
  simp [Token.cutEnd, ht]

theorem cutEnd_of_filling {xs : List Token} (hx : Filling xs) :
    Token.cutEnd Token.isFiller xs = ([], xs) := by
  have := cutEnd_filling hx []
  simpa [Token.cutEnd] using this

section
variable {s : String}

theorem startsWith_of_isWord (hs : isWord s = true) : Text.startsWith s "--" = false := by
  obtain ⟨c, cs, hcs, hall⟩ := isWord_iff.1 hs
  have hne : c ≠ '-' := by simpa using @of_isLower (· ≠ '-') (by decide) c (hall c (.head _))
  have hdash : ('-' = c) = False := eq_false fun h => hne h.symm
  simp [Text.startsWith, hcs, Text.after?, hdash]

namespace Declaration

theorem splitHack_of_isWord (hs : isWord s = true) : splitHack s = ("", s) := by
  obtain ⟨c, cs, hcs, hall⟩ := isWord_iff.1 hs
  have hhack : (c = '_' || c = '*') = false := by
    simpa using @of_isLower (fun c => !(c = '_' || c = '*')) (by decide) c (hall c (.head _))
  simp only [splitHack, hcs, hhack, Bool.false_eq_true, if_false]

/-- A word of lower-case letters is not the mark. -/
theorem lower_ne_of_isWord (hs : isWord s = true) : lower s ≠ "!important" := by
  obtain ⟨c, cs, hcs, hall⟩ := isWord_iff.1 hs
  have hne : c.toLower ≠ '!' := by
    simpa using @of_isLower (fun c => c.toLower ≠ '!') (by decide) c (hall c (.head _))
  intro he
  have := congrArg String.toList he
  rw [lower, hcs, String.toList_ofList, List.map_cons] at this
  exact hne (List.cons.inj this).1

/-- A single word is a value without a mark, the word `important` too. -/
theorem findMark_word {w : Token} (hw : w.kind = .word) (hs : isWord w.text = true) :
    findMark [w] = ⟨[w], none⟩ := by
  have hfiller : w.isFiller = false := by simp [Token.isFiller, hw]
  have hcut : Token.cutEnd Token.isFiller [w] = ([w], []) := by simp [Token.cutEnd, hfiller]
  simp only [findMark, hcut, List.getLast?_singleton, lower_ne_of_isWord hs, if_false]
  split
  · rfl
  · rfl

/-- The mark behind a word. -/
theorem findMark_mark {w b m : Token} (hw : w.kind = .word) (hb : b.spelling = (.space, " "))
    (hm : m.spelling = (.word, "!important")) : findMark [w, b, m] = ⟨[w], some " !important"⟩ := by
  have hbk := Token.kind_of_spelling hb
  have hmk := Token.kind_of_spelling hm
  have hmt := Token.text_of_spelling hm
  have hfiller : m.isFiller = false := by simp [Token.isFiller, hmk]
  have hcut : Token.cutEnd Token.isFiller [w, b, m] = ([w, b, m], []) := by
    simp [Token.cutEnd, hfiller]
  have hspaces : Token.cutEnd Token.isSpace [w, b] = ([w], [b]) := by
    simp [Token.cutEnd, Token.isSpace, hbk, hw]
  have hlower : lower m.text = "!important" := by
    rw [hmt]
    decide
  simp only [findMark, hcut, List.getLast?_cons_cons, List.getLast?_singleton, hlower, if_true,
    List.dropLast_cons_cons, List.dropLast_singleton, hspaces]
  simp [Token.concat, Token.text_of_spelling hb, hmt]

/-- **A declaration in words** is read as it is spelled. -/
theorem parse_words {prop value : String} {important : Bool} {p c b v : Token} {mark : List Token}
    (hprop : isWord prop = true) (hvalue : isWord value = true) (hp : p.spelling = (.word, prop))
    (hc : c.kind = .colon) (hb : b.kind = .space) (hv : v.spelling = (.word, value))
    (hmark : mark.map Token.spelling = NodeData.spellMark important)
    (spaces : String) (closing : Option Token) :
    ∃ d, parse spaces (p :: c :: b :: v :: mark) closing false = .ok d ∧
      d.data = .declaration prop value important := by
  have hpk := Token.kind_of_spelling hp
  have hvk := Token.kind_of_spelling hv
  have hfind : findMark (v :: mark) = ⟨[v], if important then some " !important" else none⟩ := by
    cases important with
    | false =>
      obtain rfl : mark = [] := List.map_eq_nil_iff.1 hmark
      exact findMark_word hvk (by rw [Token.text_of_spelling hv]; exact hvalue)
    | true =>
      obtain ⟨x, ms, rfl, hx, hms⟩ := List.map_eq_cons_iff.1 hmark
      obtain ⟨y, ms, rfl, hy, hms⟩ := List.map_eq_cons_iff.1 hms
      obtain rfl : ms = [] := by simpa using hms
      exact findMark_mark hvk hx hy
  have hcolon : value.toList.contains ':' = false := by
    rw [← Bool.not_eq_true, List.contains_iff_mem]
    exact not_mem_of_isWord hvalue (by decide)
  have hprops : (p :: c :: b :: v :: mark).takeWhile (fun t => !endsProp t) = [p] := by
    simp [endsProp, Token.isFiller, hpk, hc]
  have hrest : (p :: c :: b :: v :: mark).dropWhile (fun t => !endsProp t) =
      c :: b :: v :: mark := by
    simp [endsProp, Token.isFiller, hpk, hc]
  have hfiller : (b :: v :: mark).dropWhile Token.isFiller = v :: mark := by
    simp [Token.isFiller, hb, hvk]
  have hsolid : [v].any (fun t => !t.isFiller) = true := by simp [Token.isFiller, hvk]
  have hhack : splitHack (Token.concat [p]) = ("", prop) := by
    rw [show Token.concat [p] = prop by simp [Token.concat, Token.text_of_spelling hp]]
    exact splitHack_of_isWord hprop
  unfold parse
  simp only [leading, hpk, if_true, bind, Except.bind, hprops, hrest, hhack, separator, hc, hfiller,
    hfind, hsolid, cleanInto_word hvk, Token.text_of_spelling hv, hcolon, Bool.not_false,
    Bool.and_false, Bool.false_eq_true, if_false, pure, Except.pure]
  refine ⟨_, rfl, ?_⟩
  cases important <;> rfl

end Declaration

end

namespace Parser

/-- The text of a comment is a word without the blanks around it. -/
theorem data_commentNode {t : Token} {text : String} (htext : isWord text = true)
    (ht : t.text = "/* " ++ text ++ " */") (spaces : String) :
    (commentNode spaces t).data = .comment text := by
  obtain ⟨c, cs, hcs, hall⟩ := isWord_iff.1 htext
  have hinner : (t.text.toList.drop 2).dropLast.dropLast = ' ' :: (text.toList ++ [' ']) := by
    have hchars : ("/* " ++ text ++ " */").toList =
        '/' :: '*' :: (' ' :: (text.toList ++ [' ']) ++ ['*'] ++ ['/']) := by simp
    rw [ht, hchars, List.drop_succ_cons, List.drop_succ_cons, List.drop_zero, List.dropLast_concat,
      List.dropLast_concat]
  have hblank : ∀ d ∈ text.toList, Text.isBlank d = false := fun d hd => by
    simpa using @of_isLower (fun d => !Text.isBlank d) (by decide) d (hall d (hcs ▸ hd))
  have hspace : Text.isBlank ' ' = true := by decide
  have hfront : (text.toList ++ [' ']).dropWhile Text.isBlank = text.toList ++ [' '] := by
    rw [hcs, List.cons_append, List.dropWhile_cons, hblank c (by simp [hcs])]
    rfl
  have hback : text.toList.reverse.dropWhile Text.isBlank = text.toList.reverse := by
    cases h : text.toList.reverse with
    | nil => rfl
    | cons d ds =>
      have hd : d ∈ text.toList := List.mem_reverse.1 (by rw [h]; exact List.mem_cons_self)
      rw [List.dropWhile_cons, hblank d hd]
      rfl
  have htrim : Text.trimChars (' ' :: (text.toList ++ [' '])) = text.toList := by
    rw [Text.trimChars, List.dropWhile_cons, if_pos hspace, hfront, Text.trimRight,
      List.reverse_append, List.reverse_singleton, List.singleton_append, List.dropWhile_cons,
      if_pos hspace, hback, List.reverse_reverse]
  have hparts : (commentParts (' ' :: (text.toList ++ [' ']))).2.1 = text.toList := by
    unfold commentParts
    simp only [htrim]
    split <;> rfl
  simp only [commentNode, hinner, hparts, String.ofList_toList]

variable {p q r : Parser} {us vs : List (Tree NodeData)}

/-- What `q` has read beyond `p`: the nodes `us` in the innermost block. -/
structure Gains (p q : Parser) (us : List (Tree NodeData)) : Prop where
  outer : q.outer = p.outer
  node : q.current.node = p.current.node
  read : q.current.reversed.map (Tree.map Parsed.data) =
    us.reverse ++ p.current.reversed.map (Tree.map Parsed.data)

theorem Gains.trans (h : p.Gains q us) (h' : q.Gains r vs) : p.Gains r (us ++ vs) where
  outer := h'.outer.trans h.outer
  node := h'.node.trans h.node
  read := by rw [h'.read, h.read, List.reverse_append, List.append_assoc]

theorem gains_add (p : Parser) (t : Tree Parsed) (semicolon : Bool) :
    p.Gains (p.add t semicolon) [t.map Parsed.data] where
  outer := rfl
  node := rfl
  read := rfl

theorem gains_spaces (p : Parser) (spaces : String) : p.Gains { p with spaces } [] where
  outer := rfl
  node := rfl
  read := rfl

/-- A block that was entered, filled and left. -/
theorem Gains.leave {n : Parsed} (h : (p.enter n).Gains q us) (c : Token) :
    ∃ r, q.leave c = .ok r ∧ p.Gains r [.block n.data us] := by
  have houter : q.outer = p.current :: p.outer := h.outer
  have hnode : q.current.node = n := h.node
  have hread : q.current.reversed.map (Tree.map Parsed.data) = us.reverse := by
    simpa [Parser.enter] using h.read
  have hleave : q.leave c = .ok ⟨p.current.push
      (q.current.close q.spaces q.semicolon (some c.first)), p.outer, "", false⟩ := by
    rw [Parser.leave, houter]
  refine ⟨_, hleave, rfl, rfl, ?_⟩
  have hus : mapAll Parsed.data q.current.reversed.reverse = us := by
    rw [mapAll_eq, List.map_reverse, hread, List.reverse_reverse]
  simp [OpenBlock.push, OpenBlock.close_eq, OpenBlock.closeNode, Tree.map, hus, hnode]

/-! ## What tokens add -/

/-- Before the tokens `fin`, the tokens `ts` add the nodes `us` to the innermost block. -/
def Adds (ts fin : List Token) (us : List (Tree NodeData)) : Prop :=
  ∀ p : Parser, ∃ q, statements none p (ts ++ fin) = statements none q fin ∧ p.Gains q us

section
variable {ts ts' fin rest : List Token} {t : Token}

theorem adds_nil : Adds [] fin [] := fun p => ⟨p, rfl, rfl, rfl, rfl⟩

theorem Adds.append (h : Adds ts (ts' ++ fin) us) (h' : Adds ts' fin vs) :
    Adds (ts ++ ts') fin (us ++ vs) := by
  intro p
  obtain ⟨q, hq, hgains⟩ := h p
  obtain ⟨r, hr, hgains'⟩ := h' q
  exact ⟨r, by rw [List.append_assoc, hq, hr], hgains.trans hgains'⟩

/-- A step that uses the tokens `t :: ts`. -/
theorem adds_of_step (h : ∀ p : Parser, ∃ q, p.step none t (ts ++ fin) = .ok (q, fin) ∧
    p.Gains q us) : Adds (t :: ts) fin us := by
  intro p
  obtain ⟨q, hq, hgains⟩ := h p
  exact ⟨q, statements_step hq, hgains⟩

theorem adds_space (ht : t.kind = .space) : Adds [t] fin [] :=
  adds_of_step fun p => ⟨_, by simp only [step, ht]; rfl, p.gains_spaces _⟩

theorem adds_spaces (hts : ∀ t ∈ ts, t.kind = .space) : Adds ts fin [] := by
  induction ts with
  | nil => exact adds_nil
  | cons t ts ih =>
    obtain ⟨ht, hts⟩ := List.forall_mem_cons.1 hts
    exact (adds_space ht).append (ih hts)

theorem adds_comment {text : String} (htext : isWord text = true)
    (ht : t.spelling = (.comment, "/* " ++ text ++ " */")) :
    Adds [t] fin [.leaf (.comment text)] := by
  refine adds_of_step fun p => ⟨_, by simp only [step, Token.kind_of_spelling ht]; rfl, ?_⟩
  rw [comment_eq]
  have := p.gains_add (.leaf (commentNode p.spaces t)) p.semicolon
  rwa [Tree.map, data_commentNode htext (Token.text_of_spelling ht)] at this

/-- A block with what its statements add, behind what opens it. -/
theorem adds_block {head : List Token} {c : Token} {d : NodeData} (hc : c.kind = .closeCurly)
    (hhead : ∀ p : Parser, ∃ n : Parsed, n.data = d ∧
      statements none p (head ++ (ts ++ c :: fin)) = statements none (p.enter n) (ts ++ c :: fin))
    (hts : Adds ts (c :: fin) us) : Adds (head ++ ts ++ [c]) fin [.block d us] := by
  intro p
  obtain ⟨n, rfl, hn⟩ := hhead p
  obtain ⟨q, hq, hgains⟩ := hts (p.enter n)
  obtain ⟨r, hr, hgains⟩ := hgains.leave c
  have hstep : q.step none c fin = .ok (r, fin) := by
    simp only [step, hc, hr]
    rfl
  refine ⟨r, ?_, hgains⟩
  rw [List.append_assoc, List.append_assoc, List.singleton_append, hn, hq, statements_step hstep]

end

/-! ## At-rules -/

section
variable {name params : String} {t : Token} {ps xs fin left : List Token} {e : Params.Ending}
  (ht : t.spelling = (.atWord, "@" ++ name)) (hname : isWord name = true)
  (hps : ps.map Token.spelling = NodeData.spellParams params)
  (hparams : params = "" ∨ isWord params = true) (hx : Filling xs)
include ht hname hps hparams hx

omit ht hname hparams in
theorem plain_params : ∀ u ∈ ps ++ xs, u.Plain := by
  refine List.forall_mem_append.2 ⟨fun u hu => ?_, fun u hu => .of_isFiller (hx u hu)⟩
  have hmem : u.spelling ∈ NodeData.spellParams params := hps ▸ List.mem_map_of_mem hu
  unfold NodeData.spellParams at hmem
  split at hmem
  · cases hmem
  · rcases List.mem_pair.1 hmem with hu | hu
    · exact .inl (Token.kind_of_spelling hu)
    · exact .inr (.inr (.inl (Token.kind_of_spelling hu)))

omit ht hname in
theorem divide_params (spaces : String) (e : Params.Ending) :
    (Params.divide spaces (ps ++ xs) e).1 = params := by
  rcases hparams with rfl | hword
  · obtain rfl : ps = [] := List.map_eq_nil_iff.1 hps
    simp [Params.divide, cutEnd_of_filling hx]
  · have hne : params ≠ "" := by
      rintro rfl
      cases hword
    rw [NodeData.spellParams, if_neg hne] at hps
    obtain ⟨b, ws, rfl, hb, hps⟩ := List.map_eq_cons_iff.1 hps
    obtain ⟨w, rfl, hw⟩ := List.map_eq_singleton_iff.1 hps
    have hwk := Token.kind_of_spelling hw
    have hbf : b.isFiller = true := by simp [Token.isFiller, Token.kind_of_spelling hb]
    have hwf : w.isFiller = false := by simp [Token.isFiller, hwk]
    have hcut : Token.cutEnd Token.isFiller (b :: w :: xs) = ([b, w], xs) :=
      @cutEnd_concat_filling [b] xs w hwf hx
    have htext : w.text = params := Token.text_of_spelling hw
    by_cases he : e = .endOfParams <;>
      simp [Params.divide, hcut, hbf, hwf, cleanInto_word hwk, htext, he]

/-- An at-rule in words is read as it is spelled, whatever ends it. -/
theorem step_atRule {rest : List Token}
    (hg : Params.gather [] .endOfName rest = ⟨ps ++ xs, e, left⟩) (p : Parser) :
    ∃ (n : Parsed) (spaces : String), n.data = .atRule name params ∧
      p.step none t rest = match e with
        | .openCurly => .ok (p.enter n, left)
        | .closeCurly c => ((p.add (.leaf n) false).leave c).map (·, left)
        | .semicolon _ => .ok (p.add (.leaf n) true, left)
        | _ => .ok ({ p.add (.leaf n) false with spaces }, left) := by
  have hdrop : t.text.toList.drop 1 = name.toList := by
    rw [Token.text_of_spelling ht]
    simp
  have hne : name.toList.isEmpty = false := by
    obtain ⟨c, cs, hcs, -⟩ := isWord_iff.1 hname
    rw [hcs]
    rfl
  refine ⟨Params.node p.spaces t (ps ++ xs) e (Params.Gathered.last ⟨ps ++ xs, e, left⟩),
    (Params.divide p.spaces (ps ++ xs) e).2.2, ?_, ?_⟩
  · simp only [Params.node, hdrop, String.ofList_toList, divide_params hps hparams hx]
  · simp only [step, Token.kind_of_spelling ht, atRule_eq, hdrop, hne, hg, Bool.false_eq_true,
      if_false]
    cases e <;> rfl

omit hx in
theorem adds_atRule_semicolon {s : Token} (hs : s.kind = .semicolon) :
    Adds (t :: (ps ++ [s])) fin [.leaf (.atRule name params)] := by
  have hx : Filling [] := nofun
  refine adds_of_step fun p => ?_
  have hg : Params.gather [] .endOfName (ps ++ [s] ++ fin) = ⟨ps ++ [], .semicolon s, fin⟩ := by
    have hplain := plain_params hps hx
    rw [List.append_nil] at hplain
    rw [List.append_assoc, Params.gather_plain hplain]
    simp [Params.gather, Params.step, Params.ending?, hs]
  obtain ⟨n, spaces, hn, hstep⟩ := step_atRule ht hname hps hparams hx hg p
  refine ⟨_, hstep, ?_⟩
  have := p.gains_add (.leaf n) true
  rwa [Tree.map, hn] at this

/-- **An at-rule that its block ends** takes in all blanks and comments before that. -/
theorem adds_atRule_end (hfin : EndsBlock fin) :
    Adds (t :: (ps ++ xs)) fin [.leaf (.atRule name params)] := by
  intro p
  have hplain := plain_params hps hx
  cases fin with
  | nil =>
    have hg : ∃ e, Params.gather [] .endOfName (ps ++ xs ++ []) = ⟨ps ++ xs, e, []⟩ ∧ e.AtEnd := by
      rw [Params.gather_plain hplain]
      refine ⟨if (ps ++ xs).isEmpty then .endOfName else .endOfParams, by simp [Params.gather], ?_⟩
      split
      · exact .inl rfl
      · exact .inr rfl
    obtain ⟨e, hg, he⟩ := hg
    obtain ⟨n, spaces, hn, hstep⟩ := step_atRule ht hname hps hparams hx hg p
    refine ⟨{ p.add (.leaf n) false with spaces }, ?_, ?_⟩
    · rw [List.cons_append]
      refine statements_step (hstep.trans ?_)
      rcases he with rfl | rfl <;> rfl
    · have := (p.gains_add (.leaf n) false).trans (gains_spaces _ spaces)
      rwa [Tree.map, hn] at this
  | cons c fin =>
    have hc : c.kind = .closeCurly := hfin
    have hg : Params.gather [] .endOfName (ps ++ xs ++ c :: fin) =
        ⟨ps ++ xs, .closeCurly c, fin⟩ := by
      rw [Params.gather_plain hplain]
      simp [Params.gather, Params.step, Params.ending?, hc]
    obtain ⟨n, spaces, hn, hstep⟩ := step_atRule ht hname hps hparams hx hg p
    refine ⟨p.add (.leaf n) false, ?_, ?_⟩
    · have hleave : (p.add (.leaf n) false).step none c fin =
          ((p.add (.leaf n) false).leave c).map (·, fin) := by
        simp only [step, hc]
      rw [List.cons_append, statements_cons_eq, statements_cons_eq, hstep, hleave]
    · have := p.gains_add (.leaf n) false
      rwa [Tree.map, hn] at this

omit hx in
/-- The start of an at-rule with a block. -/
theorem statements_atRule {b o : Token} (hb : b.kind = .space) (ho : o.kind = .openCurly)
    (rest : List Token) (p : Parser) : ∃ n : Parsed, n.data = .atRule name params ∧
      statements none p (t :: (ps ++ [b, o]) ++ rest) = statements none (p.enter n) rest := by
  have hx : Filling [b] := by simp [Filling, Token.isFiller, hb]
  have hg : Params.gather [] .endOfName (ps ++ [b, o] ++ rest) = ⟨ps ++ [b], .openCurly, rest⟩ := by
    rw [show ps ++ [b, o] ++ rest = ps ++ [b] ++ o :: rest by simp,
      Params.gather_plain (plain_params hps hx)]
    simp [Params.gather, Params.step, Params.ending?, ho]
  obtain ⟨n, spaces, hn, hstep⟩ := step_atRule ht hname hps hparams hx hg p
  exact ⟨n, hn, statements_step hstep⟩

end

/-! ## Rules and declarations -/

section
variable {s : String} {t : Token} (ht : t.spelling = (.word, s)) (hs : isWord s = true)
include ht hs

/-- What starts with a word is a run of tokens, and none of them is a bracket. -/
theorem step_run {ts : List Token} (hts : ∀ u ∈ ts, u.Plain) (p : Parser) (rest : List Token) :
    Text.startsWith t.text "--" = false ∧
    p.step none t (ts ++ rest) = p.run none t (ts ++ rest) ∧
      Phrase.gather false (Phrase.Nest.start.step false t) (ts ++ rest) =
        let g := Phrase.gather false ⟨ts.any (·.kind = .colon), [], none⟩ rest
        { g with tokens := ts ++ g.tokens } := by
  have htk := Token.kind_of_spelling ht
  refine ⟨?_, step_of_startsRun (by rw [htk]; rfl), ?_⟩
  · rw [Token.text_of_spelling ht]
    exact startsWith_of_isWord hs
  · have hstart : Phrase.Nest.start.step false t = ⟨false, [], none⟩ := by
      simp [Phrase.Nest.step, Phrase.Nest.start, Phrase.closer?, htk]
    rw [hstart, Phrase.gather_plain false hts, Bool.false_or]

/-- The start of a rule. -/
theorem statements_rule {b o : Token} (hb : b.kind = .space) (ho : o.kind = .openCurly)
    (rest : List Token) (p : Parser) : ∃ n : Parsed, n.data = .rule s ∧
      statements none p (t :: [b, o] ++ rest) = statements none (p.enter n) rest := by
  have htk := Token.kind_of_spelling ht
  have hplain : ∀ u ∈ [b], u.Plain := fun u hu => List.mem_singleton.1 hu ▸ .inl hb
  obtain ⟨hcustom, hstep, hg⟩ := step_run ht hs hplain p (o :: rest)
  have hfiller : t.isFiller = false := by simp [Token.isFiller, htk]
  have hcut : Token.cutEnd Token.isFiller [t, b] = ([t], [b]) :=
    @cutEnd_concat_filling [] [b] t hfiller (by simp [Filling, Token.isFiller, hb])
  refine ⟨ruleNode p.spaces t [t, b], ?_, ?_⟩
  · simp only [ruleNode, hcut, cleanInto_word htk, Token.text_of_spelling ht]
  · refine statements_step (hstep.trans ?_)
    unfold run
    simp only [hcustom, hg, Phrase.gather, Phrase.ending?, Phrase.closer?, ho]
    rfl

end

section
variable {prop value : String} {important : Bool} {t c b v : Token} {mark xs fin : List Token}
  (ht : t.spelling = (.word, prop)) (hprop : isWord prop = true) (hc : c.kind = .colon)
  (hb : b.kind = .space) (hv : v.spelling = (.word, value)) (hvalue : isWord value = true)
  (hmark : mark.map Token.spelling = NodeData.spellMark important)
include ht hprop hc hb hv hvalue hmark

omit ht hprop hvalue in
/-- What stands behind a property: no bracket, and a word at the end. -/
theorem behind_prop : (∀ u ∈ c :: b :: v :: mark, u.Plain) ∧
    ∃ front u, c :: b :: v :: mark = front ++ [u] ∧ u.isFiller = false := by
  have hvk := Token.kind_of_spelling hv
  cases important with
  | false =>
    obtain rfl : mark = [] := List.map_eq_nil_iff.1 hmark
    refine ⟨?_, [c, b], v, rfl, by simp [Token.isFiller, hvk]⟩
    simp [Token.Plain, hc, hb, hvk]
  | true =>
    obtain ⟨x, ms, rfl, hx, hms⟩ := List.map_eq_cons_iff.1 hmark
    obtain ⟨y, rfl, hy⟩ := List.map_eq_singleton_iff.1 hms
    have hxk := Token.kind_of_spelling hx
    have hyk := Token.kind_of_spelling hy
    refine ⟨?_, [c, b, v, x], y, rfl, by simp [Token.isFiller, hyk]⟩
    simp [Token.Plain, hc, hb, hvk, hxk, hyk]

theorem adds_declaration_semicolon {s : Token} (hs : s.kind = .semicolon) :
    Adds (t :: (c :: b :: v :: mark ++ [s])) fin [.leaf (.declaration prop value important)] := by
  obtain ⟨hplain, -⟩ := behind_prop hc hb hv hmark
  have hcolon : (c :: b :: v :: mark).any (·.kind = .colon) = true := by simp [hc]
  have hparse := Declaration.parse_words hprop hvalue ht hc hb hv hmark
  generalize c :: b :: v :: mark = ws at *
  refine adds_of_step fun p => ?_
  obtain ⟨d, hd, hdata⟩ := hparse p.spaces (some s)
  obtain ⟨hcustom, hstep, hg⟩ := step_run ht hprop hplain p (s :: fin)
  rw [hcolon] at hg
  refine ⟨p.add (.leaf d) true, ?_, ?_⟩
  · rw [List.append_assoc, List.singleton_append, hstep]
    unfold run
    simp only [hcustom, hg, Phrase.gather, Phrase.ending?, Phrase.closer?, hs]
    simp [hd, Except.map, bind, Except.bind, pure, Except.pure]
  · have := p.gains_add (.leaf d) true
    rwa [Tree.map, hdata] at this

/-- **A declaration that its block ends** gives blanks and comments before that back. -/
theorem adds_declaration_end (hx : Filling xs) (hfin : EndsBlock fin) :
    Adds (t :: c :: b :: v :: mark) (xs ++ fin) [.leaf (.declaration prop value important)] := by
  obtain ⟨hplain, front, u, hlast, hu⟩ := behind_prop hc hb hv hmark
  have hcolon : (c :: b :: v :: mark).any (·.kind = .colon) = true := by simp [hc]
  have hparse := Declaration.parse_words hprop hvalue ht hc hb hv hmark
  generalize c :: b :: v :: mark = ws at *
  have hplain' : ∀ u ∈ ws ++ xs, u.Plain :=
    List.forall_mem_append.2 ⟨hplain, fun u hu => .of_isFiller (hx u hu)⟩
  have hcut : Token.cutEnd Token.isFiller (ws ++ xs) = (ws, xs) := by
    rw [hlast]
    exact cutEnd_concat_filling hu hx
  refine adds_of_step fun p => ?_
  obtain ⟨d, hd, hdata⟩ := hparse p.spaces none
  obtain ⟨hcustom, hstep, hg⟩ := step_run ht hprop hplain' p fin
  rw [List.any_append, hcolon, Bool.true_or] at hg
  refine ⟨p.add (.leaf d) false, ?_, ?_⟩
  · rw [← List.append_assoc, hstep]
    unfold run
    cases fin with
    | nil =>
      simp only [hcustom, hg, Phrase.gather]
      simp [hcut, hd, Except.map, bind, Except.bind, pure, Except.pure]
    | cons e fin =>
      have he : e.kind = .closeCurly := hfin
      simp only [hcustom, hg, Phrase.gather, Phrase.ending?, Phrase.closer?, he]
      simp [hcut, hd, Except.map, bind, Except.bind, pure, Except.pure]
  · have := p.gains_add (.leaf d) false
    rwa [Tree.map, hdata] at this

end

/-! ## Trees -/

/-- Behind what stands before the tokens `fin`, only blanks and comments follow in the block. -/
def Closing (fin : List Token) : Prop := ∃ xs left, fin = xs ++ left ∧ Filling xs ∧ EndsBlock left

/-- A node without a block. -/
theorem adds_spellLeaf {d : NodeData} (hd : d.isWordedLeaf = true) {semicolon : Bool}
    {ts fin : List Token} (hts : ts.map Token.spelling = d.spellLeaf semicolon)
    (h : semicolon = true ∨ (Tree.leaf d).isStatement = false ∧ Closing fin) :
    Adds ts fin [.leaf d] := by
  cases d with
  | root => cases hd
  | rule selector => cases hd
  | comment text =>
    obtain ⟨t, rfl, ht⟩ := List.map_eq_singleton_iff.1 hts
    exact adds_comment hd ht
  | atRule name params =>
    obtain rfl : semicolon = true := h.resolve_right fun h => nomatch h.1
    rw [NodeData.isWordedLeaf, Bool.and_eq_true, Bool.or_eq_true, decide_eq_true_eq] at hd
    obtain ⟨t, us, rfl, ht, hus⟩ := List.map_eq_cons_iff.1 hts
    obtain ⟨ps, vs, rfl, hps, hvs⟩ := List.map_eq_append_iff.1 hus
    obtain ⟨s, rfl, hs⟩ := List.map_eq_singleton_iff.1 hvs
    exact adds_atRule_semicolon ht hd.1 hps hd.2 (Token.kind_of_spelling hs)
  | declaration prop value important =>
    rw [NodeData.isWordedLeaf, Bool.and_eq_true] at hd
    obtain ⟨front, closing, rfl, hfront, hclosing⟩ := List.map_eq_append_iff.1 hts
    obtain ⟨words, mark, rfl, hwords, hmark⟩ := List.map_eq_append_iff.1 hfront
    obtain ⟨t, ws, rfl, ht, hws⟩ := List.map_eq_cons_iff.1 hwords
    obtain ⟨c, ws, rfl, hc, hws⟩ := List.map_eq_cons_iff.1 hws
    obtain ⟨b, ws, rfl, hb, hws⟩ := List.map_eq_cons_iff.1 hws
    obtain ⟨v, rfl, hv⟩ := List.map_eq_singleton_iff.1 hws
    have hck := Token.kind_of_spelling hc
    have hbk := Token.kind_of_spelling hb
    cases semicolon with
    | true =>
      obtain ⟨s, rfl, hs⟩ := List.map_eq_singleton_iff.1 hclosing
      exact adds_declaration_semicolon ht hd.1 hck hbk hv hd.2 hmark (Token.kind_of_spelling hs)
    | false =>
      obtain rfl : closing = [] := List.map_eq_nil_iff.1 hclosing
      obtain ⟨-, xs, left, rfl, hx, hleft⟩ := h.resolve_left Bool.false_ne_true
      rw [List.append_nil]
      exact adds_declaration_end ht hd.1 hck hbk hv hd.2 hmark hx hleft

/-- The start of a block. -/
theorem statements_spellHead {d : NodeData} (hd : d.isWordedBlock = true) {head : List Token}
    {b o : Token} (hhead : head.map Token.spelling = d.spellHead) (hb : b.kind = .space)
    (ho : o.kind = .openCurly) (rest : List Token) (p : Parser) : ∃ n : Parsed, n.data = d ∧
      statements none p (head ++ [b, o] ++ rest) = statements none (p.enter n) rest := by
  cases d with
  | rule selector =>
    obtain ⟨t, rfl, ht⟩ := List.map_eq_singleton_iff.1 hhead
    exact statements_rule ht hd hb ho rest p
  | atRule name params =>
    rw [NodeData.isWordedBlock, Bool.and_eq_true, Bool.or_eq_true, decide_eq_true_eq] at hd
    obtain ⟨t, ps, rfl, ht, hps⟩ := List.map_eq_cons_iff.1 hhead
    exact statements_atRule ht hd.1 hps hd.2 hb ho rest p
  | _ => cases hd

/-- Comments are spelled with blanks and comments only. -/
theorem filling_of_onlyComments : {us : List (Tree NodeData)} → isWordedAll us = true →
    onlyComments us = true → {depth : Nat} → {ts : List Token} →
    ts.map Token.spelling = spellAll depth us → Filling ts
  | [], _, _, _, ts, hts => by
    obtain rfl : ts = [] := List.map_eq_nil_iff.1 hts
    exact nofun
  | u :: us, hus, ho, depth, ts, hts => by
    rw [isWordedAll, Bool.and_eq_true] at hus
    rw [onlyComments, List.all_cons, Bool.and_eq_true, decide_eq_true_eq] at ho
    obtain ⟨text, rfl⟩ : ∃ text, u = .leaf (.comment text) := by
      cases u with
      | leaf d =>
        cases d <;> simp [Tree.label, NodeData.kind] at ho
        exact ⟨_, rfl⟩
      | block d us =>
        cases d <;> simp [Tree.label, NodeData.kind, isWorded, NodeData.isWordedBlock] at ho hus
    obtain ⟨b, ws, rfl, hb, hws⟩ := List.map_eq_cons_iff.1 hts
    obtain ⟨t, ws, rfl, ht, hws⟩ := List.map_eq_cons_iff.1 hws
    have hrest := filling_of_onlyComments hus.2 ho.2 hws
    refine List.forall_mem_cons.2 ⟨?_, List.forall_mem_cons.2 ⟨?_, hrest⟩⟩
    · simp [Token.isFiller, Token.kind_of_spelling hb]
    · simp [Token.isFiller, Token.kind_of_spelling ht]

section
variable {t : Tree NodeData} {us : List (Tree NodeData)} {depth : Nat}
  {ts rest tail fin : List Token}

/-- A statement, and those behind it. -/
theorem adds_cons (ht : t.isWorded = true) (hus : isWordedAll us = true)
    (hts : ts.map Token.spelling = t.spell depth (!onlyComments us))
    (hrest : rest.map Token.spelling = spellAll depth us) (htail : ∀ t ∈ tail, t.kind = .space)
    (hfin : EndsBlock fin)
    (hone : ∀ {left}, onlyComments us = false ∨ t.isStatement = false ∧ Closing left →
      Adds ts left [t.absorbed])
    (hall : Adds (rest ++ tail) fin (absorbedAll us)) :
    Adds (ts ++ (rest ++ tail)) fin (absorbedAll (t :: us)) := by
  cases ho : onlyComments us with
  | false =>
    rw [absorbedAll, ho, Bool.and_false]
    exact (hone (.inl ho)).append hall
  | true =>
    have hfill : Filling (rest ++ tail) :=
      List.forall_mem_append.2 ⟨filling_of_onlyComments hus ho hrest,
        fun u hu => by simp [Token.isFiller, htail u hu]⟩
    cases hst : t.isStatement with
    | false =>
      rw [absorbedAll, hst, Bool.false_and]
      exact (hone (.inr ⟨hst, rest ++ tail, fin, rfl, hfill, hfin⟩)).append hall
    | true =>
      -- the at-rule takes in what is left of the block
      obtain ⟨name, params, rfl⟩ : ∃ name params, t = .leaf (.atRule name params) := by
        cases t with
        | leaf d =>
          cases d <;> simp [isStatement, Tree.hasBlock, Tree.label, NodeData.kind] at hst
          exact ⟨_, _, rfl⟩
        | block d us => simp [isStatement, Tree.hasBlock] at hst
      rw [isWorded, NodeData.isWordedLeaf, Bool.and_eq_true, Bool.or_eq_true,
        decide_eq_true_eq] at ht
      rw [absorbedAll, hst, ho, Bool.and_self, if_pos rfl]
      rw [ho] at hts
      obtain ⟨a, ws, rfl, ha, hws⟩ := List.map_eq_cons_iff.1 hts
      have hps : ws.map Token.spelling = NodeData.spellParams params := by simpa using hws
      exact adds_atRule_end ha ht.1 hps ht.2 hfill hfin

end

mutual

/-- The tokens of a tree add the tree, up to the comments that at-rules in it take in. -/
theorem adds_spell : (t : Tree NodeData) → t.isWorded = true → {depth : Nat} →
    {semicolon : Bool} → {ts fin : List Token} →
    ts.map Token.spelling = t.spell depth semicolon →
    semicolon = true ∨ t.isStatement = false ∧ Closing fin → Adds ts fin [t.absorbed]
  | .leaf d, ht, depth, semicolon, ts, fin, hts, h => adds_spellLeaf ht hts h
  | .block d us, ht, depth, semicolon, ts, fin, hts, _ => by
    rw [isWorded, Bool.and_eq_true] at ht
    rw [spell_block] at hts
    obtain ⟨head, ws, rfl, hhead, hws⟩ := List.map_eq_append_iff.1 hts
    obtain ⟨b, ws, rfl, hb, hws⟩ := List.map_eq_cons_iff.1 hws
    obtain ⟨o, ws, rfl, ho, hws⟩ := List.map_eq_cons_iff.1 hws
    obtain ⟨body, close, rfl, hbody, hclose⟩ := List.map_eq_append_iff.1 hws
    obtain ⟨inner, tail, rfl, hinner, htail⟩ := List.map_eq_append_iff.1 hbody
    obtain ⟨c, rfl, hc⟩ := List.map_eq_singleton_iff.1 hclose
    have hck := Token.kind_of_spelling hc
    have htail : ∀ u ∈ tail, u.kind = .space := by
      intro u hu
      have hmem : u.spelling ∈ spellEnd depth us := htail ▸ List.mem_map_of_mem hu
      unfold spellEnd at hmem
      split at hmem
      · cases hmem
      · exact Token.kind_of_spelling (List.mem_singleton.1 hmem)
    have hall : Adds (inner ++ tail) (c :: fin) (absorbedAll us) :=
      adds_spellAll us ht.2 hinner htail hck
    have := adds_block hck (fun p => statements_spellHead ht.1 hhead (Token.kind_of_spelling hb)
      (Token.kind_of_spelling ho) _ p) hall
    simpa [absorbed] using this

/-- The tokens of siblings add the siblings, up to the comments that at-rules take in. -/
theorem adds_spellAll : (us : List (Tree NodeData)) → isWordedAll us = true → {depth : Nat} →
    {ts tail fin : List Token} → ts.map Token.spelling = spellAll depth us →
    (∀ t ∈ tail, t.kind = .space) → EndsBlock fin → Adds (ts ++ tail) fin (absorbedAll us)
  | [], _, _, ts, tail, fin, hts, htail, _ => by
    obtain rfl : ts = [] := List.map_eq_nil_iff.1 hts
    exact adds_spaces htail
  | u :: us, hus, depth, ts, tail, fin, hts, htail, hfin => by
    rw [isWordedAll, Bool.and_eq_true] at hus
    obtain ⟨b, ws, rfl, hb, hws⟩ := List.map_eq_cons_iff.1 hts
    obtain ⟨one, rest, rfl, hone, hrest⟩ := List.map_eq_append_iff.1 hws
    have hall := adds_spellAll us hus.2 hrest htail hfin
    have hcons := adds_cons hus.1 hus.2 hone hrest htail hfin
      (fun h => adds_spell u hus.1 hone (by simpa using h)) hall
    have := (adds_space (Token.kind_of_spelling hb)).append hcons
    simpa using this

end

/-- A text whose tokens add nodes is read as a root with these. -/
theorem parse_of_adds {text : List Char} {us : List (Tree NodeData)}
    (hfault : (Lexer.ofChars text).tokens.2 = none)
    (h : Adds (Lexer.ofChars text).tokens.1 [] us) :
    ∃ t, parse text = .ok t ∧ t.map Parsed.data = .block .root us := by
  obtain ⟨q, hq, hgains⟩ := h start
  have hstatements : statements none start (Lexer.ofChars text).tokens.1 = .ok q := by
    rw [List.append_nil] at hq
    rw [hq, statements]
  have houter : q.outer.isEmpty = true := by rw [hgains.outer]; rfl
  refine ⟨q.current.close q.spaces q.semicolon none, ?_, ?_⟩
  · unfold parse
    simp only [hfault, hstatements, bind, Except.bind, finish, houter, if_true]
  · have hread : q.current.reversed.map (Tree.map Parsed.data) = us.reverse := by
      simpa [start] using hgains.read
    rw [OpenBlock.close_eq, Tree.map, mapAll_eq, List.map_reverse, hread, List.reverse_reverse]
    rw [OpenBlock.closeNode, hgains.node]
    rfl

/-- **A tree in words is read as it is spelled**, but for the comments that at-rules take in. -/
theorem parse_spellRoot {us : List (Tree NodeData)} (hus : isWordedAll us = true) :
    ∃ t, parse (Spelling.chars (spellRoot us)) = .ok t ∧
      t.map Parsed.data = .block .root (absorbedAll us) := by
  obtain ⟨htokens, hfault⟩ := @Lexer.tokens_of_cutOff (spellRoot us)
    (.ofChars (Spelling.chars (spellRoot us))) rfl rfl (cutOff_spellRoot hus)
  refine parse_of_adds hfault ?_
  generalize (Lexer.ofChars (Spelling.chars (spellRoot us))).tokens.1 = ts at htokens
  cases us with
  | nil =>
    obtain rfl : ts = [] := List.map_eq_nil_iff.1 htokens
    exact adds_nil
  | cons u us =>
    rw [isWordedAll, Bool.and_eq_true] at hus
    obtain ⟨one, rest, rfl, hone, hrest⟩ := List.map_eq_append_iff.1 htokens
    have htail : ∀ t ∈ ([] : List Token), t.kind = .space := by simp
    have hfin : EndsBlock [] := trivial
    have hall := adds_spellAll us hus.2 hrest htail hfin
    have := adds_cons hus.1 hus.2 hone hrest htail hfin
      (fun h => adds_spell u hus.1 hone (by simpa using h)) hall
    rwa [List.append_nil] at this

end Parser

end Stylesheet
