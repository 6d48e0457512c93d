import Stylesheet.Proofs.Parse.Statements
import Stylesheet.Proofs.Token.Footer

/-!
# Reading a text with a footer

`Parser.parse_footer`: a text that can be read can be read with a footer behind it, and its tree is
the same up to its end (`Footed`). The footer is a comment of its own, unless the text ends in a
statement that no semicolon ends: parameters of an at-rule leave it to the blanks at the end of the
root, a custom property and an at-rule without parameters take it in.
-/

set_option autoImplicit false

namespace Stylesheet

open Stylesheet.Text Stylesheet.Tree

/-! ## Blanks and comments behind tokens -/

/-- All tokens are blanks and comments. -/
def Filling (xs : List Token) : Prop := ∀ t ∈ xs, t.isFiller = true

theorem cutEnd_filling {xs : List Token} (hx : Filling xs) (ts : List Token) :
    Token.cutEnd Token.isFiller (ts ++ xs) = ((Token.cutEnd Token.isFiller ts).1,
      (Token.cutEnd Token.isFiller ts).2 ++ xs) := by
  have hx' : ∀ t ∈ xs.reverse, t.isFiller = true := fun t ht => hx t (List.mem_reverse.1 ht)
  simp only [Token.cutEnd, List.reverse_append]
  rw [List.dropWhile_append_of_pos hx', List.takeWhile_append_of_pos hx', List.reverse_append,
    List.reverse_reverse]

theorem concat_append (ts us : List Token) :
    Token.concat (ts ++ us) = Token.concat ts ++ Token.concat us := by
  refine String.ext ?_
  simp

namespace Phrase

variable {custom : Bool} {n : Nest} {ts xs : List Token}

/-- What ends a run before the end of the text does so whatever stands behind. -/
theorem gather_more (h : (gather custom n ts).ending ≠ .endOfText) (xs : List Token) :
    gather custom n (ts ++ xs) =
      { gather custom n ts with rest := (gather custom n ts).rest ++ xs } := by
  induction ts generalizing n with
  | nil => exact absurd rfl h
  | cons t ts ih =>
    rw [gather] at h
    rw [List.cons_append, gather, gather]
    split
    · rfl
    · rfl
    · next he =>
      rw [he] at h
      rw [ih h]

/-- No blank or comment is awaited. -/
def Nest.Sound (n : Nest) : Prop := ∀ k ∈ n.awaited, k ≠ .space ∧ k ≠ .comment

theorem closer?_sound {custom colon : Bool} {k closer : TokenKind}
    (h : closer? custom colon k = some closer) : closer ≠ .space ∧ closer ≠ .comment := by
  unfold closer? at h
  split at h
  · cases h
    decide
  · cases h
    decide
  · split at h <;> cases h
    decide
  · cases h

theorem Nest.Sound.step (hn : n.Sound) (custom : Bool) (t : Token) :
    (n.step custom t).Sound := by
  unfold Nest.step
  split
  · next closer hc =>
    intro k hk
    rcases List.mem_cons.1 hk with rfl | hk
    · exact closer?_sound hc
    · exact hn k hk
  · split
    · split <;> exact hn
    · next a rest ha =>
      split
      · exact fun k hk => hn k (by rw [ha]; exact List.mem_cons_of_mem _ hk)
      · exact hn

theorem sound_start : Nest.start.Sound := by
  intro k hk
  cases hk

theorem closer?_filler (custom colon : Bool) {t : Token} (ht : t.isFiller = true) :
    closer? custom colon t.kind = none := by
  simp only [Token.isFiller, Bool.or_eq_true, decide_eq_true_eq] at ht
  rcases ht with ht | ht <;> rw [ht] <;> rfl

/-- Blanks and comments change nothing for a reader of a run. -/
theorem step_filler (hn : n.Sound) {t : Token} (ht : t.isFiller = true) : n.step custom t = n := by
  have hcloser := closer?_filler custom n.colon ht
  simp only [Token.isFiller, Bool.or_eq_true, decide_eq_true_eq] at ht
  unfold Nest.step
  rw [hcloser]
  simp only
  split
  · rcases ht with ht | ht <;> simp [ht]
  · next a rest ha =>
    have hne := hn a (by rw [ha]; exact List.mem_cons_self)
    rcases ht with ht | ht
    · rw [ht, if_neg hne.1.symm]
    · rw [ht, if_neg hne.2.symm]

theorem ending?_filler {t : Token} (ht : t.isFiller = true) : ending? custom n t = none := by
  simp only [Token.isFiller, Bool.or_eq_true, decide_eq_true_eq] at ht
  unfold ending?
  split
  · rfl
  · rcases ht with ht | ht <;> rw [ht]

theorem ending?_ne_endOfText {t : Token} : ending? custom n t ≠ some .endOfText := by
  unfold ending?
  split
  · simp
  · split <;> simp

theorem gather_of_filling (hn : n.Sound) (hx : Filling xs) :
    gather custom n xs = ⟨xs, .endOfText, n, []⟩ := by
  induction xs with
  | nil => rfl
  | cons t xs ih =>
    have ht := hx t List.mem_cons_self
    rw [gather, ending?_filler ht, step_filler hn ht,
      ih fun u hu => hx u (List.mem_cons_of_mem _ hu)]

/-- A run that the end of the text ends takes all blanks and comments there. -/
theorem gather_filling (hn : n.Sound) (h : (gather custom n ts).ending = .endOfText)
    (hx : Filling xs) : gather custom n (ts ++ xs) =
      ⟨(gather custom n ts).tokens ++ xs, .endOfText, (gather custom n ts).nest, []⟩ := by
  induction ts generalizing n with
  | nil => exact gather_of_filling hn hx
  | cons t ts ih =>
    rw [gather] at h
    rw [List.cons_append, gather, gather]
    split
    · next he =>
      rw [he] at h
      cases h
    · next e hc he =>
      rw [he] at h
      cases e with
      | endOfText => exact absurd he ending?_ne_endOfText
      | closeCurly => exact absurd rfl hc
      | semicolon => cases h
      | openCurly => cases h
    · next he =>
      rw [he] at h
      rw [ih (hn.step custom t) h]
      rfl

end Phrase

namespace Params

variable {awaited : List TokenKind} {e : Ending} {ts xs : List Token}

/-- The text ends behind the name or behind the parameters. -/
def Ending.AtEnd (e : Ending) : Prop := e = .endOfName ∨ e = .endOfParams

theorem not_atEnd_of_ending? {t : Token} (h : ending? t = some e) : ¬e.AtEnd := by
  unfold ending? at h
  split at h <;> cases h <;> rintro (h | h) <;> cases h

theorem ending?_filler {t : Token} (ht : t.isFiller = true) : ending? t = none := by
  simp only [Token.isFiller, Bool.or_eq_true, decide_eq_true_eq] at ht
  unfold ending?
  rcases ht with ht | ht <;> rw [ht]

/-- What ends parameters before the end of the text does so whatever stands behind. -/
theorem gather_more (he : e.AtEnd) (h : ¬(gather awaited e ts).ending.AtEnd) (xs : List Token) :
    gather awaited e (ts ++ xs) =
      { gather awaited e ts with rest := (gather awaited e ts).rest ++ xs } := by
  induction ts generalizing awaited e with
  | nil => exact absurd he h
  | cons t ts ih =>
    rw [gather] at h
    rw [List.cons_append, gather, gather]
    simp only at h ⊢
    split
    · rfl
    · next hend =>
      rw [hend] at h
      rw [ih (.inr rfl) h]

/-- Parameters that the end of the text ends take all of its tokens. -/
theorem gather_atEnd (he : e.AtEnd) (h : (gather awaited e ts).ending.AtEnd) :
    gather awaited e ts = ⟨ts, if ts.isEmpty then e else .endOfParams, []⟩ := by
  induction ts generalizing awaited e with
  | nil => rfl
  | cons t ts ih =>
    rw [gather] at h ⊢
    simp only at h ⊢
    split
    · next e' hend =>
      rw [hend] at h
      split at hend
      · exact absurd h (not_atEnd_of_ending? hend)
      · cases hend
    · next hend =>
      rw [hend] at h
      rw [ih (.inr rfl) h]
      simp

theorem atEnd_filling (he : e.AtEnd) (h : (gather awaited e ts).ending.AtEnd) (hx : Filling xs) :
    (gather awaited e (ts ++ xs)).ending.AtEnd := by
  induction ts generalizing awaited e with
  | nil =>
    clear h
    induction xs generalizing awaited e with
    | nil => exact he
    | cons t xs ih =>
      rw [List.nil_append, gather, ending?_filler (hx t List.mem_cons_self), ite_self]
      exact ih (fun u hu => hx u (List.mem_cons_of_mem _ hu)) (.inr rfl)
  | cons t ts ih =>
    rw [gather] at h
    rw [List.cons_append, gather]
    simp only at h ⊢
    split
    · next hend =>
      rw [hend] at h
      exact h
    · next hend =>
      rw [hend] at h
      exact ih (.inr rfl) h

end Params

namespace Parser

variable {p p' q : Parser} {t : Token} {rest rest' xs : List Token}

/-! ## Steps before the end -/

/-- What starts with a token of this kind is a declaration or a rule. -/
def startsRun : TokenKind → Bool
  | .space | .semicolon | .closeCurly | .comment | .atWord | .openCurly => false
  | _ => true

theorem step_of_startsRun {fault : Option LexError} (h : startsRun t.kind = true) :
    p.step fault t rest = p.run fault t rest := by
  unfold step
  split <;> first | rfl | (next hk => rw [hk] at h; cases h)

/-- What is left of the tokens, with more behind. -/
def leaveMore (xs : List Token) (r : Parser × List Token) : Parser × List Token := (r.1, r.2 ++ xs)

theorem map_leaveMore (x : Except ParseFault Parser) (rest xs : List Token) :
    (x.map (·, rest)).map (leaveMore xs) = x.map (·, rest ++ xs) := by
  cases x <;> rfl

/-- Only a custom property takes in the blanks and comments at the end of the text. -/
theorem run_append (hx : Filling xs) (h : Text.startsWith t.text "--" = true →
      (Phrase.gather true (Phrase.Nest.start.step true t) rest).ending ≠ .endOfText) :
    p.run none t (rest ++ xs) = (p.run none t rest).map (leaveMore xs) := by
  unfold run
  extract_lets custom g declaration last g' last'
  by_cases hend : g'.ending = .endOfText
  · have hcustom : custom = false := by
      cases hc : custom with
      | false => rfl
      | true =>
        have := h hc
        rw [← hc] at this
        exact absurd hend this
    have hg : g = ⟨g'.tokens ++ xs, .endOfText, g'.nest, []⟩ :=
      Phrase.gather_filling (Phrase.sound_start.step custom t) hend hx
    simp only [hg, hend]
    split
    · rfl
    · simp only [last, last', hg, hcustom, Bool.false_eq_true, if_false, cutEnd_filling hx,
        List.append_nil]
      split
      · rfl
      · rw [map_leaveMore]
  · have hg : g = { g' with rest := g'.rest ++ xs } := Phrase.gather_more hend xs
    have hlast : last (g'.rest ++ xs) = (last' g'.rest).map (leaveMore xs) := by
      simp only [last, last', hg]
      split
      · rfl
      · rw [map_leaveMore, List.append_assoc]
    simp only [hg]
    split
    · split
      · rw [map_leaveMore]
      · rfl
    · rfl
    · exact hlast
    · exact absurd ‹_› hend

/-- An at-rule that ends before the end of the text does so whatever stands behind. -/
theorem atRule_append (h : ¬(Params.gather [] .endOfName rest).ending.AtEnd) (xs : List Token) :
    p.atRule none t (rest ++ xs) = (p.atRule none t rest).map (leaveMore xs) := by
  unfold atRule
  rw [Params.gather_more (.inl rfl) h]
  generalize Params.gather [] .endOfName rest = g at h
  obtain ⟨ts, ending, left⟩ := g
  simp only [ite_self]
  split
  · rfl
  · cases ending with
    | semicolon s => rfl
    | openCurly => rfl
    | closeCurly c => exact (map_leaveMore _ left xs).symm
    | endOfParams => exact absurd (.inr rfl) h
    | endOfName => exact absurd (.inl rfl) h

/-- What starts with the token takes in the blanks and comments at the end of the text. -/
def TakesEnd (t : Token) (rest : List Token) : Prop :=
  (t.kind = .atWord ∧ (Params.gather [] .endOfName rest).ending.AtEnd) ∨
    (startsRun t.kind = true ∧ Text.startsWith t.text "--" = true ∧
      (Phrase.gather true (Phrase.Nest.start.step true t) rest).ending = .endOfText)

/-- **Blanks and comments at the end of the text** change no other step. -/
theorem step_append (hx : Filling xs) (h : ¬TakesEnd t rest) :
    p.step none t (rest ++ xs) = (p.step none t rest).map (leaveMore xs) := by
  unfold step
  split
  · rfl
  · rfl
  · exact (map_leaveMore _ rest xs).symm
  · rfl
  · next hk => exact atRule_append (fun hend => h (.inl ⟨hk, hend⟩)) xs
  · rfl
  · next hspace hsemicolon hclose hcomment hat hopen =>
    have hk : startsRun t.kind = true := by
      unfold startsRun
      split <;> first | contradiction | rfl
    exact run_append hx fun hc hend => h (.inr ⟨hk, hc, hend⟩)

end Parser

/-! ## Steps at the end -/

/-- Two statements without a block that start alike. -/
structure Parsed.Twins (n m : Parsed) : Prop where
  kind : m.data.kind = n.data.kind
  statement : n.data.kind ≠ .comment
  start : m.start = n.start
  before : m.wording.slot "before" = n.wording.slot "before"

theorem takeWhile_append_of_neg {α : Type} {p : α → Bool} {xs : List α}
    (hx : ∀ x ∈ xs, p x = false) (ts : List α) :
    (ts ++ xs).takeWhile p = ts.takeWhile p ∧ (ts ++ xs).dropWhile p = ts.dropWhile p ++ xs := by
  induction ts with
  | nil =>
    cases xs with
    | nil => exact ⟨rfl, rfl⟩
    | cons x xs => simp [hx x]
  | cons t ts ih =>
    rw [List.cons_append, List.takeWhile_cons, List.takeWhile_cons, List.dropWhile_cons,
      List.dropWhile_cons, ih.1, ih.2]
    cases p t <;> exact ⟨rfl, rfl⟩

namespace Declaration

variable {spaces : String} {ts xs ys : List Token} {d : Parsed}

/-- The tokens before the first word. -/
theorem leading_of_word {lead : List Token} {w : Token} (hl : ∀ t ∈ lead, t.kind ≠ .word)
    (hw : w.kind = .word) (before : String) (rest : List Token) :
    leading before (lead ++ w :: rest) = .ok (before ++ Token.concat lead, w :: rest) := by
  induction lead generalizing before with
  | nil => rw [List.nil_append, leading, if_pos hw, show Token.concat [] = "" from rfl,
      String.append_empty]
  | cons t lead ih =>
    have hne : (lead ++ w :: rest).isEmpty = false := by simp
    rw [List.cons_append, leading, if_neg (hl t List.mem_cons_self), hne,
      if_neg Bool.false_ne_true, ih fun u hu => hl u (List.mem_cons_of_mem _ hu)]
    rw [show t :: lead = [t] ++ lead from rfl, concat_append, String.append_assoc]
    simp [Token.concat]

/-- Blanks and comments are no words, so that the first word stands before those at the end. -/
theorem leading_filling {before b : String} {ts1 : List Token} (hne : ts ++ xs ≠ [])
    (hx : Filling xs) (h : leading before (ts ++ xs) = .ok (b, ts1)) :
    ∃ lead w rest, ts = lead ++ w :: rest ∧ (∀ t ∈ lead, t.kind ≠ .word) ∧ w.kind = .word ∧
      b = before ++ Token.concat lead ∧ ts1 = w :: rest ++ xs := by
  obtain ⟨lead, hts, hb, hl, w, rest, rfl, hw⟩ := leading_ok hne h
  have hfiller : ∀ t ∈ xs, t.kind ≠ .word := by
    intro t ht hk
    have := hx t ht
    simp [Token.isFiller, hk] at this
  obtain ⟨mid, rfl, hrest⟩ | ⟨mid, rfl, hrest⟩ := List.append_eq_append_iff.1 hts
  · exact absurd hw (hfiller w (by rw [hrest]; simp))
  · cases mid with
    | nil => exact absurd hw (hfiller w (by rw [← List.nil_append xs, ← hrest]; simp))
    | cons u mid =>
      cases hrest
      refine ⟨lead, w, mid, rfl, hl, hw, String.ext ?_, rfl⟩
      rw [hb, String.toList_append, toList_concat]

theorem separator_filling {between : String} {r : String × List Token} (hy : Filling ys)
    (h : separator between (ts ++ xs) = .ok r) : ∃ r', separator between (ts ++ ys) = .ok r' := by
  induction ts generalizing between with
  | nil =>
    clear h
    rw [List.nil_append]
    induction ys generalizing between with
    | nil => exact ⟨_, rfl⟩
    | cons t ys ih =>
      have ht := hy t List.mem_cons_self
      have hk : t.kind ≠ .colon ∧ t.kind ≠ .word := by
        constructor <;> intro hk <;> simp [Token.isFiller, hk] at ht
      rw [separator, if_neg hk.1, if_neg (by simp [isWordLike, hk.2])]
      exact ih (fun u hu => hy u (List.mem_cons_of_mem _ hu))
  | cons t ts ih =>
    rw [List.cons_append, separator] at h
    rw [List.cons_append, separator]
    split
    · exact ⟨_, rfl⟩
    · next hk =>
      rw [if_neg hk] at h
      split
      · next hw =>
        rw [if_pos hw] at h
        cases h
      · next hw =>
        rw [if_neg hw] at h
        exact ih h

/-- A custom property is read if its parts are. -/
theorem parse_custom {before between : String} {ts1 ts2 : List Token}
    (hlead : leading spaces ts = .ok (before, ts1))
    (hsep : separator "" (ts1.dropWhile fun t => !endsProp t) = .ok (between, ts2)) :
    parse spaces ts none true =
      .ok (assemble before (Token.concat (ts1.takeWhile fun t => !endsProp t)) between ts2
        (((ts.dropWhile fun t => t.kind ≠ .word).head?.map Token.first).getD 0)
        (lastOffset (ts ++ [])) true) := by
  unfold parse
  rw [hlead]
  simp only [bind, Except.bind, hsep]
  rfl

/-- **A custom property at the end of the text** starts alike whatever blanks and comments it takes
in. -/
theorem parse_filling (hne : ts ≠ []) (hx : Filling xs) (hy : Filling ys)
    (h : parse spaces (ts ++ xs) none true = .ok d) :
    ∃ d', parse spaces (ts ++ ys) none true = .ok d' ∧ d.Twins d' := by
  obtain ⟨before, ts1, between, ts2, hlead, hsep, rfl⟩ := parse_ok h
  obtain ⟨lead, w, rest, rfl, hl, hw, rfl, rfl⟩ := leading_filling (by simp [hne]) hx hlead
  have hends : ∀ {zs : List Token}, Filling zs → ∀ t ∈ zs, (!endsProp t) = false :=
    fun hz t ht => by simp [endsProp, hz t ht]
  obtain ⟨htake, hdrop⟩ := takeWhile_append_of_neg (hends hx) (w :: rest)
  obtain ⟨htake', hdrop'⟩ := takeWhile_append_of_neg (hends hy) (w :: rest)
  rw [hdrop] at hsep
  obtain ⟨r, hsep'⟩ := separator_filling hy hsep
  have hlead' := leading_of_word hl hw spaces (rest ++ ys)
  rw [← hdrop'] at hsep'
  rw [← List.cons_append, ← List.append_assoc] at hlead'
  have hfirst : ∀ zs : List Token, ((lead ++ w :: rest ++ zs).dropWhile
      fun t => t.kind ≠ .word).head? = some w := by
    intro zs
    rw [List.append_assoc, List.dropWhile_append_of_pos (by simpa using hl), List.cons_append,
      List.dropWhile_cons, if_neg (by simp [hw])]
    rfl
  refine ⟨_, parse_custom hlead' hsep', rfl, by simp [assemble, NodeData.kind], ?_, ?_⟩
  · simp only [assemble, hfirst]
  · rw [(assemble_spec ..).2.2.1, (assemble_spec ..).2.2.1, htake, htake']

end Declaration

namespace Params

variable {spaces : String} {ts xs : List Token}

/-- Blanks and comments behind parameters are left over. -/
theorem divide_filling (hx : Filling xs)
    (hcore : (Token.cutEnd Token.isFiller ts).1.dropWhile Token.isFiller ≠ []) :
    divide spaces (ts ++ xs) .endOfParams = ((divide spaces ts .endOfParams).1,
      (divide spaces ts .endOfParams).2.1,
      (divide spaces ts .endOfParams).2.2 ++ Token.concat xs) := by
  unfold divide
  rw [cutEnd_filling hx]
  simp [hcore, concat_append]

/-- Without parameters nothing is left over. -/
theorem node_filling (hx : Filling xs)
    (hcore : (Token.cutEnd Token.isFiller ts).1.dropWhile Token.isFiller = []) (t : Token)
    (e : Ending) (last : Option Nat) : (divide spaces (ts ++ xs) e).2.2 = "" ∧
      (node spaces t (ts ++ xs) e last).wording.slot "before" = spaces := by
  have hd : (Token.cutEnd Token.isFiller (ts ++ xs)).1.dropWhile Token.isFiller = [] := by
    rw [cutEnd_filling hx]
    exact hcore
  obtain ⟨hdivided, hleft⟩ := @divided_of_nil spaces _ e hd (String.ofList (t.text.toList.drop 1))
    t.first last
  refine ⟨hleft, ?_⟩
  rw [Wording.slot, Raws.text?, show (node spaces t (ts ++ xs) e last).wording.raws.get? "before" =
    some (.text spaces) from hdivided.before]
  rfl

end Params

namespace Parser

variable {p q : Parser} {t note : Token} {rest rest' xs ys : List Token}

/-- Two parsers at the end of a text and of the same text with the footer `note`: the comment is
read by itself, or belongs to the blanks at the end, or to the last statement. -/
inductive Followed (note : Token) : Parser → Parser → Prop
  | comment (q : Parser) (spaces : String) :
      Followed note q (({ q with spaces } : Parser).comment note)
  | blank (q : Parser) (spaces : String) : Followed note q { q with spaces }
  | last (p : Parser) {d d' : Parsed} : d.Twins d' →
      Followed note (p.add (.leaf d) false) (p.add (.leaf d') false)

/-- An at-rule that the end of the text ends. -/
theorem atRule_atEnd (h : (Params.gather [] .endOfName rest).ending.AtEnd) :
    p.atRule none t rest = if (t.text.toList.drop 1).isEmpty
      then .error ⟨.namelessAtRule, t.first, some (t.last + 1)⟩
      else
        let g := Params.gather [] .endOfName rest
        .ok ({ p.add (.leaf (Params.node p.spaces t g.tokens g.ending g.last)) false with
          spaces := (Params.divide p.spaces g.tokens g.ending).2.2 }, g.rest) := by
  rw [atRule_eq]
  rcases h with h | h <;> simp only [h]

theorem atRule_footer (hend : (Params.gather [] .endOfName rest).ending.AtEnd) (hx : Filling xs)
    (hy : Filling ys) (h : p.atRule none t (rest ++ xs) = .ok (q, rest')) :
    rest' = [] ∧ ∃ q', p.atRule none t (rest ++ ys) = .ok (q', []) ∧ Followed note q q' := by
  have hends : ∀ {zs : List Token}, Filling zs →
      (Params.gather [] .endOfName (rest ++ zs)).ending.AtEnd :=
    fun hz => Params.atEnd_filling (.inl rfl) hend hz
  rw [atRule_atEnd (hends hx), Params.gather_atEnd (.inl rfl) (hends hx)] at h
  rw [atRule_atEnd (hends hy), Params.gather_atEnd (.inl rfl) (hends hy)]
  split at h
  · cases h
  · next hname =>
    cases h
    rw [if_neg hname]
    refine ⟨rfl, _, rfl, ?_⟩
    by_cases hcore : (Token.cutEnd Token.isFiller rest).1.dropWhile Token.isFiller = []
    · obtain ⟨hleft, hbefore⟩ := @Params.node_filling p.spaces rest xs hx hcore t
        (if (rest ++ xs).isEmpty then .endOfName else .endOfParams) none
      obtain ⟨hleft', hbefore'⟩ := @Params.node_filling p.spaces rest ys hy hcore t
        (if (rest ++ ys).isEmpty then .endOfName else .endOfParams) none
      rw [hleft, hleft']
      exact .last p ⟨rfl, by simp [Params.node, NodeData.kind], rfl, hbefore'.trans hbefore.symm⟩
    · have hne : ∀ zs : List Token, (rest ++ zs).isEmpty = false := by
        rintro zs
        cases rest with
        | nil => exact absurd rfl hcore
        | cons u rest => rfl
      simp only [hne, Bool.false_eq_true, if_false, Params.node, Params.Gathered.last,
        cutEnd_filling hx, cutEnd_filling hy, Params.divide_filling hx hcore,
        Params.divide_filling hy hcore]
      exact .blank _ _

/-- A custom property that the end of the text ends. -/
theorem run_footer (hc : Text.startsWith t.text "--" = true)
    (hend : (Phrase.gather true (Phrase.Nest.start.step true t) rest).ending = .endOfText)
    (hx : Filling xs) (hy : Filling ys) (h : p.run none t (rest ++ xs) = .ok (q, rest')) :
    rest' = [] ∧ ∃ q', p.run none t (rest ++ ys) = .ok (q', []) ∧ Followed note q q' := by
  have hg : ∀ {zs : List Token}, Filling zs → _ :=
    fun hz => Phrase.gather_filling (Phrase.sound_start.step true t) hend hz
  generalize hgathered : Phrase.gather true (Phrase.Nest.start.step true t) rest = g at hg
  unfold run at h ⊢
  simp only [hc, hg hx, hg hy, if_true] at h ⊢
  split at h
  · cases h
  split at h
  · cases h
  · next hcolon =>
    rw [if_neg hcolon]
    obtain ⟨q₀, hd, he⟩ := Except.map_ok h
    cases he
    obtain ⟨d, hparse, he⟩ := Except.bind_ok hd
    cases he
    rw [← List.cons_append] at hparse
    obtain ⟨d', hparse', htwins⟩ := Declaration.parse_filling (by simp) hx hy hparse
    rw [← List.cons_append, hparse']
    exact ⟨rfl, _, rfl, .last p htwins⟩

/-- **A step that takes in the end of the text.** -/
theorem step_footer (note : Token) (h : TakesEnd t rest) (hx : Filling xs) (hy : Filling ys)
    (hs : p.step none t (rest ++ xs) = .ok (q, rest')) :
    rest' = [] ∧ ∃ q', p.step none t (rest ++ ys) = .ok (q', []) ∧ Followed note q q' := by
  rcases h with ⟨hk, hend⟩ | ⟨hk, hc, hend⟩
  · simp only [step, hk] at hs ⊢
    exact atRule_footer hend hx hy hs
  · rw [step_of_startsRun hk] at hs ⊢
    exact run_footer hc hend hx hy hs

/-! ## The whole text -/

theorem statements_end (p : Parser) : statements none p [] = .ok p := by rw [statements]

theorem statements_space (ht : t.kind = .space) : statements none p (t :: rest) =
    statements none { p with spaces := p.spaces ++ t.text } rest :=
  statements_step (by simp only [step, ht])

theorem statements_comment (ht : t.kind = .comment) : statements none p (t :: rest) =
    statements none (p.comment t) rest :=
  statements_step (by simp only [step, ht])

theorem statements_blanks {blanks : List Token} (hb : ∀ t ∈ blanks, t.kind = .space)
    (h : statements none p blanks = .ok q) : ∃ spaces, q = { p with spaces } := by
  induction blanks generalizing p with
  | nil =>
    obtain ⟨-, rfl⟩ := statements_nil h
    exact ⟨_, rfl⟩
  | cons t blanks ih =>
    rw [statements_space (hb t List.mem_cons_self)] at h
    obtain ⟨spaces, rfl⟩ := ih (fun u hu => hb u (List.mem_cons_of_mem _ hu)) h
    exact ⟨spaces, rfl⟩

/-- The statements of a text with the footer `note` behind it. `blanks` are the blanks at the end of
the text, `space` these with the line break of the footer. -/
theorem statements_footer {front blanks : List Token} {space : Token}
    (hblanks : ∀ t ∈ blanks, t.kind = .space) (hspace : space.kind = .space)
    (hnote : note.kind = .comment) (h : statements none p (front ++ blanks) = .ok q) :
    ∃ q', statements none p (front ++ [space, note]) = .ok q' ∧ Followed note q q' := by
  have hx : Filling blanks := fun t ht => by simp [Token.isFiller, hblanks t ht]
  have hy : Filling [space, note] := by simp [Filling, Token.isFiller, hspace, hnote]
  -- a step may use many tokens, so the induction is on how many are left
  induction hn : front.length using Nat.strongRecOn generalizing p front with
  | ind n ih =>
    cases front with
    | nil =>
      obtain ⟨spaces, rfl⟩ := statements_blanks hblanks h
      refine ⟨_, ?_, .comment { p with spaces } (p.spaces ++ space.text)⟩
      rw [List.nil_append, statements_space hspace, statements_comment hnote, statements_end]
    | cons t rest =>
      rw [List.cons_append] at h
      obtain ⟨p', rest', hs, hrest⟩ := statements_cons h
      by_cases hend : TakesEnd t rest
      · obtain ⟨rfl, q', hs', hq⟩ := step_footer note hend hx hy hs
        obtain ⟨-, rfl⟩ := statements_nil hrest
        exact ⟨q', by rw [List.cons_append, statements_step hs', statements_end], hq⟩
      · rw [step_append hx hend] at hs
        obtain ⟨⟨p₁, left⟩, hstep, he⟩ := Except.map_ok hs
        cases he
        have hlt : left.length < n := by
          rw [← hn, List.length_cons]
          exact Nat.lt_succ_of_le (length_step hstep)
        obtain ⟨q', hq', hq⟩ := ih _ hlt hrest rfl
        refine ⟨q', ?_, hq⟩
        have hstep' : p.step none t (rest ++ [space, note]) = .ok (p₁, left ++ [space, note]) := by
          rw [step_append hy hend, hstep]
          rfl
        rw [List.cons_append, statements_step hstep', hq']

/-- The trees of a text and of the same text with the footer `note` differ only at their end. -/
inductive Footed (note : List Char) : Tree Parsed → Tree Parsed → Prop
  /-- The footer is the last comment. -/
  | comment {a b : Parsed} {ts : List (Tree Parsed)} {spaces : String} {t : Token} :
      (ts ≠ [] → b.wording.closed = a.wording.closed) → t.chars = note →
      Footed note (.block a ts) (.block b (ts ++ [.leaf (commentNode spaces t)]))
  /-- The footer belongs to the blanks at the end. -/
  | blank {a b : Parsed} {ts : List (Tree Parsed)} :
      (ts ≠ [] → b.wording.closed = a.wording.closed) → Footed note (.block a ts) (.block b ts)
  /-- The footer belongs to the last statement. -/
  | last {a b d d' : Parsed} {ts : List (Tree Parsed)} : d.Twins d' →
      a.wording.closed = false → b.wording.closed = false →
      Footed note (.block a (ts ++ [.leaf d])) (.block b (ts ++ [.leaf d']))

theorem finish_footer {t : Tree Parsed} (hq : Followed note p q) (h : p.finish = .ok t) :
    ∃ t', q.finish = .ok t' ∧ Footed note.chars t t' := by
  unfold finish at h
  split at h
  · next ho =>
    cases h
    cases hq with
    | comment _ spaces =>
      rw [comment_eq]
      refine ⟨_, if_pos ho, ?_⟩
      rw [OpenBlock.close_eq, OpenBlock.close_eq]
      simp only [add, OpenBlock.push, List.reverse_cons]
      refine .comment (fun hne => ?_) rfl
      rw [OpenBlock.closed_closeNode _ _ _ _ (by simp),
        OpenBlock.closed_closeNode _ _ _ _ (by simpa using hne)]
    | blank _ spaces =>
      refine ⟨_, if_pos ho, ?_⟩
      rw [OpenBlock.close_eq, OpenBlock.close_eq]
      refine .blank fun hne => ?_
      rw [OpenBlock.closed_closeNode _ _ _ _ (by simpa using hne),
        OpenBlock.closed_closeNode _ _ _ _ (by simpa using hne)]
    | last p htwins =>
      refine ⟨_, if_pos ho, ?_⟩
      rw [OpenBlock.close_eq, OpenBlock.close_eq]
      simp only [add, OpenBlock.push, List.reverse_cons]
      exact .last htwins (OpenBlock.closed_closeNode _ _ _ _ (by simp))
        (OpenBlock.closed_closeNode _ _ _ _ (by simp))
  · cases h

/-- **A text that can be read can be read with a footer**, and its tree is the same up to its
end. -/
theorem parse_footer {text eol note : List Char} {t : Tree Parsed}
    (hf : Lexer.Footer eol note) (h : parse text = .ok t) :
    ∃ t', parse (text ++ (eol ++ note)) = .ok t' ∧ Footed note t t' := by
  unfold parse at h
  obtain ⟨q, hs, hfinish⟩ := Except.bind_ok h
  obtain ⟨hnone, -⟩ := statements_inv hs (start_inv (Lexer.tokens_tiled (.ofChars text) rfl))
  obtain ⟨front, blanks, space, comment, hfront, hmore, hblanks, hspace, -, hcomment, hchars⟩ :=
    Lexer.tokens_footer (l := .ofChars text) rfl hnone hf
  rw [hnone, hfront] at hs
  obtain ⟨q', hs', hq⟩ := statements_footer hblanks hspace hcomment hs
  obtain ⟨t', hfinish', hfooted⟩ := finish_footer hq hfinish
  refine ⟨t', ?_, hchars ▸ hfooted⟩
  unfold parse
  rw [show Lexer.ofChars (text ++ (eol ++ note)) = (Lexer.ofChars text).withMore (eol ++ note) from
    rfl, hmore]
  simp only [hs', bind, Except.bind]
  exact hfinish'

end Parser

end Stylesheet
