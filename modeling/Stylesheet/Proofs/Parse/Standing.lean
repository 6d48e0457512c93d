import Stylesheet.Proofs.Parse.Parts

/-!
# Statements wherever they stand

A statement that was read from a text is read from tokens that are spelled alike, whatever stands
before and behind them. There is a lemma for each form of a statement: a comment, a declaration or
an at-rule with a semicolon (`yields_`), one that its block ends (`yieldsLast_`), and what opens a
block (`opens_`).
-/

set_option autoImplicit false

namespace Stylesheet

open Stylesheet.Tree Stylesheet.Token Stylesheet.Spelling

/-- What is spelled as a statement and its last token is such a statement and such a token. -/
theorem Token.Alike.exists_concat {ws ts : List Token} {t : Token} {s : Spelling}
    (h : ws.map Token.spelling = (t :: ts).map Token.spelling ++ [s]) :
    ∃ u us c, ws = u :: us ++ [c] ∧ Alike (t :: ts) (u :: us) ∧ c.spelling = s := by
  obtain ⟨vs, ss, rfl, hvs, hss⟩ := List.map_eq_append_iff.1 h
  obtain ⟨u, us, rfl, -, -⟩ := List.map_eq_cons_iff.1 hvs
  obtain ⟨c, rfl, hc⟩ := List.map_eq_singleton_iff.1 hss
  exact ⟨u, us, c, rfl, hvs.symm, hc⟩

/-! ## How runs and parameters end -/

namespace Phrase

variable {custom : Bool} {n : Nest} {ts : List Token} {t : Token}

theorem awaited_of_ending? {e : Ending} (h : ending? custom n t = some e) : n.awaited = [] := by
  unfold ending? at h
  split at h
  · cases h
  · next hn =>
    simp only [Bool.or_eq_true, Bool.not_eq_true', not_or, List.isEmpty_eq_false_iff] at hn
    exact not_not.1 hn.2

/-- A run ends outside of brackets, unless it is the text that ends. -/
theorem awaited_gather (h : (gather custom n ts).ending ≠ .endOfText) :
    (gather custom n ts).nest.awaited = [] := by
  induction ts generalizing n with
  | nil => exact absurd rfl h
  | cons t ts ih =>
    rw [gather] at h ⊢
    split
    · next he => exact awaited_of_ending? he
    · next he => exact awaited_of_ending? he
    · next he =>
      rw [he] at h
      exact ih h

/-- A brace that ends a run is no bracket. -/
theorem closer?_gather {c : Token} (h : (gather custom n ts).ending = .openCurly c) :
    closer? custom (gather custom n ts).nest.colon .openCurly = none := by
  induction ts generalizing n with
  | nil => cases h
  | cons t ts ih =>
    rw [gather] at h ⊢
    split
    · next he =>
      rw [he] at h
      cases h
    · next e hc he =>
      rw [he] at h
      simp only at h
      subst h
      unfold ending? at he
      split at he
      · cases he
      · next hn =>
        split at he <;> cases he
        next hk =>
        rw [hk] at hn
        have hn : closer? custom n.colon .openCurly = none ∧ n.awaited = [] := by simpa using hn
        exact hn.1
    · next he =>
      rw [he] at h
      exact ih h

variable (hn : n.awaited = [])
include hn

theorem ending?_semicolon (ht : t.kind = .semicolon) :
    ending? custom n t = some (.semicolon t) := by
  simp [ending?, closer?, hn, ht]

theorem ending?_closeCurly (ht : t.kind = .closeCurly) :
    ending? custom n t = some .closeCurly := by
  simp [ending?, closer?, hn, ht]

theorem ending?_openCurly (ht : t.kind = .openCurly)
    (hc : closer? custom n.colon .openCurly = none) :
    ending? custom n t = some (.openCurly t) := by
  simp [ending?, hn, ht, hc]

end Phrase

namespace Params

variable {awaited : List TokenKind} {e : Ending} {ts : List Token} {t : Token}

/-- Parameters end outside of brackets, unless it is the text that ends. -/
theorem behind_gather (h : Sane awaited) (he : e.AtEnd)
    (hg : ¬(gather awaited e ts).ending.AtEnd) :
    behind awaited (gather awaited e ts).tokens = [] := by
  induction ts generalizing awaited e with
  | nil => exact absurd he hg
  | cons t ts ih =>
    rw [gather] at hg ⊢
    simp only at hg ⊢
    split
    · next e' hend =>
      split at hend
      · next hnil =>
        -- what ends parameters closes no bracket
        have hstep : step awaited t = [] := List.isEmpty_iff.1 hnil
        cases hk : t.kind <;> simp only [ending?, hk, reduceCtorEq] at hend
        case closeCurly => exact h.eq_nil hk hstep
        all_goals
          cases awaited with
          | nil => rfl
          | cons a awaited =>
            have := h.closers a (.head _)
            unfold step at hstep
            simp only [hk] at hstep
            rcases this with rfl | rfl | rfl <;> simp at hstep
      · cases hend
    · next hend =>
      rw [hend] at hg
      exact ih (h.step t) (.inr rfl) hg

variable (hb : behind [] ts = [])
include hb

/-- Parameters with what ends them behind them. -/
theorem Passes.gather_end (h : Passes [] ts) {e' : Ending} (he : ending? t = some e')
    (rest : List Token) : gather [] e (ts ++ t :: rest) = ⟨ts, e', rest⟩ := by
  have hstep : step [] t = [] := by
    unfold ending? at he
    split at he
    · next hk => simp [step, hk]
    · next hk => simp [step, hk]
    · next hk => simp [step, hk]
    · cases he
  rw [h.gather_append, hb, gather]
  simp [hstep, he]

end Params

/-! ## Comments -/

/-- What a comment says. -/
def commentData (text : String) : NodeData :=
  .comment (String.ofList (Parser.commentParts ((text.toList.drop 2).dropLast.dropLast)).2.1)

namespace Spelling

/-- Only blanks and comments. -/
def Fillers (ss : List Spelling) : Prop := ∀ s ∈ ss, s.1 = .space ∨ s.1 = .comment

/-- The comments among blanks and comments. -/
def remarks : List Spelling → List (Tree NodeData)
  | [] => []
  | s :: ss => if s.1 = .comment then .leaf (commentData s.2) :: remarks ss else remarks ss

end Spelling

theorem Filling.fillers {xs : List Token} (h : Filling xs) : Fillers (xs.map Token.spelling) := by
  intro s hs
  obtain ⟨x, hx, rfl⟩ := List.mem_map.1 hs
  simpa [Token.isFiller, Token.spelling] using h x hx

theorem Filling.of_alike {xs ys : List Token} (h : Filling xs) (ha : Alike xs ys) : Filling ys := by
  intro y hy
  have hmem : y.spelling ∈ xs.map Token.spelling := ha ▸ List.mem_map_of_mem hy
  simpa [Token.isFiller, Token.spelling] using h.fillers _ hmem

namespace Parser

theorem data_comment (spaces : String) (t : Token) :
    (commentNode spaces t).data = commentData t.text := rfl

theorem yields_comment {s : Spelling} (hs : s.1 = .comment) :
    Yields [s] [.leaf (commentData s.2)] := by
  intro ts fin hts
  obtain ⟨t, rfl, ht⟩ := List.map_eq_singleton_iff.1 hts
  refine adds_of_step fun p => ⟨p.comment t, ?_, ?_⟩
  · simp only [step, Token.kind_of_spelling ht, hs, List.nil_append]
  · rw [comment_eq, ← Token.text_of_spelling ht, ← data_comment p.spaces t]
    exact p.gains_add _ _

theorem yields_fillers {ss : List Spelling} (h : Fillers ss) : Yields ss (remarks ss) := by
  induction ss with
  | nil => exact yields_nil
  | cons s ss ih =>
    obtain ⟨hs, hss⟩ := List.forall_mem_cons.1 h
    by_cases hk : s.1 = .comment
    · have := (yields_comment hk).append (ih hss)
      simpa [remarks, hk] using this
    · have hgap : Gap [s] := by simpa [Gap] using .inl (hs.resolve_right hk)
      have := (yields_gap hgap).append (ih hss)
      simpa [remarks, hk] using this

/-! ## Declarations -/

variable {p q : Parser} {t u : Token} {ts us xs ys rest rest' : List Token}

/-- Whether a run is a custom property. -/
def isCustom (t : Token) : Bool := Text.startsWith t.text "--"

/-- Where the reader of a run stands behind its tokens. -/
def nest (t : Token) (ts : List Token) : Phrase.Nest :=
  (Phrase.Nest.start.step (isCustom t) t).behind (isCustom t) ts

/-- The tokens are a run that may end behind them. -/
structure Runs (t : Token) (ts : List Token) : Prop where
  starts : startsRun t.kind = true
  passes : Phrase.Passes (isCustom t) (Phrase.Nest.start.step (isCustom t) t) ts
  awaited : (nest t ts).awaited = []

namespace Runs

theorem sound (t : Token) : (Phrase.Nest.start.step (isCustom t) t).Sound :=
  Phrase.sound_start.step _ t

theorem alike (h : Runs t ts) (ha : Alike (t :: ts) (u :: us)) :
    Runs u us ∧ isCustom u = isCustom t ∧ (nest u us).colon = (nest t ts).colon := by
  obtain ⟨v, vs, hv, hk, htext, hus⟩ := ha.cons_inv
  obtain ⟨rfl, rfl⟩ := List.cons.inj hv
  have hcustom : isCustom u = isCustom t := by rw [isCustom, isCustom, htext]
  have hstart : (Phrase.Nest.start.step (isCustom t) t).Like
      (Phrase.Nest.start.step (isCustom t) u) := Phrase.Nest.Like.step ⟨rfl, rfl, rfl⟩ hk
  obtain ⟨hpasses, hlike⟩ := h.passes.alike hus hstart
  refine ⟨⟨by rw [hk]; exact h.starts, by rw [hcustom]; exact hpasses, ?_⟩, hcustom, ?_⟩
  · rw [nest, hcustom]
    exact hlike.awaited.trans h.awaited
  · rw [nest, hcustom]
    exact hlike.colon

/-- Blanks and comments behind a run change nothing. -/
theorem append_iff (hx : Filling xs) : Runs t (ts ++ xs) ↔ Runs t ts := by
  have hnest : nest t (ts ++ xs) = nest t ts := by
    rw [nest, Phrase.Nest.behind, List.foldl_append]
    exact ((sound t).behind ts).behind_filling hx
  constructor
  · exact fun h => ⟨h.starts, (Phrase.passes_append.1 h.passes).1, hnest ▸ h.awaited⟩
  · refine fun h => ⟨h.starts, Phrase.passes_append.2 ⟨h.passes, ?_⟩, hnest ▸ h.awaited⟩
    exact Phrase.passes_filling ((sound t).behind ts) hx

theorem nest_append (hx : Filling xs) : nest t (ts ++ xs) = nest t ts := by
  rw [nest, Phrase.Nest.behind, List.foldl_append]
  exact ((sound t).behind ts).behind_filling hx

/-- No parenthesis opens at the end of a run. -/
theorem getLast?_ne (h : Runs t ts) : ∀ v ∈ (t :: ts).getLast?, v.kind ≠ .openParen := by
  intro v hv hk
  obtain ⟨front, hfront⟩ := List.getLast?_eq_some_iff.1 hv
  have hnest : nest t ts = Phrase.Nest.start.behind (isCustom t) (t :: ts) := rfl
  have hne := @Phrase.Nest.awaited_openParen (isCustom t) Phrase.Nest.start front v hk
  rw [← hfront, ← hnest] at hne
  exact hne h.awaited

theorem gather (h : Runs t ts) (rest : List Token) :
    Phrase.gather (isCustom t) (Phrase.Nest.start.step (isCustom t) t) (ts ++ rest) =
      let g := Phrase.gather (isCustom t) (nest t ts) rest
      { g with tokens := ts ++ g.tokens } := h.passes.gather_append rest

end Runs

/-- What a run is, of which a declaration or a selector was made. -/
theorem runs_gather (hs : startsRun t.kind = true) (h : p.run none t rest = .ok (q, rest')) :
    let g := Phrase.gather (isCustom t) (Phrase.Nest.start.step (isCustom t) t) rest
    Runs t g.tokens ∧ g.nest = nest t g.tokens ∧
      ((∀ c, g.ending ≠ .openCurly c) → g.nest.colon = true) := by
  intro g
  obtain ⟨hpasses, hnest⟩ : Phrase.Passes _ _ g.tokens ∧ g.nest = nest t g.tokens :=
    Phrase.passes_gather (isCustom t) (Phrase.Nest.start.step (isCustom t) t) rest
  have hmatched : (nest t g.tokens).Matched :=
    (@Phrase.Nest.Matched.step (isCustom t) _ Phrase.Nest.matched_start t).behind g.tokens
  have hawaited : g.ending ≠ .endOfText → (nest t g.tokens).awaited = [] :=
    fun he => hnest ▸ Phrase.awaited_gather he
  have hrun : g.nest.awaited = [] ∧ ((∀ c, g.ending ≠ .openCurly c) → g.nest.colon = true) := by
    unfold run at h
    extract_lets custom g' declaration last at h
    have hlast : ∀ {left}, last left = .ok (q, rest') → g.nest.colon = true := by
      intro left hl
      simp only [last] at hl
      split at hl
      · cases hl
      · next hc =>
        have hcolon : g'.nest.colon = true := by simpa using hc
        exact hcolon
    rw [← hnest] at hawaited
    have hg : g' = g := rfl
    split at h
    · next he =>
      rw [hg] at he h
      refine ⟨hawaited (by rw [he]; simp), fun _ => ?_⟩
      split at h
      · assumption
      · cases h
    · next c he =>
      rw [hg] at he
      exact ⟨hawaited (by rw [he]; simp), fun hc => absurd he (hc c)⟩
    · next he =>
      rw [hg] at he
      exact ⟨hawaited (by rw [he]; simp), fun _ => hlast h⟩
    · simp only [hg] at h
      split at h
      · cases h
      · next ho => exact ⟨(hnest ▸ hmatched).1 ho, fun _ => hlast h⟩
  exact ⟨⟨hs, hpasses, hnest ▸ hrun.1⟩, hnest, hrun.2⟩

/-- From tokens that are spelled alike the same ones are left to the block. -/
theorem runEnd_alike {custom : Bool} {ys : List Token} (ht : Alike ts us) (hx : Alike xs ys)
    (h : runEnd custom (ts ++ xs) = (ts, xs)) : runEnd custom (us ++ ys) = (us, ys) := by
  cases custom with
  | true =>
    obtain rfl : xs = [] := (congrArg Prod.snd h).symm
    obtain rfl : ys = [] := List.map_eq_nil_iff.1 hx.symm
    simp [runEnd]
  | false =>
    have hwhole : Alike (ts ++ xs) (us ++ ys) := by
      rw [Alike] at ht hx ⊢
      rw [List.map_append, List.map_append, ht, hx]
    have hleft : Alike (runEnd false (ts ++ xs)).1 (runEnd false (us ++ ys)).1 :=
      hwhole.of_comm (f := fun ts => (Token.cutEnd Token.isFiller ts).1) fun ts => by
        rw [cutEnd_bare isFiller_bare]
    rw [h] at hleft
    have hlen := congrArg List.length (hleft.symm.trans ht)
    rw [List.length_map, List.length_map] at hlen
    obtain ⟨h1, h2⟩ := List.append_inj (runEnd_append false (us ++ ys)) hlen
    exact Prod.ext h1 h2

section
variable {spaces : String} {closing : Option Token} {d : Parsed} (hr : Runs t ts)
  (hc : (nest t ts).colon = true)
  (hd : Declaration.parse spaces (t :: ts) closing (isCustom t) = .ok d)
include hr hc hd

/-- A declaration with a semicolon. -/
theorem yields_declaration :
    Yields ((t :: ts).map Token.spelling ++ [Spelling.semicolon]) [.leaf d.data] := by
  intro ws fin hws
  obtain ⟨u, us, s, rfl, ha, hs⟩ := Alike.exists_concat hws
  obtain ⟨hr', hcustom, hcolon⟩ := hr.alike ha
  refine show Adds (u :: (us ++ [s])) fin _ from adds_of_step fun p => ?_
  obtain ⟨m, hm, hdata⟩ := Declaration.parse_alike ha hd p.spaces (some s)
  rw [← hcustom] at hm
  refine ⟨p.add (.leaf m) true, ?_, hdata ▸ p.gains_add (.leaf m) true⟩
  have hg := hr'.gather (s :: fin)
  rw [Phrase.gather, Phrase.ending?_semicolon hr'.awaited (Token.kind_of_spelling hs)] at hg
  rw [step_of_startsRun hr'.starts, List.append_assoc, List.singleton_append]
  unfold run
  simp only [isCustom] at hg hm
  simp [hg, hm, hcolon.trans hc, Except.map, bind, Except.bind, pure, Except.pure]

/-- **A declaration that its block ends**, with the blanks and comments that it leaves to it. -/
theorem yieldsLast_declaration (hx : Filling xs)
    (hcut : runEnd (isCustom t) (ts ++ xs) = (ts, xs)) (inner : Bool) :
    YieldsLast inner ((t :: ts).map Token.spelling ++ xs.map Token.spelling)
      (.leaf d.data :: remarks (xs.map Token.spelling)) := by
  intro ws fin hws hfin
  obtain ⟨vs, ys, rfl, hvs, hys⟩ := List.map_eq_append_iff.1 hws
  obtain ⟨u, us, rfl, -, -⟩ := List.map_eq_cons_iff.1 hvs
  have ha : Alike (t :: ts) (u :: us) := hvs.symm
  have hy : Filling ys := hx.of_alike hys.symm
  obtain ⟨hr', hcustom, hcolon⟩ := hr.alike ha
  have hcut' := runEnd_alike (List.cons.inj ha).2 hys.symm hcut
  rw [← hcustom] at hcut'
  suffices h : Adds (u :: us) (ys ++ fin) [.leaf d.data] by
    exact h.append (yields_fillers hx.fillers ys fin hys)
  refine adds_of_step fun p => ?_
  obtain ⟨m, hm, hdata⟩ := Declaration.parse_alike ha hd p.spaces none
  rw [← hcustom] at hm
  refine ⟨p.add (.leaf m) false, ?_, hdata ▸ p.gains_add (.leaf m) false⟩
  have hr'' := (Runs.append_iff hy).2 hr'
  have hg := hr''.gather fin
  rw [Runs.nest_append hy] at hg
  have hmatched : (nest u us).Matched :=
    (@Phrase.Nest.Matched.step (isCustom u) _ Phrase.Nest.matched_start u).behind us
  have hopener : (nest u us).opener = none := hmatched.2 hr'.awaited
  rw [step_of_startsRun hr'.starts, ← List.append_assoc]
  unfold run
  change (if Text.startsWith u.text "--" then (us ++ ys, []) else Token.cutEnd Token.isFiller
    (us ++ ys)) = (us, ys) at hcut'
  simp only [isCustom] at hg hm
  cases fin with
  | nil =>
    rw [Phrase.gather] at hg
    simp only [List.append_nil] at hg ⊢
    simp only [hg, hopener, hcolon.trans hc]
    rw [hcut']
    simp [hm, Except.map, bind, Except.bind, pure, Except.pure]
  | cons e fin =>
    rw [Phrase.gather, Phrase.ending?_closeCurly hr'.awaited hfin.2] at hg
    simp only [List.append_nil] at hg
    simp only [hg, hcolon.trans hc]
    rw [hcut']
    simp [hm, Except.map, bind, Except.bind, pure, Except.pure]

end

/-! ## Rules -/

theorem opens_emptyRule {s : Spelling} (hs : s.1 = .openCurly) : Opens [s] (.rule "") := by
  intro ts rest hts p
  obtain ⟨t, rfl, ht⟩ := List.map_eq_singleton_iff.1 hts
  refine ⟨⟨.rule "", (Raws.empty.setText "before" p.spaces).setText "between" "", t.first, none⟩,
    rfl, statements_step ?_⟩
  simp only [step, Token.kind_of_spelling ht, hs]
  rfl

/-- What opens a rule. -/
theorem opens_rule (hr : Runs t ts)
    (hcloser : Phrase.closer? (isCustom t) (nest t ts).colon .openCurly = none) {s : Spelling}
    (hs : s.1 = .openCurly) (spaces : String) :
    Opens ((t :: ts).map Token.spelling ++ [s]) (ruleNode spaces t (t :: ts)).data := by
  intro ws rest hws p
  obtain ⟨u, us, c, rfl, ha, hck⟩ := Alike.exists_concat hws
  obtain ⟨hr', hcustom, hcolon⟩ := hr.alike ha
  have hsplit : u :: us ++ [c] ++ rest = u :: (us ++ c :: rest) := by simp
  refine ⟨ruleNode p.spaces u (u :: us), ?_, hsplit ▸ statements_step ?_⟩
  · have hcut : Alike (Token.cutEnd Token.isFiller (t :: ts)).1
        (Token.cutEnd Token.isFiller (u :: us)).1 :=
      ha.of_comm (f := fun ts => (Token.cutEnd Token.isFiller ts).1) fun ts => by
        rw [cutEnd_bare isFiller_bare]
    simp only [ruleNode]
    rw [cleanInto_alike hcut]
  · have hg := hr'.gather (c :: rest)
    rw [← hcustom, ← hcolon] at hcloser
    rw [Phrase.gather, Phrase.ending?_openCurly hr'.awaited
      ((Token.kind_of_spelling hck).trans hs) hcloser] at hg
    rw [step_of_startsRun hr'.starts]
    unfold run
    simp only [isCustom] at hg
    simp [hg, rule_eq]

/-! ## At-rules -/

/-- The name of an at-rule. -/
def atName (t : Token) : String := String.ofList (t.text.toList.drop 1)

/-- The tokens are the name and the parameters of an at-rule. -/
structure Directs (t : Token) (ts : List Token) : Prop where
  kind : t.kind = .atWord
  name : (t.text.toList.drop 1).isEmpty = false
  passes : Params.Passes [] ts

namespace Directs

theorem alike (h : Directs t ts) (ha : Alike (t :: ts) (u :: us)) :
    Directs u us ∧ atName u = atName t ∧ Alike ts us ∧
      Params.behind [] us = Params.behind [] ts := by
  obtain ⟨v, vs, hv, hk, htext, hus⟩ := ha.cons_inv
  obtain ⟨rfl, rfl⟩ := List.cons.inj hv
  obtain ⟨hpasses, hbehind⟩ := h.passes.alike hus
  exact ⟨⟨hk.trans h.kind, by rw [htext]; exact h.name, hpasses⟩, by rw [atName, atName, htext],
    hus, hbehind⟩

/-- An at-rule by what ends it. -/
theorem step_eq (h : Directs t ts) {e : Params.Ending}
    (hg : Params.gather [] .endOfName rest = ⟨ts, e, rest'⟩) (p : Parser) :
    ∃ (n : Parsed) (spaces : String),
      n.data = .atRule (atName t) (Params.divide p.spaces ts e).1 ∧
      p.step none t rest = match e with
        | .openCurly => .ok (p.enter n, rest')
        | .closeCurly c => ((p.add (.leaf n) false).leave c).map (·, rest')
        | .semicolon _ => .ok (p.add (.leaf n) true, rest')
        | _ => .ok ({ p.add (.leaf n) false with spaces }, rest') := by
  refine ⟨Params.node p.spaces t ts e (Params.Gathered.last ⟨ts, e, rest'⟩),
    (Params.divide p.spaces ts e).2.2, rfl, ?_⟩
  simp only [step, h.kind, atRule_eq, h.name, hg, Bool.false_eq_true, if_false]
  cases e <;> rfl

/-- No parenthesis opens at the end of an at-rule. -/
theorem getLast?_ne (h : Directs t ts) (hb : Params.behind [] ts = []) :
    ∀ v ∈ (t :: ts).getLast?, v.kind ≠ .openParen := by
  intro v hv hk
  rcases List.eq_nil_or_concat ts with rfl | ⟨front, w, rfl⟩
  · obtain rfl : t = v := by simpa using hv
    rw [h.kind] at hk
    cases hk
  · obtain rfl : w = v := by simpa [List.getLast?_cons] using hv
    simp [Params.behind, Params.step, hk] at hb

end Directs

/-- What the parameters were gathered from. -/
theorem directs_gather (hk : t.kind = .atWord) (h : p.atRule none t rest = .ok (q, rest')) :
    Directs t (Params.gather [] .endOfName rest).tokens := by
  refine ⟨hk, ?_, Params.passes_gather _ _ _⟩
  rw [atRule_eq] at h
  split at h
  · cases h
  · next hn => simpa using hn

section
variable (h : Directs t ts) (spaces : String) (e : Params.Ending)
include h

/-- An at-rule with a semicolon. Blanks and comments at its end do not matter. -/
theorem yields_atRule (hb : Params.behind [] ts = []) (hx : Filling xs) :
    Yields ((t :: ts).map Token.spelling ++ [Spelling.semicolon])
      [.leaf (.atRule (atName t) (Params.divide spaces (ts ++ xs) e).1)] := by
  intro ws fin hws
  obtain ⟨u, us, s, rfl, halike, hs⟩ := Alike.exists_concat hws
  obtain ⟨h', hname, ha, hbehind⟩ := h.alike halike
  have hend : Params.ending? s = some (.semicolon s) := by
    simp [Params.ending?, Token.kind_of_spelling hs, Spelling.semicolon]
  refine show Adds (u :: (us ++ [s])) fin _ from adds_of_step fun p => ?_
  obtain ⟨n, left, hn, hstep⟩ := h'.step_eq
    (Params.Passes.gather_end (hbehind.trans hb) h'.passes hend fin) p
  refine ⟨p.add (.leaf n) true, by simpa using hstep, ?_⟩
  rw [← hname, ← Params.divide_alike ha hx spaces p.spaces e (.semicolon s), ← hn]
  exact p.gains_add (.leaf n) true

/-- An at-rule that its block ends. At the end of the text brackets may be open. -/
theorem yieldsLast_atRule {inner : Bool} (hb : inner = true → Params.behind [] ts = []) :
    YieldsLast inner ((t :: ts).map Token.spelling)
      [.leaf (.atRule (atName t) (Params.divide spaces ts e).1)] := by
  intro ws fin hws hfin p
  obtain ⟨u, us, rfl, -, -⟩ := List.map_eq_cons_iff.1 hws
  obtain ⟨h', hname, ha, hbehind⟩ := h.alike hws.symm
  have hdivide := fun e' => @Params.divide_alike ts us [] ha nofun spaces p.spaces e e'
  rw [List.append_nil] at hdivide
  cases fin with
  | nil =>
    obtain ⟨e', hg, he⟩ : ∃ e', Params.gather [] .endOfName us = ⟨us, e', []⟩ ∧ e'.AtEnd := by
      have hg := h'.passes.gather_append .endOfName []
      rw [List.append_nil, Params.gather] at hg
      refine ⟨if us.isEmpty then .endOfName else .endOfParams, by simpa using hg, ?_⟩
      split
      · exact .inl rfl
      · exact .inr rfl
    obtain ⟨n, left, hn, hstep⟩ := h'.step_eq hg p
    refine ⟨{ p.add (.leaf n) false with spaces := left }, ?_, ?_⟩
    · rw [List.append_nil]
      refine statements_step (hstep.trans ?_)
      rcases he with rfl | rfl <;> rfl
    · rw [← hname, ← hdivide e', ← hn]
      exact (p.gains_add (.leaf n) false).trans (gains_spaces _ left)
  | cons c fin =>
    have hc : c.kind = .closeCurly := hfin.2
    have hend : Params.ending? c = some (.closeCurly c) := by simp [Params.ending?, hc]
    obtain ⟨n, left, hn, hstep⟩ := h'.step_eq
      (Params.Passes.gather_end (hbehind.trans (hb hfin.1)) h'.passes hend fin) p
    refine ⟨p.add (.leaf n) false, ?_, ?_⟩
    · have hleave : (p.add (.leaf n) false).step none c fin =
          ((p.add (.leaf n) false).leave c).map (·, fin) := by
        simp only [step, hc]
      rw [List.cons_append, statements_cons_eq, statements_cons_eq, hstep, hleave]
    · rw [← hname, ← hdivide (.closeCurly c), ← hn]
      exact p.gains_add (.leaf n) false

/-- What opens an at-rule with a block. -/
theorem opens_atRule (hb : Params.behind [] ts = []) {s : Spelling} (hs : s.1 = .openCurly) :
    Opens ((t :: ts).map Token.spelling ++ [s])
      (.atRule (atName t) (Params.divide spaces ts e).1) := by
  intro ws rest hws p
  obtain ⟨u, us, c, rfl, halike, hck⟩ := Alike.exists_concat hws
  obtain ⟨h', hname, ha, hbehind⟩ := h.alike halike
  have hdivide := @Params.divide_alike ts us [] ha nofun spaces p.spaces e .openCurly
  rw [List.append_nil] at hdivide
  have hend : Params.ending? c = some .openCurly := by
    simp [Params.ending?, Token.kind_of_spelling hck, hs]
  obtain ⟨n, left, hn, hstep⟩ := h'.step_eq
    (Params.Passes.gather_end (hbehind.trans hb) h'.passes hend rest) p
  have hsplit : u :: us ++ [c] ++ rest = u :: (us ++ c :: rest) := by simp
  refine ⟨n, ?_, hsplit ▸ statements_step hstep⟩
  rw [← hname, ← hdivide]
  exact hn

end

end Parser

end Stylesheet
