import Stylesheet.Proofs.Parse.Reread

/-!
# Tokens without their places

What the parser reads depends on the kinds and texts of the tokens, not on where they stand. The
functions on runs of tokens commute with `Token.bare`, which forgets the places. So tokens that are
spelled alike are read as the same declaration (`Declaration.parse_alike`), as the same parameters
(`Params.divide_alike`), and end where the others do (`Phrase.Passes.alike`, `Params.Passes.alike`).
-/

set_option autoImplicit false

namespace Stylesheet

open Stylesheet.Text

namespace Token

/-- The token without its place. -/
def bare (t : Token) : Token := ⟨t.kind, t.text, 0, 0⟩

@[simp] theorem kind_bare (t : Token) : t.bare.kind = t.kind := rfl

@[simp] theorem text_bare (t : Token) : t.bare.text = t.text := rfl

@[simp] theorem isFiller_bare (t : Token) : t.bare.isFiller = t.isFiller := rfl

@[simp] theorem isSpace_bare (t : Token) : t.bare.isSpace = t.isSpace := rfl

@[simp] theorem concat_bare (ts : List Token) : concat (ts.map bare) = concat ts := by
  simp [concat, Function.comp_def]

theorem takeWhile_bare {p : Token → Bool} (hp : ∀ t, p t.bare = p t) (ts : List Token) :
    (ts.map bare).takeWhile p = (ts.takeWhile p).map bare := by
  rw [List.takeWhile_map]
  exact congrArg (List.map bare) (congrArg (List.takeWhile · ts) (funext hp))

theorem dropWhile_bare {p : Token → Bool} (hp : ∀ t, p t.bare = p t) (ts : List Token) :
    (ts.map bare).dropWhile p = (ts.dropWhile p).map bare := by
  rw [List.dropWhile_map]
  exact congrArg (List.map bare) (congrArg (List.dropWhile · ts) (funext hp))

theorem cutEnd_bare {p : Token → Bool} (hp : ∀ t, p t.bare = p t) (ts : List Token) :
    cutEnd p (ts.map bare) = ((cutEnd p ts).1.map bare, (cutEnd p ts).2.map bare) := by
  simp only [cutEnd, ← List.map_reverse, takeWhile_bare hp, dropWhile_bare hp]

/-- The tokens have the same kinds and texts. -/
def Alike (ts us : List Token) : Prop := ts.map spelling = us.map spelling

namespace Alike

variable {ts us : List Token}

theorem bare_eq (h : Alike ts us) : ts.map bare = us.map bare := by
  have hbare : bare = (fun s : Spelling => ⟨s.1, s.2, 0, 0⟩) ∘ spelling := rfl
  rw [hbare, ← List.map_map, ← List.map_map, show ts.map spelling = us.map spelling from h]

theorem of_bare_eq (h : ts.map bare = us.map bare) : Alike ts us := by
  have hspelling : spelling = spelling ∘ bare := rfl
  rw [Alike, hspelling, ← List.map_map, ← List.map_map, h]

/-- A function that does not look at places gives alike tokens for alike tokens. -/
theorem of_comm {f : List Token → List Token} (h : Alike ts us)
    (hf : ∀ ts, f (ts.map bare) = (f ts).map bare) : Alike (f ts) (f us) :=
  of_bare_eq (by rw [← hf, ← hf, h.bare_eq])

theorem cons_inv {t : Token} (h : Alike (t :: ts) us) :
    ∃ u us', us = u :: us' ∧ u.kind = t.kind ∧ u.text = t.text ∧ Alike ts us' := by
  cases us with
  | nil => cases h
  | cons u us =>
    obtain ⟨hs, hts⟩ := List.cons.inj h
    exact ⟨u, us, rfl, (congrArg Prod.fst hs).symm, (congrArg Prod.snd hs).symm, hts⟩

theorem concat_eq (h : Alike ts us) : concat ts = concat us := by
  rw [← concat_bare ts, h.bare_eq, concat_bare]

end Alike

end Token

open Token

/-! ## Cleaned values -/

theorem Cleaning.isSafe_bare (t : Option Token) : isSafe (t.map bare) = isSafe t := by
  cases t <;> rfl

theorem Cleaning.clean_bare (trimEnd : Bool) (before : Option Token) (value : String)
    (ts : List Token) :
    clean trimEnd (before.map bare) value (ts.map bare) = clean trimEnd before value ts := by
  induction ts generalizing before value with
  | nil => rfl
  | cons t ts ih =>
    have hsome : some t.bare = (some t).map bare := rfl
    have hhead : isSafe (ts.map bare).head? = isSafe ts.head? := by
      rw [List.head?_map, isSafe_bare]
    simp only [List.map_cons, clean, kind_bare, text_bare, isSafe_bare, hhead, List.isEmpty_map,
      hsome, ih]
    rfl

theorem cleanInto_alike {ts us : List Token} (h : Alike ts us) (raws raws' : Raws) (slot : String)
    (trimEnd : Bool) :
    (cleanInto raws slot trimEnd ts).1 = (cleanInto raws' slot trimEnd us).1 := by
  simp only [cleanInto]
  rw [← Cleaning.clean_bare trimEnd none "" ts, h.bare_eq, Cleaning.clean_bare]

/-! ## Declarations -/

namespace Declaration

theorem leading_alike {before b : String} {ts us ts' : List Token} (h : Alike ts us)
    (hl : leading before ts = .ok (b, ts')) (before' : String) :
    ∃ b' us', leading before' us = .ok (b', us') ∧ Alike ts' us' := by
  induction ts generalizing before us before' with
  | nil =>
    cases hl
    obtain rfl : us = [] := List.map_eq_nil_iff.1 h.symm
    exact ⟨_, _, rfl, h⟩
  | cons t ts ih =>
    obtain ⟨u, us, rfl, hk, -, hus⟩ := h.cons_inv
    have hempty : us.isEmpty = ts.isEmpty := by
      rw [← List.isEmpty_map (f := spelling), ← show ts.map spelling = us.map spelling from hus,
        List.isEmpty_map]
    rw [leading] at hl ⊢
    rw [hk, hempty]
    split at hl
    · next hw =>
      cases hl
      exact ⟨_, _, if_pos hw, h⟩
    · next hw =>
      split at hl
      · cases hl
      · next he =>
        rw [if_neg hw, if_neg he]
        exact ih hus hl _

theorem separator_alike {between b : String} {ts us ts' : List Token} (h : Alike ts us)
    (hs : separator between ts = .ok (b, ts')) :
    ∃ us', separator between us = .ok (b, us') ∧ Alike ts' us' := by
  induction ts generalizing between us with
  | nil =>
    cases hs
    obtain rfl : us = [] := List.map_eq_nil_iff.1 h.symm
    exact ⟨_, rfl, h⟩
  | cons t ts ih =>
    obtain ⟨u, us, rfl, hk, ht, hus⟩ := h.cons_inv
    have hword : isWordLike u = isWordLike t := by rw [isWordLike, isWordLike, hk, ht]
    rw [separator] at hs ⊢
    rw [hk, hword, ht]
    split at hs
    · next hc =>
      cases hs
      exact ⟨_, if_pos hc, hus⟩
    · next hc =>
      split at hs
      · cases hs
      · next hw =>
        rw [if_neg hc, if_neg hw]
        exact ih hus hs

/-- One step of the search does not look at places. `bound` says whether it may end here. -/
theorem unwind_step_bare {position : Nat} (ih : ∀ mark reversed,
    unwind position mark (reversed.map bare) =
      ((unwind position mark reversed).1, (unwind position mark reversed).2.map bare))
    (mark : String) (reversed : List Token) (bound : Bool) :
    (if startsWithBang mark && bound then (mark, reversed.map bare)
      else match reversed.map bare with
        | [] => (mark, [])
        | t :: rest => unwind position (t.text ++ mark) rest) =
    let r := if startsWithBang mark && bound then (mark, reversed)
      else match reversed with
        | [] => (mark, [])
        | t :: rest => unwind position (t.text ++ mark) rest
    (r.1, r.2.map bare) := by
  by_cases hb : (startsWithBang mark && bound) = true
  · simp only [if_pos hb]
  · simp only [if_neg hb]
    cases reversed with
    | nil => rfl
    | cons t ts => exact ih _ _

theorem unwind_bare (position : Nat) (mark : String) (reversed : List Token) :
    unwind position mark (reversed.map bare) =
      ((unwind position mark reversed).1, (unwind position mark reversed).2.map bare) := by
  induction position generalizing mark reversed with
  | zero => rfl
  | succ position ih =>
    unfold unwind
    simp only [← List.map_reverse, List.getElem?_map]
    cases reversed.reverse[position + 1]? with
    | none => exact unwind_step_bare ih mark reversed false
    | some u => exact unwind_step_bare ih mark reversed (!u.isSpace)

theorem findMark_bare (ts : List Token) :
    findMark (ts.map bare) = ⟨(findMark ts).tokens.map bare, (findMark ts).mark⟩ := by
  unfold findMark
  rw [cutEnd_bare isFiller_bare]
  generalize cutEnd isFiller ts = cut
  obtain ⟨body, filler⟩ := cut
  simp only [List.getLast?_map]
  cases hlast : body.getLast? with
  | none => rfl
  | some w =>
    simp only [Option.map_some, text_bare]
    by_cases hmark : lower w.text = "!important"
    · simp only [if_pos hmark, ← List.map_dropLast, cutEnd_bare isSpace_bare, ← List.map_cons,
        concat_bare]
    by_cases hword : lower w.text = "important"
    · simp only [if_neg hmark, if_pos hword, ← List.map_reverse, List.length_map, unwind_bare]
      split
      · rfl
      · rfl
    · rw [if_neg hmark, if_neg hword]
      exact (if_neg hmark).trans (if_neg hword)

theorem beforeColon_alike {depth : Int} {seen seen' : List Token} {prev prev' : Option Token}
    {ts us : List Token} (h : Alike ts us) (hseen : seen.map bare = seen'.map bare)
    (hprev : prev.map bare = prev'.map bare) :
    (beforeColon depth seen prev ts).toOption.map (Option.map (List.map bare)) =
      (beforeColon depth seen' prev' us).toOption.map (Option.map (List.map bare)) := by
  induction ts generalizing depth seen seen' prev prev' us with
  | nil =>
    obtain rfl : us = [] := List.map_eq_nil_iff.1 h.symm
    rfl
  | cons t ts ih =>
    obtain ⟨u, us, rfl, hk, ht, hus⟩ := h.cons_inv
    have hbare : t.bare = u.bare := by rw [bare, bare, hk, ht]
    have hcons : (t :: seen).map bare = (u :: seen').map bare := by simp [hbare, hseen]
    have hsome : (some t).map bare = (some u).map bare := congrArg some hbare
    unfold beforeColon
    rw [hk]
    by_cases hopen : t.kind = .openParen
    · rw [if_pos hopen, if_pos hopen]
      exact ih hus hcons hsome
    rw [if_neg hopen, if_neg hopen]
    by_cases hclose : t.kind = .closeParen
    · rw [if_pos hclose, if_pos hclose]
      exact ih hus hcons hsome
    rw [if_neg hclose, if_neg hclose]
    by_cases hcolon : (t.kind = .colon && depth = 0) = true
    · rw [if_pos hcolon, if_pos hcolon]
      cases prev with
      | none =>
        obtain rfl : prev' = none := Option.map_eq_none_iff.1 hprev.symm
        rfl
      | some q =>
        obtain ⟨q', rfl, hq⟩ := Option.map_eq_some_iff.1 hprev.symm
        have hqk : q'.bare.kind = q.bare.kind := congrArg kind hq
        have hqt : q'.bare.text = q.bare.text := congrArg text hq
        rw [kind_bare, kind_bare] at hqk
        rw [text_bare, text_bare] at hqt
        simp only [hqk, hqt]
        split
        · exact ih hus hcons hprev
        · exact congrArg some (congrArg some hseen)
    · rw [if_neg hcolon, if_neg hcolon]
      exact ih hus hcons hsome

theorem secondSolid_bare (found : Nat) (target : Option Token) (ts : List Token) :
    secondSolid found (target.map bare) (ts.map bare) =
      (secondSolid found target ts).map bare := by
  induction ts generalizing found target with
  | nil => rfl
  | cons t ts ih =>
    rw [List.map_cons, secondSolid, secondSolid, isSpace_bare]
    split
    · exact ih found (some t)
    split
    · rfl
    · exact ih (found + 1) (some t)

theorem checkSemicolon_eq_ok_iff {ts : List Token} : checkSemicolon ts = .ok () ↔
    ∃ seen, (beforeColon 0 [] none ts).toOption = some seen ∧
      seen.bind (secondSolid 0 none) = none := by
  unfold checkSemicolon
  cases beforeColon 0 [] none ts with
  | error e => simp [bind, Except.bind, Except.toOption]
  | ok seen =>
    cases seen with
    | none => simp [bind, Except.bind, Except.toOption, pure, Except.pure]
    | some seen =>
      cases hs : secondSolid 0 none seen <;>
        simp [bind, Except.bind, Except.toOption, pure, Except.pure, hs]

theorem checkSemicolon_alike {ts us : List Token} (h : Alike ts us)
    (hc : checkSemicolon ts = .ok ()) : checkSemicolon us = .ok () := by
  obtain ⟨seen, hb, hs⟩ := checkSemicolon_eq_ok_iff.1 hc
  have hus := @beforeColon_alike 0 [] [] none none _ _ h rfl rfl
  rw [hb, Option.map_some] at hus
  obtain ⟨seen', hseen', hmap⟩ := Option.map_eq_some_iff.1 hus.symm
  refine checkSemicolon_eq_ok_iff.2 ⟨seen', hseen', ?_⟩
  have hsolid : ∀ seen : Option (List Token),
      (seen.map (List.map bare)).bind (secondSolid 0 none) =
        (seen.bind (secondSolid 0 none)).map bare := fun seen => by
    cases seen with
    | none => rfl
    | some seen => exact secondSolid_bare 0 none seen
  have := hsolid seen'
  rw [hmap, hsolid, hs] at this
  exact Option.map_eq_none_iff.1 this.symm

theorem divide_alike {ts us : List Token} (h : Alike ts us) (between : String) :
    Alike (divide between ts).2 (divide between us).2 := by
  refine h.of_comm (f := fun ts => (divide between ts).2) fun ts => ?_
  simp only [divide, takeWhile_bare isFiller_bare, dropWhile_bare isFiller_bare, findMark_bare,
    List.any_map, Function.comp_def, isFiller_bare]
  split
  · rfl
  · rw [List.map_append]

/-- The declaration behind its separator. -/
theorem parse_eq {spaces before between : String} {ts ts1 ts2 : List Token}
    {closing : Option Token} {custom : Bool} (hlead : leading spaces ts = .ok (before, ts1))
    (hsep : separator "" (ts1.dropWhile fun t => !endsProp t) = .ok (between, ts2)) :
    parse spaces ts closing custom =
      let n := assemble before (concat (ts1.takeWhile fun t => !endsProp t)) between ts2
        (((ts.dropWhile fun t => t.kind ≠ .word).head?.map first).getD 0)
        (lastOffset (ts ++ closing.toList)) custom
      let value := (cleanInto Raws.empty "value" (!custom) (divide between ts2).2).1
      if !custom && value.toList.contains ':' then
        checkSemicolon (findMark (ts2.dropWhile isFiller)).tokens >>= fun _ => .ok n
      else .ok n := by
  unfold parse
  rw [hlead]
  simp only [hsep, bind, Except.bind]
  rfl

/-- **A declaration does not depend on where its tokens stand**, nor on what stands before it or on
the semicolon behind it. -/
theorem parse_alike {spaces : String} {ts us : List Token} {closing : Option Token}
    {custom : Bool} {n : Parsed} (h : Alike ts us) (hp : parse spaces ts closing custom = .ok n)
    (spaces' : String) (closing' : Option Token) :
    ∃ m, parse spaces' us closing' custom = .ok m ∧ m.data = n.data := by
  obtain ⟨before, ts1, between, ts2, hlead, hsep, rfl⟩ := parse_ok hp
  obtain ⟨before', us1, hlead', h1⟩ := leading_alike h hlead spaces'
  have hends : ∀ t : Token, (fun t => !endsProp t) t.bare = (fun t => !endsProp t) t :=
    fun t => rfl
  obtain ⟨us2, hsep', h2⟩ := separator_alike
    (h1.of_comm (dropWhile_bare (p := fun t => !endsProp t) hends)) hsep
  have hprop := (h1.of_comm (takeWhile_bare (p := fun t => !endsProp t) hends)).concat_eq
  have hfind : findMark ((ts2.dropWhile isFiller).map bare) =
      findMark ((us2.dropWhile isFiller).map bare) :=
    congrArg findMark (h2.of_comm (dropWhile_bare isFiller_bare)).bare_eq
  rw [findMark_bare, findMark_bare, Marked.mk.injEq] at hfind
  have htext := fun raws raws' => cleanInto_alike (divide_alike h2 between) raws raws' "value"
    (!custom)
  rw [parse_eq hlead hsep] at hp
  refine ⟨assemble before' (concat (us1.takeWhile fun t => !endsProp t)) between us2
      (((us.dropWhile fun t => t.kind ≠ .word).head?.map first).getD 0)
      (lastOffset (us ++ closing'.toList)) custom, (parse_eq hlead' hsep').trans ?_, ?_⟩
  · dsimp only
    rw [← htext Raws.empty]
    split
    · next hcolon =>
      rw [if_pos hcolon] at hp
      obtain ⟨_, hcheck, -⟩ := Except.bind_ok hp
      rw [checkSemicolon_alike (.of_bare_eq hfind.1) hcheck]
      rfl
    · rfl
  · simp only [assemble, hprop, hfind.2]
    rw [htext]

end Declaration

/-! ## Runs -/

namespace Phrase

variable {custom : Bool} {n m : Nest} {ts us : List Token}

/-- None of the tokens ends the run. -/
def Passes (custom : Bool) : Nest → List Token → Prop
  | _, [] => True
  | n, t :: ts => ending? custom n t = none ∧ Passes custom (n.step custom t) ts

/-- Where the reader of the run stands behind the tokens. -/
def Nest.behind (custom : Bool) (n : Nest) (ts : List Token) : Nest :=
  ts.foldl (Nest.step custom) n

theorem passes_append : Passes custom n (ts ++ us) ↔
    Passes custom n ts ∧ Passes custom (n.behind custom ts) us := by
  induction ts generalizing n with
  | nil => simp [Passes, Nest.behind]
  | cons t ts ih => simp [Passes, ih, and_assoc, Nest.behind]

/-- Tokens that do not end the run are gathered. -/
theorem Passes.gather_append (h : Passes custom n ts) (rest : List Token) :
    gather custom n (ts ++ rest) =
      let g := gather custom (n.behind custom ts) rest
      { g with tokens := ts ++ g.tokens } := by
  induction ts generalizing n with
  | nil => simp [Nest.behind]
  | cons t ts ih =>
    rw [List.cons_append, gather, h.1]
    simp only [ih h.2, Nest.behind, List.foldl_cons, List.cons_append]

/-- What is gathered does not end the run. -/
theorem passes_gather (custom : Bool) (n : Nest) (ts : List Token) :
    Passes custom n (gather custom n ts).tokens ∧
      (gather custom n ts).nest = n.behind custom (gather custom n ts).tokens := by
  induction ts generalizing n with
  | nil => exact ⟨trivial, rfl⟩
  | cons t ts ih =>
    rw [gather]
    split
    · exact ⟨trivial, rfl⟩
    · exact ⟨trivial, rfl⟩
    · next he =>
      obtain ⟨hpasses, hnest⟩ := ih (n.step custom t)
      exact ⟨⟨he, hpasses⟩, hnest⟩

/-- Two readers that differ at most in which bracket is open. -/
structure Nest.Like (n m : Nest) : Prop where
  colon : m.colon = n.colon
  awaited : m.awaited = n.awaited
  opener : m.opener.isSome = n.opener.isSome

theorem Nest.Like.step (h : n.Like m) {t u : Token} (hk : u.kind = t.kind) :
    (n.step custom t).Like (m.step custom u) := by
  obtain ⟨colon, awaited, opener⟩ := n
  obtain ⟨colon', awaited', opener'⟩ := m
  obtain ⟨rfl, rfl, ho⟩ := h
  simp only at ho
  unfold Nest.step
  simp only [hk]
  split
  · refine ⟨rfl, rfl, ?_⟩
    cases opener <;> cases opener' <;> simp_all
  · split
    · split <;> exact ⟨rfl, rfl, ho⟩
    · split
      · refine ⟨rfl, rfl, ?_⟩
        simp only
        split
        · rfl
        · exact ho
      · exact ⟨rfl, rfl, ho⟩

theorem ending?_like (h : n.Like m) {t u : Token} (hk : u.kind = t.kind) :
    ending? custom m u = none ↔ ending? custom n t = none := by
  unfold ending?
  rw [h.colon, h.awaited, hk]
  split
  · rfl
  · split <;> simp

/-- Where the tokens stand does not matter to a run. -/
theorem Passes.alike (hp : Passes custom n ts) (h : Alike ts us) (hn : n.Like m) :
    Passes custom m us ∧ (n.behind custom ts).Like (m.behind custom us) := by
  induction ts generalizing n m us with
  | nil =>
    obtain rfl : us = [] := List.map_eq_nil_iff.1 h.symm
    exact ⟨trivial, hn⟩
  | cons t ts ih =>
    obtain ⟨u, us, rfl, hk, -, hus⟩ := h.cons_inv
    obtain ⟨hpasses, hlike⟩ := ih hp.2 hus (hn.step hk)
    exact ⟨⟨(ending?_like hn hk).2 hp.1, hpasses⟩, hlike⟩

/-- A bracket is open where a closing token is awaited. -/
def Nest.Matched (n : Nest) : Prop := n.opener = none ↔ n.awaited = []

theorem Nest.matched_start : Nest.start.Matched := by simp [Matched, start]

theorem Nest.Matched.step (h : n.Matched) (t : Token) : (n.step custom t).Matched := by
  obtain ⟨colon, awaited, opener⟩ := n
  unfold Nest.step
  split
  · refine iff_of_false ?_ (List.cons_ne_nil _ _)
    cases opener <;> simp
  · cases awaited with
    | nil =>
      simp only
      split
      · exact h
      · exact h
    | cons a rest =>
      have hne : opener ≠ none := fun he => List.cons_ne_nil a rest (h.1 he)
      simp only
      split
      · by_cases hrest : rest = []
        · simp [Matched, hrest]
        · simp [Matched, hrest, hne]
      · exact h

theorem Nest.Matched.behind (h : n.Matched) (ts : List Token) : (n.behind custom ts).Matched := by
  induction ts generalizing n with
  | nil => exact h
  | cons t ts ih => exact ih (h.step t)

theorem Nest.Sound.behind (h : n.Sound) (ts : List Token) : (n.behind custom ts).Sound := by
  induction ts generalizing n with
  | nil => exact h
  | cons t ts ih => exact ih (h.step custom t)

/-- Blanks and comments change nothing. -/
theorem Nest.Sound.behind_filling (h : n.Sound) {xs : List Token} (hx : Filling xs) :
    n.behind custom xs = n := by
  induction xs with
  | nil => rfl
  | cons x xs ih =>
    obtain ⟨hx, hxs⟩ := List.forall_mem_cons.1 hx
    exact (congrArg (Nest.behind custom · xs) (step_filler h hx)).trans (ih hxs)

theorem passes_filling {xs : List Token} (h : n.Sound) (hx : Filling xs) : Passes custom n xs := by
  induction xs with
  | nil => trivial
  | cons x xs ih =>
    obtain ⟨hx, hxs⟩ := List.forall_mem_cons.1 hx
    refine ⟨ending?_filler hx, ?_⟩
    rw [step_filler h hx]
    exact ih hxs

/-- Behind an opening parenthesis a closing one is awaited. -/
theorem Nest.awaited_openParen (n : Nest) (ts : List Token) {t : Token} (ht : t.kind = .openParen) :
    (n.behind custom (ts ++ [t])).awaited ≠ [] := by
  simp [Nest.behind, List.foldl_append, Nest.step, closer?, ht]

end Phrase

/-! ## Parameters -/

namespace Params

variable {awaited : List TokenKind} {e : Ending} {ts us : List Token}

/-- None of the tokens ends the parameters. -/
def Passes : List TokenKind → List Token → Prop
  | _, [] => True
  | awaited, t :: ts =>
    (step awaited t = [] → ending? t = none) ∧ Passes (step awaited t) ts

/-- The closing tokens that are awaited behind the tokens. -/
def behind (awaited : List TokenKind) (ts : List Token) : List TokenKind := ts.foldl step awaited

theorem passes_append : Passes awaited (ts ++ us) ↔
    Passes awaited ts ∧ Passes (behind awaited ts) us := by
  induction ts generalizing awaited with
  | nil => simp [Passes, behind]
  | cons t ts ih => simp [Passes, ih, and_assoc, behind]

/-- Tokens that do not end the parameters are gathered. -/
theorem Passes.gather_append (h : Passes awaited ts) (e : Ending) (rest : List Token) :
    gather awaited e (ts ++ rest) =
      let g := gather (behind awaited ts) (if ts.isEmpty then e else .endOfParams) rest
      { g with tokens := ts ++ g.tokens } := by
  induction ts generalizing awaited e with
  | nil => simp [behind]
  | cons t ts ih =>
    have hend : (if (step awaited t).isEmpty then ending? t else none) = none := by
      split
      · next he => exact h.1 (List.isEmpty_iff.1 he)
      · rfl
    rw [List.cons_append, gather]
    simp only [hend, ih h.2, behind, List.foldl_cons, List.cons_append, List.isEmpty_cons,
      Bool.false_eq_true, if_false, ite_self]

/-- What is gathered does not end the parameters. -/
theorem passes_gather (awaited : List TokenKind) (e : Ending) (ts : List Token) :
    Passes awaited (gather awaited e ts).tokens := by
  induction ts generalizing awaited e with
  | nil => exact trivial
  | cons t ts ih =>
    rw [gather]
    simp only
    split
    · exact trivial
    · next he =>
      refine ⟨fun hnil => ?_, ih (step awaited t) .endOfParams⟩
      rwa [hnil] at he

theorem step_congr {t u : Token} (hk : u.kind = t.kind) : step awaited u = step awaited t := by
  rw [step, step, hk]

theorem ending?_eq_none_iff {t u : Token} (hk : u.kind = t.kind) :
    ending? u = none ↔ ending? t = none := by
  unfold ending?
  rw [hk]
  split <;> simp

/-- Where the tokens stand does not matter to parameters. -/
theorem Passes.alike (hp : Passes awaited ts) (h : Alike ts us) :
    Passes awaited us ∧ behind awaited us = behind awaited ts := by
  induction ts generalizing awaited us with
  | nil =>
    obtain rfl : us = [] := List.map_eq_nil_iff.1 h.symm
    exact ⟨trivial, rfl⟩
  | cons t ts ih =>
    obtain ⟨u, us, rfl, hk, -, hus⟩ := h.cons_inv
    have hstep : step awaited u = step awaited t := step_congr hk
    obtain ⟨hpasses, hbehind⟩ := ih hp.2 hus
    refine ⟨⟨?_, ?_⟩, ?_⟩
    · rw [hstep, ending?_eq_none_iff hk]
      exact hp.1
    · rwa [hstep]
    · show behind (step awaited u) us = behind (step awaited t) ts
      rw [hstep, hbehind]

/-- The outermost bracket that is open is no brace, and only closing tokens are awaited. -/
structure Sane (awaited : List TokenKind) : Prop where
  outermost : awaited.getLast? ≠ some .closeCurly
  closers : ∀ k ∈ awaited, k = .closeParen ∨ k = .closeSquare ∨ k = .closeCurly

theorem sane_nil : Sane [] := ⟨by simp, by simp⟩

theorem Sane.step (h : Sane awaited) (t : Token) : Sane (step awaited t) := by
  unfold Params.step
  split
  · refine ⟨?_, List.forall_mem_cons.2 ⟨.inl rfl, h.closers⟩⟩
    rw [List.getLast?_cons]
    cases hl : awaited.getLast? with
    | none => simp
    | some k => simpa [hl] using h.outermost
  · refine ⟨?_, List.forall_mem_cons.2 ⟨.inr (.inl rfl), h.closers⟩⟩
    rw [List.getLast?_cons]
    cases hl : awaited.getLast? with
    | none => simp
    | some k => simpa [hl] using h.outermost
  · split
    · next hopen =>
      have hne : awaited ≠ [] := by simp at hopen; exact hopen.2
      refine ⟨?_, List.forall_mem_cons.2 ⟨.inr (.inr rfl), h.closers⟩⟩
      rw [List.getLast?_cons]
      cases hl : awaited.getLast? with
      | none => exact absurd (List.getLast?_eq_none_iff.1 hl) hne
      | some k => simpa [hl] using h.outermost
    · split
      · refine ⟨fun hl => h.outermost ?_, fun k hk => h.closers k (List.mem_of_mem_tail hk)⟩
        cases awaited with
        | nil => cases hl
        | cons k awaited =>
          rw [List.tail_cons] at hl
          rw [List.getLast?_cons, hl]
          rfl
      · exact h

theorem Sane.behind (h : Sane awaited) (ts : List Token) : Sane (behind awaited ts) := by
  induction ts generalizing awaited with
  | nil => exact h
  | cons t ts ih => exact ih (h.step t)

/-- Blanks and comments change nothing. -/
theorem Sane.behind_filling (h : Sane awaited) {xs : List Token} (hx : Filling xs) :
    Params.behind awaited xs = awaited := by
  induction xs with
  | nil => rfl
  | cons x xs ih =>
    obtain ⟨hx, hxs⟩ := List.forall_mem_cons.1 hx
    have hstep : Params.step awaited x = awaited := by
      have hk : x.kind = .space ∨ x.kind = .comment := by simpa [Token.isFiller] using hx
      have hhead : awaited.head? ≠ some x.kind := by
        intro hhead
        have := h.closers x.kind (List.mem_of_mem_head? hhead)
        rcases hk with hk | hk <;> rw [hk] at this <;> simp at this
      unfold Params.step
      rcases hk with hk | hk <;> rw [hk] at hhead ⊢ <;> simp [hhead]
    exact (congrArg (Params.behind · xs) hstep).trans (ih hxs)

/-- A closing brace ends parameters only where no bracket is open. -/
theorem Sane.eq_nil (h : Sane awaited) {t : Token} (ht : t.kind = .closeCurly)
    (he : Params.step awaited t = []) : awaited = [] := by
  unfold Params.step at he
  simp only [ht] at he
  cases awaited with
  | nil => rfl
  | cons k awaited =>
    rw [if_neg (by simp)] at he
    split at he
    · next hk =>
      rw [List.tail_cons] at he
      rw [he] at hk h
      cases hk
      exact absurd rfl h.outermost
    · cases he

/-- The text of parameters does not depend on where their tokens stand, nor on blanks and comments
behind them. -/
theorem divide_alike {xs : List Token} (h : Alike ts us) (hx : Filling xs) (spaces spaces' : String)
    (e e' : Ending) : (divide spaces' us e').1 = (divide spaces (ts ++ xs) e).1 := by
  have hcut : (cutEnd isFiller (ts ++ xs)).1 = (cutEnd isFiller ts).1 := by rw [cutEnd_filling hx]
  have hcut' : Alike (cutEnd isFiller ts).1 (cutEnd isFiller us).1 :=
    h.of_comm (f := fun ts => (cutEnd isFiller ts).1) fun ts => by rw [cutEnd_bare isFiller_bare]
  have hdrop : Alike ((cutEnd isFiller ts).1.dropWhile isFiller)
      ((cutEnd isFiller us).1.dropWhile isFiller) :=
    hcut'.of_comm (dropWhile_bare isFiller_bare)
  have hempty : ((cutEnd isFiller us).1.dropWhile isFiller).isEmpty =
      ((cutEnd isFiller ts).1.dropWhile isFiller).isEmpty := by
    rw [← List.isEmpty_map (f := bare), ← hdrop.bare_eq, List.isEmpty_map]
  have htext := fun raws raws' => cleanInto_alike hdrop raws raws' "params" true
  simp only [divide, hcut, hempty]
  split
  · rfl
  · split <;> split <;> exact (htext Raws.empty Raws.empty).symm

end Params

end Stylesheet
