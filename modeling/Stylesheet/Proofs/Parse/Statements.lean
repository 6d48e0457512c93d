import Stylesheet.Proofs.Parse.AtRule

/-!
# What a text is read as

`Parser.parse_spec`: a text that can be read becomes a root that has all the formatting the printer
asks for, whose pieces are the text, and whose nodes stand where they say. The steps of the parser
keep `Parser.Inv`; `statements_keeps` is the induction over the tokens.
-/

set_option autoImplicit false

namespace Stylesheet

open Stylesheet.Text Stylesheet.Tree

/-! ## Gathering -/

namespace Phrase

/-- The tokens between a run and the tokens that are left, by what ends the run. -/
def Ending.Ends : Ending → (closing rest : List Token) → Prop
  | .semicolon s, closing, _ => closing = [s] ∧ s.kind = .semicolon
  | .openCurly c, closing, _ => closing = [c] ∧ c.kind = .openCurly
  | .closeCurly, closing, rest => closing = [] ∧ Parser.EndsBlock rest
  | .endOfText, closing, rest => closing = [] ∧ rest = []

theorem ends_of_ending? {custom : Bool} {n : Nest} {t : Token} {e : Ending}
    (h : ending? custom n t = some e) (hc : e ≠ .closeCurly) (rest : List Token) :
    e.Ends [t] rest := by
  unfold ending? at h
  split at h
  · cases h
  · split at h <;> cases h
    · next hk => exact ⟨rfl, hk⟩
    · next hk => exact ⟨rfl, hk⟩
    · exact absurd rfl hc

theorem kind_of_closeCurly {custom : Bool} {n : Nest} {t : Token}
    (h : ending? custom n t = some .closeCurly) : t.kind = .closeCurly := by
  unfold ending? at h
  split at h
  · cases h
  · split at h <;> cases h
    assumption

/-- Gathering loses no token. -/
theorem gather_append (custom : Bool) (n : Nest) (ts : List Token) :
    ∃ closing, ts = (gather custom n ts).tokens ++ closing ++ (gather custom n ts).rest ∧
      (gather custom n ts).ending.Ends closing (gather custom n ts).rest := by
  induction ts generalizing n with
  | nil => exact ⟨[], rfl, rfl, rfl⟩
  | cons t rest ih =>
    rw [gather]
    split
    · next he => exact ⟨[], rfl, rfl, kind_of_closeCurly he⟩
    · next e he hc => exact ⟨[t], rfl, ends_of_ending? hc he rest⟩
    · obtain ⟨closing, hts, hends⟩ := ih (n.step custom t)
      exact ⟨closing, congrArg (t :: ·) hts, hends⟩

end Phrase

namespace Parser

variable {p q : Parser} {done : List Char} {t : Token} {rest rest' : List Token}

/-! ## Rules -/

/-- The node of a rule with the selector `ts`. -/
def ruleNode (spaces : String) (first : Token) (ts : List Token) : Parsed :=
  let cut := Token.cutEnd Token.isFiller ts
  let raws := (Raws.empty.setText "before" spaces).setText "between" (Token.concat cut.2)
  let cleaned := cleanInto raws "selector" true cut.1
  ⟨.rule cleaned.1, cleaned.2, first.first, none⟩

theorem ruleNode_spec (spaces : String) (first : Token) (ts : List Token) :
    (⟨ruleNode spaces first ts, []⟩ : OpenBlock).Inner ∧
      (ruleNode spaces first ts).wording.slot "before" = spaces ∧
      (Tree.opening Parsed.wording (ruleNode spaces first ts)).text.toList =
        tokenChars ts ++ ['\x7b'] := by
  generalize hr : (Raws.empty.setText "before" spaces).setText "between"
    (Token.concat (Token.cutEnd Token.isFiller ts).2) = raws
  have hnode : ruleNode spaces first ts =
      ⟨.rule (cleanInto raws "selector" true (Token.cutEnd Token.isFiller ts).1).1,
        (cleanInto raws "selector" true (Token.cutEnd Token.isFiller ts).1).2, first.first,
        none⟩ := by rw [← hr]; rfl
  have hget : ∀ slot, slot ≠ "selector" →
      (ruleNode spaces first ts).raws.get? slot = raws.get? slot := by
    intro slot hs
    rw [hnode]
    exact get?_cleanInto hs
  have hbefore := hget "before" (by decide)
  have hbetween := hget "between" (by decide)
  have hown := hget "ownSemicolon" (by decide)
  rw [show raws.get? "before" = some (.text spaces) by rw [← hr]; rfl] at hbefore
  rw [show raws.get? "between" = some (.text (Token.concat (Token.cutEnd Token.isFiller ts).2)) by
    rw [← hr]; rfl] at hbetween
  rw [show raws.get? "ownSemicolon" = none by rw [← hr]; rfl] at hown
  refine ⟨⟨.inl (by rw [hnode]; rfl), by simp [Raws.contains, hbefore],
    by simp [Raws.contains, hbetween], hown⟩, ?_, ?_⟩
  · simp [Wording.slot, Parsed.wording, Raws.text?, hbefore, RawValue.toText]
  · have hpart : ((ruleNode spaces first ts).wording.part "selector").toList =
        tokenChars (Token.cutEnd Token.isFiller ts).1 := by
      rw [hnode]
      exact part_cleanInto (by rw [← hr]; rfl)
    have hhead : (ruleNode spaces first ts).wording.head =
      (ruleNode spaces first ts).wording.part "selector" := rfl
    have hslot : (ruleNode spaces first ts).wording.slot "between" =
        Token.concat (Token.cutEnd Token.isFiller ts).2 := by
      simp [Wording.slot, Parsed.wording, Raws.text?, hbetween, RawValue.toText]
    have : (Tree.opening Parsed.wording (ruleNode spaces first ts)).text =
        (ruleNode spaces first ts).wording.head ++
          (ruleNode spaces first ts).wording.slot "between" ++ "\x7b" := rfl
    rw [this, hhead, hslot, ← cutEnd_chars Token.isFiller ts, ← hpart]
    simp

theorem rule_eq (p : Parser) (t : Token) (more : List Token) :
    p.rule t more = p.enter (ruleNode p.spaces t (t :: more)) := rfl

/-! ## Declarations -/

/-- A semicolon stands behind all that is printed of a statement. -/
theorem leaf_true {n : Parsed} (hk : n.data.kind ≠ .comment) :
    (n.wording.leaf true).toList = (n.wording.leaf false).toList ++ [';'] := by
  cases hd : n.data with
  | comment => rw [hd] at hk; exact absurd rfl hk
  | _ => simp [Wording.leaf, Parsed.wording, hd]

theorem startsBehind_append {n : Parsed} {text more : List Char} (h : n.StartsBehind done text) :
    n.StartsBehind done (text ++ more) := by
  rcases h with ⟨hs, hne⟩ | h
  · exact .inl ⟨hs, by simp [hne]⟩
  · exact .inr h

section
variable {ts : List Token} {custom : Bool} {d : Parsed}

/-- What is known of a declaration without what stands before it. -/
theorem laid_of_parse {closing : Option Token} (hne : ts ≠ []) (ht : Tiled (byteSize done) ts)
    (h : Declaration.parse p.spaces ts closing custom = .ok d) {base : List Char}
    (hbase : base ++ p.spaces.toList = done) :
    Declaration.Laid base p.spaces ts d ∧
      d.last = Declaration.lastOffset (ts ++ closing.toList) := by
  rw [← hbase] at ht
  exact Declaration.parse_spec hne ht h

/-- A declaration with a semicolon. -/
theorem Covers.declarationClosed {s : Token} (hc : p.Covers true true done)
    (ht : Tiled (byteSize done) (ts ++ [s])) (hne : ts ≠ []) (hk : s.kind = .semicolon)
    (h : Declaration.parse p.spaces ts (some s) custom = .ok d) :
    (p.add (.leaf d) true).Covers true true (done ++ tokenChars (ts ++ [s])) := by
  obtain ⟨hts, hs⟩ := tiled_append.1 ht
  have hlaid := fun base (hbase : base ++ p.spaces.toList = done) => laid_of_parse hne hts h hbase
  obtain ⟨hfirst, hlast⟩ := hlaid _ hc.text
  have hchars : s.chars = [';'] := hs.1.shaped.mark _ (by rw [hk]; rfl)
  have hkind : d.data.kind ≠ .comment := by rw [hfirst.kind]; decide
  have hend : d.last = some s.last := by
    rw [hlast]
    exact congrArg (Option.map Token.last) List.getLast?_concat
  have htext : (d.wording.slot "before").toList ++ (d.wording.leaf true).toList =
      p.spaces.toList ++ tokenChars (ts ++ [s]) := by
    rw [leaf_true hkind, ← List.append_assoc, hfirst.text]
    simp [hchars]
  refine hc.leaf hkind htext (fun base hbase => ?_) (fun base hbase => ?_)
    fun _ => Parsed.endsWith_of_tiled ht List.getLast?_concat (by simp [hk]) hend
  · rw [leaf_true hkind]
    exact startsBehind_append (hlaid base hbase).1.start
  · refine Parsed.stops_of_tiled ht List.getLast?_concat hend ?_
    rw [List.append_assoc, htext, ← List.append_assoc, hbase]

/-- A declaration at the end of a block. Its end can be seen unless it ends in a blank. -/
theorem Covers.declaration {v : Bool} (hc : p.Covers true true done)
    (ht : Tiled (byteSize done) ts) (hne : ts ≠ [])
    (hv : v = true → ∀ t, ts.getLast? = some t → t.kind ≠ .space)
    (h : Declaration.parse p.spaces ts none custom = .ok d) :
    (p.add (.leaf d) false).Covers false v (done ++ tokenChars ts) := by
  have hlaid := fun base (hbase : base ++ p.spaces.toList = done) => laid_of_parse hne ht h hbase
  obtain ⟨hfirst, hlast⟩ := hlaid _ hc.text
  obtain ⟨t, hend⟩ := Option.ne_none_iff_exists'.1 (mt List.getLast?_eq_none_iff.1 hne)
  have ht' : d.last = some t.last := by
    rw [hlast, Declaration.lastOffset, Option.toList_none, List.append_nil, hend]
    rfl
  refine hc.leaf (by rw [hfirst.kind]; decide) hfirst.text
    (fun base hbase => (hlaid base hbase).1.start) (fun base hbase => ?_)
    fun hvis => Parsed.endsWith_of_tiled ht hend (hv hvis t hend) ht'
  refine Parsed.stops_of_tiled ht hend ht' ?_
  rw [List.append_assoc, hfirst.text, ← List.append_assoc, hbase]

theorem formatted_of_parse {closing : Option Token} (hc : p.Covers true true done)
    (ht : Tiled (byteSize done) ts) (hne : ts ≠ [])
    (h : Declaration.parse p.spaces ts closing custom = .ok d) :
    (Tree.leaf d).Formatted Parsed.wording :=
  (laid_of_parse hne ht h hc.text).1.formatted

end

/-! ## Runs -/

/-- The end of a run of tokens that no semicolon ends: the tokens of the declaration, and the
blanks and comments that are left to the block. -/
def runEnd (custom : Bool) (ts : List Token) : List Token × List Token :=
  if custom then (ts, []) else Token.cutEnd Token.isFiller ts

theorem runEnd_append (custom : Bool) (ts : List Token) :
    (runEnd custom ts).1 ++ (runEnd custom ts).2 = ts := by
  cases custom with
  | true => simp [runEnd]
  | false => simpa [runEnd] using Token.cutEnd_append Token.isFiller ts

/-- What a run of tokens is read as. -/
theorem run_ok {fault : Option LexError} (h : p.run fault t rest = .ok (q, rest')) :
    let custom := Text.startsWith t.text "--"
    let g := Phrase.gather custom (Phrase.Nest.start.step custom t) rest
    match g.ending with
    | .semicolon s => rest' = g.rest ∧ ∃ d,
        Declaration.parse p.spaces (t :: g.tokens) (some s) custom = .ok d ∧
        q = p.add (.leaf d) true
    | .openCurly _ => rest' = g.rest ∧ q = p.rule t g.tokens
    | _ => rest' = (runEnd custom g.tokens).2 ++ g.rest ∧ ∃ d,
        Declaration.parse p.spaces (t :: (runEnd custom g.tokens).1) none custom = .ok d ∧
        q = p.add (.leaf d) false := by
  intro custom g
  obtain ⟨closing, -, hends⟩ := Phrase.gather_append custom (Phrase.Nest.start.step custom t) rest
  unfold run at h
  extract_lets declaration last at h
  change g.ending.Ends closing g.rest at hends
  have hdeclaration : ∀ {ts closing left}, (declaration ts closing).map (·, left) =
      .ok (q, rest') → rest' = left ∧ ∃ d,
        Declaration.parse p.spaces ts closing custom = .ok d ∧
          q = p.add (.leaf d) closing.isSome := by
    intro ts closing left hd
    simp only [declaration] at hd
    cases hp : Declaration.parse p.spaces ts closing custom with
    | error e => rw [hp] at hd; cases hd
    | ok d => rw [hp] at hd; cases hd; exact ⟨rfl, d, rfl, rfl⟩
  have hlast : ∀ {left}, last left = .ok (q, rest') →
      rest' = (runEnd custom g.tokens).2 ++ left ∧ ∃ d,
        Declaration.parse p.spaces (t :: (runEnd custom g.tokens).1) none custom = .ok d ∧
          q = p.add (.leaf d) false := by
    intro left hl
    simp only [last] at hl
    split at hl
    · cases hl
    · exact hdeclaration hl
  split at h
  · next s he =>
    rw [he]
    split at h
    · exact hdeclaration h
    · cases h
  · next he =>
    rw [he]
    cases h
    exact ⟨rfl, rfl⟩
  · next he =>
    rw [he]
    exact hlast h
  · next he =>
    rw [he] at hends ⊢
    split at h
    · cases h
    · split at h
      · cases h
      · rw [hends.2]
        exact hlast h

/-- What is left of a run is skipped before a statement. -/
theorem dropWhile_runEnd {custom : Bool} {ts left : List Token} (hl : EndsBlock left) :
    EndsBlock (((runEnd custom ts).2 ++ left).dropWhile Token.isFiller) := by
  have hfiller : ∀ u ∈ (runEnd custom ts).2, u.isFiller = true := by
    intro u hu
    cases custom with
    | true => cases hu
    | false =>
      have hu : u ∈ ts.reverse.takeWhile Token.isFiller := List.mem_reverse.1 hu
      exact List.all_eq_true.1 List.all_takeWhile u hu
  rw [List.dropWhile_append_of_pos hfiller]
  cases left with
  | nil => trivial
  | cons u left =>
    have hu : u.isFiller = false := by simp [Token.isFiller, show u.kind = .closeCurly from hl]
    rw [List.dropWhile_cons, hu]
    exact hl

/-- A declaration does not end in a blank if blanks are left. -/
theorem getLast?_runEnd {ts : List Token} {u : Token} (hf : t.isFiller = false)
    (hu : (t :: (runEnd false ts).1).getLast? = some u) : u.isFiller = false := by
  have hrun : (runEnd false ts).1 = (ts.reverse.dropWhile Token.isFiller).reverse := rfl
  rw [hrun, List.getLast?_cons, List.getLast?_reverse] at hu
  have hhead := List.head?_dropWhile_not Token.isFiller ts.reverse
  generalize (ts.reverse.dropWhile Token.isFiller).head? = last at hu hhead
  cases last with
  | none => cases hu; exact hf
  | some v => cases hu; simpa using hhead

/-- A declaration that no semicolon ends. -/
theorem Inv.runEnd {custom : Bool} {ts left : List Token} {d : Parsed}
    (h : Inv done p (t :: (ts ++ left))) (hf : t.isFiller = false) (hk : t.kind ≠ .closeCurly)
    (hl : EndsBlock left)
    (hd : Declaration.parse p.spaces (t :: (runEnd custom ts).1) none custom = .ok d) :
    Inv (done ++ tokenChars (t :: (Parser.runEnd custom ts).1)) (p.add (.leaf d) false)
      ((Parser.runEnd custom ts).2 ++ left) := by
  have hcovers := h.covers hf hk
  have htiled := h.tiled
  conv at htiled =>
    arg 2
    rw [← runEnd_append custom ts, List.append_assoc, ← List.cons_append]
  obtain ⟨hts, hrest⟩ := tiled_append.1 htiled
  rw [← byteSize_append] at hrest
  refine ⟨h.built.add (formatted_of_parse hcovers hts (by simp) hd) _, hrest, ?_, fun hb => ?_,
    fun hb => absurd (dropWhile_runEnd hl) hb⟩
  · exact hcovers.declaration (v := false) hts (by simp) (by simp) hd
  · refine hcovers.declaration hts (by simp) (fun _ u hu => ?_) hd
    cases custom with
    | true => exact absurd hl hb
    | false =>
      have := getLast?_runEnd hf hu
      simp only [Token.isFiller, Bool.or_eq_false_iff, decide_eq_false_iff_not] at this
      exact this.1

/-- The tokens of a run, and the parser behind them. -/
theorem Inv.run {fault : Option LexError} (h : Inv done p (t :: rest)) (hf : t.isFiller = false)
    (hk : t.kind ≠ .closeCurly) (hr : p.run fault t rest = .ok (q, rest')) :
    ∃ used, t :: rest = used ++ rest' ∧ Inv (done ++ tokenChars used) q rest' := by
  have hrun := run_ok hr
  generalize Text.startsWith t.text "--" = custom at hrun
  obtain ⟨closing, hts, hends⟩ := Phrase.gather_append custom (Phrase.Nest.start.step custom t) rest
  simp only at hrun
  generalize Phrase.gather custom (Phrase.Nest.start.step custom t) rest = g at hrun hts hends
  have hcovers := h.covers hf hk
  have hused : t :: rest = t :: g.tokens ++ closing ++ g.rest := by rw [hts]; simp
  have htiled := h.tiled
  rw [hused] at htiled
  obtain ⟨hhead, hrest⟩ := tiled_append.1 htiled
  rw [← byteSize_append] at hrest
  -- a run that no semicolon ends
  have hend : closing = [] → EndsBlock g.rest →
      (rest' = (Parser.runEnd custom g.tokens).2 ++ g.rest ∧ ∃ d,
        Declaration.parse p.spaces (t :: (Parser.runEnd custom g.tokens).1) none custom = .ok d ∧
        q = p.add (.leaf d) false) →
      ∃ used, t :: rest = used ++ rest' ∧ Inv (done ++ tokenChars used) q rest' := by
    rintro rfl hl ⟨rfl, d, hd, rfl⟩
    rw [List.append_nil] at hts
    refine ⟨t :: (Parser.runEnd custom g.tokens).1, ?_, (hts ▸ h).runEnd hf hk hl hd⟩
    rw [List.cons_append, ← List.append_assoc, runEnd_append, hts]
  cases he : g.ending with
  | semicolon s =>
    rw [he] at hrun hends
    obtain ⟨rfl, d, hd, rfl⟩ := hrun
    obtain ⟨rfl, hs⟩ := hends
    refine ⟨_, hused, .of_semicolon (h.built.add ?_ _) hrest rfl
      (hcovers.declarationClosed hhead (by simp) hs hd)⟩
    exact formatted_of_parse hcovers (tiled_append.1 hhead).1 (by simp) hd
  | openCurly c =>
    rw [he] at hrun hends
    obtain ⟨rfl, rfl⟩ := hrun
    obtain ⟨rfl, hc⟩ := hends
    obtain ⟨hinner, hslot, hopening⟩ := ruleNode_spec p.spaces t (t :: g.tokens)
    have hchars : c.chars = ['\x7b'] :=
      (tiled_append.1 hhead).2.1.shaped.mark _ (by rw [hc]; rfl)
    rw [rule_eq]
    refine ⟨_, hused, .of_all (h.built.enter hinner) hrest ?_⟩
    refine hcovers.enter hinner hslot ?_ h.tiled.1.first
    rw [hopening, tokenChars_append, ← hchars]
    simp
  | closeCurly =>
    rw [he] at hrun hends
    exact hend hends.1 hends.2 hrun
  | endOfText =>
    rw [he] at hrun hends
    exact hend hends.1 (by rw [hends.2]; trivial) hrun

/-! ## All statements -/

/-- The parser behind what starts with the token `t`, and the tokens that are left. -/
def step (p : Parser) (fault : Option LexError) (t : Token) (rest : List Token) :
    Except ParseFault (Parser × List Token) :=
  match t.kind with
  | .space => .ok ({ p with spaces := p.spaces ++ t.text }, rest)
  | .semicolon => .ok (p.freeSemicolon t, rest)
  | .closeCurly => (p.leave t).map (·, rest)
  | .comment => .ok (p.comment t, rest)
  | .atWord => p.atRule fault t rest
  | .openCurly => .ok (p.emptyRule t, rest)
  | _ => p.run fault t rest

theorem statements_nil {fault : Option LexError} (h : statements fault p [] = .ok q) :
    fault = none ∧ q = p := by
  unfold statements at h
  cases fault with
  | some e => cases h
  | none => cases h; exact ⟨rfl, rfl⟩

/-- The statements are read step after step. -/
theorem statements_cons_eq (fault : Option LexError) (p : Parser) (t : Token) (rest : List Token) :
    statements fault p (t :: rest) =
      p.step fault t rest >>= fun r => statements fault r.1 r.2 := by
  rw [statements]
  unfold step
  cases t.kind
  case space | semicolon | comment | openCurly => rfl
  case closeCurly =>
    simp only
    cases p.leave t <;> rfl
  all_goals
    simp only
    split
    · next hr => rw [hr]; rfl
    · next hr => rw [hr]; rfl

theorem statements_cons {fault : Option LexError} (h : statements fault p (t :: rest) = .ok q) :
    ∃ p' rest', p.step fault t rest = .ok (p', rest') ∧ statements fault p' rest' = .ok q := by
  rw [statements_cons_eq] at h
  obtain ⟨r, hs, hr⟩ := Except.bind_ok h
  exact ⟨r.1, r.2, hs, hr⟩

theorem statements_step {fault : Option LexError} (h : p.step fault t rest = .ok (q, rest')) :
    statements fault p (t :: rest) = statements fault q rest' := by
  rw [statements_cons_eq, h]
  rfl

/-- A step uses a token at least. -/
theorem length_step {fault : Option LexError} (h : p.step fault t rest = .ok (q, rest')) :
    rest'.length ≤ rest.length := by
  unfold step at h
  split at h
  · cases h; exact Nat.le_refl _
  · cases h; exact Nat.le_refl _
  · obtain ⟨p', -, he⟩ := Except.map_ok h
    cases he
    exact Nat.le_refl _
  · cases h; exact Nat.le_refl _
  · exact length_atRule h
  · cases h; exact Nat.le_refl _
  · exact length_run h

/-- **A step keeps the invariant.** -/
theorem Inv.step {fault : Option LexError} (h : Inv done p (t :: rest))
    (hs : p.step fault t rest = .ok (q, rest')) :
    ∃ used, t :: rest = used ++ rest' ∧ Inv (done ++ tokenChars used) q rest' := by
  have single : ∀ {q}, Inv (done ++ t.chars) q rest →
      ∃ used, t :: rest = used ++ rest ∧ Inv (done ++ tokenChars used) q rest :=
    fun hi => ⟨[t], rfl, by simpa using hi⟩
  unfold Parser.step at hs
  split at hs
  · next hk => cases hs; exact single (h.space hk)
  · next hk => cases hs; exact single (h.freeSemicolon hk)
  · next hk =>
    obtain ⟨p', hl, he⟩ := Except.map_ok hs
    cases he
    exact single (h.leave hk hl)
  · next hk => cases hs; exact single (h.comment hk)
  · next hk => exact h.atRule hk hs
  · next hk => cases hs; exact single (h.emptyRule hk)
  · next hspace hsemicolon hclose hcomment hat hopen =>
    have hf : t.isFiller = false := by
      simp only [Token.isFiller, Bool.or_eq_false_iff, decide_eq_false_iff_not]
      exact ⟨hspace, hcomment⟩
    exact h.run hf hclose hs

/-- **What every step keeps, the parser keeps** to the end of the tokens, and its invariant too. -/
theorem statements_keeps {fault : Option LexError} {ts : List Token}
    {I : List Char → Parser → List Token → Prop} (h : statements fault p ts = .ok q)
    (hi : Inv done p ts) (hstart : I done p ts)
    (hstep : ∀ {done : List Char} {p p' : Parser} {t : Token} {rest used rest' : List Token},
      p.step fault t rest = .ok (p', rest') → t :: rest = used ++ rest' → Inv done p (t :: rest) →
      I done p (t :: rest) → I (done ++ tokenChars used) p' rest') :
    fault = none ∧ Inv (done ++ tokenChars ts) q [] ∧ I (done ++ tokenChars ts) q [] := by
  -- a step may use many tokens, so the induction is on how many are left
  induction hn : ts.length using Nat.strongRecOn generalizing p ts done with
  | ind n ih =>
    cases ts with
    | nil =>
      obtain ⟨rfl, rfl⟩ := statements_nil h
      exact ⟨rfl, by simpa using hi, by simpa using hstart⟩
    | cons t rest =>
      obtain ⟨p', rest', hs, hrest⟩ := statements_cons h
      obtain ⟨used, hused, hi'⟩ := hi.step hs
      have hlt : rest'.length < n := by
        rw [← hn, List.length_cons]
        exact Nat.lt_succ_of_le (length_step hs)
      have hq := ih _ hlt hrest hi' (hstep hs hused hi hstart) rfl
      rwa [List.append_assoc, ← tokenChars_append, ← hused] at hq

/-- **The parser keeps its invariant**, to the end of the tokens. -/
theorem statements_inv {fault : Option LexError} {ts : List Token}
    (h : statements fault p ts = .ok q) (hi : Inv done p ts) :
    fault = none ∧ Inv (done ++ tokenChars ts) q [] := by
  obtain ⟨hnone, hq, -⟩ := statements_keeps (I := fun _ _ _ => True) h hi trivial
    fun _ _ _ _ => trivial
  exact ⟨hnone, hq⟩

/-! ## The whole text -/

theorem start_inv {ts : List Token} (ht : Tiled 0 ts) : Inv [] start ts := by
  refine .of_all ⟨rfl, fun b hb t ht => ?_⟩ ht fun s v => ⟨rfl, trivial⟩
  rcases List.mem_cons.1 hb with rfl | hb
  · cases ht
  · cases hb

/-- **A text that can be read is what its tree is printed as.** -/
theorem parse_spec {text : List Char} {t : Tree Parsed} (h : parse text = .ok t) :
    ∃ a ts, t = .block a ts ∧ RootFormatted Parsed.wording a ts ∧
      Piece.chars (t.pieces Parsed.wording false false) = text ∧
      Placed [] (t.pieces Parsed.wording false false) := by
  unfold parse at h
  obtain ⟨q, hs, hfinish⟩ := Except.bind_ok h
  obtain ⟨hnone, hi⟩ := statements_inv hs (start_inv (Lexer.tokens_tiled (.ofChars text) rfl))
  rw [List.nil_append, Lexer.chars_tokens _ rfl hnone] at hi
  unfold finish at hfinish
  split at hfinish
  · next ho =>
    cases hfinish
    have hroot := hi.built.stacked
    rw [List.isEmpty_iff.1 ho] at hroot
    have hnode : q.current.node = ⟨.root, Raws.empty, 0, none⟩ := hroot
    have hdata : (q.current.closeNode q.spaces q.semicolon none).data = .root := by
      rw [OpenBlock.closeNode, hnode]
    have hpieces : (q.current.close q.spaces q.semicolon none).pieces Parsed.wording false false =
        q.pieces q.semicolon q.semicolon ++ Piece.gap q.spaces := by
      rw [OpenBlock.close_eq, Tree.pieces, show (Parsed.wording
        (q.current.closeNode q.spaces q.semicolon none)).data = .root from hdata]
      simp only [OpenBlock.piecesAll_close, OpenBlock.slot_closeNode_after]
      simp [pieces, List.isEmpty_iff.1 ho, OpenBlock.pieces, OpenBlock.opening, hnode]
    refine ⟨_, _, OpenBlock.close_eq .., ⟨hdata, fun hne => ?_, ?_⟩, ?_, ?_⟩
    · exact congrArg Option.isSome (OpenBlock.get?_closeRaws_semicolon _ _ _ (by simpa using hne))
    · exact formattedAll_iff.2 fun t ht => hi.built.formatted _ (.head _) t (by simpa using ht)
    · rw [hpieces, Piece.chars_append, Piece.chars_gap]
      exact hi.closing.text
    · rw [hpieces, placed_append]
      exact ⟨hi.closing.placed, placed_gap _ _⟩
  · cases hfinish

end Parser

end Stylesheet
