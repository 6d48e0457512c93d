import Stylesheet.Proofs.Parse.Comment
import Stylesheet.Proofs.Parse.Declaration

/-!
# Where the tokens of an at-rule go

`Inv.atRule`: an at-rule takes tokens off the text and keeps the invariant of the parser, whatever
ends it. The blanks behind parameters that the text ends in are left to the root.
-/

set_option autoImplicit false

namespace Stylesheet

open Stylesheet.Text Stylesheet.Tree

/-! ## The last of some elements -/

theorem exists_of_getLast?_filter {α : Type} {q : α → Bool} {xs : List α} {x : α}
    (h : (xs.filter q).getLast? = some x) :
    ∃ front behind, xs = front ++ x :: behind ∧ ∀ y ∈ behind, q y = false := by
  induction xs with
  | nil => cases h
  | cons y xs ih =>
    cases hxs : (xs.filter q).getLast? with
    | some z =>
      have hz : z = x := by
        rw [List.filter_cons] at h
        split at h
        · rw [List.getLast?_cons, hxs] at h
          exact Option.some.inj h
        · exact Option.some.inj (hxs.symm.trans h)
      obtain ⟨front, behind, rfl, hall⟩ := ih (hz ▸ hxs)
      exact ⟨y :: front, behind, rfl, hall⟩
    | none =>
      have hnil := List.getLast?_eq_none_iff.1 hxs
      rw [List.filter_cons, hnil] at h
      split at h
      · cases h
        exact ⟨[], xs, rfl, by simpa using hnil⟩
      · cases h

theorem getLast?_of_suffix {α : Type} {xs ys : List α} {x : α} (h : xs <:+ ys)
    (hx : xs.getLast? = some x) : ys.getLast? = some x := by
  obtain ⟨front, rfl⟩ := h
  rw [List.getLast?_append, hx, Option.some_or]

/-! ## Parameters -/

/-- What the first of two cuts leaves does not end in a token that is cut off. -/
theorem cutEnd_eq_nil {p : Token → Bool} {ts : List Token}
    (h : (Token.cutEnd p ts).1.dropWhile p = []) : (Token.cutEnd p ts).1 = [] := by
  have hall : ∀ t ∈ (Token.cutEnd p ts).1, p t = true := by
    have := List.takeWhile_append_dropWhile (p := p) (l := (Token.cutEnd p ts).1)
    rw [h, List.append_nil] at this
    rw [← this]
    exact fun t ht => List.all_eq_true.1 List.all_takeWhile t ht
  cases hd : ts.reverse.dropWhile p with
  | nil => simp [Token.cutEnd, hd]
  | cons t us =>
    have ht : t ∈ (Token.cutEnd p ts).1 := by simp [Token.cutEnd, hd]
    have := List.head?_dropWhile_not p ts.reverse
    rw [hd, List.head?_cons] at this
    simp [hall t ht] at this

/-- Cleaning adds to a value. -/
theorem Cleaning.clean_prefix (trimEnd : Bool) (before : Option Token) (value : String)
    (ts : List Token) :
    ∃ more, (clean trimEnd before value ts).1.toList = value.toList ++ more := by
  induction ts generalizing before value with
  | nil => exact ⟨[], by simp [clean]⟩
  | cons t rest ih =>
    have kept : ∃ more, (clean trimEnd (some t) (value ++ t.text) rest).1.toList =
        value.toList ++ more := by
      obtain ⟨more, h⟩ := ih (some t) (value ++ t.text)
      exact ⟨t.text.toList ++ more, by rw [h]; simp⟩
    rw [clean]
    split
    · exact ⟨[], by simp⟩
    · split
      · split
        · exact ih (some t) value
        · split
          · exact ih (some t) value
          · exact kept
      · exact kept

/-- A value that starts with a word is not empty. -/
theorem cleanInto_ne_empty {raws : Raws} {slot : String} {trimEnd : Bool} {t : Token}
    {ts : List Token} (ht : t.Shaped) (hf : t.isFiller = false) :
    (cleanInto raws slot trimEnd (t :: ts)).1 ≠ "" := by
  simp only [Token.isFiller, Bool.or_eq_false_iff, decide_eq_false_iff_not] at hf
  have heq : (cleanInto raws slot trimEnd (t :: ts)).1 =
      (Cleaning.clean trimEnd (some t) ("" ++ t.text) ts).1 := by
    simp [cleanInto, Cleaning.clean, hf.1, hf.2]
  obtain ⟨more, h⟩ := Cleaning.clean_prefix trimEnd (some t) ("" ++ t.text) ts
  intro he
  rw [← heq, he] at h
  have := ht.solid
  simp [Token.chars] at h this
  exact this h.1

namespace Params

/-- The parameters of an at-rule, its formatting, and what is left to the block around it.
`e` is what ends the parameters. -/
def divide (spaces : String) (ts : List Token) (e : Ending) : String × Raws × String :=
  let (params, filler) := Token.cutEnd Token.isFiller ts
  let afterName := params.takeWhile Token.isFiller
  let params := params.dropWhile Token.isFiller
  let between := Token.concat filler
  let before := Raws.empty.setText "before" spaces
  if params.isEmpty then ("", (before.setText "between" between).setText "afterName" "", "")
  else
    let (text, raws) :=
      cleanInto (before.setText "afterName" (Token.concat afterName)) "params" true params
    if e = .endOfParams then (text, raws.setText "between" "", between)
    else (text, raws.setText "between" between, "")

/-- The node of an at-rule. -/
def node (spaces : String) (t : Token) (ts : List Token) (e : Ending) (last : Option Nat) :
    Parsed :=
  let d := divide spaces ts e
  ⟨.atRule (String.ofList (t.text.toList.drop 1)) d.1, d.2.1, t.first, last⟩

/-- The offset of the last character of an at-rule without a block. -/
def Gathered.last (g : Gathered) : Option Nat :=
  match g.ending with
  | .semicolon s => some s.first
  | .closeCurly _ => (g.tokens.filter fun t => !t.isSpace).getLast?.map Token.last
  | .endOfParams =>
    ((Token.cutEnd Token.isFiller g.tokens).1.dropWhile Token.isFiller).getLast?.map Token.last
  | _ => none

/-- The tokens between the parameters and the tokens that are left, by what ends the parameters. -/
def Ending.Ends : Ending → (closing rest : List Token) → Prop
  | .semicolon s, closing, _ => closing = [s] ∧ s.kind = .semicolon
  | .openCurly, closing, _ => ∃ c, closing = [c] ∧ c.kind = .openCurly
  | .closeCurly c, closing, _ => closing = [c] ∧ c.kind = .closeCurly
  | .endOfParams, closing, rest => closing = [] ∧ rest = []
  | .endOfName, closing, rest => closing = [] ∧ rest = []

theorem ends_of_ending? {t : Token} {e : Ending} (h : ending? t = some e) (rest : List Token) :
    e.Ends [t] rest := by
  unfold ending? at h
  split at h <;> cases h
  · next hk => exact ⟨rfl, hk⟩
  · next hk => exact ⟨t, rfl, hk⟩
  · next hk => exact ⟨rfl, hk⟩

/-- Gathering loses no token. -/
theorem gather_append (awaited : List TokenKind) {e : Ending}
    (he : e = .endOfName ∨ e = .endOfParams) (ts : List Token) :
    ∃ closing, ts = (gather awaited e ts).tokens ++ closing ++ (gather awaited e ts).rest ∧
      (gather awaited e ts).ending.Ends closing (gather awaited e ts).rest := by
  induction ts generalizing awaited e with
  | nil => rcases he with rfl | rfl <;> exact ⟨[], rfl, rfl, rfl⟩
  | cons t rest ih =>
    rw [gather]
    simp only
    split
    · next e' hend =>
      split at hend
      · exact ⟨[t], rfl, ends_of_ending? hend rest⟩
      · cases hend
    · obtain ⟨closing, hts, hends⟩ := ih (step awaited t) (.inr rfl)
      exact ⟨closing, congrArg (t :: ·) hts, hends⟩

/-! ## The slots -/

theorem head_eq {n : Parsed} {name params a : String} (hn : n.data = .atRule name params)
    (ha : n.raws.get? "afterName" = some (.text a)) :
    n.wording.head = "@" ++ name ++ a ++ (if params = "" then "" else n.wording.part "params") := by
  simp [Wording.head, Parsed.wording, hn, Raws.text?, ha, RawValue.toText]

/-- What is read off the division of the tokens behind a name. -/
structure Divided (spaces : String) (ts : List Token) (n : Parsed) (left : String) : Prop where
  before : n.raws.get? "before" = some (.text spaces)
  between : n.raws.contains "between"
  own : n.raws.get? "ownSemicolon" = none
  text : ∀ name params, n.data = .atRule name params →
    n.wording.head.toList ++ (n.wording.slot "between").toList ++ left.toList =
      '@' :: name.toList ++ tokenChars ts

/-- What follows parameters that the text ends in is left to the block around them. -/
theorem divide_endOfParams {spaces : String} {ts : List Token}
    (h : (Token.cutEnd Token.isFiller ts).1.dropWhile Token.isFiller ≠ []) :
    (divide spaces ts .endOfParams).2.2 = Token.concat (Token.cutEnd Token.isFiller ts).2 := by
  simp [divide, h]

theorem divided_of_nil {spaces : String} {ts : List Token} (e : Ending)
    (hd : (Token.cutEnd Token.isFiller ts).1.dropWhile Token.isFiller = []) (name : String)
    (start : Nat) (last : Option Nat) :
    Divided spaces ts ⟨.atRule name (divide spaces ts e).1, (divide spaces ts e).2.1, start,
      last⟩ (divide spaces ts e).2.2 ∧ (divide spaces ts e).2.2 = "" := by
  have hdiv : divide spaces ts e = ("", ((Raws.empty.setText "before" spaces).setText
      "between" (Token.concat (Token.cutEnd Token.isFiller ts).2)).setText "afterName" "", "") := by
    simp [divide, hd]
  have hcut := cutEnd_chars Token.isFiller ts
  rw [cutEnd_eq_nil hd, tokenChars_nil, List.nil_append] at hcut
  rw [hdiv]
  refine ⟨⟨rfl, rfl, rfl, fun name' params he => ?_⟩, rfl⟩
  cases he
  rw [head_eq rfl rfl, if_pos rfl, ← hcut, ← toList_concat]
  simp [Wording.slot, Parsed.wording, Raws.text?, Raws.setText, Raws.get?_set_of_ne,
    RawValue.toText]

theorem divided_of_cons {spaces : String} {ts us : List Token} {u : Token} (e : Ending)
    (hd : (Token.cutEnd Token.isFiller ts).1.dropWhile Token.isFiller = u :: us)
    (hu : u.Shaped) (name : String) (start : Nat) (last : Option Nat) :
    Divided spaces ts ⟨.atRule name (divide spaces ts e).1, (divide spaces ts e).2.1, start,
      last⟩ (divide spaces ts e).2.2 ∧
      (e ≠ .endOfParams → (divide spaces ts e).2.2 = "") := by
  have hcut := cutEnd_chars Token.isFiller ts
  have hparams := takeWhile_append_dropWhile_chars Token.isFiller (Token.cutEnd Token.isFiller ts).1
  have hfiller : u.isFiller = false := by
    have := List.head?_dropWhile_not Token.isFiller (Token.cutEnd Token.isFiller ts).1
    rw [hd, List.head?_cons] at this
    simpa using this
  generalize hbefore : (Raws.empty.setText "before" spaces).setText "afterName"
    (Token.concat ((Token.cutEnd Token.isFiller ts).1.takeWhile Token.isFiller)) = before
  generalize hc : cleanInto before "params" true (u :: us) = cleaned
  have hdiv : divide spaces ts e = (cleaned.1, cleaned.2.setText "between"
      (if e = .endOfParams then "" else Token.concat (Token.cutEnd Token.isFiller ts).2),
      if e = .endOfParams then Token.concat (Token.cutEnd Token.isFiller ts).2 else "") := by
    by_cases he : e = .endOfParams <;> simp [divide, hd, hbefore, hc, he]
  have hne : cleaned.1 ≠ "" := by rw [← hc]; exact cleanInto_ne_empty hu hfiller
  have hpart := @part_cleanInto before "params" true (u :: us) (by rw [← hbefore]; rfl)
  have hget : ∀ slot, slot ≠ "params" → slot ≠ "between" → ∀ b,
      (cleaned.2.setText "between" b).get? slot = before.get? slot := by
    intro slot hp hb b
    rw [Raws.setText, Raws.get?_set_of_ne _ _ hb, ← hc, get?_cleanInto hp]
  rw [hc] at hpart
  rw [hdiv]
  refine ⟨⟨?_, ?_, ?_, fun name' params he => ?_⟩, fun ha => by simp [ha]⟩
  · rw [hget _ (by decide) (by decide), ← hbefore]; rfl
  · simp [Raws.contains, Raws.setText]
  · rw [hget _ (by decide) (by decide), ← hbefore]; rfl
  · cases he
    rw [head_eq (a := _) rfl ((hget _ (by decide) (by decide) _).trans (by rw [← hbefore]; rfl)),
      if_neg hne]
    have hp : (Wording.part ⟨.atRule name cleaned.1, cleaned.2.setText "between"
        (if e = .endOfParams then ""
          else Token.concat (Token.cutEnd Token.isFiller ts).2)⟩ "params").toList =
        tokenChars (u :: us) := by
      simpa [Wording.part, Raws.lexemeFor, Raws.setText, Raws.get?_set_of_ne,
        NodeData.cleaned] using hpart
    rw [← hcut, ← hparams, hd, ← hp]
    by_cases he : e = .endOfParams <;>
      simp [Wording.slot, Parsed.wording, Raws.text?, Raws.setText, RawValue.toText, he]

/-- The slots of an at-rule hold its tokens, up to what is left to the block around it. -/
theorem node_spec (spaces : String) {t : Token} {ts : List Token} (ht : t.Shaped)
    (hk : t.kind = .atWord) (hs : ∀ u ∈ ts, u.Shaped) (e : Ending) (last : Option Nat) :
    let n := node spaces t ts e last
    n.raws.get? "before" = some (.text spaces) ∧ n.raws.contains "between" ∧
      n.raws.get? "ownSemicolon" = none ∧
      n.wording.head.toList ++ (n.wording.slot "between").toList ++
        (divide spaces ts e).2.2.toList = t.chars ++ tokenChars ts ∧
      (e ≠ .endOfParams → (divide spaces ts e).2.2 = "") := by
  obtain ⟨name, hname⟩ := ht.atWord hk
  have hdrop : t.text.toList.drop 1 = name := by
    rw [show t.text.toList = t.chars from rfl, hname, List.drop_one, List.tail_cons]
  have hdivided : Divided spaces ts (node spaces t ts e last) (divide spaces ts e).2.2 ∧
      (e ≠ .endOfParams → (divide spaces ts e).2.2 = "") := by
    cases hd : (Token.cutEnd Token.isFiller ts).1.dropWhile Token.isFiller with
    | nil =>
      obtain ⟨h, hl⟩ := divided_of_nil e hd (String.ofList (t.text.toList.drop 1)) t.first last
      exact ⟨h, fun _ => hl⟩
    | cons u us =>
      refine divided_of_cons e hd (hs u ?_) (String.ofList (t.text.toList.drop 1)) t.first last
      have hu : u ∈ (Token.cutEnd Token.isFiller ts).1 :=
        (List.dropWhile_sublist _).subset (by rw [hd]; exact .head _)
      rw [← Token.cutEnd_append Token.isFiller ts]
      exact List.mem_append.2 (.inl hu)
  obtain ⟨⟨hbefore, hbetween, hown, htext⟩, hleft⟩ := hdivided
  refine ⟨hbefore, hbetween, hown, ?_, hleft⟩
  rw [htext _ _ rfl, hdrop, hname, String.toList_ofList]

end Params

namespace Parser

variable {p q : Parser} {done : List Char} {t : Token} {rest rest' : List Token}

/-- An at-rule of a text without a fault. -/
theorem atRule_eq (p : Parser) (t : Token) (rest : List Token) :
    p.atRule none t rest = if (t.text.toList.drop 1).isEmpty
      then .error ⟨.namelessAtRule, t.first, some (t.last + 1)⟩
      else
        let g := Params.gather [] .endOfName rest
        let node := Params.node p.spaces t g.tokens g.ending g.last
        match g.ending with
        | .openCurly => .ok (p.enter node, g.rest)
        | .closeCurly c => ((p.add (.leaf node) false).leave c).map (·, g.rest)
        | .semicolon _ => .ok (p.add (.leaf node) true, g.rest)
        | _ => .ok ({ p.add (.leaf node) false with
            spaces := (Params.divide p.spaces g.tokens g.ending).2.2 }, g.rest) := by
  unfold atRule
  generalize Params.gather [] .endOfName rest = g
  obtain ⟨ts, ending, left⟩ := g
  simp only [ite_self]
  split
  · rfl
  · cases ending <;> rfl

theorem atRule_ok {fault : Option LexError} (h : p.atRule fault t rest = .ok (q, rest')) :
    let g := Params.gather [] .endOfName rest
    let node := Params.node p.spaces t g.tokens g.ending g.last
    rest' = g.rest ∧ match g.ending with
      | .openCurly => q = p.enter node
      | .closeCurly c => (p.add (.leaf node) false).leave c = .ok q
      | .semicolon _ => q = p.add (.leaf node) true
      | _ => q = { p.add (.leaf node) false with
          spaces := (Params.divide p.spaces g.tokens g.ending).2.2 } := by
  intro g node
  unfold atRule at h
  simp only at h
  split at h
  · cases h
  split at h
  · cases h
  change (match g.ending with
    | .openCurly => Except.ok (p.enter node, g.rest)
    | .closeCurly c => ((p.add (.leaf node) false).leave c).map (·, g.rest)
    | .semicolon _ => Except.ok (p.add (.leaf node) true, g.rest)
    | _ => Except.ok ({ p.add (.leaf node) false with
        spaces := (Params.divide p.spaces g.tokens g.ending).2.2 }, g.rest)) = .ok (q, rest') at h
  clear_value g node
  split at h
  · cases h
    exact ⟨rfl, rfl⟩
  · next c _ =>
    cases hl : (p.add (.leaf node) false).leave c with
    | error e => rw [hl] at h; cases h
    | ok q' => rw [hl] at h; cases h; exact ⟨rfl, rfl⟩
  · cases h
    exact ⟨rfl, rfl⟩
  · cases h
    exact ⟨rfl, rfl⟩

/-! ## The node -/

/-- The node of an at-rule, made of the at-word `t` and the tokens `ts` behind it. -/
structure AtRuleNode (p : Parser) (done : List Char) (t : Token) (ts : List Token)
    (e : Params.Ending) (n : Parsed) : Prop where
  data : ∃ name params, n.data = .atRule name params
  before : n.raws.get? "before" = some (.text p.spaces)
  between : n.raws.contains "between"
  own : n.raws.get? "ownSemicolon" = none
  start : n.start = byteSize done
  text : n.wording.head.toList ++ (n.wording.slot "between").toList ++
    (Params.divide p.spaces ts e).2.2.toList = t.chars ++ tokenChars ts
  left : e ≠ .endOfParams → (Params.divide p.spaces ts e).2.2 = ""

section
variable {n : Parsed} {ts : List Token} {e : Params.Ending}

theorem atRuleNode (h : Tiled (byteSize done) (t :: ts)) (hk : t.kind = .atWord)
    (e : Params.Ending) (last : Option Nat) :
    p.AtRuleNode done t ts e (Params.node p.spaces t ts e last) := by
  obtain ⟨hbefore, hbetween, hown, htext, hleft⟩ := Params.node_spec p.spaces h.1.shaped hk
    (fun u hu => h.shaped (.tail _ hu)) e last
  exact ⟨⟨_, _, rfl⟩, hbefore, hbetween, hown, h.1.first, htext, hleft⟩

namespace AtRuleNode

theorem kind (h : p.AtRuleNode done t ts e n) : n.data.kind = .atRule := by
  obtain ⟨name, params, hd⟩ := h.data
  rw [hd]
  rfl

theorem slot_before (h : p.AtRuleNode done t ts e n) : n.wording.slot "before" = p.spaces := by
  simp [Wording.slot, Parsed.wording, Raws.text?, h.before, RawValue.toText]

theorem leaf (h : p.AtRuleNode done t ts e n) (s : Bool) :
    (n.wording.leaf s).toList = n.wording.head.toList ++
      (n.wording.slot "between").toList ++ if s then [';'] else [] := by
  obtain ⟨name, params, hd⟩ := h.data
  have : n.wording.leaf s = n.wording.head ++ n.wording.slot "between" ++
    if s then ";" else "" := by simp [Wording.leaf, Parsed.wording, hd]
  rw [this]
  cases s <;> simp

/-- Behind parameters that are not the end of the text nothing is left over. -/
theorem chars (h : p.AtRuleNode done t ts e n) (he : e ≠ .endOfParams) :
    n.wording.head.toList ++ (n.wording.slot "between").toList = tokenChars (t :: ts) := by
  have := h.text
  rw [h.left he] at this
  simpa using this

theorem formatted (h : p.AtRuleNode done t ts e n) :
    (Tree.leaf n).Formatted Parsed.wording := by
  obtain ⟨name, params, hd⟩ := h.data
  simp [Formatted, Wording.LeafFormatted, Parsed.wording, hd, Raws.contains, h.before]

theorem inner (h : p.AtRuleNode done t ts e n) : (⟨n, []⟩ : OpenBlock).Inner :=
  ⟨.inr h.kind, by simp [Raws.contains, h.before], h.between, h.own⟩

/-- An at-rule without a block. -/
theorem covers (h : p.AtRuleNode done t ts e n) (hc : p.Covers true true done) {s v : Bool}
    (hstops : n.Stops done (n.wording.leaf s).toList)
    (he : v = true → n.EndsWith (done ++ (n.wording.leaf s).toList)) (semicolon : Bool) :
    (p.add (.leaf n) semicolon).Covers s v (done ++ (n.wording.leaf s).toList) := by
  obtain ⟨name, params, hd⟩ := h.data
  refine hc.leaf (by simp [h.kind]) (by rw [h.slot_before]) (fun base hbase => ?_)
    (fun base hbase => by rwa [h.slot_before, hbase]) he
  refine .inl ⟨by rw [h.slot_before, hbase, h.start], ?_⟩
  simp [Wording.leaf, Wording.head, Parsed.wording, hd]

/-! ## Where it stops -/

/-- An at-rule that a brace ends stops before the blanks at its end, if anything else stands behind
its name. -/
theorem stops_closeCurly (h : p.AtRuleNode done t ts e n) (he : e ≠ .endOfParams)
    (ht : Tiled (byteSize done) (t :: ts))
    (hlast : n.last = (ts.filter fun t => !t.isSpace).getLast?.map Token.last) :
    n.Stops done (n.wording.leaf false).toList := by
  rw [h.leaf, if_neg (by simp), List.append_nil, h.chars he]
  cases hu : (ts.filter fun t => !t.isSpace).getLast? with
  | none =>
    rw [hu] at hlast
    exact ⟨_, [], (List.append_nil _).symm, by simp, .inr h.kind, by simp [hlast]⟩
  | some u =>
    rw [hu] at hlast
    obtain ⟨front, blanks, rfl, hblank⟩ := exists_of_getLast?_filter hu
    have hsplit : t :: (front ++ u :: blanks) = (t :: front ++ [u]) ++ blanks := by simp
    rw [hsplit] at ht ⊢
    obtain ⟨hfront, hblanks⟩ := tiled_append.1 ht
    obtain ⟨before, c, hdone, hfirst⟩ := hfront.ends List.getLast?_concat
    refine ⟨_, tokenChars blanks, tokenChars_append _ _, fun d hd => ?_, .inr h.kind,
      fun last hl => ?_⟩
    · obtain ⟨b, hb, hd⟩ := List.mem_flatMap.1 hd
      have hspace : b.kind = .space := by simpa [Token.isSpace] using hblank b hb
      exact (hblanks.shaped hb).space hspace d hd
    · rw [hlast, Option.map_some, Option.some.injEq] at hl
      exact ⟨before, c, hdone, hl.symm.trans hfirst⟩

/-- An at-rule at the end of the text ends with its parameters. Without any, all that stands behind
its name belongs to it. -/
theorem ends_end (h : p.AtRuleNode done t ts e n) (ht : Tiled (byteSize done) (t :: ts))
    (hlast : e = .endOfName ∧ n.last = none ∨ e = .endOfParams ∧ n.last =
      ((Token.cutEnd Token.isFiller ts).1.dropWhile Token.isFiller).getLast?.map Token.last) :
    (n.last = none → (Params.divide p.spaces ts e).2.2 = "") ∧
      ∀ last, n.last = some last → ∃ front c,
        done ++ (n.wording.leaf false).toList = front ++ [c] ∧ last = byteSize front := by
  rcases hlast with ⟨rfl, hlast⟩ | ⟨rfl, hlast⟩
  · exact ⟨fun _ => h.left (by simp), by simp [hlast]⟩
  cases hu : ((Token.cutEnd Token.isFiller ts).1.dropWhile Token.isFiller).getLast? with
  | none =>
    have hnil := List.getLast?_eq_none_iff.1 hu
    rw [hu] at hlast
    exact ⟨fun _ => by simp [Params.divide, hnil], by simp [hlast]⟩
  | some u =>
    rw [hu] at hlast
    have hne : (Token.cutEnd Token.isFiller ts).1.dropWhile Token.isFiller ≠ [] := by
      intro he
      rw [he] at hu
      cases hu
    have hend : (t :: (Token.cutEnd Token.isFiller ts).1).getLast? = some u := by
      rw [List.getLast?_cons, getLast?_of_suffix (List.dropWhile_suffix Token.isFiller) hu]
      rfl
    rw [← Token.cutEnd_append Token.isFiller ts, ← List.cons_append] at ht
    obtain ⟨front, c, hdone, hfirst⟩ := (tiled_append.1 ht).1.ends hend
    refine ⟨by simp [hlast], fun last hl => ⟨front, c, ?_, ?_⟩⟩
    · have htext := h.text
      rw [Params.divide_endOfParams hne, toList_concat, ← cutEnd_chars Token.isFiller ts,
        ← List.append_assoc] at htext
      rw [← hdone, h.leaf, if_neg (by simp), List.append_nil, List.append_cancel_right htext]
      rfl
    · rw [hlast, Option.map_some, Option.some.injEq] at hl
      exact hl.symm.trans hfirst

theorem stops_end (h : p.AtRuleNode done t ts e n) (ht : Tiled (byteSize done) (t :: ts))
    (hlast : e = .endOfName ∧ n.last = none ∨ e = .endOfParams ∧ n.last =
      ((Token.cutEnd Token.isFiller ts).1.dropWhile Token.isFiller).getLast?.map Token.last) :
    n.Stops done (n.wording.leaf false).toList :=
  ⟨_, [], (List.append_nil _).symm, by simp, .inr h.kind, (h.ends_end ht hlast).2⟩

/-! ## What ends it -/

theorem inv_openCurly {c : Token} (h : p.AtRuleNode done t ts e n) (he : e ≠ .endOfParams)
    (hb : p.Built) (hc : p.Covers true true done)
    (ht : Tiled (byteSize done) (t :: ts ++ c :: rest))
    (hk : c.kind = .openCurly) :
    Inv (done ++ tokenChars (t :: ts ++ [c])) (p.enter n) rest := by
  rw [tiled_append] at ht
  obtain ⟨-, hclosing, hrest⟩ := ht
  have hchars : c.chars = ['\x7b'] := hclosing.shaped.mark _ (by rw [hk]; rfl)
  have hopening : (Tree.opening Parsed.wording n).text.toList = tokenChars (t :: ts ++ [c]) := by
    rw [tokenChars_append, ← h.chars he]
    simp [Tree.opening, hchars]
  refine .of_all (hb.enter h.inner) ?_ ?_
  · simpa [Nat.add_assoc] using hrest
  · exact hc.enter h.inner h.slot_before hopening h.start

theorem inv_closeCurly {c : Token} (h : p.AtRuleNode done t ts e n) (he : e ≠ .endOfParams)
    (hstops : n.Stops done (n.wording.leaf false).toList) (hb : p.Built) (hc : p.Covers true true done)
    (ht : Tiled (byteSize done) (t :: ts ++ c :: rest))
    (hk : c.kind = .closeCurly) (hl : (p.add (.leaf n) false).leave c = .ok q) :
    Inv (done ++ tokenChars (t :: ts ++ [c])) q rest := by
  rw [tiled_append] at ht
  obtain ⟨-, hclosing, hrest⟩ := ht
  have hbuilt := hb.add h.formatted false
  have hcover := h.covers hc (s := false) (v := false) hstops (by simp) false
  rw [h.leaf, if_neg (by simp), List.append_nil, h.chars he] at hcover
  refine .of_all (hbuilt.leave hl) ?_ fun s v => ?_
  · simpa [Nat.add_assoc] using hrest
  · have hat : c.At (byteSize (done ++ tokenChars (t :: ts))) := by
      simpa [Nat.add_assoc] using hclosing
    simpa using Covers.leave hbuilt hcover hat hk hl s v

theorem inv_semicolon {c : Token} (h : p.AtRuleNode done t ts e n) (he : e ≠ .endOfParams)
    (hb : p.Built) (hc : p.Covers true true done)
    (ht : Tiled (byteSize done) (t :: ts ++ c :: rest))
    (hk : c.kind = .semicolon) (hlast : n.last = some c.first) :
    Inv (done ++ tokenChars (t :: ts ++ [c])) (p.add (.leaf n) true) rest := by
  rw [tiled_append] at ht
  obtain ⟨hhead, hclosing, hrest⟩ := ht
  have hchars : c.chars = [';'] := hclosing.shaped.mark _ (by rw [hk]; rfl)
  have htext : (n.wording.leaf true).toList = tokenChars (t :: ts ++ [c]) := by
    rw [h.leaf, h.chars he, if_pos rfl, ← hchars]
    simp
  have hend : n.EndsWith (done ++ (n.wording.leaf true).toList) := by
    rw [htext]
    refine Parsed.endsWith_of_tiled (t := c) (tiled_append.2 ⟨hhead, hclosing, trivial⟩)
      List.getLast?_concat (by simp [hk]) ?_
    rw [hlast, hclosing.last, hchars]
    simp [hclosing.first]
  have hcover := h.covers hc (s := true) (v := true) hend.stops (fun _ => hend) true
  rw [htext] at hcover
  refine .of_semicolon (hb.add h.formatted true) ?_ rfl hcover
  simpa [Nat.add_assoc] using hrest

theorem inv_end (h : p.AtRuleNode done t ts e n)
    (hstops : n.Stops done (n.wording.leaf false).toList) (hb : p.Built)
    (hc : p.Covers true true done) :
    Inv (done ++ tokenChars (t :: ts)) { p.add (.leaf n) false with
      spaces := (Params.divide p.spaces ts e).2.2 } [] := by
  have hbuilt := hb.add h.formatted false
  have hcover := (h.covers hc (s := false) (v := false) hstops (by simp) false).withSpaces rfl
    (Params.divide p.spaces ts e).2.2
  rw [h.leaf, if_neg (by simp), List.append_nil, List.append_assoc, h.text] at hcover
  exact ⟨⟨hbuilt.stacked, hbuilt.formatted⟩, trivial, hcover, fun hb => absurd trivial hb,
    fun hb => absurd trivial hb⟩

end AtRuleNode

end

/-- The tokens of an at-rule, and the parser behind them. -/
theorem Inv.atRule {fault : Option LexError} (h : Inv done p (t :: rest)) (hk : t.kind = .atWord)
    (hr : p.atRule fault t rest = .ok (q, rest')) :
    ∃ used, t :: rest = used ++ rest' ∧ Inv (done ++ tokenChars used) q rest' := by
  obtain ⟨closing, hts, hends⟩ := Params.gather_append [] (.inl rfl) rest
  obtain ⟨rfl, hq⟩ := atRule_ok hr
  generalize Params.gather [] .endOfName rest = g at hts hends hq ⊢
  have hc := h.covers (by simp [Token.isFiller, hk]) (by simp [hk])
  have htiled := h.tiled
  rw [hts, ← List.cons_append, ← List.cons_append] at htiled
  have hhead := (tiled_append.1 (tiled_append.1 htiled).1).1
  have hnode := p.atRuleNode hhead hk g.ending g.last
  have hlast : (Params.node p.spaces t g.tokens g.ending g.last).last = g.last := rfl
  have hused : t :: rest = t :: g.tokens ++ closing ++ g.rest := by rw [hts]; simp
  generalize Params.node p.spaces t g.tokens g.ending g.last = n at *
  refine ⟨t :: g.tokens ++ closing, hused, ?_⟩
  cases he : g.ending with
  | openCurly =>
    rw [he] at hq hends hnode
    obtain ⟨c, rfl, hc'⟩ := hends
    rw [hq]
    exact hnode.inv_openCurly (by simp) h.built hc (by simpa using htiled) hc'
  | closeCurly c =>
    rw [he] at hq hends hnode
    obtain ⟨rfl, hc'⟩ := hends
    have hstops := hnode.stops_closeCurly (by simp) hhead (by rw [hlast, Params.Gathered.last, he])
    exact hnode.inv_closeCurly (by simp) hstops h.built hc (by simpa using htiled) hc' hq
  | semicolon c =>
    rw [he] at hq hends hnode
    obtain ⟨rfl, hc'⟩ := hends
    rw [hq]
    refine hnode.inv_semicolon (by simp) h.built hc (by simpa using htiled) hc' ?_
    rw [hlast, Params.Gathered.last, he]
  | endOfParams =>
    rw [he] at hq hends hnode
    rw [hq, hends.1, hends.2, List.append_nil]
    refine hnode.inv_end (hnode.stops_end hhead (.inr ⟨rfl, ?_⟩)) h.built hc
    rw [hlast, Params.Gathered.last, he]
  | endOfName =>
    rw [he] at hq hends hnode
    rw [hq, hends.1, hends.2, List.append_nil]
    refine hnode.inv_end (hnode.stops_end hhead (.inl ⟨rfl, ?_⟩)) h.built hc
    rw [hlast, Params.Gathered.last, he]

end Parser

end Stylesheet
