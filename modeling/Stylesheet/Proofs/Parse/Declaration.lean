import Stylesheet.Parser.Declaration
import Stylesheet.Proofs.Parse.Layout

/-!
# Where the tokens of a declaration go

`Declaration.parse_spec`: the slots of a declaration that was read hold its tokens, each once and
in order. One lemma for each cut says that nothing is lost there (`leading_ok`, `separator_ok`,
`findMark_append`, `part_cleanInto`); the slots are then read back one by one.
-/

set_option autoImplicit false

namespace Stylesheet

open Stylesheet.Text

theorem Except.bind_ok {ε α β : Type} {x : Except ε α} {f : α → Except ε β} {b : β}
    (h : x >>= f = .ok b) : ∃ a, x = .ok a ∧ f a = .ok b := by
  cases x with
  | error e => cases h
  | ok a => exact ⟨a, rfl, h⟩

theorem Except.map_ok {ε α β : Type} {x : Except ε α} {f : α → β} {b : β}
    (h : x.map f = .ok b) : ∃ a, x = .ok a ∧ f a = b := by
  cases x with
  | error e => cases h
  | ok a => exact ⟨a, rfl, Except.ok.inj h⟩

/-- A check before the end changes nothing in the result. -/
theorem Except.eq_of_guard {ε α : Type} {c : Prop} [Decidable c] {x : Except ε PUnit} {a b : α}
    (h : (if c then x >>= fun _ => pure a else pure a) = .ok b) : b = a := by
  split at h
  · obtain ⟨_, -, h⟩ := Except.bind_ok h
    cases h; rfl
  · cases h; rfl

/-- What comes out of a computation that may fail can be evaluated. -/
instance Except.decidableOk {ε α : Type} (x : Except ε α) (p : α → Prop) [DecidablePred p] :
    Decidable (∃ a, x = .ok a ∧ p a) :=
  match x with
  | .error _ => .isFalse fun ⟨_, h, _⟩ => nomatch h
  | .ok a => decidable_of_iff (p a) ⟨fun h => ⟨a, rfl, h⟩, fun ⟨_, he, h⟩ => Except.ok.inj he ▸ h⟩

instance Except.decidableOkPair {ε α β : Type} (x : Except ε (α × β)) (p : α → β → Prop)
    [∀ a b, Decidable (p a b)] : Decidable (∃ a b, x = .ok (a, b) ∧ p a b) :=
  decidable_of_iff (∃ r, x = .ok r ∧ p r.1 r.2)
    ⟨fun ⟨r, h⟩ => ⟨r.1, r.2, h⟩, fun ⟨a, b, h⟩ => ⟨(a, b), h⟩⟩

theorem takeWhile_append_dropWhile_chars (p : Token → Bool) (ts : List Token) :
    tokenChars (ts.takeWhile p) ++ tokenChars (ts.dropWhile p) = tokenChars ts := by
  rw [← tokenChars_append, List.takeWhile_append_dropWhile]

theorem cutEnd_chars (p : Token → Bool) (ts : List Token) :
    tokenChars (Token.cutEnd p ts).1 ++ tokenChars (Token.cutEnd p ts).2 = tokenChars ts := by
  rw [← tokenChars_append, Token.cutEnd_append]

/-! ## Cleaned values -/

/-- A value that cleaning says is whole is all of the tokens. -/
theorem Cleaning.clean_whole {trimEnd : Bool} {before : Option Token} {value : String}
    {ts : List Token} (h : (clean trimEnd before value ts).2 = true) :
    (clean trimEnd before value ts).1.toList = value.toList ++ tokenChars ts := by
  induction ts generalizing before value with
  | nil => simp [clean]
  | cons t rest ih =>
    generalize hr : clean trimEnd before value (t :: rest) = r at h ⊢
    have kept : clean trimEnd (some t) (value ++ t.text) rest = r →
        r.1.toList = value.toList ++ tokenChars (t :: rest) := by
      rintro rfl
      rw [ih h]
      simp [Token.chars]
    rw [clean] at hr
    split at hr
    · subst hr; cases h
    · split at hr
      · split at hr
        · subst hr; cases h
        · split at hr
          · subst hr; cases h
          · exact kept hr
      · exact kept hr

/-- The part that a cleaned value is printed as is all of its tokens. -/
theorem part_cleanInto {raws : Raws} {slot : String} {trimEnd : Bool} {ts : List Token}
    (hs : raws.get? slot = none) :
    (((cleanInto raws slot trimEnd ts).2.lexemeFor slot (cleanInto raws slot trimEnd ts).1).getD
      (cleanInto raws slot trimEnd ts).1).toList = tokenChars ts := by
  simp only [cleanInto]
  have hw := @Cleaning.clean_whole trimEnd none "" ts
  cases h : (Cleaning.clean trimEnd none "" ts).2 with
  | true => simpa [Raws.lexemeFor, hs] using hw h
  | false => simp [Raws.lexemeFor]

theorem get?_cleanInto {raws : Raws} {slot other : String} {trimEnd : Bool} {ts : List Token}
    (h : other ≠ slot) : (cleanInto raws slot trimEnd ts).2.get? other = raws.get? other := by
  simp only [cleanInto]
  split
  · rfl
  · exact Raws.get?_set_of_ne _ _ h

namespace Declaration

/-! ## The cuts -/

/-- What stands before the first word. -/
theorem leading_ok {before b : String} {ts ts' : List Token} (hne : ts ≠ [])
    (h : leading before ts = .ok (b, ts')) :
    ∃ lead, ts = lead ++ ts' ∧ b.toList = before.toList ++ tokenChars lead ∧
      (∀ t ∈ lead, t.kind ≠ .word) ∧ ∃ t rest, ts' = t :: rest ∧ t.kind = .word := by
  induction ts generalizing before with
  | nil => exact absurd rfl hne
  | cons t rest ih =>
    rw [leading] at h
    split at h
    · next hk =>
      simp only [Except.ok.injEq, Prod.mk.injEq] at h
      obtain ⟨rfl, rfl⟩ := h
      exact ⟨[], rfl, by simp, by simp, t, rest, rfl, hk⟩
    · next hk =>
      split at h
      · cases h
      · next hr =>
        obtain ⟨lead, rfl, hb, hl, hw⟩ := ih (by simpa using hr) h
        refine ⟨t :: lead, rfl, by simp [hb, Token.chars], ?_, hw⟩
        simpa [hk] using hl

/-- The separator and what stands behind it. -/
theorem separator_ok {between b : String} {ts ts' : List Token} (hs : ∀ t ∈ ts, t.Shaped)
    (h : separator between ts = .ok (b, ts')) :
    b.toList ++ tokenChars ts' = between.toList ++ tokenChars ts ∧ ∀ t ∈ ts', t ∈ ts := by
  induction ts generalizing between with
  | nil =>
    simp only [separator, Except.ok.injEq, Prod.mk.injEq] at h
    obtain ⟨rfl, rfl⟩ := h
    simp
  | cons t rest ih =>
    rw [separator] at h
    split at h
    · next hk =>
      simp only [Except.ok.injEq, Prod.mk.injEq] at h
      obtain ⟨rfl, rfl⟩ := h
      have : t.chars = [':'] := (hs t (by simp)).mark ':' (by rw [hk]; rfl)
      simp only [String.toList_append, tokenChars_cons, this, List.append_assoc]
      exact ⟨rfl, fun u hu => .tail _ hu⟩
    · split at h
      · cases h
      · obtain ⟨hb, hm⟩ := ih (fun u hu => hs u (by simp [hu])) h
        refine ⟨by simp [hb, Token.chars], fun u hu => by simp [hm u hu]⟩

/-- A hack is a single mark. -/
theorem splitHack_append (prop : String) :
    (splitHack prop).1.toList ++ (splitHack prop).2.toList = prop.toList ∧
      ((splitHack prop).1 = "" ∨
        ∃ c, (c = '*' ∨ c = '_') ∧ (splitHack prop).1.toList = [c]) := by
  unfold splitHack
  split
  · next c rest hp =>
    split
    · next hc =>
      simp only [Bool.or_eq_true, decide_eq_true_eq] at hc
      exact ⟨by simp [hp], .inr ⟨c, hc.symm, by simp⟩⟩
    · exact ⟨by simp, .inl rfl⟩
  · exact ⟨by simp, .inl rfl⟩

theorem unwind_append {position : Nat} {mark m : String} {reversed r : List Token}
    (h : unwind position mark reversed = (m, r)) :
    tokenChars r.reverse ++ m.toList = tokenChars reversed.reverse ++ mark.toList := by
  induction position generalizing mark reversed with
  | zero =>
    simp only [unwind, Prod.mk.injEq] at h
    rw [← h.1, ← h.2]
  | succ position ih =>
    unfold unwind at h
    extract_lets bound at h
    split at h
    · simp only [Prod.mk.injEq] at h
      rw [← h.1, ← h.2]
    · split at h
      · simp only [Prod.mk.injEq] at h
        rw [← h.1, ← h.2]
      · rw [ih h]
        simp [Token.chars]

/-- The value and the mark of importance. -/
theorem findMark_append (ts : List Token) :
    tokenChars (findMark ts).tokens ++ ((findMark ts).mark.getD "").toList = tokenChars ts := by
  have hcut := cutEnd_chars Token.isFiller ts
  unfold findMark
  generalize Token.cutEnd Token.isFiller ts = cut at hcut ⊢
  obtain ⟨body, filler⟩ := cut
  simp only at hcut ⊢
  split
  · simp
  · next word hw =>
    obtain ⟨front, rfl⟩ := List.getLast?_eq_some_iff.1 hw
    split
    · have := cutEnd_chars Token.isSpace front
      simp only [List.dropLast_concat]
      simp only [← hcut, ← this, Option.getD_some, String.toList_append, toList_concat,
        tokenChars_append, tokenChars_cons, tokenChars_nil, List.append_nil, List.append_assoc]
    · split
      · generalize hu : unwind _ _ _ = u
        obtain ⟨mark, reversed⟩ := u
        simp only
        split
        · simpa using unwind_append hu
        · simp
      · simp

/-! ## The slots -/

/-- The slots of a declaration that stands behind `base`. -/
structure Laid (base : List Char) (spaces : String) (ts : List Token) (n : Parsed) : Prop where
  kind : n.data.kind = .declaration
  formatted : n.wording.LeafFormatted
  own : n.raws.get? "ownSemicolon" = none
  text : (n.wording.slot "before").toList ++ (n.wording.leaf false).toList =
    spaces.toList ++ tokenChars ts
  start : n.StartsBehind (base ++ (n.wording.slot "before").toList) (n.wording.leaf false).toList

/-- The formatting that a declaration is given before its value. -/
def formatting (before : String) (mark : Option String) (between : String) : Raws :=
  let raws := Raws.empty.setText "before" before
  let raws := match mark with
    | some m => if m = " !important" then raws else raws.setText "important" m
    | none => raws
  raws.setText "between" between

theorem get?_formatting (before : String) (mark : Option String) (between : String) :
    (formatting before mark between).get? "before" = some (.text before) ∧
    (formatting before mark between).get? "between" = some (.text between) ∧
    (formatting before mark between).get? "value" = none ∧
    (formatting before mark between).get? "ownSemicolon" = none ∧
    (∀ m, mark = some m →
      ((formatting before mark between).text? "important").getD " !important" = m) := by
  have hempty : ∀ slot, Raws.empty.get? slot = none := fun _ => rfl
  unfold formatting
  cases mark with
  | none => simp [Raws.setText, Raws.get?_set_of_ne, hempty]
  | some m =>
    by_cases hm : m = " !important"
    · simp [hm, Raws.setText, Raws.get?_set_of_ne, hempty, Raws.text?]
    · simp [hm, Raws.setText, Raws.get?_set_of_ne, hempty, Raws.text?, RawValue.toText]

/-- The tokens that the value is cleaned from, and what stands between it and the property. Blanks
before a value belong to `between`, unless the value has nothing else. -/
def divide (between : String) (ts : List Token) : String × List Token :=
  let filler := ts.takeWhile Token.isFiller
  let value := (findMark (ts.dropWhile Token.isFiller)).tokens
  let solid := value.any fun t => !t.isFiller
  (if solid then between ++ Token.concat filler else between,
    if solid then value else filler ++ value)

/-- The declaration with `before` before its first word, `prop` the text of the property, and `ts`
behind the separator. -/
def assemble (before prop between : String) (ts : List Token) (start : Nat) (last : Option Nat)
    (custom : Bool) : Parsed :=
  let mark := (findMark (ts.dropWhile Token.isFiller)).mark
  let raws := formatting (before ++ (splitHack prop).1) mark (divide between ts).1
  let cleaned := cleanInto raws "value" (!custom) (divide between ts).2
  ⟨.declaration (splitHack prop).2 cleaned.1 mark.isSome, cleaned.2, start, last⟩

theorem parse_ok {spaces : String} {ts : List Token} {closing : Option Token} {custom : Bool}
    {n : Parsed} (h : parse spaces ts closing custom = .ok n) :
    ∃ before ts1 between ts2, leading spaces ts = .ok (before, ts1) ∧
      separator "" (ts1.dropWhile fun t => !endsProp t) = .ok (between, ts2) ∧
      n = assemble before (Token.concat (ts1.takeWhile fun t => !endsProp t)) between ts2
        (((ts.dropWhile fun t => t.kind ≠ .word).head?.map Token.first).getD 0)
        (lastOffset (ts ++ closing.toList)) custom := by
  unfold parse at h
  obtain ⟨⟨before, ts1⟩, hlead, h⟩ := Except.bind_ok h
  simp only at h
  obtain ⟨⟨between, ts2⟩, hsep, h⟩ := Except.bind_ok h
  simp only at h
  exact ⟨before, ts1, between, ts2, hlead, hsep, Except.eq_of_guard h⟩

theorem divide_append (between : String) (ts : List Token) :
    (divide between ts).1.toList ++ tokenChars (divide between ts).2 ++
      ((findMark (ts.dropWhile Token.isFiller)).mark.getD "").toList =
      between.toList ++ tokenChars ts := by
  have hmark := findMark_append (ts.dropWhile Token.isFiller)
  rw [← takeWhile_append_dropWhile_chars Token.isFiller ts, ← hmark]
  cases hs : (findMark (ts.dropWhile Token.isFiller)).tokens.any fun t => !t.isFiller <;>
    simp [divide, hs]

theorem assemble_spec (before prop between : String) (ts : List Token) (start : Nat)
    (last : Option Nat) (custom : Bool) :
    let n := assemble before prop between ts start last custom
    n.wording.LeafFormatted ∧ n.raws.get? "ownSemicolon" = none ∧
      n.wording.slot "before" = before ++ (splitHack prop).1 ∧
      (n.wording.leaf false).toList =
        (splitHack prop).2.toList ++ (between.toList ++ tokenChars ts) := by
  intro n
  obtain ⟨hbefore, hbetween, hvalue, hown, himportant⟩ := get?_formatting
    (before ++ (splitHack prop).1) (findMark (ts.dropWhile Token.isFiller)).mark
    (divide between ts).1
  have hpart := @part_cleanInto _ _ (!custom) (divide between ts).2 hvalue
  have hget : ∀ slot, slot ≠ "value" → n.raws.get? slot =
      (formatting (before ++ (splitHack prop).1) (findMark (ts.dropWhile Token.isFiller)).mark
        (divide between ts).1).get? slot := fun slot h => get?_cleanInto h
  have hb := hget "between" (by decide)
  rw [hbetween] at hb
  refine ⟨⟨?_, ?_⟩, ?_, ?_, ?_⟩
  · show (n.raws.get? "before").isSome
    rw [hget _ (by decide), hbefore]; rfl
  · show (n.raws.get? "between").isSome
    rw [hb]; rfl
  · rw [hget _ (by decide), hown]
  · show ((n.raws.get? "before").map RawValue.toText).getD "" = _
    rw [hget _ (by decide), hbefore]; rfl
  · have hslot : n.wording.slot "between" = (divide between ts).1 := by
      show ((n.raws.get? "between").map RawValue.toText).getD "" = _
      rw [hb]; rfl
    have hmark : (if (findMark (ts.dropWhile Token.isFiller)).mark.isSome
        then (n.raws.text? "important").getD " !important" else "") =
        (findMark (ts.dropWhile Token.isFiller)).mark.getD "" := by
      cases hm : (findMark (ts.dropWhile Token.isFiller)).mark with
      | none => rfl
      | some m =>
        have := himportant m hm
        rw [Raws.text?, ← hget _ (by decide), ← Raws.text?] at this
        simpa only [Option.isSome_some, if_true, Option.getD_some] using this
    have hleaf : n.wording.leaf false = (splitHack prop).2 ++ n.wording.slot "between" ++
        n.wording.part "value" ++ (if (findMark (ts.dropWhile Token.isFiller)).mark.isSome
        then (n.raws.text? "important").getD " !important" else "") ++ "" := rfl
    have hv : (n.wording.part "value").toList = tokenChars (divide between ts).2 := hpart
    rw [hleaf, hmark, hslot, ← divide_append between ts]
    simp [hv]

/-- **The slots of a declaration that was read hold its tokens.** -/
theorem parse_spec {base : List Char} {spaces : String} {ts : List Token} {closing : Option Token}
    {custom : Bool} {n : Parsed} (hne : ts ≠ [])
    (ht : Tiled (byteSize (base ++ spaces.toList)) ts)
    (h : parse spaces ts closing custom = .ok n) :
    Laid base spaces ts n ∧ n.last = lastOffset (ts ++ closing.toList) := by
  obtain ⟨before, ts1, between, ts2, hlead, hsep, rfl⟩ := parse_ok h
  obtain ⟨lead, rfl, hbefore, hl, w, rest, rfl, hw⟩ := leading_ok hne hlead
  have hwtiled := (tiled_append.1 ht).2
  obtain ⟨hhack, hmark⟩ := splitHack_append
    (Token.concat ((w :: rest).takeWhile fun t => !endsProp t))
  rw [toList_concat] at hhack
  have hsplit := takeWhile_append_dropWhile_chars (fun t => !endsProp t) (w :: rest)
  obtain ⟨hbetween, -⟩ := separator_ok
    (fun t ht => hwtiled.shaped ((List.dropWhile_sublist _).subset ht)) hsep
  rw [String.toList_empty, List.nil_append] at hbetween
  obtain ⟨hformatted, hown, hslot, hleaf⟩ := assemble_spec before
    (Token.concat ((w :: rest).takeWhile fun t => !endsProp t)) between ts2
    ((((lead ++ w :: rest).dropWhile fun t => t.kind ≠ .word).head?.map Token.first).getD 0)
    (lastOffset (lead ++ w :: rest ++ closing.toList)) custom
  have hstart : (((lead ++ w :: rest).dropWhile fun t => t.kind ≠ .word).head?.map
      Token.first).getD 0 = byteSize (base ++ before.toList) := by
    rw [List.dropWhile_append_of_pos (by simpa using hl), List.dropWhile_cons,
      if_neg (by simpa using hw), hbefore, ← List.append_assoc, byteSize_append]
    exact hwtiled.1.first
  refine ⟨⟨rfl, hformatted, hown, ?_, ?_⟩, rfl⟩
  · rw [hslot, hleaf, hbetween, String.toList_append, hbefore, tokenChars_append, ← hsplit,
      ← hhack]
    simp
  · rw [hslot, hleaf]
    show (_ ∧ _) ∨ _
    rcases hmark with hmark | ⟨c, hc, hmark⟩
    · left
      rw [hmark, String.append_empty]
      refine ⟨hstart, ?_⟩
      rw [hmark, String.toList_empty, List.nil_append] at hhack
      have hp : endsProp w = false := by simp [endsProp, Token.isFiller, hw]
      rw [hhack, List.takeWhile_cons, hp]
      simp [hwtiled.1.shaped.solid]
    · refine .inr ⟨rfl, base ++ before.toList, c, by simp [hmark], hc, hstart, ?_⟩
      rw [hslot]
      simp [hmark]

end Declaration

end Stylesheet
