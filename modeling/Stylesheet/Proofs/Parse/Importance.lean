import Stylesheet.Proofs.Parse.Reread
import Stylesheet.Proofs.Token.Fillers

/-!
# The mark of importance

The mark is looked for from the end of a value. `!important` in one piece is found whatever stands
around it. For `important` behind a lone exclamation mark, tokens are taken off until an exclamation
mark is in front, but the position that ends this search counts the tokens that are there at first:
`unwind_iff` says when the search gets to the mark (`Reaches`) and when it takes a token too many
(`Overruns`). `Cleaning.clean_eq_iff` says which blanks and comments before the mark leave nothing
behind in the value.
-/

set_option autoImplicit false

namespace Stylesheet

open Stylesheet.Text

namespace Cleaning

variable {ts : List Token} {t : Token} {trimEnd : Bool} {value : String}

/-- Cleaning only adds to a value. -/
theorem clean_grows (trimEnd : Bool) (before : Option Token) (value : String) (ts : List Token) :
    value.toList <+: (clean trimEnd before value ts).1.toList := by
  induction ts generalizing before value with
  | nil => exact List.prefix_rfl
  | cons t rest ih =>
    have happend := (List.prefix_append value.toList t.text.toList).trans
      (String.toList_append ▸ ih (some t) (value ++ t.text))
    rw [clean]
    repeat' split
    · exact List.prefix_rfl
    · exact ih ..
    · exact ih ..
    · exact happend
    · exact happend

theorem clean_append_ne (ht : t.text ≠ "") (before : Option Token) (ts : List Token) :
    (clean trimEnd before (value ++ t.text) ts).1 ≠ value := by
  intro he
  have hlength := (clean_grows trimEnd before (value ++ t.text) ts).length_le
  rw [he, String.toList_append, List.length_append] at hlength
  refine ht (String.toList_eq_nil_iff.1 (List.length_eq_zero_iff.1 ?_))
  omega

/-- Comments and a blank that leave nothing behind a value: of two comments the first one stays,
unless a comma stands before them, and a blank at the end goes only with `trimEnd`. -/
def Leaves (trimEnd : Bool) (value : String) (kinds : List TokenKind) : Prop :=
  ∃ n blanks, kinds = List.replicate n .comment ++ blanks ∧
    (n ≤ 1 ∨ value.toList.getLast? = some ',') ∧
    (blanks = [] ∨ trimEnd = true ∧ blanks = [.space])

/-- Behind a comment that goes. -/
theorem leaves_comment {kinds : List TokenKind}
    (h : kinds.head? ≠ some .comment ∨ value.toList.getLast? = some ',') :
    Leaves trimEnd value (.comment :: kinds) ↔ Leaves trimEnd value kinds := by
  constructor
  · rintro ⟨n, blanks, he, hn, hb⟩
    cases n with
    | zero => rcases hb with rfl | ⟨-, rfl⟩ <;> simp at he
    | succ n =>
      rw [List.replicate_succ, List.cons_append, List.cons.injEq] at he
      exact ⟨n, blanks, he.2, hn.imp_left (by omega), hb⟩
  · rintro ⟨n, blanks, rfl, hn, hb⟩
    refine ⟨n + 1, blanks, rfl, ?_, hb⟩
    rcases h with h | h
    · cases n with
      | zero => exact .inl (Nat.le_refl 1)
      | succ n => exact absurd rfl h
    · exact .inr h

theorem not_leaves_comments {kinds : List TokenKind} (h : value.toList.getLast? ≠ some ',') :
    ¬ Leaves trimEnd value (.comment :: .comment :: kinds) := by
  rintro ⟨n, blanks, he, hn, hb⟩
  have hn := hn.resolve_right h
  have hb : ∀ k ∈ blanks, k = .space := by
    rcases hb with rfl | ⟨-, rfl⟩ <;> simp
  rcases n with _ | _ | n
  · have := hb .comment (by rw [← List.nil_append blanks, ← List.replicate_zero, ← he]; simp)
    cases this
  · rw [List.replicate_succ, List.cons_append, List.cons.injEq] at he
    have := hb .comment (by rw [← List.nil_append blanks, ← List.replicate_zero, ← he.2]; simp)
    cases this
  · omega

/-- **What cleaning leaves**: behind a word, nothing of the blanks and comments `ts`. -/
theorem clean_eq_iff (hts : ∀ t ∈ ts, t.isFiller = true ∧ t.text ≠ "") {before : Token}
    (hb : before.isSpace = false) :
    (clean trimEnd (some before) value ts).1 = value ↔
      Leaves trimEnd value (ts.map Token.kind) := by
  induction ts generalizing before with
  | nil => exact iff_of_true rfl ⟨0, [], rfl, .inl (Nat.zero_le 1), .inl rfl⟩
  | cons t rest ih =>
    obtain ⟨⟨hfiller, htext⟩, hrest⟩ := List.forall_mem_cons.1 hts
    have hkind : t.kind = .space ∨ t.kind = .comment := by
      simpa [Token.isFiller] using hfiller
    rw [clean]
    rcases hkind with hk | hk
    · by_cases hend : rest = [] ∧ trimEnd = true
      · obtain ⟨rfl, rfl⟩ := hend
        rw [if_pos (by simp [hk])]
        exact iff_of_true rfl ⟨0, [.space], by simp [hk], .inl (Nat.zero_le 1), .inr ⟨rfl, rfl⟩⟩
      · rw [if_neg (by simpa [hk] using hend), if_neg (by simp [hk])]
        refine iff_of_false (clean_append_ne htext _ _) ?_
        rintro ⟨n, blanks, he, -, hb⟩
        rw [List.map_cons, hk] at he
        cases n with
        | zero =>
          rcases hb with rfl | ⟨htrim, rfl⟩
          · cases he
          · rw [List.replicate_zero, List.nil_append, List.cons.injEq, List.map_eq_nil_iff] at he
            exact hend ⟨he.2, htrim⟩
        | succ n => cases he
    · have hsolid : t.isSpace = false := by simp [Token.isSpace, hk]
      have hsafe : isSafe (some before) = false := hb
      rw [if_neg (by simp [hk]), if_pos hk, hsafe, Bool.false_or, List.map_cons, hk]
      by_cases hnext : isSafe rest.head? = true
      · have hhead : (rest.map Token.kind).head? ≠ some .comment := by
          cases rest with
          | nil => simp
          | cons u rest =>
            have hu : u.kind = .space := by simpa [isSafe, Token.isSpace] using hnext
            simp [hu]
        rw [if_pos hnext, leaves_comment (.inl hhead)]
        exact ih hrest hsolid
      rw [if_neg hnext]
      by_cases hcomma : value.toList.getLast? = some ','
      · rw [if_pos hcomma, leaves_comment (.inr hcomma)]
        exact ih hrest hsolid
      · rw [if_neg hcomma]
        refine iff_of_false (clean_append_ne htext _ _) ?_
        cases rest with
        | nil => exact absurd rfl hnext
        | cons u rest =>
          have hu : u.kind = .comment := by
            have hnot : u.kind ≠ .space := by simpa [isSafe, Token.isSpace] using hnext
            have := (hrest u (.head _)).1
            simp only [Token.isFiller, Bool.or_eq_true, decide_eq_true_eq] at this
            exact this.resolve_left hnot
          rw [List.map_cons, hu]
          exact not_leaves_comments hcomma

end Cleaning

namespace Declaration

variable {ts xs : List Token} {t : Token} {mark : String}

/-! ## Exclamation marks -/

theorem trimRight_cons {c : Char} (hc : isBlank c = false) (cs : List Char) :
    trimRight (c :: cs) = c :: trimRight cs := by
  unfold trimRight
  rw [List.reverse_cons, List.dropWhile_append]
  split
  · next h => simp [List.isEmpty_iff.1 h, hc]
  · simp

theorem startsWithBang_iff (s : String) :
    startsWithBang s = true ↔ (s.toList.dropWhile isBlank).head? = some '!' := by
  unfold startsWithBang trimChars
  rw [decide_eq_true_iff]
  have hhead := List.head?_dropWhile_not isBlank s.toList
  cases h : s.toList.dropWhile isBlank with
  | nil => simp [trimRight]
  | cons c cs =>
    rw [h] at hhead
    rw [trimRight_cons (by simpa using hhead)]
    rfl

/-- A token that does not bring an exclamation mark to the front of a text. -/
def Bangless (t : Token) : Prop :=
  ∀ mark, startsWithBang mark = false → startsWithBang (t.text ++ mark) = false

theorem startsWithBang_append_of_blank {s : String} (hs : ∀ c ∈ s.toList, isBlank c = true)
    (mark : String) : startsWithBang (s ++ mark) = startsWithBang mark := by
  rw [Bool.eq_iff_iff, startsWithBang_iff, startsWithBang_iff, String.toList_append,
    List.dropWhile_append_of_pos hs]

theorem startsWithBang_append_of_cons {s : String} {c : Char} {cs : List Char}
    (hs : s.toList = c :: cs) (hc : isBlank c = false) (mark : String) :
    startsWithBang (s ++ mark) = decide (c = '!') := by
  rw [Bool.eq_iff_iff, startsWithBang_iff, String.toList_append, hs, List.cons_append,
    List.dropWhile_cons, hc]
  simp

/-- Tokens are taken off one by one while no exclamation mark comes to the front. -/
theorem unwind_bangless (hmark : startsWithBang mark = false) (hxs : ∀ t ∈ xs, Bangless t)
    (n : Nat) (rest : List Token) : ∃ mark', startsWithBang mark' = false ∧
      unwind (n + xs.length) mark (xs ++ rest) = unwind n mark' rest := by
  induction xs generalizing mark with
  | nil => exact ⟨mark, hmark, rfl⟩
  | cons t xs ih =>
    obtain ⟨ht, hxs⟩ := List.forall_mem_cons.1 hxs
    obtain ⟨mark', hmark', he⟩ := ih (ht mark hmark) hxs
    refine ⟨mark', hmark', ?_⟩
    rw [List.length_cons, ← Nat.add_assoc, List.cons_append, unwind, hmark]
    exact he

/-- Where the tokens to be taken off are used up first, no mark is found. -/
theorem unwind_stuck (hmark : startsWithBang mark = false) {n : Nat} (hn : n ≤ xs.length)
    (hxs : ∀ t ∈ xs, Bangless t) (rest : List Token) :
    startsWithBang (unwind n mark (xs ++ rest)).1 = false := by
  have hcut : xs ++ rest = xs.take n ++ (xs.drop n ++ rest) := by
    rw [← List.append_assoc, List.take_append_drop]
  obtain ⟨mark', hmark', he⟩ := unwind_bangless hmark
    (fun t ht => hxs t (List.mem_of_mem_take ht)) 0 (xs.drop n ++ rest)
  rw [List.length_take, Nat.min_eq_left hn, Nat.zero_add, ← hcut] at he
  rw [he, unwind]
  exact hmark'

/-- The search stops at an exclamation mark, unless a blank stands at the position. -/
theorem unwind_stop {n : Nat} {reversed : List Token} (hmark : startsWithBang mark = true)
    (hn : n = 0 ∨ ∃ t, reversed.reverse[n]? = some t ∧ t.isSpace = false) :
    unwind n mark reversed = (mark, reversed) := by
  rcases n with _ | n
  · rw [unwind]
  · obtain ⟨t, ht, hsolid⟩ := hn.resolve_left (Nat.succ_ne_zero n)
    rw [unwind.eq_def]
    simp only [ht, hsolid, hmark, Bool.not_false, Bool.and_self, if_true]

/-- The search goes on over a token as long as a blank stands at the position. -/
theorem unwind_space {n : Nat} {reversed : List Token} {u : Token}
    (hu : (t :: reversed).reverse[n + 1]? = some u) (hspace : u.isSpace = true) :
    unwind (n + 1) mark (t :: reversed) = unwind n (t.text ++ mark) reversed := by
  rw [unwind.eq_def]
  simp only [hu, hspace, Bool.not_true, Bool.and_false, Bool.false_eq_true, if_false]

/-! ## The tokens around a mark -/

theorem startsWithBang_space (ht : t.spelling.IsFiller) (hk : t.kind = .space) (mark : String) :
    startsWithBang (t.text ++ mark) = startsWithBang mark := by
  cases ht with
  | blanks _ _ hs =>
    exact startsWithBang_append_of_blank (fun c hc => isBlank_of_isSpace (hs c hc)) mark
  | comment hk' _ _ => exact absurd (hk.symm.trans hk') (by decide)

theorem startsWithBang_comment (ht : t.spelling.IsFiller) (hk : t.kind ≠ .space) (mark : String) :
    startsWithBang (t.text ++ mark) = false := by
  cases ht with
  | blanks hk' _ _ => exact absurd hk' hk
  | comment _ htext _ =>
    have htext' : t.text.toList = _ := htext
    rw [startsWithBang_append_of_cons htext' (by decide)]
    decide

theorem bangless_of_isFiller (ht : t.spelling.IsFiller) : Bangless t := by
  intro mark hmark
  by_cases hk : t.kind = .space
  · rw [startsWithBang_space ht hk, hmark]
  · exact startsWithBang_comment ht hk mark

/-- The word `important` in letters of either case. -/
theorem letters_of_lower {s : String} (h : lower s = "important") :
    ∃ c cs, s.toList = c :: cs ∧ ∀ d ∈ c :: cs, d.toLower.isLower = true := by
  have hmap : s.toList.map Char.toLower = "important".toList := by
    rw [← h, lower, String.toList_ofList]
  have hall : ∀ d ∈ s.toList, d.toLower.isLower = true := by
    intro d hd
    have hmem : d.toLower ∈ "important".toList := hmap ▸ List.mem_map_of_mem hd
    revert hmem
    generalize d.toLower = e
    intro hmem
    have : ∀ e ∈ "important".toList, e.isLower = true := List.all_eq_true.1 rfl
    exact this e hmem
  cases hs : s.toList with
  | nil => rw [hs] at hmap; cases hmap
  | cons c cs => exact ⟨c, cs, rfl, hs ▸ hall⟩

theorem bangless_of_lower (h : lower t.text = "important") : Bangless t := by
  obtain ⟨c, cs, hs, hall⟩ := letters_of_lower h
  have hc : isBlank c = false ∧ c ≠ '!' := by
    simpa using
      @of_isLower_toLower (fun c => !isBlank c && c ≠ '!') (by decide) c (hall c (.head _))
  intro mark _
  rw [startsWithBang_append_of_cons hs hc.1]
  simpa using hc.2

/-! ## How far the search goes -/

/-- With `n` tokens behind the word `important`, the search for the exclamation mark goes one token
too far: it stops at the first token that is no blank, and `n` tokens before the mark stands one. -/
def Overruns (front : List TokenKind) (n : Nat) : Prop :=
  n < front.length ∧ front[front.length - n - 1]? = some .space

/-- The search comes to the exclamation mark, and takes off only a blank if it goes too far. -/
def Reaches (front : List TokenKind) (n : Nat) : Prop :=
  n ≤ front.length ∧ (Overruns front n → front.getLast? = some .space)

instance (front : List TokenKind) (n : Nat) : Decidable (Overruns front n) :=
  inferInstanceAs (Decidable (_ ∧ _))

instance (front : List TokenKind) (n : Nat) : Decidable (Reaches front n) :=
  inferInstanceAs (Decidable (_ ∧ _))

section
variable {v b w last : Token} {front between behind init : List Token} {n : Nat}

/-- The tokens that come off before the exclamation mark: those behind the word, the word, and those
before it. -/
theorem bangless_passed (hw : lower w.text = "important")
    (hbetween : ∀ t ∈ between, t.spelling.IsFiller)
    (hbehind : ∀ t ∈ behind, t.spelling.IsFiller) :
    ∀ t ∈ behind.reverse ++ w :: between.reverse, Bangless t := by
  intro t ht
  simp only [List.mem_append, List.mem_cons, List.mem_reverse] at ht
  rcases ht with ht | rfl | ht
  · exact bangless_of_isFiller (hbehind t ht)
  · exact bangless_of_lower hw
  · exact bangless_of_isFiller (hbetween t ht)

/-- With more tokens behind the word than before the mark, the search ends before the mark. -/
theorem unwind_far (hw : lower w.text = "important")
    (hbetween : ∀ t ∈ between, t.spelling.IsFiller)
    (hbehind : ∀ t ∈ behind, t.spelling.IsFiller) (hfar : front.length < behind.length) :
    startsWithBang (unwind (front.length + between.length + 2) ""
      (v :: front ++ b :: between ++ w :: behind).reverse).1 = false := by
  have hreverse : (v :: front ++ b :: between ++ w :: behind).reverse =
      behind.reverse ++ w :: between.reverse ++ b :: (front.reverse ++ [v]) := by simp
  have hlen : front.length + between.length + 2 ≤
      (behind.reverse ++ w :: between.reverse).length := by
    simp
    omega
  rw [hreverse]
  exact unwind_stuck (by decide) hlen (bangless_passed hw hbetween hbehind) _

/-- Otherwise it comes to the mark. -/
theorem unwind_near (hb : b.text = "!") (hw : lower w.text = "important")
    (hbetween : ∀ t ∈ between, t.spelling.IsFiller)
    (hbehind : ∀ t ∈ behind, t.spelling.IsFiller) (hnear : behind.length ≤ front.length) :
    ∃ mark, startsWithBang mark = true ∧ unwind (front.length + between.length + 2) ""
      (v :: front ++ b :: between ++ w :: behind).reverse =
        unwind (front.length - behind.length) mark (front.reverse ++ [v]) := by
  have hreverse : (v :: front ++ b :: between ++ w :: behind).reverse =
      behind.reverse ++ w :: between.reverse ++ b :: (front.reverse ++ [v]) := by simp
  have hlen : front.length + between.length + 2 = front.length - behind.length + 1 +
      (behind.reverse ++ w :: between.reverse).length := by
    simp
    omega
  obtain ⟨mark, hmark, hfound⟩ := unwind_bangless (show startsWithBang "" = false by decide)
    (bangless_passed hw hbetween hbehind) (front.length - behind.length + 1)
    (b :: (front.reverse ++ [v]))
  refine ⟨"!" ++ mark, ?_, ?_⟩
  · rw [startsWithBang_append_of_cons (show "!".toList = ['!'] from rfl) (by decide)]
    rfl
  · rw [hreverse, hlen, hfound, unwind, hmark, hb]
    rfl

/-- The search ends at the mark, if it does not go too far. -/
theorem unwind_within (hmark : startsWithBang mark = true)
    (hover : ¬ Overruns (front.map Token.kind) n) :
    unwind (front.length - n) mark (front.reverse ++ [v]) = (mark, front.reverse ++ [v]) := by
  refine unwind_stop hmark ?_
  cases hj : front.length - n with
  | zero => exact .inl rfl
  | succ j =>
    have hlt : j < front.length := by omega
    refine .inr ⟨front[j], by simp [hlt], ?_⟩
    simp only [Overruns, List.length_map, List.getElem?_map, not_and] at hover
    have := hover (by omega)
    rw [hj, Nat.add_sub_cancel, List.getElem?_eq_getElem hlt] at this
    simpa [Token.isSpace] using this

/-- If it goes too far, the token before the mark comes off. -/
theorem unwind_over (hover : Overruns ((init ++ [last]).map Token.kind) n) :
    unwind ((init ++ [last]).length - n) mark ((init ++ [last]).reverse ++ [v]) =
      unwind (init.length - n) (last.text ++ mark) (init.reverse ++ [v]) := by
  obtain ⟨hlt, hspace⟩ := hover
  simp only [List.length_map, List.getElem?_map] at hlt hspace
  have hj : (init ++ [last]).length - n = init.length - n + 1 := by
    rw [List.length_append, List.length_singleton] at hlt ⊢
    omega
  rw [hj, Nat.add_sub_cancel] at hspace
  obtain ⟨u, hu, huk⟩ := Option.map_eq_some_iff.1 hspace
  rw [hj, List.reverse_append, List.reverse_singleton, List.singleton_append, List.cons_append]
  refine unwind_space (u := u) ?_ (by simp [Token.isSpace, huk])
  simpa using hu

/-- Then it ends if that token is a blank: no blank stands before it. -/
theorem unwind_over_space (hmark : startsWithBang mark = true)
    (happart : (init ++ [last]).IsChain fun s t => ¬(s.kind = .space ∧ t.kind = .space))
    (hlast : last.spelling.IsFiller) (hk : last.kind = .space)
    (hover : Overruns ((init ++ [last]).map Token.kind) n) :
    unwind (init.length - n) (last.text ++ mark) (init.reverse ++ [v]) =
      (last.text ++ mark, init.reverse ++ [v]) := by
  have hbang : startsWithBang (last.text ++ mark) = true := by
    rw [startsWithBang_space hlast hk, hmark]
  refine unwind_within hbang ?_
  rintro ⟨hlt, hspace⟩
  simp only [List.length_map] at hlt hspace
  have hi : init.length - n - 1 < init.length := by omega
  have hnext := List.isChain_iff_getElem.1 happart (init.length - n - 1) (by simpa using hi)
  have hbehind := hover.2
  have hindex : (init ++ [last]).length - n - 1 = init.length - n - 1 + 1 := by
    rw [List.length_append, List.length_singleton]
    omega
  rw [List.length_map, hindex, List.getElem?_map, Option.map_eq_some_iff] at hbehind
  obtain ⟨u, hu, huk⟩ := hbehind
  rw [List.getElem?_eq_some_iff] at hu
  obtain ⟨_, rfl⟩ := hu
  rw [List.getElem_append_left hi] at hnext
  refine hnext ⟨?_, huk⟩
  simpa [hi] using hspace

/-- **The search for a lone exclamation mark.** -/
theorem unwind_iff (hb : b.text = "!") (hw : lower w.text = "important")
    (hfront : ∀ t ∈ front, t.spelling.IsFiller)
    (happart : front.IsChain fun s t => ¬(s.kind = .space ∧ t.kind = .space))
    (hbetween : ∀ t ∈ between, t.spelling.IsFiller)
    (hbehind : ∀ t ∈ behind, t.spelling.IsFiller) :
    let kinds := front.map Token.kind
    let found := unwind (front.length + between.length + 2) ""
      (v :: front ++ b :: between ++ w :: behind).reverse
    (startsWithBang found.1 = true ↔ Reaches kinds behind.length) ∧
      (Reaches kinds behind.length → found.2.reverse =
        v :: if Overruns kinds behind.length then front.dropLast else front) := by
  intro kinds found
  have hmissed (hfound : startsWithBang found.1 = false) (hnot : ¬ Reaches kinds behind.length) :
      (startsWithBang found.1 = true ↔ Reaches kinds behind.length) ∧
        (Reaches kinds behind.length → found.2.reverse =
          v :: if Overruns kinds behind.length then front.dropLast else front) :=
    ⟨iff_of_false (by simp [hfound]) hnot, fun h => absurd h hnot⟩
  rcases Nat.lt_or_ge front.length behind.length with hfar | hnear
  · refine hmissed (unwind_far hw hbetween hbehind hfar) fun h => ?_
    have := h.1
    rw [List.length_map] at this
    omega
  obtain ⟨mark, hmark, hfound⟩ := unwind_near (v := v) hb hw hbetween hbehind hnear
  replace hfound : found = unwind _ mark _ := hfound
  have hle : behind.length ≤ kinds.length := by simpa [kinds] using hnear
  by_cases hover : Overruns kinds behind.length
  · obtain ⟨init, last, rfl⟩ : ∃ init last, front = init ++ [last] := by
      rcases List.eq_nil_or_concat front with rfl | ⟨init, last, rfl⟩
      · cases hover.2
      · exact ⟨init, last, by simp⟩
    have hlast := hfront last (by simp)
    have hkinds : kinds.getLast? = some last.kind := by simp [kinds]
    rw [unwind_over hover] at hfound
    by_cases hk : last.kind = .space
    · rw [unwind_over_space hmark happart hlast hk hover] at hfound
      rw [hfound]
      refine ⟨iff_of_true ?_ ⟨hle, fun _ => by rw [hkinds, hk]⟩, fun _ => by simp [if_pos hover]⟩
      rw [startsWithBang_space hlast hk, hmark]
    · refine hmissed ?_ fun h => hk (by simpa [hkinds] using h.2 hover)
      rw [hfound]
      refine unwind_stuck (startsWithBang_comment hlast hk _) (by simp) ?_ [v]
      exact fun t ht => bangless_of_isFiller (hfront t (by simp [List.mem_reverse.1 ht]))
  · rw [unwind_within hmark hover] at hfound
    rw [hfound]
    exact ⟨iff_of_true hmark ⟨hle, fun h => absurd h hover⟩, fun _ => by simp [hover]⟩

end

end Declaration

end Stylesheet
