import Stylesheet.Proofs.Print.Plain

/-!
# The tokens of a tree without formatting

`Tree.cutOff_spellRoot`: the tokens that a tree in words is spelled with are found again in its
text. Behind a word stands a blank, a colon or a semicolon, behind a tree a line break or the end of
the text, and no blank stands behind another.
-/

set_option autoImplicit false

namespace Stylesheet

open Lexer

/-! ## The tokens of a tree -/

/-- A blank or a semicolon comes next, or nothing. -/
def Stops (rest : List Char) : Prop := ∀ c ∈ rest.head?, c ∈ [' ', '\n', ';']

/-- A line break comes next, or nothing. -/
def EndsLine (rest : List Char) : Prop := ∀ c ∈ rest.head?, c = '\n'

section
variable {rest : List Char}

theorem EndsLine.stops (h : EndsLine rest) : Stops rest := fun c hc => by simp [h c hc]

theorem Stops.endsWord (h : Stops rest) : ∀ c ∈ rest.head?, Lexer.endsWord c = true :=
  fun c hc => List.all_eq_true.1 (by decide : [' ', '\n', ';'].all Lexer.endsWord = true) c (h c hc)

theorem Stops.endsAtWord (h : Stops rest) : ∀ c ∈ rest.head?, Lexer.endsAtWord c = true :=
  fun c hc =>
    List.all_eq_true.1 (by decide : [' ', '\n', ';'].all Lexer.endsAtWord = true) c (h c hc)

theorem stops_cons {c : Char} (h : c ∈ [' ', '\n', ';']) : Stops (c :: rest) := by
  rintro d ⟨⟩
  exact h

/-- A token that is no blank does not start with one. -/
theorem Lexer.Cuts.head {s : Spelling} {more : List Char} (h : Cuts s rest) (hs : s.1 ≠ .space) :
    ∀ c ∈ (s.2.toList ++ more).head?, isSpace c = false := by
  obtain ⟨c, cs, hcs, -, hcut⟩ := h
  rw [hcs]
  rintro d ⟨⟩
  exact Bool.eq_false_iff.2 (mt (isCut_of_cut (hcut "")).kind_eq_space_iff.2 hs)

/-- Blanks are cut off before a token that is none. -/
theorem Lexer.CutOff.behind_blanks {blanks : String} {s : Spelling} {ss : List Spelling}
    (h : CutOff (s :: ss) rest) (hs : s.1 ≠ .space) (hne : blanks ≠ "")
    (hblanks : ∀ c ∈ blanks.toList, isSpace c = true) :
    CutOff ((.space, blanks) :: s :: ss) rest := by
  refine ⟨cuts_space hne hblanks ?_, h⟩
  rw [Spelling.chars_cons, List.append_assoc]
  exact h.1.head hs

theorem Lexer.CutOff.behind_blank {s : Spelling} {ss : List Spelling} (h : CutOff (s :: ss) rest)
    (hs : s.1 ≠ .space) : CutOff ((.space, " ") :: s :: ss) rest :=
  h.behind_blanks hs (by decide) (List.all_eq_true.1 (by decide))

theorem toList_lineBreak (depth : Nat) :
    (lineBreak depth).toList = '\n' :: (List.replicate depth "    ").flatMap String.toList := by
  simp [lineBreak]

theorem isSpace_lineBreak (depth : Nat) : ∀ c ∈ (lineBreak depth).toList, isSpace c = true := by
  rw [toList_lineBreak]
  intro c hc
  rcases List.mem_cons.1 hc with rfl | hc
  · rfl
  · obtain ⟨s, hs, hc⟩ := List.mem_flatMap.1 hc
    rw [List.eq_of_mem_replicate hs] at hc
    exact List.all_eq_true.1 (by decide : "    ".toList.all isSpace = true) c hc

theorem endsLine_lineBreak (depth : Nat) : EndsLine ((lineBreak depth).toList ++ rest) := by
  rw [toList_lineBreak]
  rintro c ⟨⟩
  rfl

theorem Lexer.CutOff.behind_lineBreak {s : Spelling} {ss : List Spelling} (depth : Nat)
    (h : CutOff (s :: ss) rest) (hs : s.1 ≠ .space) :
    CutOff ((.space, lineBreak depth) :: s :: ss) rest := by
  refine h.behind_blanks hs (fun he => ?_) (isSpace_lineBreak depth)
  have := toList_lineBreak depth
  rw [he] at this
  cases this

end

namespace NodeData

variable {d : NodeData} {rest : List Char}

/-- The words before a block or a semicolon. -/
theorem cutOff_spellHead (hd : d.isWordedBlock) (hrest : Stops rest) : CutOff d.spellHead rest := by
  cases d with
  | rule selector => exact ⟨cuts_isWord hd hrest.endsWord, trivial⟩
  | atRule name params =>
    rw [isWordedBlock, Bool.and_eq_true] at hd
    by_cases hp : params = ""
    · rw [spellHead, spellParams, if_pos hp]
      exact ⟨cuts_atWord hd.1 hrest.endsAtWord, trivial⟩
    · have hword : isWord params = true := by simpa [hp] using hd.2
      have hparams : CutOff [(.word, params)] rest := ⟨cuts_isWord hword hrest.endsWord, trivial⟩
      have hblank : Stops (' ' :: params.toList ++ rest) := stops_cons (by decide)
      rw [spellHead, spellParams, if_neg hp]
      exact ⟨cuts_atWord hd.1 (by simpa using hblank.endsAtWord), hparams.behind_blank (by simp)⟩
  | _ => cases hd

/-- A semicolon, if there is one. -/
theorem cutOff_close (semicolon : Bool) :
    CutOff (if semicolon then [(.semicolon, ";")] else []) rest := by
  cases semicolon with
  | true => exact ⟨cuts_punctuation rfl rfl, trivial⟩
  | false => trivial

theorem stops_close (hrest : EndsLine rest) (semicolon : Bool) :
    Stops (Spelling.chars (if semicolon then [(.semicolon, ";")] else []) ++ rest) := by
  cases semicolon with
  | true => exact stops_cons (c := ';') (by decide)
  | false => exact hrest.stops

theorem cutOff_spellLeaf (hd : d.isWordedLeaf) (hrest : EndsLine rest) (semicolon : Bool) :
    CutOff (d.spellLeaf semicolon) rest := by
  have hstops := stops_close hrest semicolon
  have hclose : CutOff (if semicolon then [(.semicolon, ";")] else []) rest := cutOff_close semicolon
  cases d with
  | atRule name params => exact cutOff_append.2 ⟨cutOff_spellHead hd hstops, hclose⟩
  | comment text => exact ⟨cuts_comment hd, trivial⟩
  | declaration prop value important =>
    rw [isWordedLeaf, Bool.and_eq_true] at hd
    refine cutOff_append.2 ⟨?_, hclose⟩
    generalize Spelling.chars (if semicolon then [(.semicolon, ";")] else []) ++ rest = left at *
    have hmark : CutOff (spellMark important) left := by
      cases important with
      | false => trivial
      | true =>
        have hword : CutOff [(.word, "!important")] left :=
          ⟨@cuts_word left "!important" '!' "important".toList rfl rfl
            (List.all_eq_true.1 (by decide)) hstops.endsWord, trivial⟩
        exact hword.behind_blank (by decide)
    have hvalue : Stops (Spelling.chars (spellMark important) ++ left) := by
      cases important with
      | false => exact hstops
      | true => exact stops_cons (c := ' ') (by decide)
    refine cutOff_append.2 ⟨⟨cuts_isWord hd.1 ?_, cuts_punctuation rfl rfl, ?_⟩, hmark⟩
    · rintro c ⟨⟩
      rfl
    · exact CutOff.behind_blank ⟨cuts_isWord hd.2 hvalue.endsWord, trivial⟩ (by simp)
  | _ => cases hd

theorem spellHead_cons (hd : d.isWordedBlock) :
    ∃ s ss, d.spellHead = s :: ss ∧ s.1 ≠ .space := by
  cases d with
  | rule selector => exact ⟨_, _, rfl, nofun⟩
  | atRule name params => exact ⟨_, _, rfl, nofun⟩
  | _ => cases hd

theorem spellLeaf_cons (hd : d.isWordedLeaf) (semicolon : Bool) :
    ∃ s ss, d.spellLeaf semicolon = s :: ss ∧ s.1 ≠ .space := by
  cases d with
  | atRule name params => exact ⟨_, _, rfl, nofun⟩
  | declaration prop value important => exact ⟨_, _, rfl, nofun⟩
  | comment text => exact ⟨_, _, rfl, nofun⟩
  | _ => cases hd

end NodeData

namespace Tree

theorem spell_cons {t : Tree NodeData} (ht : t.isWorded) (depth : Nat) (semicolon : Bool) :
    ∃ s ss, t.spell depth semicolon = s :: ss ∧ s.1 ≠ .space := by
  cases t with
  | leaf d => exact d.spellLeaf_cons ht semicolon
  | block d ts =>
    rw [isWorded, Bool.and_eq_true] at ht
    obtain ⟨s, ss, hs, hne⟩ := d.spellHead_cons ht.1
    exact ⟨s, _, by rw [spell, hs]; rfl, hne⟩

/-- What is spelled behind the children of a block. -/
def spellEnd (depth : Nat) (ts : List (Tree NodeData)) : List Spelling :=
  if ts.isEmpty then [] else [(.space, lineBreak depth)]

theorem spell_block (d : NodeData) (ts : List (Tree NodeData)) (depth : Nat) (semicolon : Bool) :
    (Tree.block d ts).spell depth semicolon = d.spellHead ++ (.space, " ") ::
      (.openCurly, "\x7b") :: (spellAll (depth + 1) ts ++ spellEnd depth ts ++
        [(.closeCurly, "\x7d")]) := by
  simp [spell, spellEnd]

theorem endsLine_spellAll {rest : List Char} (hrest : EndsLine rest) (depth : Nat)
    (ts : List (Tree NodeData)) : EndsLine (Spelling.chars (spellAll depth ts) ++ rest) := by
  cases ts with
  | nil => exact hrest
  | cons t ts =>
    rw [spellAll, List.cons_append, Spelling.chars_cons, List.append_assoc]
    exact endsLine_lineBreak depth

mutual

/-- The tokens of a tree are found again, on lines of their own. -/
theorem cutOff_spell : (t : Tree NodeData) → t.isWorded → (depth : Nat) → (semicolon : Bool) →
    {rest : List Char} → EndsLine rest → CutOff (t.spell depth semicolon) rest
  | .leaf d, ht, depth, semicolon, rest, hrest => d.cutOff_spellLeaf ht hrest semicolon
  | .block d ts, ht, depth, semicolon, rest, hrest => by
    rw [isWorded, Bool.and_eq_true] at ht
    have hclose : CutOff [(.closeCurly, "\x7d")] rest := ⟨cuts_punctuation rfl rfl, trivial⟩
    have hbody : CutOff (spellAll (depth + 1) ts ++ spellEnd depth ts ++ [(.closeCurly, "\x7d")])
        rest := by
      cases ts with
      | nil => exact hclose
      | cons t ts =>
        have hend : CutOff [(.space, lineBreak depth), (.closeCurly, "\x7d")] rest :=
          hclose.behind_lineBreak depth nofun
        have hline : EndsLine (Spelling.chars [(.space, lineBreak depth), (.closeCurly, "\x7d")] ++
            rest) := by
          rw [Spelling.chars_cons, List.append_assoc]
          exact endsLine_lineBreak depth
        rw [List.append_assoc]
        exact cutOff_append.2 ⟨cutOff_spellAll (t :: ts) ht.2 (depth + 1) hline, hend⟩
    have hopen : CutOff ((.space, " ") :: (.openCurly, "\x7b") :: (spellAll (depth + 1) ts ++
        spellEnd depth ts ++ [(.closeCurly, "\x7d")])) rest :=
      CutOff.behind_blank ⟨cuts_punctuation rfl rfl, hbody⟩ nofun
    rw [spell_block]
    exact cutOff_append.2 ⟨d.cutOff_spellHead ht.1 (stops_cons (c := ' ') (by decide)), hopen⟩

theorem cutOff_spellAll : (ts : List (Tree NodeData)) → isWordedAll ts → (depth : Nat) →
    {rest : List Char} → EndsLine rest → CutOff (spellAll depth ts) rest
  | [], _, _, _, _ => trivial
  | t :: ts, hts, depth, rest, hrest => by
    rw [isWordedAll, Bool.and_eq_true] at hts
    have ht := cutOff_spell t hts.1 depth (!onlyComments ts) (endsLine_spellAll hrest depth ts)
    obtain ⟨s, ss, hs, hne⟩ := spell_cons hts.1 depth (!onlyComments ts)
    have := cutOff_append.2 ⟨ht, cutOff_spellAll ts hts.2 depth hrest⟩
    rw [hs] at this
    rw [spellAll, hs]
    exact CutOff.behind_lineBreak depth this hne

end

/-- The tokens of a stylesheet are found again. -/
theorem cutOff_spellRoot {ts : List (Tree NodeData)} (hts : isWordedAll ts) :
    CutOff (spellRoot ts) [] := by
  cases ts with
  | nil => trivial
  | cons t ts => exact (cutOff_spellAll (t :: ts) hts 0 (by simp [EndsLine])).2

end Tree

/-! ## The characters of a tree -/

/-- The characters that trees in words are spelled with. -/
def isPlainChar (c : Char) : Bool :=
  c.isLower || c ∈ [' ', '\n', ';', ':', '@', '\x7b', '\x7d', '/', '*', '!']

/-- All characters are such that trees in words are spelled with. -/
def PlainChars (cs : List Char) : Prop := ∀ c ∈ cs, isPlainChar c = true

instance (cs : List Char) : Decidable (PlainChars cs) :=
  decidable_of_iff (cs.all isPlainChar = true) List.all_eq_true

theorem plainChars_append {cs ds : List Char} :
    PlainChars (cs ++ ds) ↔ PlainChars cs ∧ PlainChars ds :=
  List.forall_mem_append

theorem plainChars_isWord {s : String} (hs : isWord s = true) : PlainChars s.toList := by
  obtain ⟨c, cs, hcs, hall⟩ := isWord_iff.1 hs
  intro d hd
  rw [hcs] at hd
  simp [isPlainChar, hall d hd]

theorem plainChars_lineBreak (depth : Nat) : PlainChars (lineBreak depth).toList := by
  intro c hc
  rw [toList_lineBreak] at hc
  rcases List.mem_cons.1 hc with rfl | hc
  · rfl
  · obtain ⟨s, hs, hc⟩ := List.mem_flatMap.1 hc
    rw [List.eq_of_mem_replicate hs] at hc
    exact (by decide : PlainChars "    ".toList) c hc

namespace NodeData

variable {d : NodeData}

theorem plainChars_spellParams {params : String} (h : params = "" ∨ isWord params = true) :
    PlainChars (Spelling.chars (spellParams params)) := by
  unfold spellParams
  split
  · exact nofun
  · next hne =>
    have hword := plainChars_isWord (h.resolve_left hne)
    simpa using plainChars_append.2 ⟨(by decide : PlainChars " ".toList), hword⟩

theorem plainChars_spellMark (important : Bool) :
    PlainChars (Spelling.chars (spellMark important)) := by
  cases important <;> decide

theorem plainChars_spellHead (hd : d.isWordedBlock) : PlainChars (Spelling.chars d.spellHead) := by
  cases d with
  | rule selector => simpa [spellHead] using plainChars_isWord hd
  | atRule name params =>
    rw [isWordedBlock, Bool.and_eq_true, Bool.or_eq_true, decide_eq_true_eq] at hd
    have hname := plainChars_append.2 ⟨(by decide : PlainChars "@".toList), plainChars_isWord hd.1⟩
    simpa [spellHead] using plainChars_append.2 ⟨hname, plainChars_spellParams hd.2⟩
  | _ => cases hd

theorem plainChars_spellLeaf (hd : d.isWordedLeaf) (semicolon : Bool) :
    PlainChars (Spelling.chars (d.spellLeaf semicolon)) := by
  have hclose : PlainChars (Spelling.chars (if semicolon then [(.semicolon, ";")] else [])) := by
    cases semicolon <;> decide
  cases d with
  | atRule name params =>
    have hhead : PlainChars (Spelling.chars (atRule name params).spellHead) :=
      plainChars_spellHead hd
    simpa [spellLeaf] using plainChars_append.2 ⟨hhead, hclose⟩
  | comment text =>
    have hopen := plainChars_append.2 ⟨(by decide : PlainChars "/* ".toList), plainChars_isWord hd⟩
    simpa [spellLeaf] using plainChars_append.2 ⟨hopen, (by decide : PlainChars " */".toList)⟩
  | declaration prop value important =>
    rw [isWordedLeaf, Bool.and_eq_true] at hd
    have hcolon := plainChars_append.2 ⟨plainChars_isWord hd.1, (by decide : PlainChars ": ".toList)⟩
    have hmark := plainChars_append.2 ⟨plainChars_isWord hd.2, plainChars_spellMark important⟩
    rw [spellLeaf, Spelling.chars_append, Spelling.chars_append]
    refine plainChars_append.2 ⟨?_, hclose⟩
    simpa using plainChars_append.2 ⟨hcolon, hmark⟩
  | _ => cases hd

end NodeData

namespace Tree

mutual

theorem plainChars_spell : (t : Tree NodeData) → t.isWorded → (depth : Nat) →
    (semicolon : Bool) → PlainChars (Spelling.chars (t.spell depth semicolon))
  | .leaf d, ht, depth, semicolon => d.plainChars_spellLeaf ht semicolon
  | .block d ts, ht, depth, semicolon => by
    rw [isWorded, Bool.and_eq_true] at ht
    have hopen := plainChars_append.2 ⟨d.plainChars_spellHead ht.1,
      (by decide : PlainChars " \x7b".toList)⟩
    have hend : PlainChars (Spelling.chars (spellEnd depth ts)) := by
      unfold spellEnd
      split
      · exact nofun
      · simpa using plainChars_lineBreak depth
    have hclose := plainChars_append.2 ⟨hend, (by decide : PlainChars "\x7d".toList)⟩
    have hbody := plainChars_append.2 ⟨plainChars_spellAll ts ht.2 (depth + 1), hclose⟩
    simpa [spell_block] using plainChars_append.2 ⟨hopen, hbody⟩

theorem plainChars_spellAll : (ts : List (Tree NodeData)) → isWordedAll ts → (depth : Nat) →
    PlainChars (Spelling.chars (spellAll depth ts))
  | [], _, _ => nofun
  | t :: ts, hts, depth => by
    rw [isWordedAll, Bool.and_eq_true] at hts
    have ht := plainChars_append.2 ⟨plainChars_lineBreak depth,
      plainChars_spell t hts.1 depth (!onlyComments ts)⟩
    simpa [spellAll] using plainChars_append.2 ⟨ht, plainChars_spellAll ts hts.2 depth⟩

end

theorem plainChars_spellRoot {ts : List (Tree NodeData)} (hts : isWordedAll ts) :
    PlainChars (Spelling.chars (spellRoot ts)) := by
  cases ts with
  | nil => exact nofun
  | cons t ts =>
    have := plainChars_spellAll (t :: ts) hts 0
    exact fun c hc => this c (List.mem_append_right _ hc)

end Tree

end Stylesheet
