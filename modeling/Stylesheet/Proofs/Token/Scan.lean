import Stylesheet.Proofs.Token.Bytes

/-!
# Tokens from bytes

A tokenizer that holds an offset and looks at bytes: `Scanner.stop?` searches the bytes from the
offset on for the end of the token (`span`, `findUnescaped`, `findPair`, `wordLength`,
`escapeLast`), and `Scanner.next?` cuts the text there. A cut outside the text or inside a character
fails, and with it the whole step.

None of them does (`Lexer.Stands.scan`): from the start of a character on, the bytes are read as
`Lexer.next` reads the characters. For each search a lemma says what it finds in characters; it is
an induction on them, where a character that is not in ASCII is passed byte by byte.
-/

set_option autoImplicit false

namespace Stylesheet

open Stylesheet.Lexer
open Stylesheet.Text hiding cut

/-! ## Searching bytes -/

namespace Scanner

/-- How many bytes come before the first that `stop` accepts. -/
def span (stop : Char → Bool) (bs : List UInt8) : Nat := bs.findIdx (stop <| Char.ofUInt8 ·)

/-- The byte at an index, as a character; zero behind the last one. -/
def byteAt (bs : List UInt8) (i : Nat) : Char := Char.ofUInt8 (bs[i]?.getD 0)

/-- The number of backslashes at the front. -/
def slashes (bs : List UInt8) : Nat := (bs.takeWhile (Char.ofUInt8 · = '\\')).length

/-- Where the first `close` stands behind an even number of backslashes. `before` are the bytes in
front, the nearest first. -/
def findUnescaped (close : Char) : List UInt8 → List UInt8 → Option Nat
  | _, [] => none
  | before, b :: bs =>
    if Char.ofUInt8 b = close && slashes before % 2 = 0 then some 0
    else (findUnescaped close (b :: before) bs).map (· + 1)

/-- Where the first end mark of a comment stands. -/
def findPair : List UInt8 → Option Nat
  | [] => none
  | b :: bs =>
    if Char.ofUInt8 b = '*' && bs.head?.any (Char.ofUInt8 · = '/') then some 0
    else (findPair bs).map (· + 1)

/-- How many bytes come before the end of a word. -/
def wordLength : List UInt8 → Nat
  | [] => 0
  | b :: bs =>
    if endsWord (Char.ofUInt8 b) ||
        (Char.ofUInt8 b = '/' && bs.head?.any (Char.ofUInt8 · = '*')) then 0
    else wordLength bs + 1

/-- Where the last character of a hexadecimal number starts, a space behind it included. -/
def numberLast (bs : List UInt8) (start : Nat) : Nat :=
  let last := start + span (!isHexDigit ·) (bs.drop (start + 1))
  if byteAt bs (last + 1) = ' ' then last + 1 else last

/-- Where the last character of the escape starts whose first backslash stands at `start`. -/
def escapeLast (bs : List UInt8) (start : Nat) : Nat :=
  let more := slashes (bs.drop (start + 1))
  let next := start + more
  let code := byteAt bs (next + 1)
  if more % 2 = 0 && next + 1 < bs.length && code ≠ '/' && !isSpace code then
    if isHexDigit code then numberLast bs (next + 1) else next + 1
  else next

/-! ## What the searches find -/

theorem ascii_isSpace {c : Char} (h : isSpace c = true) : c.toNat < 128 := by
  simp only [isSpace, Bool.or_eq_true, decide_eq_true_eq] at h
  rcases h with (((rfl | rfl) | rfl) | rfl) | rfl <;> decide

theorem ascii_endsAnyWord {c : Char} (h : endsAnyWord c = true) : c.toNat < 128 := by
  simp only [endsAnyWord, Bool.or_eq_true, decide_eq_true_eq] at h
  obtain h | rfl := h
  · rcases h with ((((((((((h | rfl) | rfl) | rfl) | rfl) | rfl) | rfl) | rfl) | rfl) | rfl) | rfl)
    · exact ascii_isSpace h
    all_goals decide
  · decide

theorem ascii_endsAtWord {c : Char} (h : endsAtWord c = true) : c.toNat < 128 := by
  simp only [endsAtWord, Bool.or_eq_true, decide_eq_true_eq] at h
  rcases h with h | rfl
  · exact ascii_endsAnyWord h
  · decide

theorem ascii_endsWord {c : Char} (h : endsWord c = true) : c.toNat < 128 := by
  simp only [endsWord, Bool.or_eq_true, decide_eq_true_eq] at h
  rcases h with ((h | rfl) | rfl) | rfl
  · exact ascii_endsAnyWord h
  all_goals decide

theorem ascii_spoilsBrackets {c : Char} (h : spoilsBrackets c = true) : c.toNat < 128 := by
  simp only [spoilsBrackets, Bool.or_eq_true, decide_eq_true_eq] at h
  rcases h with (((((rfl | rfl) | rfl) | rfl) | rfl) | rfl) | rfl <;> decide

theorem ascii_isHexDigit {c : Char} (h : isHexDigit c = true) : c.toNat < 128 := by
  have hle : ∀ d : Char, c ≤ d → c.toNat ≤ d.toNat := fun d hd => hd
  simp only [isHexDigit, Char.isDigit, Bool.or_eq_true, Bool.and_eq_true, decide_eq_true_eq] at h
  rcases h with (h | h) | h
  · exact Nat.lt_of_le_of_lt (hle '9' h.2) (by decide)
  · exact Nat.lt_of_le_of_lt (hle 'f' h.2) (by decide)
  · exact Nat.lt_of_le_of_lt (hle 'F' h.2) (by decide)

theorem span_utf8 {stop : Char → Bool} (h : Bytewise stop) (cs : List Char) :
    span stop (utf8 cs) = byteSize (cutBefore stop cs).1 := by
  induction cs with
  | nil => rfl
  | cons c cs ih =>
    obtain ⟨b, bs, henc⟩ := utf8EncodeChar_eq_cons c
    have hb : b ∈ String.utf8EncodeChar c := by simp [henc]
    rw [span] at ih ⊢
    rw [utf8_cons, List.findIdx_append, cutBefore]
    by_cases hc : stop c
    · rw [if_pos (List.findIdx_lt_length.2 ⟨b, hb, (h c b hb).trans hc⟩), if_pos hc, henc,
        List.findIdx_cons, h c b hb, hc]
      rfl
    · have hnone : ¬∃ b ∈ String.utf8EncodeChar c, stop (Char.ofUInt8 b) = true := by
        rintro ⟨b, hb, hstop⟩
        exact hc ((h c b hb).symm.trans hstop)
      rw [if_neg (fun hlt => hnone (List.findIdx_lt_length.1 hlt)), if_neg hc, ih,
        String.length_utf8EncodeChar]
      exact Nat.add_comm _ _

/-- The bytes of a character that is not in ASCII are none that a search looks for. -/
theorem wide_ne {c : Char} (h : 128 ≤ c.toNat) {b : UInt8} (hb : b ∈ String.utf8EncodeChar c)
    {d : Char} (hd : d.toNat < 128) : Char.ofUInt8 b ≠ d := by
  rintro rfl
  have := utf8EncodeChar_wide h hb
  omega

theorem head?_any_eq (cs : List Char) (d : Char) :
    cs.head?.any (decide <| · = d) = decide (cs.head? = some d) := by
  cases cs.head? <;> simp

theorem findPair_append {bs : List UInt8} (cs : List UInt8)
    (h : ∀ b ∈ bs, Char.ofUInt8 b ≠ '*') :
    findPair (bs ++ cs) = (findPair cs).map (· + bs.length) := by
  induction bs with
  | nil => simp
  | cons b bs ih =>
    rw [List.cons_append, findPair, if_neg (by simp [h b (by simp)]),
      ih fun b' hb' => h b' (by simp [hb']), Option.map_map]
    rfl

/-- A cut behind one more character. -/
theorem map_byteSize_cons (c : Char) (cut : Option (List Char × List Char)) :
    (cut.map fun (a, b) => (c :: a, b)).map (byteSize ·.1) =
      (cut.map (byteSize ·.1)).map (c.utf8Size + ·) := by
  cases cut <;> rfl

theorem findPair_utf8 (cs : List Char) :
    (findPair (utf8 cs)).map (· + 2) = (cutComment cs).map (byteSize ·.1) := by
  induction cs with
  | nil => rfl
  | cons c cs ih =>
    have hstep : (findPair (utf8 cs)).map (· + c.utf8Size + 2) =
        ((cutComment cs).map (byteSize ·.1)).map (c.utf8Size + ·) := by
      rw [← ih, Option.map_map]
      exact congrArg (Option.map · _) (funext fun n => by simp only [Function.comp_apply]; omega)
    rw [utf8_cons, cutComment]
    by_cases hc : c.toNat < 128
    · obtain ⟨b, henc, rfl⟩ := utf8EncodeChar_ascii hc
      have hsize := utf8Size_ascii hc
      have hhead := (bytewise_eq (d := '/') (by decide)).head? cs
      rw [henc, List.singleton_append, findPair, hhead, head?_any_eq]
      split
      · next h =>
        simp only [Bool.and_eq_true, decide_eq_true_eq] at h
        simp [h.1]
        decide
      · rw [Option.map_map, map_byteSize_cons, ← hstep, hsize]
        rfl
    · have hwide := Nat.le_of_not_lt hc
      have hne : c ≠ '*' := by rintro rfl; exact hc (by decide)
      rw [findPair_append _ fun b hb => wide_ne hwide hb (by decide), if_neg (by simp [hne]),
        map_byteSize_cons, ← hstep, Option.map_map, String.length_utf8EncodeChar]
      rfl

theorem wordLength_append {bs : List UInt8} (cs : List UInt8)
    (h : ∀ b ∈ bs, endsWord (Char.ofUInt8 b) = false ∧ Char.ofUInt8 b ≠ '/') :
    wordLength (bs ++ cs) = wordLength cs + bs.length := by
  induction bs with
  | nil => rfl
  | cons b bs ih =>
    obtain ⟨hend, hslash⟩ := h b (by simp)
    rw [List.cons_append, wordLength, if_neg (by simp [hend, hslash]),
      ih fun b' hb' => h b' (by simp [hb'])]
    rfl

theorem wordLength_utf8 (cs : List Char) : wordLength (utf8 cs) = byteSize (cutWord cs).1 := by
  induction cs with
  | nil => rfl
  | cons c cs ih =>
    rw [utf8_cons, cutWord]
    by_cases hc : c.toNat < 128
    · obtain ⟨b, henc, rfl⟩ := utf8EncodeChar_ascii hc
      have hsize := utf8Size_ascii hc
      have hhead := (bytewise_eq (d := '*') (by decide)).head? cs
      rw [henc, List.singleton_append, wordLength, hhead, head?_any_eq]
      split
      · rfl
      · rw [ih, byteSize_cons, hsize]
        exact Nat.add_comm _ _
    · have hwide := Nat.le_of_not_lt hc
      have hne : c ≠ '/' := by rintro rfl; exact hc (by decide)
      have hend : endsWord c = false := by
        by_contra h
        exact hc (ascii_endsWord (by simpa using h))
      have hbytes : ∀ b ∈ String.utf8EncodeChar c,
          endsWord (Char.ofUInt8 b) = false ∧ Char.ofUInt8 b ≠ '/' := fun b hb =>
        ⟨(bytewise_of_ascii (fun _ => ascii_endsWord) c b hb).trans hend,
          wide_ne hwide hb (by decide)⟩
      rw [wordLength_append _ hbytes, if_neg (by simp [hne, hend]), ih,
        String.length_utf8EncodeChar, byteSize_cons]
      exact Nat.add_comm _ _

theorem slashes_cons (b : UInt8) (bs : List UInt8) :
    slashes (b :: bs) = if Char.ofUInt8 b = '\\' then slashes bs + 1 else 0 := by
  by_cases h : Char.ofUInt8 b = '\\' <;> simp [slashes, h]

theorem findUnescaped_append {close : Char} {bs : List UInt8} (before cs : List UInt8)
    (h : ∀ b ∈ bs, Char.ofUInt8 b ≠ close) :
    findUnescaped close before (bs ++ cs) =
      (findUnescaped close (bs.reverse ++ before) cs).map (· + bs.length) := by
  induction bs generalizing before with
  | nil => simp
  | cons b bs ih =>
    rw [List.cons_append, findUnescaped, if_neg (by simp [h b (by simp)]),
      ih _ fun b' hb' => h b' (by simp [hb']), Option.map_map, List.reverse_cons,
      List.append_assoc, List.singleton_append]
    rfl

theorem findUnescaped_utf8 {close : Char} (hclose : close.toNat < 128) {before : List UInt8}
    {escaped : Bool} (he : escaped = true ↔ slashes before % 2 = 1) (cs : List Char) :
    (findUnescaped close before (utf8 cs)).map (· + 1) =
      (cutUnescaped close escaped cs).map (byteSize ·.1) := by
  induction cs generalizing before escaped with
  | nil => rfl
  | cons c cs ih =>
    have hstep : ∀ {before' escaped'}, (escaped' = true ↔ slashes before' % 2 = 1) →
        (findUnescaped close before' (utf8 cs)).map (· + c.utf8Size + 1) =
          ((cutUnescaped close escaped' cs).map (byteSize ·.1)).map (c.utf8Size + ·) := by
      intro before' escaped' he'
      rw [← ih he', Option.map_map]
      exact congrArg (Option.map · _) (funext fun n => by simp only [Function.comp_apply]; omega)
    rw [utf8_cons, cutUnescaped]
    by_cases hc : c.toNat < 128
    · obtain ⟨b, henc, rfl⟩ := utf8EncodeChar_ascii hc
      have hsize := utf8Size_ascii hc
      have hparity : (slashes before % 2 = 0) ↔ ¬escaped = true := by rw [he]; omega
      rw [henc, List.singleton_append, findUnescaped]
      by_cases hfound : Char.ofUInt8 b = close ∧ ¬escaped = true
      · rw [if_pos (by simpa [hparity] using hfound), if_pos (by simpa using hfound)]
        simp [hsize]
      · rw [if_neg (by simpa [hparity] using hfound), if_neg (by simpa using hfound),
          Option.map_map, map_byteSize_cons, ← @hstep (b :: before), hsize]
        · rfl
        · rw [slashes_cons]
          by_cases hslash : Char.ofUInt8 b = '\\'
          · simp only [hslash, decide_true, Bool.true_and, if_true]
            rw [Bool.not_eq_true', ← Bool.not_eq_true, ← hparity]
            omega
          · simp [hslash]
    · have hwide := Nat.le_of_not_lt hc
      have hne : c ≠ close := by rintro rfl; exact hc hclose
      have hback : c ≠ '\\' := by rintro rfl; exact hc (by decide)
      have hnone : slashes ((String.utf8EncodeChar c).reverse ++ before) = 0 := by
        cases hrev : (String.utf8EncodeChar c).reverse with
        | nil => exact absurd (List.reverse_eq_nil_iff.1 hrev) String.utf8EncodeChar_ne_nil
        | cons b bs =>
          have hb : b ∈ String.utf8EncodeChar c := by
            rw [← List.mem_reverse, hrev]
            exact List.mem_cons_self
          rw [List.cons_append, slashes_cons, if_neg (wide_ne hwide hb (by decide))]
      rw [findUnescaped_append _ _ fun b hb => wide_ne hwide hb hclose, if_neg (by simp [hne]),
        map_byteSize_cons, ← hstep, Option.map_map, String.length_utf8EncodeChar]
      · rfl
      · simp [hback, hnone]

/-- What a test finds at the byte behind a text is what it finds at the next character. -/
theorem byteAt_utf8 {q : Char → Bool} (h : Bytewise q) (hzero : q '\x00' = false)
    (a b : List Char) : q (byteAt (utf8 (a ++ b)) (byteSize a)) = b.head?.any q := by
  have hget : (utf8 (a ++ b))[byteSize a]? = (utf8 b).head? := by
    rw [utf8_append, List.getElem?_append_right (by simp), length_utf8, Nat.sub_self,
      List.head?_eq_getElem?]
  rw [byteAt, hget, ← h.head?]
  cases (utf8 b).head? with
  | none => exact hzero
  | some b => rfl

theorem slashes_utf8 (cs : List Char) :
    slashes (utf8 cs) = (cutBefore (· ≠ '\\') cs).1.length := by
  induction cs with
  | nil => rfl
  | cons c cs ih =>
    rw [utf8_cons, cutBefore]
    by_cases hc : c = '\\'
    · subst hc
      obtain ⟨b, henc, hb⟩ := @utf8EncodeChar_ascii '\\' (by decide)
      rw [henc, List.singleton_append, slashes_cons, if_pos hb, ih]
      simp
    · obtain ⟨b, bs, henc⟩ := utf8EncodeChar_eq_cons c
      have hb : b ∈ String.utf8EncodeChar c := by simp [henc]
      rw [henc, List.cons_append, slashes_cons, if_neg (mt (ofUInt8_eq_iff (by decide) hb).1 hc)]
      simp [hc]

/-- The last character of a text in ASCII is one byte wide. -/
theorem byteSize_dropLast {cs : List Char} (h : ∀ c ∈ cs, c.toNat < 128) :
    byteSize cs.dropLast = cs.length - 1 := by
  rw [byteSize_ascii fun c hc => h c (List.dropLast_subset _ hc), List.length_dropLast]

/-- The number of an escape, behind its backslashes. -/
theorem numberLast_utf8 (done : List Char) {run : List Char}
    (hrun : ∀ d ∈ '\\' :: run, d.toNat < 128) {c : Char} (hc : isHexDigit c = true)
    (cs : List Char) :
    numberLast (utf8 (done ++ '\\' :: run ++ c :: cs)) (byteSize (done ++ '\\' :: run)) =
      byteSize done + byteSize ('\\' :: (match cutBefore (fun d => !isHexDigit d) cs with
        | (digits, ' ' :: tail) => (run ++ c :: digits ++ [' '], tail)
        | (digits, tail) => (run ++ c :: digits, tail)).1).dropLast := by
  obtain ⟨digits, tail, hcs, hcut⟩ := exists_cutBefore (!isHexDigit ·) cs
  obtain ⟨hall, -⟩ := cutBefore_eq_iff.1 (hcs ▸ hcut)
  have hdigits : ∀ d ∈ digits, isHexDigit d = true := by simpa using hall
  have hascii : ∀ d ∈ '\\' :: (run ++ c :: digits), d.toNat < 128 := by
    intro d hd
    rw [← List.cons_append] at hd
    rcases List.mem_append.1 hd with hd | hd
    · exact hrun d hd
    rcases List.mem_cons.1 hd with rfl | hd
    · exact ascii_isHexDigit hc
    · exact ascii_isHexDigit (hdigits d hd)
  have hlast : byteSize (done ++ '\\' :: run) + byteSize digits + 1 =
      byteSize done + byteSize ('\\' :: (run ++ c :: digits)) := by
    simp [utf8Size_ascii (ascii_isHexDigit hc)]
    omega
  have hspace : byteAt (utf8 (done ++ '\\' :: run ++ c :: cs))
      (byteSize (done ++ '\\' :: run) + byteSize digits + 1) = ' ' ↔ tail.head? = some ' ' := by
    have := byteAt_utf8 (bytewise_eq (d := ' ') (by decide)) (by decide)
      (done ++ '\\' :: (run ++ c :: digits)) tail
    rw [head?_any_eq, decide_eq_decide, byteSize_append, ← hlast] at this
    rw [← this, hcs]
    simp
  rw [numberLast, drop_utf8_succ _ (ascii_isHexDigit hc),
    span_utf8 (bytewise_of_ascii fun _ => ascii_isHexDigit).not, hcut]
  dsimp only
  simp only [hspace]
  by_cases htail : tail.head? = some ' '
  · obtain ⟨tail, rfl⟩ := List.head?_eq_some_iff.1 htail
    rw [if_pos htail, hlast]
    show _ = byteSize done + byteSize ('\\' :: (run ++ c :: digits) ++ [' ']).dropLast
    rw [List.dropLast_concat]
  · rw [if_neg htail]
    split
    · next heq =>
      cases heq
      exact absurd rfl htail
    · next heq =>
      cases heq
      dsimp only
      rw [byteSize_ascii hascii, List.length_cons] at hlast
      rw [byteSize_dropLast hascii, List.length_cons]
      omega

theorem escapeLast_utf8 (done rest : List Char) :
    escapeLast (utf8 (done ++ '\\' :: rest)) (byteSize done) =
      byteSize done + byteSize ('\\' :: (cutEscape rest).1).dropLast := by
  obtain ⟨run, after, hrest, hcut⟩ := exists_cutBefore (· ≠ '\\') rest
  obtain ⟨hall, -⟩ := cutBefore_eq_iff.1 (hrest ▸ hcut)
  have hslash : ∀ c ∈ '\\' :: run, c = '\\' :=
    List.forall_mem_cons.2 ⟨rfl, by simpa using hall⟩
  have hascii : ∀ c ∈ '\\' :: run, c.toNat < 128 := fun c hc => by rw [hslash c hc]; decide
  have htext : done ++ '\\' :: rest = done ++ '\\' :: run ++ after := by simp [hrest]
  have hnext : byteSize done + run.length + 1 = byteSize (done ++ '\\' :: run) := by
    rw [byteSize_append, byteSize_ascii hascii, List.length_cons, Nat.add_assoc]
  have hstop : byteSize ('\\' :: run).dropLast = run.length := by
    rw [byteSize_dropLast hascii, List.length_cons, Nat.add_sub_cancel]
  have hbyte : ∀ {q : Char → Bool}, Bytewise q → q '\x00' = false →
      q (byteAt (utf8 (done ++ '\\' :: rest)) (byteSize done + run.length + 1)) =
        after.head?.any q := by
    intro q hq hzero
    rw [hnext, htext, byteAt_utf8 hq hzero]
  simp only [escapeLast, cutEscape, drop_utf8_succ done (show '\\'.toNat < 128 by decide),
    slashes_utf8, hcut]
  by_cases hodd : run.length % 2 = 1
  · have heven : ¬run.length % 2 = 0 := by omega
    rw [if_neg (by simp [heven]), if_pos hodd, hstop]
  have heven : run.length % 2 = 0 := by omega
  rw [if_neg hodd]
  cases after with
  | nil =>
    have hlen : ¬byteSize done + run.length + 1 < (utf8 (done ++ '\\' :: rest)).length := by
      rw [hnext, htext, length_utf8, List.append_nil]
      exact Nat.lt_irrefl _
    rw [if_neg (by rw [decide_eq_false hlen]; simp), hstop]
  | cons c cs =>
    have hlen : byteSize done + run.length + 1 < (utf8 (done ++ '\\' :: rest)).length := by
      rw [hnext, htext, length_utf8, byteSize_append (done ++ '\\' :: run)]
      have := c.utf8Size_pos
      rw [byteSize_cons]
      omega
    have hspace := hbyte (bytewise_of_ascii fun _ => ascii_isSpace) (by decide)
    have hhex := hbyte (bytewise_of_ascii fun _ => ascii_isHexDigit) (by decide)
    have hdiv := hbyte (bytewise_eq (d := '/') (by decide)) (by decide)
    rw [List.head?_cons, Option.any_some] at hspace hhex hdiv
    rw [decide_eq_true heven, decide_eq_true hlen, decide_not, hdiv, hspace, hhex]
    dsimp only
    by_cases hblank : (c = '/' || isSpace c) = true
    · rw [if_pos hblank, if_neg (by simpa [imp_iff_not_or] using hblank), hstop]
    · rw [if_neg hblank, if_pos (by simpa using hblank)]
      by_cases hdigit : isHexDigit c = true
      · rw [if_pos hdigit, if_pos hdigit, hnext, htext]
        exact numberLast_utf8 _ hascii hdigit _
      · rw [if_neg hdigit, if_neg hdigit, ← List.cons_append, List.dropLast_concat,
          byteSize_ascii hascii, List.length_cons, Nat.add_assoc]

end Scanner

/-! ## Reading bytes -/

/-- A text that is being read by its bytes: the offset of the next one, the words that a
parenthesis may refer to, and the tokens to be read again. -/
structure Scanner where
  text : List Char
  offset : Nat
  words : List String
  returned : List Token

namespace Scanner

/-- Where a token stops whose end was searched for. -/
def stopAt (kind : TokenKind) (what : Unclosed) (found : Option Nat) :
    Except Unclosed (TokenKind × Nat) :=
  match found with
  | some stop => .ok (kind, stop)
  | none => .error what

/-- The kind of the token that starts at the offset, with the byte `code`, and where it stops.
`word` is the word that a parenthesis refers to. -/
def stop? (s : Scanner) (word : String) (code : Char) :
    Option (Except Unclosed (TokenKind × Nat)) :=
  let bs := utf8 s.text
  let behind := s.offset + 1
  if isSpace code then
    some (.ok (.space, behind + span (!isSpace ·) (bs.drop behind)))
  else match punctuation code with
    | some kind => some (.ok (kind, behind))
    | none =>
      if code = '(' then
        if word = "url" && !(byteAt bs behind = '\'' || byteAt bs behind = '"' ||
            isSpace (byteAt bs behind)) then
          let found := findUnescaped ')' (bs.take behind).reverse (bs.drop behind)
          some (stopAt .brackets .bracket (found.map (behind + · + 1)))
        else do
          let (_, _) ← splitAt? s.text behind
          let i := span (· = ')') (bs.drop behind)
          if behind + i < bs.length &&
              !((bs.drop behind).take (i + 1)).any (spoilsBrackets <| Char.ofUInt8 ·) then
            some (.ok (.brackets, behind + i + 1))
          else some (.ok (.openParen, behind))
      else if code = '\'' || code = '"' then
        let found := findUnescaped code (bs.take behind).reverse (bs.drop behind)
        some (stopAt .string .string (found.map (behind + · + 1)))
      else if code = '@' then
        some (.ok (.atWord, behind + span endsAtWord (bs.drop behind)))
      else if code = '\\' then do
        let stop ← charEnd? s.text (escapeLast bs s.offset)
        some (.ok (.word, stop))
      else if code = '/' && byteAt bs behind = '*' then do
        let (_, _) ← splitAt? s.text (behind + 1)
        let found := findPair (bs.drop (behind + 1))
        some (stopAt .comment .comment (found.map (behind + 1 + · + 2)))
      else do
        let first ← charEnd? s.text s.offset
        some (.ok (.word, first + wordLength (bs.drop first)))

/-- Reads the next token; `none` where the text would be cut outside of it or inside a character. -/
def next? (s : Scanner) : Option (Except LexError (Option Token) × Scanner) :=
  match s.returned with
  | t :: returned => some (.ok (some t), { s with returned })
  | [] =>
    match (utf8 s.text)[s.offset]? with
    | none => some (.ok none, s)
    | some b => do
      let code := Char.ofUInt8 b
      let words := usedWords code s.words
      match ← s.stop? (s.words.head?.getD "") code with
      | .error what => some (.error ⟨what, s.offset⟩, { s with words })
      | .ok (kind, stop) =>
        let chars ← slice? s.text s.offset stop
        let last ← lastCharStart? s.text stop
        let words := if kind = .word && code ≠ '\\' then String.ofList chars :: words else words
        some (.ok (some ⟨kind, String.ofList chars, s.offset, last⟩), ⟨s.text, stop, words, []⟩)

/-- A parenthesised text is kept whole if the first closing parenthesis comes before anything that
spoils it. -/
theorem cutBrackets_eq (cs : List Char) :
    cutBrackets cs =
      if (cutBefore (· = ')') cs).2 ≠ [] ∧ (cutBefore (· = ')') cs).1.any spoilsBrackets = false then
        some ((cutBefore (· = ')') cs).1 ++ [')'], (cutBefore (· = ')') cs).2.tail)
      else none := by
  split
  · next h =>
    obtain ⟨a, b, rfl, hcut⟩ := exists_cutBefore (· = ')') cs
    rw [hcut] at h ⊢
    obtain ⟨hne, ha⟩ := h
    obtain ⟨d, b, rfl⟩ := List.exists_cons_of_ne_nil hne
    obtain ⟨hbefore, hclose⟩ := cutBefore_eq_iff.1 hcut
    obtain rfl : d = ')' := of_decide_eq_true (hclose d rfl)
    have hplain : ∀ d ∈ a, (spoilsBrackets d || d = ')') = false := fun d hd => by
      rw [hbefore d hd, Bool.or_false]
      simpa using List.any_eq_false.1 ha d hd
    have hbrackets : cutBrackets (a ++ [')'] ++ b) = some (a ++ [')'], b) :=
      cutBrackets_eq_some_iff.2 ⟨a, rfl, hplain⟩
    simpa using hbrackets
  · next h =>
    rw [cutBrackets_eq_none_iff]
    rintro ⟨a, b, rfl, ha⟩
    have hbefore : ∀ d ∈ a, decide (d = ')') = false := fun d hd =>
      (Bool.or_eq_false_iff.1 (ha d hd)).2
    rw [cutBefore_eq_iff.2 ⟨hbefore, by simp⟩] at h
    refine h ⟨List.cons_ne_nil _ _, List.any_eq_false.2 fun d hd => ?_⟩
    simpa using (Bool.or_eq_false_iff.1 (ha d hd)).1

/-- What a cut says of the text: its kind, and where it stops if it starts at an offset. -/
def stopOf (offset : Nat) (r : Except Unclosed Cut) : Except Unclosed (TokenKind × Nat) :=
  r.map fun r => (r.kind, offset + byteSize r.chars)

theorem slashes_behind {c : Char} (hc : c.toNat < 128) (hne : c ≠ '\\') (cs : List Char) :
    slashes (utf8 (cs ++ [c])).reverse = 0 := by
  obtain ⟨b, henc, rfl⟩ := utf8EncodeChar_ascii hc
  simp [henc, slashes_cons, hne]

section Stop

variable {done rest : List Char} {c : Char} {words : List String} (word : String)

theorem findUnescaped_behind (hc : c.toNat < 128) (hne : c ≠ '\\') {close : Char}
    (hclose : close.toNat < 128) :
    (findUnescaped close ((utf8 (done ++ c :: rest)).take (byteSize done + 1)).reverse
      (utf8 rest)).map (byteSize done + 1 + · + 1) =
      (cutUnescaped close false rest).map fun p => byteSize done + (1 + byteSize p.1) := by
  have htake : (utf8 (done ++ c :: rest)).take (byteSize done + 1) = utf8 (done ++ [c]) := by
    have := take_utf8 (done ++ [c]) rest
    simpa [utf8Size_ascii hc] using this
  have heven : slashes ((utf8 (done ++ c :: rest)).take (byteSize done + 1)).reverse % 2 ≠ 1 := by
    rw [htake, slashes_behind hc hne]
    decide
  have hfound := findUnescaped_utf8 hclose
    (iff_of_false Bool.false_ne_true heven) rest
  have := congrArg (Option.map (byteSize done + 1 + ·)) hfound
  rw [Option.map_map, Option.map_map] at this
  simpa only [Function.comp_def, Nat.add_assoc] using this

theorem stopAt_some {kind : TokenKind} {what : Unclosed} (hc : c.utf8Size = 1)
    (p : Option (List Char × List Char)) :
    stopAt kind what (p.map fun p => byteSize done + (1 + byteSize p.1)) =
      stopOf (byteSize done) (match p with
        | some p => .ok (Cut.ofPair kind c p)
        | none => .error what) := by
  cases p with
  | none => rfl
  | some p => simp [stopAt, stopOf, Except.map, Cut.ofPair, hc]

theorem ascii_quoted {c : Char} (h : (c = '\'' || c = '"' || isSpace c) = true) :
    c.toNat < 128 := by
  simp only [Bool.or_eq_true, decide_eq_true_eq] at h
  rcases h with (rfl | rfl) | h
  · decide
  · decide
  · exact ascii_isSpace h

/-- Where a parenthesised text stops that is searched by its bytes. -/
theorem brackets_stop (hc : c.utf8Size = 1) :
    (if byteSize done + 1 + span (· = ')') (utf8 rest) < byteSize done + 1 + byteSize rest &&
        !((utf8 rest).take (span (· = ')') (utf8 rest) + 1)).any
          (spoilsBrackets <| Char.ofUInt8 ·) then
      some (.ok (.brackets, byteSize done + 1 + span (· = ')') (utf8 rest) + 1))
    else some (.ok (.openParen, byteSize done + 1))) =
      some (stopOf (byteSize done) (match cutBrackets rest with
        | some p => .ok (Cut.ofPair .brackets c p)
        | none => .ok ⟨.openParen, [c], rest⟩)) := by
  obtain ⟨inner, behind, hrest, hcut⟩ := exists_cutBefore (· = ')') rest
  rw [cutBrackets_eq, span_utf8 (bytewise_eq (by decide)), hcut]
  dsimp only
  cases behind with
  | nil =>
    rw [hrest, List.append_nil, decide_eq_false (Nat.lt_irrefl _), if_neg (by simp),
      if_neg (by simp)]
    simp [stopOf, Except.map, hc]
  | cons d tail =>
    obtain ⟨-, hclose⟩ := cutBefore_eq_iff.1 (hrest ▸ hcut)
    obtain rfl : d = ')' := of_decide_eq_true (hclose d rfl)
    have hfound : byteSize done + 1 + byteSize inner < byteSize done + 1 + byteSize rest := by
      rw [hrest, byteSize_append, byteSize_cons, utf8Size_ascii (by decide)]
      omega
    have htake : (utf8 rest).take (byteSize inner + 1) = utf8 (inner ++ [')']) := by
      have := take_utf8 (inner ++ [')']) tail
      rw [hrest]
      simpa [utf8Size_ascii (c := ')') (by decide)] using this
    have hspoils : (inner ++ [')']).any spoilsBrackets = inner.any spoilsBrackets := by
      rw [List.any_append]
      simp [spoilsBrackets]
    rw [htake, (bytewise_of_ascii fun _ => ascii_spoilsBrackets).any, hspoils,
      decide_eq_true hfound, Bool.true_and]
    cases hany : inner.any spoilsBrackets with
    | true =>
      rw [if_neg (by decide), if_neg (by simp)]
      simp [stopOf, Except.map, hc]
    | false =>
      rw [if_pos (by decide), if_pos (by simp)]
      simp [stopOf, Except.map, Cut.ofPair, hc, utf8Size_ascii (c := ')') (by decide)]
      omega

/-- Where a word stops. -/
theorem word_stop :
    (do
      let first ← charEnd? (done ++ c :: rest) (byteSize done)
      some (.ok (.word, first + wordLength ((utf8 (done ++ c :: rest)).drop first)))) =
      some (stopOf (byteSize done) (.ok (Cut.ofPair .word c (cutWord rest)))) := by
  have hdrop : (utf8 (done ++ c :: rest)).drop (byteSize done + c.utf8Size) = utf8 rest := by
    have := drop_utf8 (done ++ [c]) rest
    simpa using this
  rw [charEnd?_byteSize, Option.bind_eq_bind, Option.bind_some, hdrop, wordLength_utf8]
  simp [stopOf, Except.map, Cut.ofPair, Nat.add_assoc]

/-- Where a comment stops. -/
theorem comment_stop (hc : c.utf8Size = 1) :
    (do
      let (_, _) ← splitAt? (done ++ c :: '*' :: rest) (byteSize done + 1 + 1)
      let found := findPair ((utf8 (done ++ c :: '*' :: rest)).drop (byteSize done + 1 + 1))
      some (stopAt .comment .comment (found.map (byteSize done + 1 + 1 + · + 2)))) =
      some (stopOf (byteSize done) (match cutComment rest with
        | some (a, b) => .ok ⟨.comment, c :: '*' :: a, b⟩
        | none => .error .comment)) := by
  have hstar : '*'.utf8Size = 1 := utf8Size_ascii (by decide)
  have htwo : byteSize done + 1 + 1 = byteSize (done ++ [c, '*']) := by simp [hc, hstar]
  have hsplit : splitAt? (done ++ c :: '*' :: rest) (byteSize done + 1 + 1) =
      some (done ++ [c, '*'], rest) := by
    rw [splitAt?_eq_some]
    exact ⟨by simp, htwo⟩
  have hinner : (utf8 (done ++ c :: '*' :: rest)).drop (byteSize done + 1 + 1) = utf8 rest := by
    rw [htwo, ← drop_utf8 (done ++ [c, '*']) rest]
    simp
  have hfound := findPair_utf8 rest
  rw [hsplit, hinner, Option.bind_eq_bind, Option.bind_some]
  cases hpair : findPair (utf8 rest) <;> cases hcut : cutComment rest <;>
    simp [hpair, hcut] at hfound
  · rfl
  · simp [stopAt, stopOf, Except.map, hc, hstar, ← hfound]
    omega

/-- A character that is not in ASCII starts a word. -/
theorem stop?_wide (hc : 128 ≤ c.toNat) {code : Char} (hcode : 128 ≤ code.toNat) :
    stop? ⟨done ++ c :: rest, byteSize done, words, []⟩ word code =
      some (stopOf (byteSize done) (cut word c rest)) := by
  have hspace : ∀ {d : Char}, 128 ≤ d.toNat → isSpace d ≠ true := fun hd h =>
    Nat.not_lt.2 hd (ascii_isSpace h)
  have hne : ∀ {d e : Char}, 128 ≤ d.toNat → e.toNat < 128 → d ≠ e := by
    rintro d e hd he rfl
    omega
  have hpunct : ∀ {d : Char}, 128 ≤ d.toNat → punctuation d = none := by
    intro d hd
    unfold punctuation
    iterate 7 rw [if_neg (hne hd (by decide))]
  have hslash : ∀ {d : Char} {b : Bool}, 128 ≤ d.toNat → ¬(d = '/' && b) = true := by
    intro d b hd
    simp [hne hd (show '/'.toNat < 128 by decide)]
  have hquote : ∀ {d : Char}, 128 ≤ d.toNat → ¬(d = '\'' || d = '"') = true := by
    intro d hd
    simp [hne hd (show '\''.toNat < 128 by decide), hne hd (show '"'.toNat < 128 by decide)]
  have hcut : cut word c rest = .ok (.ofPair .word c (cutWord rest)) := by
    rw [cut, if_neg (hspace hc), hpunct hc]
    dsimp only
    rw [if_neg (hne hc (by decide)), if_neg (hquote hc), if_neg (hne hc (by decide)),
      if_neg (hne hc (by decide)), if_neg (hslash hc)]
  rw [hcut, stop?, if_neg (hspace hcode), hpunct hcode]
  dsimp only
  rw [if_neg (hne hcode (by decide)), if_neg (hquote hcode), if_neg (hne hcode (by decide)),
    if_neg (hne hcode (by decide)), if_neg (hslash hcode)]
  exact word_stop

theorem stop?_ascii (hc : c.toNat < 128) :
    stop? ⟨done ++ c :: rest, byteSize done, words, []⟩ word c =
      some (stopOf (byteSize done) (cut word c rest)) := by
  have hone := utf8Size_ascii hc
  have hdrop := drop_utf8_succ done hc rest
  have hbehind : byteSize done + 1 = byteSize (done ++ [c]) := by simp [hone]
  have hsplit : splitAt? (done ++ c :: rest) (byteSize done + 1) = some (done ++ [c], rest) := by
    rw [splitAt?_eq_some]
    exact ⟨by simp, hbehind⟩
  have hbyte : ∀ {q : Char → Bool}, Bytewise q → q '\x00' = false →
      q (byteAt (utf8 (done ++ c :: rest)) (byteSize done + 1)) = rest.head?.any q := by
    intro q hq hzero
    have := byteAt_utf8 hq hzero (done ++ [c]) rest
    rwa [← hbehind, List.append_assoc] at this
  unfold stop? cut
  dsimp only
  rw [hdrop]
  by_cases hspace : isSpace c = true
  · rw [if_pos hspace, if_pos hspace, span_utf8 (bytewise_of_ascii fun _ => ascii_isSpace).not]
    simp [stopOf, Except.map, Cut.ofPair, hone, Nat.add_assoc]
  rw [if_neg hspace, if_neg hspace]
  cases hpunct : punctuation c with
  | some kind => simp [stopOf, Except.map, hone]
  | none =>
    dsimp only
    by_cases hparen : c = '('
    · rw [if_pos hparen, if_pos hparen, hbyte (bytewise_of_ascii fun _ => ascii_quoted) (by decide),
        ← startsQuoted_eq]
      by_cases hurl : (word = "url" && !startsQuoted rest) = true
      · have hne : c ≠ '\\' := by
          rintro rfl
          exact absurd hparen (by decide)
        rw [if_pos hurl, if_pos hurl, findUnescaped_behind hc hne (by decide)]
        exact congrArg some (stopAt_some hone _)
      · have hlength : (utf8 (done ++ c :: rest)).length = byteSize done + 1 + byteSize rest := by
          rw [length_utf8, byteSize_append, byteSize_cons, hone, Nat.add_assoc]
        rw [if_neg hurl, if_neg hurl, hsplit, hlength]
        exact brackets_stop hone
    rw [if_neg hparen, if_neg hparen]
    by_cases hquote : (c = '\'' || c = '"') = true
    · have hne : c ≠ '\\' := by
        rintro rfl
        exact absurd hquote (by decide)
      rw [if_pos hquote, if_pos hquote, findUnescaped_behind hc hne hc]
      exact congrArg some (stopAt_some hone _)
    rw [if_neg hquote, if_neg hquote]
    by_cases hat : c = '@'
    · rw [if_pos hat, if_pos hat, span_utf8 (bytewise_of_ascii fun _ => ascii_endsAtWord)]
      simp [stopOf, Except.map, Cut.ofPair, hone, Nat.add_assoc]
    rw [if_neg hat, if_neg hat]
    by_cases hescape : c = '\\'
    · subst hescape
      rw [if_pos rfl, if_pos rfl, escapeLast_utf8]
      have hend := charEnd?_dropLast (a := done) (List.cons_ne_nil '\\' (cutEscape rest).1)
        (cutEscape rest).2
      rw [List.cons_append, cutEscape_append] at hend
      rw [hend]
      rfl
    rw [if_neg hescape, if_neg hescape, hbyte (bytewise_eq (by decide)) (by decide), head?_any_eq]
    by_cases hcomment : (c = '/' && rest.head? = some '*') = true
    · rw [if_pos hcomment, if_pos hcomment]
      simp only [Bool.and_eq_true, decide_eq_true_eq] at hcomment
      obtain ⟨inner, rfl⟩ := List.head?_eq_some_iff.1 hcomment.2
      exact comment_stop hone
    · rw [if_neg hcomment, if_neg hcomment]
      exact word_stop

end Stop

end Scanner

/-- The reader of bytes that stands where a lexer stands. -/
def Lexer.scanner (css : List Char) (l : Lexer) : Scanner := ⟨css, l.offset, l.words, l.returned⟩

/-- What the first byte of a character says of it. -/
theorem Scanner.stop?_eq {done rest : List Char} {c : Char} {words : List String} (word : String)
    {b : UInt8} (hb : b ∈ String.utf8EncodeChar c) :
    stop? ⟨done ++ c :: rest, byteSize done, words, []⟩ word (Char.ofUInt8 b) =
      some (stopOf (byteSize done) (cut word c rest)) := by
  by_cases hc : c.toNat < 128
  · obtain ⟨b', henc, hchar⟩ := utf8EncodeChar_ascii hc
    rw [henc, List.mem_singleton] at hb
    rw [hb, hchar]
    exact stop?_ascii word hc
  · have hwide := Nat.le_of_not_lt hc
    exact stop?_wide word hwide (utf8EncodeChar_wide hwide hb)

/-- **No cut fails.** Where a character starts, the bytes are read as the characters are. -/
theorem Lexer.Stands.scan {css done : List Char} {l : Lexer} (h : Stands css done l) :
    (l.scanner css).next? = some (l.next.1, l.next.2.scanner css) := by
  obtain ⟨rest, offset, words, returned⟩ := l
  obtain ⟨rfl, rfl⟩ := h
  dsimp only [Lexer.scanner]
  unfold Scanner.next? Lexer.next
  cases returned with
  | cons t ts => rfl
  | nil =>
    cases rest with
    | nil =>
      have hnone : (utf8 (done ++ []))[byteSize done]? = none := by simp
      dsimp only
      rw [hnone]
    | cons c rest =>
      obtain ⟨b, bs, henc⟩ := utf8EncodeChar_eq_cons c
      have hb : b ∈ String.utf8EncodeChar c := by simp [henc]
      have hget : (utf8 (done ++ c :: rest))[byteSize done]? = some b := by
        rw [utf8_append, List.getElem?_append_right (by simp), length_utf8, Nat.sub_self, utf8_cons,
          henc]
        rfl
      have hparen : usedWords (Char.ofUInt8 b) words = usedWords c words := by
        simp only [usedWords, ofUInt8_eq_iff (show '('.toNat < 128 by decide) hb]
      dsimp only
      rw [hget]
      dsimp only
      rw [Scanner.stop?_eq _ hb, hparen, Option.bind_eq_bind, Option.bind_some]
      cases hcut : cut (words.head?.getD "") c rest with
      | error what => rfl
      | ok r =>
        obtain ⟨happend, hne⟩ := cut_append hcut
        have hback : Char.ofUInt8 b ≠ '\\' ↔ r.chars.head? ≠ some '\\' := by
          rw [head?_of_cut hcut, Ne, Ne, ofUInt8_eq_iff (by decide) hb, Option.some.injEq]
        rw [← happend]
        simp only [Scanner.stopOf, Except.map, Option.bind_eq_bind, Option.bind_some,
          slice?_byteSize, lastCharStart?_byteSize hne, hback]
        rfl

namespace Scanner

end Scanner

end Stylesheet
