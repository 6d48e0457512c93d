import Stylesheet.Proofs.Token.Reading

/-!
# The bytes of a text

The text is kept in UTF-8. `splitAt?` cuts it at a byte offset and fails outside of it and inside a
character; `slice?`, `charEnd?` and `lastCharStart?` are made of such cuts. A test of single bytes
is `Bytewise` if every byte of a character passes it exactly when the character does: so do all
tests for characters in ASCII (`bytewise_of_ascii`).
-/

set_option autoImplicit false

namespace Stylesheet

namespace Text

/-- The bytes of characters in UTF-8. -/
def utf8 (cs : List Char) : List UInt8 := cs.flatMap String.utf8EncodeChar

/-- Splits a text at a byte offset; `none` outside the text and inside a character. -/
def splitAt? : List Char → Nat → Option (List Char × List Char)
  | cs, 0 => some ([], cs)
  | [], _ + 1 => none
  | c :: cs, n + 1 =>
    if c.utf8Size ≤ n + 1 then (splitAt? cs (n + 1 - c.utf8Size)).map fun (a, b) => (c :: a, b)
    else none

/-- The text between two byte offsets. -/
def slice? (cs : List Char) (start stop : Nat) : Option (List Char) :=
  if start ≤ stop then do
    let (_, behind) ← splitAt? cs start
    let (inner, _) ← splitAt? behind (stop - start)
    some inner
  else none

/-- The offset behind the character that starts at an offset, or the end of the text. -/
def charEnd? (cs : List Char) (start : Nat) : Option Nat :=
  (splitAt? cs start).map fun (_, behind) =>
    match behind with
    | [] => byteSize cs
    | c :: _ => start + c.utf8Size

/-- The offset of the character that ends at an offset. -/
def lastCharStart? (cs : List Char) (stop : Nat) : Option Nat :=
  (splitAt? cs stop).map fun (front, _) => byteSize front.dropLast

@[simp] theorem utf8_nil : utf8 [] = [] := rfl

@[simp] theorem utf8_cons (c : Char) (cs : List Char) :
    utf8 (c :: cs) = String.utf8EncodeChar c ++ utf8 cs := List.flatMap_cons

@[simp] theorem utf8_append (cs ds : List Char) : utf8 (cs ++ ds) = utf8 cs ++ utf8 ds :=
  List.flatMap_append

@[simp] theorem length_utf8 (cs : List Char) : (utf8 cs).length = byteSize cs := by
  induction cs with
  | nil => rfl
  | cons c cs ih => simp [ih]

theorem drop_utf8 (a b : List Char) : (utf8 (a ++ b)).drop (byteSize a) = utf8 b := by
  rw [utf8_append, ← length_utf8, List.drop_left]

theorem take_utf8 (a b : List Char) : (utf8 (a ++ b)).take (byteSize a) = utf8 a := by
  rw [utf8_append, ← length_utf8, List.take_left]

/-- **A text is split exactly where a character starts**, or at its end. -/
theorem splitAt?_eq_some {cs a b : List Char} {n : Nat} :
    splitAt? cs n = some (a, b) ↔ cs = a ++ b ∧ n = byteSize a := by
  induction cs generalizing n a with
  | nil =>
    cases n with
    | zero =>
      simp only [splitAt?, Option.some.injEq, Prod.mk.injEq]
      constructor
      · rintro ⟨rfl, rfl⟩
        exact ⟨rfl, rfl⟩
      · rintro ⟨h, -⟩
        obtain ⟨rfl, rfl⟩ := List.append_eq_nil_iff.1 h.symm
        exact ⟨rfl, rfl⟩
    | succ n =>
      simp only [splitAt?, reduceCtorEq, false_iff, not_and]
      intro h
      rw [(List.append_eq_nil_iff.1 h.symm).1]
      simp
  | cons c cs ih =>
    have hc := c.utf8Size_pos
    cases n with
    | zero =>
      simp only [splitAt?, Option.some.injEq, Prod.mk.injEq]
      constructor
      · rintro ⟨rfl, rfl⟩
        exact ⟨rfl, rfl⟩
      · rintro ⟨h, hn⟩
        cases a with
        | nil => exact ⟨rfl, h⟩
        | cons d a =>
          have := d.utf8Size_pos
          rw [byteSize_cons] at hn
          omega
    | succ n =>
      rw [splitAt?]
      cases a with
      | nil => split <;> simp
      | cons d a =>
        split
        · next hle =>
          simp only [Option.map_eq_some_iff, Prod.exists, Prod.mk.injEq, List.cons.injEq,
            List.cons_append, byteSize_cons]
          constructor
          · rintro ⟨a', b', h, ⟨rfl, rfl⟩, rfl⟩
            obtain ⟨rfl, hn⟩ := ih.1 h
            exact ⟨⟨rfl, rfl⟩, by omega⟩
          · rintro ⟨⟨rfl, rfl⟩, hn⟩
            exact ⟨a, b, ih.2 ⟨rfl, by omega⟩, ⟨rfl, rfl⟩, rfl⟩
        · next hgt =>
          simp only [reduceCtorEq, List.cons_append, List.cons.injEq, byteSize_cons, false_iff]
          rintro ⟨⟨rfl, -⟩, hn⟩
          omega

@[simp] theorem splitAt?_byteSize (a b : List Char) : splitAt? (a ++ b) (byteSize a) = some (a, b) :=
  splitAt?_eq_some.2 ⟨rfl, rfl⟩

theorem slice?_byteSize (a b c : List Char) :
    slice? (a ++ (b ++ c)) (byteSize a) (byteSize a + byteSize b) = some b := by
  simp [slice?]

theorem charEnd?_byteSize (a : List Char) (c : Char) (b : List Char) :
    charEnd? (a ++ c :: b) (byteSize a) = some (byteSize a + c.utf8Size) := by
  simp [charEnd?]

theorem charEnd?_dropLast {a b : List Char} (h : b ≠ []) (c : List Char) :
    charEnd? (a ++ (b ++ c)) (byteSize a + byteSize b.dropLast) =
      some (byteSize a + byteSize b) := by
  obtain ⟨front, d, rfl⟩ : ∃ front d, b = front ++ [d] :=
    ⟨_, _, (List.dropLast_concat_getLast h).symm⟩
  have := charEnd?_byteSize (a ++ front) d c
  simp only [List.append_assoc, byteSize_append] at this
  simpa [Nat.add_assoc] using this

theorem lastCharStart?_byteSize {a b c : List Char} (h : b ≠ []) :
    lastCharStart? (a ++ (b ++ c)) (byteSize a + byteSize b) =
      some (byteSize a + byteSize b.dropLast) := by
  rw [lastCharStart?, ← byteSize_append, ← List.append_assoc, splitAt?_byteSize, ← byteSize_append,
    ← List.dropLast_append_of_ne_nil h]
  rfl

/-! ## Tests of bytes -/

/-- A test finds in every byte of a character what it finds in the character. -/
def Bytewise (q : Char → Bool) : Prop :=
  ∀ c, ∀ b ∈ String.utf8EncodeChar c, q (Char.ofUInt8 b) = q c

theorem utf8Size_ascii {c : Char} (h : c.toNat < 128) : c.utf8Size = 1 :=
  Char.utf8Size_eq_one_iff.2 (Nat.le_of_lt_succ h)

theorem byteSize_ascii {cs : List Char} (h : ∀ c ∈ cs, c.toNat < 128) :
    byteSize cs = cs.length := by
  induction cs with
  | nil => rfl
  | cons c cs ih =>
    rw [byteSize_cons, utf8Size_ascii (h c (by simp)), ih fun d hd => h d (by simp [hd]),
      List.length_cons]
    exact Nat.add_comm _ _

/-- The bytes behind a character in ASCII. -/
theorem drop_utf8_succ (a : List Char) {c : Char} (h : c.toNat < 128) (b : List Char) :
    (utf8 (a ++ c :: b)).drop (byteSize a + 1) = utf8 b := by
  have hsize : byteSize a + 1 = byteSize (a ++ [c]) := by simp [utf8Size_ascii h]
  rw [hsize, ← drop_utf8 (a ++ [c]) b]
  simp

/-- The bytes of a character in ASCII. -/
theorem utf8EncodeChar_ascii {c : Char} (h : c.toNat < 128) :
    ∃ b : UInt8, String.utf8EncodeChar c = [b] ∧ Char.ofUInt8 b = c := by
  have hv : c.val.toNat ≤ 127 := Nat.le_of_lt_succ h
  refine ⟨UInt8.ofNat c.val.toNat, by unfold String.utf8EncodeChar; rw [if_pos hv], ?_⟩
  apply Char.ext
  apply UInt32.toNat_inj.1
  change (UInt8.ofNat c.val.toNat).toUInt32.toNat = c.val.toNat
  simp
  omega

theorem utf8EncodeChar_wide {c : Char} (h : 128 ≤ c.toNat) {b : UInt8}
    (hb : b ∈ String.utf8EncodeChar c) : 128 ≤ (Char.ofUInt8 b).toNat := by
  have hv : ¬c.val.toNat ≤ 127 := Nat.not_le_of_lt h
  have hval : (Char.ofUInt8 b).toNat = b.toNat := UInt8.toNat_toUInt32 b
  rw [hval]
  unfold String.utf8EncodeChar at hb
  simp only [hv, if_false] at hb
  split at hb
  · simp only [List.mem_cons, List.not_mem_nil, or_false] at hb
    rcases hb with rfl | rfl <;> simp <;> omega
  split at hb
  · simp only [List.mem_cons, List.not_mem_nil, or_false] at hb
    rcases hb with rfl | rfl | rfl <;> simp <;> omega
  · simp only [List.mem_cons, List.not_mem_nil, or_false] at hb
    rcases hb with rfl | rfl | rfl | rfl <;> simp <;> omega

theorem bytewise_of_ascii {q : Char → Bool} (h : ∀ c, q c = true → c.toNat < 128) : Bytewise q := by
  intro c b hb
  by_cases hc : c.toNat < 128
  · obtain ⟨b', henc, hchar⟩ := utf8EncodeChar_ascii hc
    rw [henc, List.mem_singleton] at hb
    rw [hb, hchar]
  · have hwide := utf8EncodeChar_wide (Nat.le_of_not_lt hc) hb
    have hnot : ∀ d : Char, 128 ≤ d.toNat → q d = false := by
      intro d hd
      by_contra hq
      have := h d (by simpa using hq)
      omega
    rw [hnot _ hwide, hnot _ (Nat.le_of_not_lt hc)]

theorem Bytewise.not {q : Char → Bool} (h : Bytewise q) : Bytewise fun c => !q c :=
  fun c b hb => congrArg (!·) (h c b hb)

theorem bytewise_eq {d : Char} (h : d.toNat < 128) : Bytewise (decide <| · = d) := by
  refine bytewise_of_ascii fun c hc => ?_
  rwa [of_decide_eq_true hc]

theorem ofUInt8_eq_iff {c d : Char} (hd : d.toNat < 128) {b : UInt8}
    (hb : b ∈ String.utf8EncodeChar c) : Char.ofUInt8 b = d ↔ c = d :=
  decide_eq_decide.1 (bytewise_eq hd c b hb)

theorem utf8EncodeChar_eq_cons (c : Char) :
    ∃ b bs, String.utf8EncodeChar c = b :: bs := by
  cases h : String.utf8EncodeChar c with
  | nil => exact absurd h String.utf8EncodeChar_ne_nil
  | cons b bs => exact ⟨b, bs, rfl⟩

/-- The first byte of a text is tested as the first character. -/
theorem Bytewise.head? {q : Char → Bool} (h : Bytewise q) (cs : List Char) :
    (utf8 cs).head?.any (q <| Char.ofUInt8 ·) = cs.head?.any q := by
  cases cs with
  | nil => rfl
  | cons c cs =>
    obtain ⟨b, bs, henc⟩ := utf8EncodeChar_eq_cons c
    simp [henc, h c b (by simp [henc])]

theorem Bytewise.any {q : Char → Bool} (h : Bytewise q) (cs : List Char) :
    (utf8 cs).any (q <| Char.ofUInt8 ·) = cs.any q := by
  induction cs with
  | nil => rfl
  | cons c cs ih =>
    obtain ⟨b, bs, henc⟩ := utf8EncodeChar_eq_cons c
    have hc : (String.utf8EncodeChar c).any (q <| Char.ofUInt8 ·) = q c := by
      rw [Bool.eq_iff_iff, List.any_eq_true]
      constructor
      · rintro ⟨b, hb, hq⟩
        rwa [← h c b hb]
      · intro hq
        exact ⟨b, by simp [henc], by rw [h c b (by simp [henc]), hq]⟩
    rw [utf8_cons, List.any_append, ih, hc, List.any_cons]

end Text

end Stylesheet
