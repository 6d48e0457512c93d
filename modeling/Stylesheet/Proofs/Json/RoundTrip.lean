import Stylesheet.Json.Reader
import Stylesheet.Json.Writer

/-!
# JSON read back

`Json.parseChars?_compress`: a document that is written is read back as it was, if its numbers are
integers of 64 bits and every part of it has a value (`Json.Exact`). A decimal is written by the
double nearest to it and is not covered.

What stands behind a document does not matter to it, as long as it does not go on with a number
(`Parted`). So the three readers are taken together by induction over the document, each with any
text behind what it reads.
-/

set_option autoImplicit false

namespace Stylesheet.Json

/-! ## Strings -/

namespace Reader

theorem hex4?_control {n : Nat} (h : n < 0x20) :
    hex4? '0' '0' (Writer.hexDigit (n / 16)) (Writer.hexDigit (n % 16)) = some n :=
  (by decide : ∀ n < 0x20,
    hex4? '0' '0' (Writer.hexDigit (n / 16)) (Writer.hexDigit (n % 16)) = some n) n h

theorem units_short {c d : Char} (hc : c ≠ 'u') (hd : shortEscape? c = some d) (rest : List Char) :
    units ('\\' :: c :: rest) = (units rest).map fun p => (.inl d :: p.1, p.2) := by
  rw [units.eq_4 _ _ (fun _ _ _ _ _ h => absurd h hc), hd]
  cases units rest <;> rfl

theorem units_control {n : Nat} (h : n < 0x20) (rest : List Char) :
    units ('\\' :: 'u' :: '0' :: '0' :: Writer.hexDigit (n / 16) :: Writer.hexDigit (n % 16) ::
      rest) =
      (units rest).map fun p => (.inr n :: p.1, p.2) := by
  rw [units, hex4?_control h]
  cases units rest <;> rfl

theorem units_plain {c : Char} (hquote : c ≠ '"') (hslash : c ≠ '\\') (hc : ¬c.toNat < 0x20)
    (rest : List Char) :
    units (c :: rest) = (units rest).map fun p => (.inl c :: p.1, p.2) := by
  rw [units.eq_5 _ _ (fun h => hquote h) (fun _ _ _ _ _ h => absurd h hslash)
    (fun _ _ h => absurd h hslash), if_neg (by simp [hslash, hc])]
  cases units rest <;> rfl

/-- A character is read as one unit, and the unit as the character. -/
theorem units_escape (c : Char) : ∃ u,
    (∀ rest, units (Writer.escape c ++ rest) = (units rest).map fun p => (u :: p.1, p.2)) ∧
      ∀ us, joinUnits (u :: us) = (joinUnits us).map (c :: ·) := by
  unfold Writer.escape
  split
  · next h => exact ⟨.inl c, units_short (by decide) (by rw [h]; rfl), fun _ => rfl⟩
  split
  · next h => exact ⟨.inl c, units_short (by decide) (by rw [h]; rfl), fun _ => rfl⟩
  split
  · next h => exact ⟨.inl c, units_short (by decide) (by rw [h]; rfl), fun _ => rfl⟩
  split
  · next h => exact ⟨.inl c, units_short (by decide) (by rw [h]; rfl), fun _ => rfl⟩
  split
  · next h => exact ⟨.inl c, units_short (by decide) (by rw [h]; rfl), fun _ => rfl⟩
  split
  · next h => exact ⟨.inl c, units_short (by decide) (by rw [h]; rfl), fun _ => rfl⟩
  split
  · next h => exact ⟨.inl c, units_short (by decide) (by rw [h]; rfl), fun _ => rfl⟩
  split
  · next hquote hslash _ _ _ _ _ h =>
    have hhigh : isHigh c.toNat = false := by
      simp only [isHigh, Bool.and_eq_false_iff, decide_eq_false_iff_not]
      omega
    have hlow : isLow c.toNat = false := by
      simp only [isLow, Bool.and_eq_false_iff, decide_eq_false_iff_not]
      omega
    refine ⟨.inr c.toNat, units_control h, fun us => ?_⟩
    rw [joinUnits.eq_def]
    simp only [hhigh, hlow, Bool.false_eq_true, if_false, Char.ofNat_toNat]
  · next hquote hslash _ _ _ _ _ h =>
    exact ⟨.inl c, units_plain hquote hslash h, fun _ => rfl⟩

theorem units_escapes (cs rest : List Char) :
    ∃ us, units (cs.flatMap Writer.escape ++ '"' :: rest) = some (us, rest) ∧
      joinUnits us = some cs := by
  induction cs with
  | nil => exact ⟨[], by rw [List.flatMap_nil, List.nil_append, units], rfl⟩
  | cons c cs ih =>
    obtain ⟨us, hunits, hjoin⟩ := ih
    obtain ⟨u, hread, hu⟩ := units_escape c
    refine ⟨u :: us, ?_, by rw [hu, hjoin]; rfl⟩
    rw [List.flatMap_cons, List.append_assoc, hread, hunits]
    rfl

/-- **A string is read back.** -/
theorem string?_quote (s : String) (rest : List Char) :
    ∃ cs, (Writer.quote s).toList = '"' :: cs ∧ string? (cs ++ rest) = some (some s, rest) := by
  refine ⟨s.toList.flatMap Writer.escape ++ ['"'], by rw [Writer.quote]; simp, ?_⟩
  obtain ⟨us, hunits, hjoin⟩ := units_escapes s.toList rest
  rw [string?, List.append_assoc, List.singleton_append, hunits]
  simp [hjoin]

/-! ## Numbers -/

/-- What follows a document that is part of another: a separator, or nothing. -/
def Parted (rest : List Char) : Prop := ∀ c ∈ rest.head?, c = ',' ∨ c = ']' ∨ c = '\x7d'

theorem Parted.not_digit {rest : List Char} (h : Parted rest) :
    ∀ c ∈ rest.head?, c.isDigit = false := by
  intro c hc
  rcases h c hc with rfl | rfl | rfl <;> decide

theorem toDigits_ne_nil (n : Nat) : Nat.toDigits 10 n ≠ [] := Nat.toDigits_ne_nil

/-- A number but zero does not start with a zero. -/
theorem head?_toDigits {n : Nat} (h : 0 < n) : (Nat.toDigits 10 n).head? ≠ some '0' := by
  induction n using Nat.strongRecOn with
  | _ n ih =>
    by_cases hn : n < 10
    · rw [Nat.toDigits_of_lt_base hn]
      exact (by decide : ∀ n < 10, 0 < n → [n.digitChar].head? ≠ some '0') n hn h
    · have hlead := ih (n / 10) (by omega) (by omega)
      obtain ⟨c, cs, hcs⟩ := List.exists_cons_of_ne_nil (toDigits_ne_nil (n / 10))
      rw [Nat.toDigits_of_base_le (by decide) (by omega), hcs]
      rwa [hcs] at hlead

theorem digits_toDigits (n : Nat) {rest : List Char} (h : Parted rest) :
    digits (Nat.toDigits 10 n ++ rest) = (Nat.toDigits 10 n, rest) := by
  have hall : ∀ c ∈ Nat.toDigits 10 n, c.isDigit = true :=
    fun c hc => Nat.isDigit_of_mem_toDigits (by decide) (by decide) hc
  have hstop := h.not_digit
  rw [digits, List.takeWhile_append_of_pos hall, List.dropWhile_append_of_pos hall]
  cases rest with
  | nil => simp
  | cons c rest => simp [hstop c rfl]

theorem whole?_toDigits (n : Nat) {rest : List Char} (h : Parted rest) :
    whole? (Nat.toDigits 10 n ++ rest) = some (Nat.toDigits 10 n, rest) := by
  have hne := toDigits_ne_nil n
  have hzero : ∀ c cs, Nat.toDigits 10 n ≠ '0' :: c :: cs := by
    intro c cs heq
    by_cases hn : n = 0
    · subst hn
      cases heq
    · exact head?_toDigits (Nat.pos_of_ne_zero hn) (heq ▸ rfl)
  rw [whole?, digits_toDigits n h]
  generalize Nat.toDigits 10 n = ds at *
  split
  · next heq => exact absurd (congrArg Prod.fst heq) (by simpa using hne)
  · next heq => exact absurd (congrArg Prod.fst heq) (hzero _ _)
  · rfl

theorem fraction?_parted {rest : List Char} (h : Parted rest) :
    fraction? rest = some ([], rest) := by
  cases rest with
  | nil => rfl
  | cons c rest => rcases h c rfl with rfl | rfl | rfl <;> rfl

theorem exponent?_parted {rest : List Char} (h : Parted rest) :
    exponent? rest = some (none, rest) := by
  cases rest with
  | nil => rfl
  | cons c rest => rcases h c rfl with rfl | rfl | rfl <;> rfl

theorem natOf_toDigits (n : Nat) : natOf (Nat.toDigits 10 n) = n := by
  have hstep : (fun n (c : Char) => n * 10 + (c.toNat - '0'.toNat)) =
      fun n (c : Char) => 10 * n + (c.toNat - '0'.toNat) := by
    funext n c
    rw [Nat.mul_comm]
  rw [natOf, hstep, ← Nat.ofDigitChars_eq_foldl, Nat.ofDigitChars_ten_toDigits]

theorem toList_repr (n : Nat) : n.repr.toList = Nat.toDigits 10 n := by
  rw [Nat.repr_eq_ofList_toDigits, String.toList_ofList]

/-- The digits of a number may have a sign before them. -/
theorem number?_toDigits (n : Nat) {rest : List Char} (h : Parted rest) :
    number? (Nat.toDigits 10 n ++ rest) =
        some (numberValue false (Nat.toDigits 10 n) [] none, rest) ∧
      number? ('-' :: (Nat.toDigits 10 n ++ rest)) =
        some (numberValue true (Nat.toDigits 10 n) [] none, rest) := by
  have hplain : ∀ tail, Nat.toDigits 10 n ++ rest ≠ '-' :: tail := by
    intro tail heq
    obtain ⟨c, cs, hcs⟩ := List.exists_cons_of_ne_nil (toDigits_ne_nil n)
    have hc : c.isDigit = true :=
      Nat.isDigit_of_mem_toDigits (b := 10) (n := n) (by decide) (by decide) (hcs ▸ .head _)
    rw [hcs, List.cons_append] at heq
    rw [(List.cons.inj heq).1] at hc
    cases hc
  constructor
  · unfold number?
    split
    next negative cs heq =>
    split at heq
    · next h' => exact absurd h' (hplain _)
    · cases heq
      rw [whole?_toDigits n h]
      simp [fraction?_parted h, exponent?_parted h]
  · rw [number?, whole?_toDigits n h]
    simp [fraction?_parted h, exponent?_parted h]

/-- **An integer of 64 bits is read back.** -/
theorem number?_toString {i : Int} (hlow : -((UInt64.size / 2 : Nat) : Int) ≤ i)
    (hhigh : i < (UInt64.size : Nat)) {rest : List Char} (h : Parted rest) :
    number? ((toString i).toList ++ rest) = some (.int i, rest) := by
  cases i with
  | ofNat n =>
    have hsize : n < UInt64.size := Int.ofNat_lt.1 hhigh
    rw [show toString (Int.ofNat n) = n.repr from rfl, toList_repr, (number?_toDigits n h).1,
      numberValue, natOf_toDigits]
    simp [hsize]
  | negSucc n =>
    have hsize : n + 1 ≤ UInt64.size / 2 := by omega
    rw [show toString (Int.negSucc n) = "-" ++ (n + 1).repr from rfl, String.toList_append,
      toList_repr, show "-".toList = ['-'] from rfl, List.cons_append, List.nil_append,
      List.cons_append, (number?_toDigits _ h).2, numberValue, natOf_toDigits]
    simp only [List.isEmpty_nil, Option.isNone_none, Bool.and_self, Bool.not_true, Bool.and_false,
      Bool.false_and, Bool.false_eq_true, if_false]
    rw [if_pos (by simp [hsize]), Int.negSucc_eq]
    rfl

end Reader

/-! ## Documents -/

mutual

/-- Whether a document has a value in every part and no number but integers of 64 bits. -/
def isExact : Json → Bool
  | int i => -((UInt64.size / 2 : Nat) : Int) ≤ i && i < (UInt64.size : Nat)
  | decimal _ => false
  | arr items => isExactItems items
  | obj members => isExactMembers members
  | valueless => false
  | _ => true

/-- Whether every item is exact. -/
def isExactItems : List Json → Bool
  | [] => true
  | j :: rest => isExact j && isExactItems rest

/-- Whether every member is exact. -/
def isExactMembers : List (String × Json) → Bool
  | [] => true
  | (_, j) :: rest => isExact j && isExactMembers rest

end

namespace Reader

/-- The start of a document: no blank, and no bracket that would close a list. -/
def Opens (cs : List Char) : Prop := ∃ c rest, cs = c :: rest ∧ isBlank c = false ∧ c ≠ ']'

theorem Opens.skip {cs : List Char} (h : Opens cs) : skip cs = cs := by
  obtain ⟨c, rest, rfl, hc, -⟩ := h
  rw [Reader.skip, List.dropWhile_cons, hc]
  rfl

theorem Opens.append {cs : List Char} (h : Opens cs) (rest : List Char) : Opens (cs ++ rest) := by
  obtain ⟨c, more, rfl, hc⟩ := h
  exact ⟨c, more ++ rest, rfl, hc⟩

/-- A number starts with a digit or its sign. -/
theorem head_toString (i : Int) : ∃ c rest, (toString i).toList = c :: rest ∧
    (c = '-' ∨ c.isDigit = true) := by
  cases i with
  | ofNat n =>
    obtain ⟨c, cs, hcs⟩ := List.exists_cons_of_ne_nil (toDigits_ne_nil n)
    exact ⟨c, cs, by rw [← hcs]; exact toList_repr n, .inr
      (Nat.isDigit_of_mem_toDigits (b := 10) (n := n) (by decide) (by decide) (hcs ▸ .head _))⟩
  | negSucc n => exact ⟨'-', (n + 1).repr.toList, by
      rw [show toString (Int.negSucc n) = "-" ++ (n + 1).repr from rfl, String.toList_append]
      rfl, .inl rfl⟩

theorem number_ne {c d : Char} (h : c = '-' ∨ c.isDigit = true)
    (hd : ¬(d = '-' ∨ d.isDigit = true)) : c ≠ d := by
  rintro rfl
  exact hd h

theorem opens_number {c : Char} {rest : List Char} (h : c = '-' ∨ c.isDigit = true) :
    Opens (c :: rest) := by
  refine ⟨c, rest, rfl, ?_, number_ne h (by decide)⟩
  rw [isBlank, decide_eq_false (number_ne h (by decide)), decide_eq_false (number_ne h (by decide)),
    decide_eq_false (number_ne h (by decide)), decide_eq_false (number_ne h (by decide))]
  rfl

theorem opens_value (j : Json) (h : j.isExact = true) : Opens (Writer.value j).toList := by
  cases j with
  | null => exact ⟨'n', "ull".toList, rfl, rfl, by decide⟩
  | bool b => cases b with
    | true => exact ⟨'t', "rue".toList, rfl, rfl, by decide⟩
    | false => exact ⟨'f', "alse".toList, rfl, rfl, by decide⟩
  | int i =>
    obtain ⟨c, rest, heq, hc⟩ := head_toString i
    rw [Writer.value, heq]
    exact opens_number hc
  | decimal d => cases h
  | str s =>
    obtain ⟨cs, hcs, -⟩ := string?_quote s []
    exact ⟨'"', cs, hcs, rfl, by decide⟩
  | arr items =>
    refine ⟨'[', (Writer.itemTexts items ++ "]").toList, ?_, rfl, by decide⟩
    rw [Writer.value]
    simp
  | obj members =>
    refine ⟨'\x7b', (Writer.memberTexts members ++ "\x7d").toList, ?_, rfl, by decide⟩
    rw [Writer.value]
    simp
  | valueless => cases h

variable {fuel : Nat} {rest : List Char}

theorem value_str (s : String) :
    value (fuel + 1) ((Writer.quote s).toList ++ rest) = some (.str s, rest) := by
  obtain ⟨cs, hcs, hread⟩ := string?_quote s rest
  have hstep : value (fuel + 1) ('"' :: (cs ++ rest)) =
      (string? (cs ++ rest)).map fun p => ((p.1.map Json.str).getD .valueless, p.2) := rfl
  rw [hcs, List.cons_append, hstep, hread]
  rfl

theorem value_number {c : Char} (h : c = '-' ∨ c.isDigit = true) :
    value (fuel + 1) (c :: rest) = number? (c :: rest) := by
  rw [value, (opens_number h).skip]
  split
  all_goals first
    | rfl
    | next heq => exact absurd (List.cons.inj heq).1 (number_ne h (by decide))

theorem value_arr {cs : List Char} (h : Opens cs) :
    value (fuel + 1) ('[' :: cs) = (items fuel cs).map fun p => (.arr p.1, p.2) := by
  obtain ⟨c, rest, rfl, hblank, hc⟩ := h
  have hskip : skip (c :: rest) = c :: rest := by
    rw [skip, List.dropWhile_cons, hblank]
    rfl
  rw [value, show skip ('[' :: c :: rest) = '[' :: c :: rest from rfl]
  simp only [hskip]
  split
  · next heq => exact absurd (List.cons.inj heq).1 hc
  · rfl

theorem value_obj {cs : List Char} :
    value (fuel + 1) ('\x7b' :: '"' :: cs) =
      (members fuel ('"' :: cs)).map fun p => (object p.1, p.2) := rfl

variable {cs more : List Char} {j : Json} {n : String}

theorem items_last (h : value fuel cs = some (j, ']' :: rest)) :
    items (fuel + 1) cs = some ([j], rest) := by
  rw [items, h]
  rfl

theorem items_more (h : value fuel cs = some (j, ',' :: more)) :
    items (fuel + 1) cs = (items fuel more).map fun p => (j :: p.1, p.2) := by
  rw [items, h]
  show (items fuel more).bind _ = _
  cases items fuel more <;> rfl

theorem members_last (h : value fuel cs = some (j, '\x7d' :: rest)) :
    members (fuel + 1) ((Writer.quote n).toList ++ ':' :: cs) = some ([(some n, j)], rest) := by
  obtain ⟨text, htext, hread⟩ := string?_quote n (':' :: cs)
  rw [members, htext, List.cons_append,
    show skip ('"' :: (text ++ ':' :: cs)) = '"' :: (text ++ ':' :: cs) from rfl]
  simp only [hread, Option.bind_eq_bind, Option.bind_some,
    show skip (':' :: cs) = ':' :: cs from rfl, h]
  rfl

theorem members_more (h : value fuel cs = some (j, ',' :: more)) :
    members (fuel + 1) ((Writer.quote n).toList ++ ':' :: cs) =
      (members fuel more).map fun p => ((some n, j) :: p.1, p.2) := by
  obtain ⟨text, htext, hread⟩ := string?_quote n (':' :: cs)
  rw [members, htext, List.cons_append,
    show skip ('"' :: (text ++ ':' :: cs)) = '"' :: (text ++ ':' :: cs) from rfl]
  simp only [hread, Option.bind_eq_bind, Option.bind_some,
    show skip (':' :: cs) = ':' :: cs from rfl, h]
  show (members fuel more).bind _ = _
  cases members fuel more <;> rfl

theorem object_some (ms : List (String × Json)) :
    object (ms.map fun m => (some m.1, m.2)) = .obj ms := by
  have hall (f : Option String × Json → Option (String × Json))
      (hf : ∀ n j, f (some n, j) = some (n, j)) :
      (ms.map fun m => (some m.1, m.2)).mapM f = some ms := by
    induction ms with
    | nil => rfl
    | cons m ms ih => simp [hf, ih]
  rw [object, hall _ fun _ _ => rfl]

theorem parted_cons {c : Char} (h : c = ',' ∨ c = ']' ∨ c = '\x7d') : Parted (c :: rest) := by
  rintro d ⟨⟩
  exact h

/-- What is read with so much fuel: every document, list of items and list of members whose text is
at most half as long. -/
structure ReadsBack (fuel : Nat) : Prop where
  value : ∀ j rest, isExact j = true → 2 * (Writer.value j).toList.length ≤ fuel → Parted rest →
    Reader.value fuel ((Writer.value j).toList ++ rest) = some (j, rest)
  items : ∀ j js rest, isExactItems (j :: js) = true →
    2 * (Writer.itemTexts (j :: js)).toList.length + 1 ≤ fuel →
    Reader.items fuel ((Writer.itemTexts (j :: js)).toList ++ ']' :: rest) = some (j :: js, rest)
  members : ∀ m ms rest, isExactMembers (m :: ms) = true →
    2 * (Writer.memberTexts (m :: ms)).toList.length + 1 ≤ fuel →
    Reader.members fuel ((Writer.memberTexts (m :: ms)).toList ++ '\x7d' :: rest) =
      some ((m :: ms).map fun m => (some m.1, m.2), rest)

theorem ReadsBack.value_succ (h : ReadsBack fuel) {j : Json} (hj : isExact j = true)
    (hfuel : 2 * (Writer.value j).toList.length ≤ fuel + 1) (hrest : Parted rest) :
    Reader.value (fuel + 1) ((Writer.value j).toList ++ rest) = some (j, rest) := by
  cases j with
  | null => rfl
  | bool b => cases b <;> rfl
  | int i =>
    obtain ⟨c, cs, htext, hc⟩ := head_toString i
    rw [isExact, Bool.and_eq_true, decide_eq_true_eq, decide_eq_true_eq] at hj
    rw [Writer.value, htext, List.cons_append, value_number hc, ← List.cons_append, ← htext,
      number?_toString hj.1 hj.2 hrest]
  | decimal d => cases hj
  | str s => exact value_str s
  | arr items =>
    have htext : (Writer.value (.arr items)).toList ++ rest =
        '[' :: ((Writer.itemTexts items).toList ++ ']' :: rest) := by
      simp [Writer.value]
    rw [htext]
    cases items with
    | nil => rfl
    | cons j js =>
      have hopen : Opens (Writer.itemTexts (j :: js)).toList := by
        rw [isExact, isExactItems, Bool.and_eq_true] at hj
        cases js with
        | nil => exact opens_value j hj.1
        | cons j' js =>
          rw [Writer.itemTexts, String.toList_append, String.toList_append, List.append_assoc]
          · exact (opens_value j hj.1).append _
          · simp
      rw [value_arr (hopen.append _), h.items j js rest hj (by simp [Writer.value] at hfuel; omega)]
      rfl
  | obj members =>
    have htext : (Writer.value (.obj members)).toList ++ rest =
        '\x7b' :: ((Writer.memberTexts members).toList ++ '\x7d' :: rest) := by
      simp [Writer.value]
    rw [htext]
    cases members with
    | nil => rfl
    | cons m ms =>
      obtain ⟨cs, hcs⟩ : ∃ cs, (Writer.memberTexts (m :: ms)).toList = '"' :: cs := by
        obtain ⟨cs, hcs, -⟩ := string?_quote m.1 []
        cases ms <;> simp [Writer.memberTexts, hcs]
      have hread := h.members m ms rest hj (by simp [Writer.value] at hfuel; omega)
      rw [hcs, List.cons_append] at hread ⊢
      rw [value_obj, hread]
      exact congrArg (fun j => some (j, rest)) (object_some (m :: ms))
  | valueless => cases hj

theorem ReadsBack.items_succ (h : ReadsBack fuel) {j : Json} {js : List Json}
    (hj : isExactItems (j :: js) = true)
    (hfuel : 2 * (Writer.itemTexts (j :: js)).toList.length ≤ fuel) :
    Reader.items (fuel + 1) ((Writer.itemTexts (j :: js)).toList ++ ']' :: rest) =
      some (j :: js, rest) := by
  rw [isExactItems, Bool.and_eq_true] at hj
  cases js with
  | nil => exact items_last (h.value j _ hj.1 hfuel (parted_cons (by simp)))
  | cons j' js =>
    have htext : (Writer.itemTexts (j :: j' :: js)).toList = (Writer.value j).toList ++
        ',' :: (Writer.itemTexts (j' :: js)).toList := by
      simp [Writer.itemTexts]
    rw [htext, List.length_append, List.length_cons] at hfuel
    rw [htext, List.append_assoc, List.cons_append,
      items_more (h.value j _ hj.1 (by omega) (parted_cons (by simp))),
      h.items j' js rest hj.2 (by omega)]
    rfl

theorem ReadsBack.members_succ (h : ReadsBack fuel) {m : String × Json}
    {ms : List (String × Json)} (hm : isExactMembers (m :: ms) = true)
    (hfuel : 2 * (Writer.memberTexts (m :: ms)).toList.length ≤ fuel) :
    Reader.members (fuel + 1) ((Writer.memberTexts (m :: ms)).toList ++ '\x7d' :: rest) =
      some ((m :: ms).map fun m => (some m.1, m.2), rest) := by
  obtain ⟨n, j⟩ := m
  rw [isExactMembers, Bool.and_eq_true] at hm
  cases ms with
  | nil =>
    have htext : (Writer.memberTexts [(n, j)]).toList =
        (Writer.quote n).toList ++ ':' :: (Writer.value j).toList := by
      simp [Writer.memberTexts]
    rw [htext, List.length_append, List.length_cons] at hfuel
    rw [htext, List.append_assoc, List.cons_append]
    exact members_last (h.value j _ hm.1 (by omega) (parted_cons (by simp)))
  | cons m' ms =>
    have htext : (Writer.memberTexts ((n, j) :: m' :: ms)).toList = (Writer.quote n).toList ++
        ':' :: ((Writer.value j).toList ++ ',' :: (Writer.memberTexts (m' :: ms)).toList) := by
      simp [Writer.memberTexts]
    rw [htext, List.length_append, List.length_cons, List.length_append, List.length_cons] at hfuel
    rw [htext, List.append_assoc, List.cons_append, List.append_assoc, List.cons_append,
      members_more (h.value j _ hm.1 (by omega) (parted_cons (by simp))),
      h.members m' ms rest hm.2 (by omega)]
    rfl

theorem readsBack (fuel : Nat) : ReadsBack fuel := by
  induction fuel with
  | zero =>
    refine ⟨fun j rest hj hfuel => ?_, fun j js rest hj hfuel => ?_, fun m ms rest hm hfuel => ?_⟩
    · obtain ⟨c, cs, hcs, -⟩ := opens_value j hj
      rw [hcs, List.length_cons] at hfuel
      omega
    · omega
    · omega
  | succ fuel ih =>
    exact ⟨fun j rest => ih.value_succ, fun j js rest hj hfuel => ih.items_succ hj (by omega),
      fun m ms rest hm hfuel => ih.members_succ hm (by omega)⟩

end Reader

/-- **A document is read back as it was written.** -/
theorem parseChars?_compress {j : Json} (h : j.isExact = true) :
    parseChars? j.compress.toList = some j := by
  have hread :
      Reader.value (2 * j.compress.toList.length + 2) j.compress.toList = some (j, []) := by
    have := (Reader.readsBack (2 * j.compress.toList.length + 2)).value j [] h
      (Nat.le_add_right _ 2) (by rintro c ⟨⟩)
    rwa [List.append_nil] at this
  rw [parseChars?, hread]
  rfl

end Stylesheet.Json
