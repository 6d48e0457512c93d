import Stylesheet.Text.Base64
import Stylesheet.Text.Blank
import Stylesheet.Text.Bytes

/-!
# Base64 read back

`Base64.decode?_encode`: decoding gives back the bytes that were encoded. What is encoded is made of
digits and of the padding (`Base64.mem_encode`), none of which is a blank or a star.
-/

set_option autoImplicit false

namespace Stylesheet.Text

theorem toList_loop (bs : ByteArray) (i : Nat) (done : List UInt8) :
    ByteArray.toList.loop bs i done = done.reverse ++ bs.data.toList.drop i := by
  generalize hk : bs.size - i = k
  induction k generalizing i done with
  | zero =>
    rw [ByteArray.toList.loop, if_neg (by omega), List.drop_eq_nil_of_le, List.append_nil]
    rw [Array.length_toList]
    exact Nat.le_of_sub_eq_zero hk
  | succ k ih =>
    have hi : i < bs.data.toList.length := by
      rw [Array.length_toList]
      exact (show i < bs.size by omega)
    rw [ByteArray.toList.loop, if_pos (by omega), ih _ _ (by omega), List.reverse_cons,
      List.append_assoc, List.singleton_append, List.drop_eq_getElem_cons hi]
    have hget : bs.get! i = bs.data.toList[i] := by
      rw [ByteArray.get!, getElem!_pos bs.data i (by omega), Array.getElem_toList]
    rw [hget]

theorem toList_toByteArray (bs : ByteArray) : (⟨bs.toList.toArray⟩ : ByteArray) = bs := by
  apply ByteArray.ext
  rw [ByteArray.toList, toList_loop]
  rfl

/-- The bytes of a text are well formed, and stand for the text. -/
theorem ofBytes?_toBytes (s : String) : ofBytes? (toBytes s) = some s := by
  rw [ofBytes?, toBytes, toList_toByteArray, String.fromUTF8?]
  exact dif_pos s.isValidUTF8

theorem ofNat_eq_of_mod {k : Nat} {a : UInt8} (h : k % 256 = a.toNat) : UInt8.ofNat k = a :=
  UInt8.toNat_inj.1 (by rw [UInt8.toNat_ofNat', ← h])

namespace Base64

/-- A digit gives back its value. -/
theorem value?_digit {n : Nat} (h : n < 64) : value? (digit n) = some n :=
  (by decide : ∀ n < 64, value? (digit n) = some n) n h

theorem digit_ne_pad {n : Nat} (h : n < 64) : digit n ≠ '=' :=
  (by decide : ∀ n < 64, digit n ≠ '=') n h

/-- **Decoding undoes encoding.** -/
theorem decode?_encode (bs : List UInt8) : decode? (encode bs) = some bs := by
  induction bs using encode.induct with
  | case1 => rfl
  | case2 a =>
    have ha := a.toNat_lt
    have hn : a.toNat * 16 / 64 * 64 + a.toNat * 16 % 64 = a.toNat * 16 := by omega
    rw [encode, decode?, value?_digit (by omega), value?_digit (by omega)]
    simp only [Option.bind_eq_bind, Option.bind_some, hn]
    rw [if_pos (by omega), ofNat_eq_of_mod (a := a) (by omega)]
    rfl
  | case3 a b =>
    have ha := a.toNat_lt
    have hb := b.toNat_lt
    have hn : ∀ n, (n / 4096 * 64 + n / 64 % 64) * 64 + n % 64 = n := by omega
    rw [encode, decode?.eq_3 _ _ _ (digit_ne_pad (by omega)), value?_digit (by omega),
      value?_digit (by omega), value?_digit (by omega)]
    simp only [Option.bind_eq_bind, Option.bind_some, hn]
    rw [if_pos (by omega), ofNat_eq_of_mod (a := a) (by omega), ofNat_eq_of_mod (a := b) (by omega)]
    rfl
  | case4 a b c rest ih =>
    have ha := a.toNat_lt
    have hb := b.toNat_lt
    have hc := c.toNat_lt
    have hn : ∀ n, ((n / 262144 * 64 + n / 4096 % 64) * 64 + n / 64 % 64) * 64 + n % 64 = n := by
      omega
    have hpad : ∀ n, digit (n % 64) ≠ '=' := fun n => digit_ne_pad (by omega)
    rw [encode, decode?.eq_4 _ _ _ _ _ (fun h _ _ => hpad _ h) (fun h _ => hpad _ h),
      value?_digit (by omega), value?_digit (by omega), value?_digit (by omega),
      value?_digit (by omega)]
    simp only [Option.bind_eq_bind, Option.bind_some, hn, ih]
    rw [ofNat_eq_of_mod (a := a) (by omega), ofNat_eq_of_mod (a := b) (by omega),
      ofNat_eq_of_mod (a := c) (by omega)]
    rfl

/-- What is encoded is made of digits and of the padding. -/
theorem mem_encode {bs : List UInt8} {c : Char} (h : c ∈ encode bs) :
    c = '=' ∨ ∃ n, c = digit n := by
  induction bs using encode.induct with
  | case1 => cases h
  | case2 a =>
    simp only [encode, List.mem_cons, List.not_mem_nil, or_false] at h
    rcases h with h | h | h | h
    all_goals first
      | exact .inl h
      | exact .inr ⟨_, h⟩
  | case3 a b =>
    simp only [encode, List.mem_cons, List.not_mem_nil, or_false] at h
    rcases h with h | h | h | h
    all_goals first
      | exact .inl h
      | exact .inr ⟨_, h⟩
  | case4 a b c rest ih =>
    simp only [encode, List.mem_cons] at h
    rcases h with h | h | h | h | h
    all_goals first
      | exact .inr ⟨_, h⟩
      | exact ih h

/-- A digit is a property of the 64 digits, shown one by one. -/
theorem of_digit {q : Char → Prop} [DecidablePred q] (hq : ∀ n < 64, q (digit n)) (n : Nat) :
    q (digit n) := by
  by_cases hn : n < 64
  · exact hq n hn
  · have hlast : digit n = digit 63 := by
      rw [digit, if_neg (by omega), if_neg (by omega), if_neg (by omega), if_neg (by omega)]
      rfl
    rw [hlast]
    exact hq 63 (by omega)

theorem isBlank_encode {bs : List UInt8} {c : Char} (h : c ∈ encode bs) : isBlank c = false := by
  rcases mem_encode h with rfl | ⟨n, rfl⟩
  · decide
  · exact @of_digit (fun c => isBlank c = false) _ (by decide) n

theorem star_not_mem_encode (bs : List UInt8) : '*' ∉ encode bs := by
  intro h
  rcases mem_encode h with hpad | ⟨n, hn⟩
  · exact absurd hpad (by decide)
  · exact @of_digit (fun c => '*' ≠ c) _ (by decide) n hn

end Base64

end Stylesheet.Text
