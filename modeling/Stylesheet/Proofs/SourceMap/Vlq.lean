import Mathlib.Algebra.Group.Nat.Even
import Stylesheet.Proofs.Text.Base64
import Stylesheet.SourceMap.Vlq

/-!
# Numbers of mappings read back

`Vlq.decodeSegment_encode`: a segment that numbers are written to is read as these numbers. A reader
holds a number in a word of 64 bits, whose lowest bit is the sign, so 62 bits are enough room
(`maxNumber`) for the differences of numbers of 32 bits.
-/

set_option autoImplicit false

namespace Stylesheet.Vlq

open Stylesheet.Text

/-- The numbers below this are read back, and those above its negative. -/
def maxNumber : Nat := 2 ^ 62

theorem digitValue_digit {v : Nat} (h : v < 64) :
    digitValue (Base64.digit v) = (v % 32, decide (32 ≤ v)) := by
  rw [digitValue, Base64.value?_digit h]

/-- The digits of a number are added to the bits that were read before. -/
theorem decode_digits (n : Nat) {bits shift : Nat} (hshift : shift < 64)
    (h : bits + n * 2 ^ shift < 2 ^ 64) (rest : List Char) :
    decode bits shift (digits n ++ rest) =
      (decode 0 0 rest).map (ofBits (bits + n * 2 ^ shift) :: ·) := by
  induction n using digits.induct generalizing bits shift with
  | case1 n hn =>
    rw [digits, dif_pos hn, List.cons_append, List.nil_append, decode, if_neg (by omega),
      digitValue_digit (by omega)]
    have hv : n % 32 = n := Nat.mod_eq_of_lt hn
    have hbits : (bits + n * Nat.pow 2 shift) % UInt64.size = bits + n * 2 ^ shift :=
      Nat.mod_eq_of_lt h
    simp only [hv, hbits, decide_eq_false (show ¬32 ≤ n by omega), Bool.false_eq_true, if_false]
  | case2 n hn ih =>
    have hsplit : n % 32 * 2 ^ shift + n / 32 * 2 ^ (shift + 5) = n * 2 ^ shift := by
      rw [Nat.pow_add, Nat.mul_comm (2 ^ shift), ← Nat.mul_assoc, ← Nat.add_mul]
      congr 1
      omega
    have hmore : shift + 5 < 64 := by
      apply Nat.lt_of_not_le
      intro hle
      have hpow : 2 ^ 64 ≤ 2 ^ (shift + 5) := Nat.pow_le_pow_right (by decide) hle
      have hpos : 2 ^ (shift + 5) ≤ n / 32 * 2 ^ (shift + 5) :=
        Nat.le_mul_of_pos_left _ (by omega)
      omega
    rw [digits, dif_neg hn, List.cons_append, decode, if_neg (by omega),
      digitValue_digit (by omega)]
    have hv : (n % 32 + 32) % 32 = n % 32 := by omega
    have hbits : (bits + n % 32 * Nat.pow 2 shift) % UInt64.size = bits + n % 32 * 2 ^ shift :=
      Nat.mod_eq_of_lt (show bits + n % 32 * 2 ^ shift < 2 ^ 64 by omega)
    simp only [hv, hbits, decide_eq_true (show 32 ≤ n % 32 + 32 by omega), if_true]
    rw [ih hmore (by rwa [Nat.add_assoc, hsplit]), Nat.add_assoc, hsplit]

/-- The number that a reader takes the bits for. -/
theorem ofBits_eq {i : Int} (h : i.natAbs < maxNumber) :
    ofBits (if i < 0 then 2 * i.natAbs + 1 else 2 * i.natAbs) = i := by
  have hhalf : ∀ n < 2 ^ 63,
      Int.fdiv (Int.bmod (n : Nat) UInt64.size) 2 = ((n / 2 : Nat) : Int) := by
    intro n hn
    rw [Int.bmod_eq_of_le (by omega) (by simp only [UInt64.size]; omega),
      Int.fdiv_eq_ediv_of_nonneg _ (by decide)]
    rfl
  rw [maxNumber] at h
  split
  · next hneg =>
    rw [ofBits, hhalf _ (by omega), if_pos (by omega)]
    omega
  · next hneg =>
    rw [ofBits, hhalf _ (by omega), if_neg (by omega)]
    omega

/-- **A number is read back.** -/
theorem decode_encode {i : Int} (h : i.natAbs < maxNumber) (rest : List Char) :
    decode 0 0 (encode i ++ rest) = (decode 0 0 rest).map (i :: ·) := by
  have hbits := ofBits_eq h
  rw [encode, decode_digits _ (by decide), Nat.pow_zero, Nat.mul_one, Nat.zero_add, hbits]
  rw [maxNumber] at h
  split <;> omega

theorem mem_digits {n : Nat} {c : Char} (h : c ∈ digits n) : ∃ k, c = Base64.digit k := by
  induction n using digits.induct with
  | case1 n hn =>
    rw [digits, dif_pos hn] at h
    exact ⟨n, List.mem_singleton.1 h⟩
  | case2 n hn ih =>
    rw [digits, dif_neg hn] at h
    rcases List.mem_cons.1 h with h | h
    · exact ⟨_, h⟩
    · exact ih h

theorem digits_ne_nil (n : Nat) : digits n ≠ [] := by
  rw [digits]
  split <;> simp

theorem encode_ne_nil (i : Int) : encode i ≠ [] := digits_ne_nil _

/-- **A segment is read as the numbers that it was written from.** -/
theorem decodeSegment_encode {is : List Int} (h : ∀ i ∈ is, i.natAbs < maxNumber) :
    decodeSegment (is.flatMap encode) = .ok is := by
  have hascii : ∀ cs : List Char, (∀ c ∈ cs, c.utf8Size = 1) →
      (cs.flatMap fun c => List.replicate c.utf8Size c) = cs := by
    intro cs hcs
    induction cs with
    | nil => rfl
    | cons c cs ih =>
      rw [List.flatMap_cons, ih fun d hd => hcs d (.tail _ hd), hcs c (.head _)]
      rfl
  have hsize : ∀ c ∈ is.flatMap encode, c.utf8Size = 1 := by
    intro c hc
    obtain ⟨i, -, hi⟩ := List.mem_flatMap.1 hc
    obtain ⟨k, rfl⟩ := mem_digits hi
    exact @Base64.of_digit (·.utf8Size = 1) _ (by decide) k
  rw [decodeSegment, hascii _ hsize]
  induction is with
  | nil => rfl
  | cons i is ih =>
    rw [List.flatMap_cons, decode_encode (h i (.head _)),
      ih (fun j hj => h j (.tail _ hj)) (fun c hc => hsize c (by
        rw [List.flatMap_cons]
        exact List.mem_append_right _ hc))]
    rfl

end Stylesheet.Vlq
