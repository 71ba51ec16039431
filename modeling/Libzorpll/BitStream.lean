import Mathlib.Data.Nat.Digits.Defs
import Mathlib.Data.UInt

/-! Bytes as a stream of bits, the lowest bit of each byte first. -/

namespace Libzorpll.BitStream

variable {buf buf' : List UInt8} {k m n : Nat}

def bit (buf : List UInt8) (k : Nat) : Bool := (buf.getD (k / 8) 0).toNat.testBit (k % 8)

def number (buf : List UInt8) : Nat := Nat.ofDigits 256 (buf.map UInt8.toNat)

/-- The number that so many bits from here on are. -/
def bits (buf : List UInt8) (k n : Nat) : Nat := number buf / 2 ^ k % 2 ^ n

theorem number_cons (b : UInt8) (buf : List UInt8) : number (b :: buf) = 2 ^ 8 * number buf + b.toNat := by
  rw [number, List.map_cons, Nat.ofDigits_cons, Nat.add_comm]
  rfl

theorem testBit_number (buf : List UInt8) (k : Nat) : (number buf).testBit k = bit buf k := by
  induction buf generalizing k with
  | nil =>
      rw [bit, List.getD_nil, number, List.map_nil, Nat.ofDigits_nil, UInt8.toNat_zero, Nat.zero_testBit,
        Nat.zero_testBit]
  | cons b buf ih =>
      rw [number_cons, Nat.testBit_two_pow_mul_add _ b.toNat_lt]
      split
      · rename_i hk
        rw [bit, Nat.div_eq_of_lt hk, Nat.mod_eq_of_lt hk, List.getD_cons_zero]
      · rename_i hk
        obtain ⟨j, rfl⟩ := Nat.exists_eq_add_of_le (Nat.not_lt.mp hk)
        rw [Nat.add_sub_cancel_left, ih, bit, bit, Nat.add_div_left j (by decide), Nat.add_mod_left,
          List.getD_cons_succ]

theorem testBit_bits (buf : List UInt8) (k n i : Nat) :
    (bits buf k n).testBit i = (decide (i < n) && bit buf (k + i)) := by
  rw [bits, Nat.testBit_mod_two_pow, Nat.testBit_div_two_pow, testBit_number, Nat.add_comm]

theorem bits_lt (buf : List UInt8) (k n : Nat) : bits buf k n < 2 ^ n := Nat.mod_lt _ (Nat.two_pow_pos n)

/-- The bits of a number are the ones that it is taken from. -/
theorem bits_congr (h : ∀ i, k ≤ i → i < k + n → bit buf i = bit buf' i) : bits buf k n = bits buf' k n := by
  apply Nat.eq_of_testBit_eq
  intro i
  rw [testBit_bits, testBit_bits]
  by_cases hi : i < n
  · rw [h (k + i) (by omega) (by omega)]
  · rw [decide_eq_false hi, Bool.false_and, Bool.false_and]

theorem bits_byte (buf : List UInt8) (j : Nat) : bits buf (8 * j) 8 = (buf.getD j 0).toNat := by
  apply Nat.eq_of_testBit_eq
  intro i
  rw [testBit_bits]
  by_cases hi : i < 8
  · rw [decide_eq_true hi, Bool.true_and, bit, Nat.mul_add_div (by decide), Nat.div_eq_of_lt hi, Nat.add_zero,
      Nat.mul_add_mod, Nat.mod_eq_of_lt hi]
  · have hlt : (buf.getD j 0).toNat < 2 ^ i :=
      Nat.lt_of_lt_of_le (UInt8.toNat_lt _) (Nat.pow_le_pow_right (by decide) (Nat.not_lt.mp hi))
    rw [decide_eq_false hi, Bool.false_and, Nat.testBit_lt_two_pow hlt]

theorem bits_mod (buf : List UInt8) (k : Nat) (h : m ≤ n) : bits buf k n % 2 ^ m = bits buf k m :=
  Nat.mod_mod_of_dvd _ (Nat.pow_dvd_pow 2 h)

theorem bits_div (buf : List UInt8) (k : Nat) (h : m ≤ n) : bits buf k n / 2 ^ m = bits buf (k + m) (n - m) := by
  obtain ⟨l, rfl⟩ := Nat.exists_eq_add_of_le h
  rw [bits, Nat.pow_add, Nat.mod_mul_right_div_self, Nat.div_div_eq_div_mul, ← Nat.pow_add, Nat.add_sub_cancel_left]
  rfl

end Libzorpll.BitStream
