import Mathlib.Data.UInt

/-! Numbers of a signed type with a number of bits. -/

namespace Libzorpll.Signed

variable {w : Nat} {n m : Int}

def Fits (w : Nat) (n : Int) : Prop := -2 ^ (w - 1) ≤ n ∧ n < 2 ^ (w - 1)

instance (w : Nat) (n : Int) : Decidable (Fits w n) := inferInstanceAs (Decidable (_ ∧ _))

/-- What a number is in the type, modulo the number of its values. -/
def narrow (w : Nat) (n : Int) : Int := n.bmod (2 ^ w)

/-- A result that the type has to have. -/
def exact (w : Nat) (n : Int) : Option Int := if Fits w n then some n else none

theorem two_pow_half (hw : 0 < w) : (2 : Int) ^ w = 2 * 2 ^ (w - 1) := by
  obtain ⟨v, rfl⟩ := Nat.exists_eq_succ_of_ne_zero (Nat.ne_of_gt hw)
  rw [Nat.succ_sub_one, Int.pow_succ, Int.mul_comm]

theorem narrow_of_fits (hw : 0 < w) (h : Fits w n) : narrow w n = n := by
  have hpow := two_pow_half hw
  have hcast : ((2 ^ w : Nat) : Int) = 2 ^ w := by push_cast; rfl
  obtain ⟨hlow, hhigh⟩ := h
  rw [narrow, Int.bmod_eq_of_le]
  · omega
  · omega

theorem fits_narrow (hw : 0 < w) (n : Int) : Fits w (narrow w n) := by
  have hpow := two_pow_half hw
  have hcast : ((2 ^ w : Nat) : Int) = 2 ^ w := by push_cast; rfl
  have hlow := @Int.le_bmod n (2 ^ w) (Nat.two_pow_pos w)
  have hhigh := @Int.bmod_lt n (2 ^ w) (Nat.two_pow_pos w)
  refine ⟨?_, ?_⟩
  · rw [narrow]
    omega
  · rw [narrow]
    omega

theorem narrow_mul (w : Nat) (n m : Int) : narrow w (narrow w n * m) = narrow w (n * m) :=
  Int.bmod_mul_bmod

theorem narrow_eq_zero : narrow w n = 0 ↔ 2 ^ w ∣ n := by
  rw [narrow, ← Int.dvd_iff_bmod_eq_zero, Int.natCast_pow]
  rfl

theorem exact_eq_some : exact w n = some m ↔ Fits w n ∧ n = m := by
  rw [exact]
  split
  · rename_i h
    rw [Option.some.injEq, and_iff_right h]
  · rename_i h
    exact iff_of_false (by rintro ⟨⟩) fun hand => h hand.1

theorem exact_of_fits (h : Fits w n) : exact w n = some n := if_pos h

end Libzorpll.Signed
