import Mathlib.Data.UInt
import Libzorpll.Code

/-! The length that z_code_grow gives a buffer. -/

namespace Libzorpll.CodeGrow

/-- A gsize given where a gint is expected. -/
def gint (n : Nat) : Int :=
  if n % 2 ^ 32 < 2 ^ 31 then (n % 2 ^ 32 : Nat) else (n % 2 ^ 32 : Nat) - 2 ^ 32

/-- `newlen` is doubled until it reaches `reqlen`; none where it leaves gint. -/
def doubled (reqlen : Int) : Nat → Nat → Option Nat
  | 0, _ => none
  | fuel + 1, newlen =>
      if (newlen : Int) < reqlen then
        if newlen * 2 < 2 ^ 31 then doubled reqlen fuel (newlen * 2) else none
      else some newlen

/-- From 1 on there are 30 doublings at the most in a gint. -/
def growLength (bufLen reqlen : Nat) : Option Nat :=
  let newlen := if gint bufLen ≤ 0 then 1 else (gint bufLen).toNat
  doubled (gint reqlen) 32 newlen

theorem gint_small {n : Nat} (h : n < 2 ^ 31) : gint n = n := by
  have hmod : n % 2 ^ 32 = n := Nat.mod_eq_of_lt (by omega)
  rw [gint, hmod, if_pos h]

theorem doubled_some {reqlen : Int} {fuel newlen len : Nat} (h : doubled reqlen fuel newlen = some len) :
    ∃ k, len = newlen * 2 ^ k ∧ reqlen ≤ len ∧ (newlen < 2 ^ 31 → len < 2 ^ 31) ∧
      ∀ j, reqlen ≤ (newlen * 2 ^ j : Nat) → len ≤ newlen * 2 ^ j := by
  induction fuel generalizing newlen with
  | zero => cases h
  | succ fuel ih =>
      by_cases hshort : (newlen : Int) < reqlen
      · by_cases hroom : newlen * 2 < 2 ^ 31
        · simp only [doubled, hshort, hroom, ↓reduceIte] at h
          obtain ⟨k, hlen, hreach, hgint, hleast⟩ := ih h
          refine ⟨k + 1, ?_, hreach, fun _ => hgint hroom, ?_⟩
          · rw [hlen, Nat.pow_succ', Nat.mul_assoc]
          · intro j hj
            cases j with
            | zero =>
                rw [Nat.pow_zero, Nat.mul_one] at hj
                omega
            | succ j =>
                rw [Nat.pow_succ', ← Nat.mul_assoc] at hj ⊢
                exact hleast j hj
        · simp only [doubled, hshort, hroom, ↓reduceIte] at h
          cases h
      · simp only [doubled, hshort, ↓reduceIte, Option.some.injEq] at h
        subst h
        refine ⟨0, by omega, by omega, id, fun j _ => ?_⟩
        exact Nat.le_mul_of_pos_right newlen (Nat.two_pow_pos j)

theorem doubled_reaches {reqlen : Int} {fuel newlen k : Nat} (hpos : 0 < newlen)
    (hfuel : 2 ^ 31 < newlen * 2 ^ fuel) (hreach : reqlen ≤ (newlen * 2 ^ k : Nat))
    (hgint : newlen * 2 ^ k < 2 ^ 31) : ∃ len, doubled reqlen fuel newlen = some len := by
  induction fuel generalizing newlen k with
  | zero =>
      have hle : newlen * 2 ^ 0 ≤ newlen * 2 ^ k :=
        Nat.mul_le_mul_left newlen (Nat.pow_le_pow_right (by decide) (Nat.zero_le k))
      omega
  | succ fuel ih =>
      by_cases hshort : (newlen : Int) < reqlen
      · cases k with
        | zero =>
            rw [Nat.pow_zero, Nat.mul_one] at hreach
            omega
        | succ k =>
            rw [Nat.pow_succ', ← Nat.mul_assoc] at hreach hgint
            have hroom : newlen * 2 < 2 ^ 31 :=
              Nat.lt_of_le_of_lt (Nat.le_mul_of_pos_right _ (Nat.two_pow_pos k)) hgint
            have hnext : newlen * 2 ^ (fuel + 1) = newlen * 2 * 2 ^ fuel := by
              rw [Nat.pow_succ', Nat.mul_assoc]
            simp only [doubled, hshort, hroom, ↓reduceIte]
            exact ih (by omega) (hnext ▸ hfuel) hreach hgint
      · exact ⟨newlen, by simp only [doubled, hshort, ↓reduceIte]⟩

/-- The length is the least of the doubled ones that reaches the one required. -/
theorem growLength_some {bufLen reqlen len : Nat} (hpos : 0 < bufLen) (hgint : bufLen < 2 ^ 31)
    (h : growLength bufLen reqlen = some len) :
    ∃ k, len = bufLen * 2 ^ k ∧ gint reqlen ≤ len ∧ len < 2 ^ 31 ∧
      ∀ j, gint reqlen ≤ (bufLen * 2 ^ j : Nat) → len ≤ bufLen * 2 ^ j := by
  have hstart : (if gint bufLen ≤ 0 then 1 else (gint bufLen).toNat) = bufLen := by
    have hpos' : ¬(bufLen : Int) ≤ 0 := by omega
    rw [gint_small hgint, if_neg hpos', Int.toNat_natCast]
  simp only [growLength, hstart] at h
  obtain ⟨k, hlen, hreach, hsmall, hleast⟩ := doubled_some h
  exact ⟨k, hlen, hreach, hsmall hgint, hleast⟩

theorem growLength_reaches {bufLen reqlen k : Nat} (hpos : 0 < bufLen)
    (hreach : gint reqlen ≤ (bufLen * 2 ^ k : Nat)) (hgint : bufLen * 2 ^ k < 2 ^ 31) :
    ∃ len, growLength bufLen reqlen = some len := by
  have hsmall : bufLen < 2 ^ 31 :=
    Nat.lt_of_le_of_lt (Nat.le_mul_of_pos_right bufLen (Nat.two_pow_pos k)) hgint
  have hstart : (if gint bufLen ≤ 0 then 1 else (gint bufLen).toNat) = bufLen := by
    have hpos' : ¬(bufLen : Int) ≤ 0 := by omega
    rw [gint_small hsmall, if_neg hpos', Int.toNat_natCast]
  simp only [growLength, hstart]
  exact doubled_reaches hpos (by omega) hreach hgint

end Libzorpll.CodeGrow
