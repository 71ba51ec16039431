import Libzorpll.CString
import Libzorpll.Signed

/-! The text in which a process tells another one how its start went. -/

namespace Libzorpll.StartupResult

open CString Signed

/-- %d -/
def printInt (n : Int) : List UInt8 := if n < 0 then 45 :: decimal n.natAbs else decimal n.natAbs

/-- The array of z_process_send_result. -/
def bufSize : Nat := 10

/-- What z_process_send_result writes: as many bytes as the text would have,
none where the array has fewer. -/
def resultText (retNum : Int) : Option (List UInt8) :=
  let text := printInt (narrow 32 retNum) ++ [10]
  let buf := text.take (bufSize - 1) ++ [0]
  if text.length ≤ buf.length then some (buf.take text.length) else none

/-- The array of z_process_recv_result. -/
def retBufSize : Nat := 6

/-- What z_process_recv_result makes of the bytes it has got; there is no
answer where atoi reads on behind the array. -/
def resultOf (got : List UInt8) : Option Int :=
  if got = [] then some 1
  else (strtol (got ++ List.replicate (retBufSize - got.length) 0)).map fun r => narrow 32 r.1

/-- The status of a process that calls exit. -/
def exitStatus (retNum : Int) : Nat := (retNum % 256).toNat

/-- Results that both arrays have room for. -/
def ShortResult (retNum : Int) : Prop := 0 ≤ retNum ∧ retNum < 10 ^ 5

instance (retNum : Int) : Decidable (ShortResult retNum) := inferInstanceAs (Decidable (_ ∧ _))

theorem decimal_length_le {n k : Nat} (h : n < 10 ^ (k + 1)) : (decimal n).length ≤ k + 1 := by
  induction k generalizing n with
  | zero =>
      have hlt : n < 10 := by omega
      rw [decimal_of_lt hlt]
      exact Nat.le_refl 1
  | succ k ih =>
      rcases Nat.lt_or_ge n 10 with hlt | hge
      · rw [decimal_of_lt hlt, List.length_singleton]
        omega
      · have hdiv : n / 10 < 10 ^ (k + 1) := by
          rw [Nat.div_lt_iff_lt_mul (by decide)]
          rwa [Nat.pow_succ] at h
        have hle := ih hdiv
        rw [decimal_of_le hge, List.length_append, List.length_singleton]
        omega

variable {retNum : Int}

theorem narrow_short (h : ShortResult retNum) : narrow 32 retNum = retNum := by
  obtain ⟨hlow, hhigh⟩ := h
  exact narrow_of_fits (by decide) ⟨by omega, by omega⟩

theorem printInt_short (h : ShortResult retNum) :
    printInt retNum = decimal retNum.toNat ∧ (printInt retNum).length ≤ 5 := by
  obtain ⟨hlow, hhigh⟩ := h
  have hprint : printInt retNum = decimal retNum.toNat := by
    have habs : retNum.natAbs = retNum.toNat := by omega
    rw [printInt, if_neg (by omega), habs]
  have hlen : (decimal retNum.toNat).length ≤ 5 := decimal_length_le (by omega)
  exact ⟨hprint, hprint ▸ hlen⟩

theorem resultText_short (h : ShortResult retNum) :
    resultText retNum = some (decimal retNum.toNat ++ [10]) := by
  obtain ⟨hprint, hlen⟩ := printInt_short h
  have htext : (printInt retNum ++ [10]).length ≤ 6 := by
    rw [List.length_append, List.length_singleton]
    omega
  have htake : (printInt retNum ++ [10]).take (bufSize - 1) = printInt retNum ++ [10] :=
    List.take_of_length_le (Nat.le_trans htext (by decide))
  rw [resultText, narrow_short h]
  simp only [htake, List.length_append, List.length_singleton]
  rw [if_pos (Nat.le_succ _), List.take_left' (by rw [List.length_append, List.length_singleton]), hprint]

theorem decimalValue_decimal (n : Nat) : decimalValue 0 (decimal n) = n := by
  have hscan := digits_append (decimal_digits n) (c := 10) rfl [] 0
  rw [digits_decimal] at hscan
  exact ((Prod.mk.inj (Option.some.inj hscan)).1).symm

/-- The number ends at the end of the line. -/
theorem strtol_line {n : Nat} (hn : n < 2 ^ 63) (tl : Ptr) :
    strtol (decimal n ++ 10 :: tl) = some ((n : Int), 10 :: tl) := by
  obtain ⟨d, ds, heq, hd⟩ := decimal_head n
  have hsome : decimal n ≠ [] := heq ▸ List.cons_ne_nil d ds
  have hnumeral : Numeral [] [] (decimal n) :=
    ⟨fun b hb => (List.not_mem_nil hb).elim, .inl rfl, hsome, decimal_digits n⟩
  have hscan := scanned_numeral hnumeral (c := 10) rfl tl
  have hhead : (decimal n).headD 0 ≠ 45 := by
    rw [heq]
    exact (not_space_of_digit hd).2.1
  have hlen : (10 :: tl).length ≠ (decimal n ++ 10 :: tl).length := by
    rw [heq, List.length_append, List.length_cons (a := d)]
    omega
  have hmin : min (2 ^ 63 - 1) (n : Int) = n := by omega
  simp only [List.nil_append, decimalValue_decimal] at hscan
  rw [strtol, hscan]
  simp only [Option.bind_eq_bind, Option.bind_some, if_neg hlen, if_neg hhead, hmin]

/-- The array has the whole text, and the byte behind the number. -/
theorem resultOf_short (h : ShortResult retNum) :
    resultOf ((decimal retNum.toNat ++ [10]).take retBufSize) = some retNum := by
  obtain ⟨hprint, hlen⟩ := printInt_short h
  obtain ⟨hlow, hhigh⟩ := h
  rw [hprint] at hlen
  have htake : (decimal retNum.toNat ++ [10]).take retBufSize = decimal retNum.toNat ++ [10] := by
    refine List.take_of_length_le ?_
    rw [List.length_append, List.length_singleton, retBufSize]
    omega
  have hsome : decimal retNum.toNat ++ [10] ≠ [] := List.append_ne_nil_of_right_ne_nil _ (List.cons_ne_nil 10 [])
  have hcast : ((retNum.toNat : Nat) : Int) = retNum := Int.toNat_of_nonneg hlow
  have hline := strtol_line (show retNum.toNat < 2 ^ 63 by omega)
    (List.replicate (retBufSize - (decimal retNum.toNat ++ [10]).length) 0)
  rw [hcast] at hline
  rw [htake, resultOf, if_neg hsome, List.append_assoc, List.singleton_append, hline]
  exact congrArg some (narrow_short ⟨hlow, hhigh⟩)

/-- A short result is heard as it was told. -/
theorem result_told (h : ShortResult retNum) :
    ∃ text, resultText retNum = some text ∧ text.take retBufSize ≠ [] ∧ resultOf (text.take retBufSize) = some retNum := by
  refine ⟨_, resultText_short h, ?_, resultOf_short h⟩
  obtain ⟨d, ds, heq, -⟩ := decimal_head retNum.toNat
  rw [heq, List.cons_append, retBufSize, List.take_succ_cons]
  exact List.cons_ne_nil _ _

end Libzorpll.StartupResult
