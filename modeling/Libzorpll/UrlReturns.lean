import Libzorpll.UrlParse
import Mathlib.Data.List.TakeWhile

/-! Which strings z_url_parse comes back from. -/

namespace Libzorpll.UrlReturns

open CString UrlParse

def Returns {α : Type} (x : Except Stop α) : Prop := ∀ stop, x = .error stop → ∃ text, stop = .failed text

section Returns

variable {α β : Type}

theorem returns_ok (a : α) : Returns (.ok a : Except Stop α) := by
  intro stop h
  cases h

theorem returns_failed (text : String) : Returns (.error (.failed text) : Except Stop α) := by
  intro stop h
  cases h
  exact ⟨text, rfl⟩

theorem Returns.bind {x : Except Stop α} {f : α → Except Stop β} (hx : Returns x)
    (hf : ∀ a, x = .ok a → Returns (f a)) : Returns (x >>= f) := by
  cases x with
  | error e =>
      intro stop h
      cases h
      exact hx _ rfl
  | ok a => exact hf a rfl

end Returns

theorem decodeHexByte_returns (x y : UInt8) (rest : Ptr) :
    Returns (decodeHexByte (x :: y :: rest)) := by
  rw [decodeHexByte_cons]
  split
  · split
    · exact returns_ok _
    · exact returns_failed _
  · exact returns_failed _

/-- An escape does not go on over the end of its part. -/
theorem decodeHexByte_end {c : UInt8} (hc : isXDigit c = false) (x : UInt8) (rest : Ptr) :
    decodeHexByte (x :: c :: rest) = .error (.failed "Invalid hexadecimal encoding") := by
  rw [decodeHexByte_cons, hc]
  split
  · rfl
  · rfl

/-- Over its own part the loop finds its end or an error. -/
theorem decodeLoop_returns {room : Nat} {w : List UInt8} {c : UInt8} (hc : isXDigit c = false)
    (rest : Ptr) (hroom : w.length < room) : Returns (decodeLoop room (w ++ c :: rest) w.length) := by
  induction room generalizing w with
  | zero => exact absurd hroom (Nat.not_lt_zero _)
  | succ room ih =>
      cases w with
      | nil => exact returns_ok []
      | cons b w =>
          have hne : ((b :: w).length : Int) ≠ 0 := by
            simp only [List.length_cons]
            omega
          by_cases hb : b = percent
          · rw [hb]
            rcases w with _ | ⟨x, _ | ⟨y, w⟩⟩
            · exact returns_failed _
            · have hleft : (2 : Int) ≤ [percent, x].length := Int.le_refl 2
              rw [List.cons_append, decodeLoop_escape _ _ hleft, List.singleton_append,
                decodeHexByte_end hc]
              exact returns_failed _
            · have hleft : (2 : Int) ≤ (percent :: x :: y :: w).length := by
                simp only [List.length_cons]
                omega
              have hlen : ((percent :: x :: y :: w).length : Int) - 3 = w.length := by
                simp only [List.length_cons]
                omega
              rw [List.cons_append, decodeLoop_escape _ _ hleft, hlen]
              simp only [List.length_cons] at hroom
              refine (decodeHexByte_returns x y _).bind (fun v _ => ?_)
              exact (ih (w := w) (by omega)).bind (fun rest _ => returns_ok _)
          · have hlen : ((b :: w).length : Int) - 1 = w.length := by
              simp only [List.length_cons]
              omega
            rw [List.cons_append, decodeLoop_plain hb _ _ hne, hlen]
            simp only [List.length_cons] at hroom
            exact (ih (w := w) (by omega)).bind (fun rest _ => returns_ok _)

theorem assignUrlDecode_returns {w : List UInt8} {c : UInt8} (hc : isXDigit c = false) (rest : Ptr) :
    Returns (assignUrlDecode (w ++ c :: rest) w.length) := by
  rw [assignUrlDecode, if_neg (Int.not_lt.mpr (Int.natCast_nonneg _)), Int.toNat_natCast]
  exact decodeLoop_returns hc rest (Nat.lt_succ_self _)

/-- A byte that ends a part is no hexadecimal digit. -/
theorem not_xdigit_of_end {c : UInt8} (hc : c = 0 ∨ isSep c) : isXDigit c = false := by
  rcases hc with rfl | hc
  · rfl
  · simp only [isSep, Bool.or_eq_true, beq_iff_eq] at hc
    rcases hc with (((rfl | rfl) | rfl) | rfl) | rfl
    all_goals rfl

section Pieces

variable {part sep : Cuts} {k : Nat}

end Pieces

/-- What stands between "://" and the path. -/
def authority (rest : List UInt8) : List UInt8 := rest.takeWhile (· != slash)

/-- No part whose length does not fit a gint. -/
def Short (s : List UInt8) : Prop :=
  ∀ scheme rest, colon ∉ scheme → s = scheme ++ colon :: slash :: slash :: rest →
    ∀ w, w <:+: authority rest → Plain isSep w → w.length < 2 ^ 31

/-- There is only one way to read a string as a scheme and the rest. -/
theorem scheme_unique {scheme scheme' : List UInt8} (h : colon ∉ scheme) (h' : colon ∉ scheme')
    {rest rest' : List UInt8}
    (heq : scheme ++ colon :: slash :: slash :: rest = scheme' ++ colon :: slash :: slash :: rest') :
    rest' = rest := by
  induction scheme generalizing scheme' with
  | nil =>
      cases scheme' with
      | nil => exact (List.cons.inj (List.cons.inj (List.cons.inj heq).2).2).2.symm
      | cons b scheme' =>
          rw [List.mem_cons, not_or] at h'
          exact absurd (List.cons.inj heq).1 h'.1
  | cons a scheme ih =>
      rw [List.mem_cons, not_or] at h
      cases scheme' with
      | nil => exact absurd (List.cons.inj heq).1.symm h.1
      | cons b scheme' =>
          rw [List.mem_cons, not_or] at h'
          exact ih h.2 h'.2 (List.cons.inj heq).2

end Libzorpll.UrlReturns
