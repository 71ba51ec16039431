import Mathlib.Data.List.Basic

/-! Arrays that have zeros behind their ends. -/

namespace Libzorpll.ZeroArray

variable {α : Type} [Zero α]

def get (l : List α) (i : Nat) : α := l.getD i 0

/-- The array with zeros up to a length of at least `n`. -/
def extend (n : Nat) (l : List α) : List α := l ++ List.replicate (n - l.length) 0

/-- The array cut or filled with zeros to the length `n`. -/
def resize (n : Nat) (l : List α) : List α := (extend n l).take n

/-- The array with `bytes` put at `off`, and zeros before them where it was
shorter. -/
def overwrite (off : Nat) (bytes l : List α) : List α :=
  (extend off l).take off ++ bytes ++ l.drop (off + bytes.length)

theorem get_eq (l : List α) (i : Nat) : get l i = l[i]?.getD 0 := List.getD_eq_getElem?_getD

theorem get_of_length_le {l : List α} {i : Nat} (h : l.length ≤ i) : get l i = 0 := by
  rw [get_eq, List.getElem?_eq_none h]
  rfl

@[simp] theorem length_extend (n : Nat) (l : List α) : (extend n l).length = max l.length n := by
  rw [extend, List.length_append, List.length_replicate]
  omega

@[simp] theorem length_resize (n : Nat) (l : List α) : (resize n l).length = n := by
  rw [resize, List.length_take, length_extend]
  omega

@[simp] theorem length_overwrite (off : Nat) (bytes l : List α) :
    (overwrite off bytes l).length = max l.length (off + bytes.length) := by
  simp only [overwrite, List.length_append, List.length_take, length_extend, List.length_drop]
  omega

@[simp] theorem overwrite_nil (l : List α) : overwrite 0 [] l = l := by
  rw [overwrite, List.take_zero, List.length_nil, Nat.add_zero, List.drop_zero, List.append_nil,
    List.nil_append]

theorem get_append (l m : List α) (i : Nat) :
    get (l ++ m) i = if i < l.length then get l i else get m (i - l.length) := by
  rw [get_eq, List.getElem?_append]
  split
  · rw [get_eq]
  · rw [get_eq]

theorem get_take (n : Nat) (l : List α) (i : Nat) : get (l.take n) i = if i < n then get l i else 0 := by
  rw [get_eq, List.getElem?_take]
  split
  · rw [get_eq]
  · rfl

theorem get_drop (n : Nat) (l : List α) (i : Nat) : get (l.drop n) i = get l (n + i) := by
  rw [get_eq, get_eq, List.getElem?_drop]

theorem get_replicate (n i : Nat) : get (List.replicate n (0 : α)) i = 0 := by
  rw [get_eq, List.getElem?_replicate]
  split
  · rfl
  · rfl

@[simp] theorem get_extend (n : Nat) (l : List α) (i : Nat) : get (extend n l) i = get l i := by
  rw [extend, get_append]
  split
  · rfl
  · rename_i hge
    rw [get_replicate, get_of_length_le (Nat.le_of_not_lt hge)]

theorem get_resize (n : Nat) (l : List α) (i : Nat) :
    get (resize n l) i = if i < n then get l i else 0 := by
  rw [resize, get_take, get_extend]

theorem get_overwrite (off : Nat) (bytes l : List α) (i : Nat) :
    get (overwrite off bytes l) i =
      if off ≤ i ∧ i < off + bytes.length then get bytes (i - off) else get l i := by
  have hlen : ((extend off l).take off).length = off := by
    rw [List.length_take, length_extend]
    omega
  rw [overwrite, get_append, List.length_append, hlen]
  by_cases hbefore : i < off + bytes.length
  · rw [if_pos hbefore, get_append, hlen]
    by_cases hoff : i < off
    · rw [if_pos hoff, if_neg (fun h => Nat.not_le_of_lt hoff h.1), get_take, if_pos hoff, get_extend]
    · rw [if_neg hoff, if_pos ⟨Nat.le_of_not_lt hoff, hbefore⟩]
  · have hback : off + bytes.length + (i - (off + bytes.length)) = i := by omega
    rw [if_neg hbefore, if_neg (fun h => hbefore h.2), get_drop, hback]

/-- Arrays with the same length and the same places are the same. -/
theorem ext {l m : List α} (hlength : l.length = m.length) (hget : ∀ i, get l i = get m i) : l = m := by
  apply List.ext_getElem hlength
  intro i hl hm
  have h := hget i
  rw [get_eq, get_eq, List.getElem?_eq_getElem hl, List.getElem?_eq_getElem hm] at h
  exact h

/-- Bytes put behind others are put with them. -/
theorem overwrite_append (off : Nat) (a b l : List α) :
    overwrite (off + a.length) b (overwrite off a l) = overwrite off (a ++ b) l := by
  apply ext
  · simp only [length_overwrite, List.length_append]
    omega
  · intro i
    rw [get_overwrite, get_overwrite, get_overwrite, get_append, List.length_append]
    by_cases hlast : off + a.length ≤ i ∧ i < off + a.length + b.length
    · have hall : off ≤ i ∧ i < off + (a.length + b.length) := by omega
      have hnot : ¬i - off < a.length := by omega
      rw [if_pos hlast, if_pos hall, if_neg hnot, Nat.sub_sub]
    · rw [if_neg hlast]
      by_cases hfirst : off ≤ i ∧ i < off + a.length
      · have hall : off ≤ i ∧ i < off + (a.length + b.length) := by omega
        have hin : i - off < a.length := by omega
        rw [if_pos hfirst, if_pos hall, if_pos hin]
      · have hall : ¬(off ≤ i ∧ i < off + (a.length + b.length)) := by omega
        rw [if_neg hfirst, if_neg hall]

theorem overwrite_none {off : Nat} {l : List α} (h : off ≤ l.length) : overwrite off [] l = l := by
  apply ext
  · rw [length_overwrite, List.length_nil]
    omega
  · intro i
    have hnot : ¬(off ≤ i ∧ i < off + ([] : List α).length) := by
      rw [List.length_nil]
      omega
    rw [get_overwrite, if_neg hnot]

/-- Both arrays have the same bytes from `pos` on. -/
theorem window_ext {l m : List α} {pos len : Nat} (hl : pos + len ≤ l.length) (hm : pos + len ≤ m.length)
    (hget : ∀ i, get l i = get m i) : (l.drop pos).take len = (m.drop pos).take len := by
  apply ext
  · simp only [List.length_take, List.length_drop]
    omega
  · intro i
    rw [get_take, get_take, get_drop, get_drop, hget]

end Libzorpll.ZeroArray
