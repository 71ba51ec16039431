import Mathlib.Data.List.Basic

/-! Fixed-size regions of memory with checked access. Every operation names
the range it touches and stops outside the region. -/

namespace Libzorpll.Region

variable {α : Type}

inductive Abort
  | outOfBounds
  | diverges
  deriving DecidableEq

def read (m : List α) (off n : Nat) : Except Abort (List α) :=
  if off + n ≤ m.length then .ok ((m.drop off).take n) else .error .outOfBounds

def put (m : List α) (off : Nat) (xs : List α) : List α :=
  m.take off ++ xs ++ m.drop (off + xs.length)

def write (m : List α) (off : Nat) (xs : List α) : Except Abort (List α) :=
  if off + xs.length ≤ m.length then .ok (put m off xs) else .error .outOfBounds

/-- Source and destination can overlap, as in memmove. -/
def move (m : List α) (dst src n : Nat) : Except Abort (List α) :=
  read m src n >>= write m dst

/-- The first place of a value in a range, as in memchr. -/
def find [DecidableEq α] (m : List α) (off n : Nat) (a : α) : Except Abort (Option Nat) :=
  (read m off n).map (fun xs => (xs.findIdx? (· == a)).map (off + ·))

/-- The contents between two places of a region. -/
def window (m : List α) (a b : Nat) : List α := (m.drop a).take (b - a)

theorem window_length (m : List α) {a b : Nat} (hb : b ≤ m.length) :
    (window m a b).length = b - a := by
  simp only [window, List.length_take, List.length_drop]
  omega

@[simp] theorem window_self (m : List α) (a : Nat) : window m a a = [] := by
  simp [window]

theorem window_getElem? (m : List α) (a b i : Nat) :
    (window m a b)[i]? = if i < b - a then m[a + i]? else none := by
  simp [window, List.getElem?_take, List.getElem?_drop]

theorem window_getElem {m : List α} {a b i : Nat} (hi : i < b - a) :
    (window m a b)[i]? = m[a + i]? := by
  rw [window_getElem?, if_pos hi]

theorem window_append (m : List α) {a b c : Nat} (hab : a ≤ b) (hbc : b ≤ c) :
    window m a b ++ window m b c = window m a c := by
  have hsum : c - a = (b - a) + (c - b) := by omega
  have hdrop : (m.drop a).drop (b - a) = m.drop b := by
    rw [List.drop_drop]; congr 1; omega
  rw [window, window, window, hsum, List.take_add, hdrop]

theorem window_congr {m m' : List α} {a b : Nat} (h : ∀ i, a ≤ i → i < b → m[i]? = m'[i]?) :
    window m a b = window m' a b := by
  apply List.ext_getElem?
  intro i
  rw [window_getElem?, window_getElem?]
  by_cases hi : i < b - a
  · rw [if_pos hi, if_pos hi]
    exact h (a + i) (Nat.le_add_right a i) (by omega)
  · rw [if_neg hi, if_neg hi]

/-- A split of a window's contents is a split of its range. -/
theorem window_split {m : List α} {a b : Nat} {xs ys : List α} (hab : a ≤ b) (hb : b ≤ m.length)
    (h : window m a b = xs ++ ys) :
    window m a (a + xs.length) = xs ∧ window m (a + xs.length) b = ys := by
  have hlen := congrArg List.length h
  rw [window_length m hb, List.length_append] at hlen
  have happ := window_append m (a := a) (b := a + xs.length) (c := b) (by omega) (by omega)
  have hxs : (window m a (a + xs.length)).length = xs.length := by
    rw [window_length m (by omega)]; omega
  exact List.append_inj (happ.trans h) hxs

@[simp] theorem put_length {m : List α} {off : Nat} {xs : List α} (h : off + xs.length ≤ m.length) :
    (put m off xs).length = m.length := by
  simp only [put, List.length_append, List.length_take, List.length_drop]
  omega

/-- A write leaves the rest of a region alone. -/
theorem put_getElem? {m : List α} {off : Nat} {xs : List α} (h : off + xs.length ≤ m.length) {i : Nat}
    (hi : i < off ∨ off + xs.length ≤ i) : (put m off xs)[i]? = m[i]? := by
  have hlen : (m.take off).length = off := by
    rw [List.length_take]
    omega
  rcases hi with hlt | hge
  · rw [put, List.append_assoc, List.getElem?_append_left (by omega), List.getElem?_take_of_lt hlt]
  · have hlen' : (m.take off ++ xs).length = off + xs.length := by
      rw [List.length_append, hlen]
    rw [put, List.getElem?_append_right (by omega), hlen', List.getElem?_drop]
    congr 1
    omega

theorem window_put_same {m : List α} {off : Nat} {xs : List α} (h : off + xs.length ≤ m.length) :
    window (put m off xs) off (off + xs.length) = xs := by
  have hlen : (m.take off).length = off := by simp; omega
  rw [window, put, List.append_assoc, List.drop_append_of_le_length (by omega),
    List.drop_of_length_le (by omega), List.nil_append, Nat.add_sub_cancel_left,
    List.take_left]

theorem window_put_before {m : List α} {off : Nat} {xs : List α} {a b : Nat}
    (h : off + xs.length ≤ m.length) (hb : b ≤ off) :
    window (put m off xs) a b = window m a b := by
  apply List.ext_getElem?
  intro i
  rw [window_getElem?, window_getElem?]
  by_cases hi : i < b - a
  · rw [if_pos hi, if_pos hi, put, List.append_assoc,
      List.getElem?_append_left (by rw [List.length_take]; omega),
      List.getElem?_take_of_lt (by omega)]
  · rw [if_neg hi, if_neg hi]

theorem window_put_after {m : List α} {off : Nat} {xs : List α} {a b : Nat}
    (h : off + xs.length ≤ m.length) (ha : off + xs.length ≤ a) :
    window (put m off xs) a b = window m a b := by
  have hlen : (m.take off ++ xs).length = off + xs.length := by
    simp only [List.length_append, List.length_take]; omega
  rw [window, window, put, List.drop_append, hlen, List.drop_of_length_le (by omega),
    List.nil_append, List.drop_drop]
  congr 2
  omega

/-- Writing at the end of a window appends to its contents. -/
theorem window_put_append {m : List α} {a b : Nat} {xs : List α} (hab : a ≤ b)
    (h : b + xs.length ≤ m.length) :
    window (put m b xs) a (b + xs.length) = window m a b ++ xs := by
  rw [← window_append (put m b xs) hab (Nat.le_add_right b xs.length),
    window_put_before h (Nat.le_refl b), window_put_same h]

/-- Two writes one behind the other are one write. -/
theorem put_append {m : List α} {off : Nat} {xs : List α} (ys : List α)
    (h : off + xs.length ≤ m.length) :
    put (put m off xs) (off + xs.length) ys = put m off (xs ++ ys) := by
  have hlen : (m.take off ++ xs).length = off + xs.length := by
    simp only [List.length_append, List.length_take]; omega
  have htake : (m.take off ++ xs ++ m.drop (off + xs.length)).take (off + xs.length) =
      m.take off ++ xs := by
    rw [← hlen, List.take_left]
  have hdrop : (m.take off ++ xs ++ m.drop (off + xs.length)).drop (off + xs.length + ys.length) =
      m.drop (off + xs.length + ys.length) := by
    rw [List.drop_append, hlen, List.drop_of_length_le (by omega), List.nil_append, List.drop_drop]
    congr 1
    omega
  rw [put, put, htake, hdrop, put, List.length_append, ← Nat.add_assoc, ← List.append_assoc]

@[simp] theorem put_nil (m : List α) (off : Nat) : put m off [] = m := by
  rw [put, List.append_nil, List.length_nil, Nat.add_zero, List.take_append_drop]

/-- A write over the whole region. -/
theorem put_all {m xs : List α} (h : xs.length = m.length) : put m 0 xs = xs := by
  rw [put, List.take_zero, List.nil_append, List.drop_of_length_le (by omega), List.append_nil]

theorem read_eq {m : List α} {off n : Nat} (h : off + n ≤ m.length) :
    read m off n = .ok (window m off (off + n)) := by
  rw [read, if_pos h, window, Nat.add_sub_cancel_left]

/-- A piece of a region is read by its length. -/
theorem read_middle (xs ys zs : List α) :
    read (xs ++ (ys ++ zs)) xs.length ys.length = .ok ys := by
  have hle : xs.length + ys.length ≤ (xs ++ (ys ++ zs)).length := by
    simp only [List.length_append]
    omega
  rw [read, if_pos hle, List.drop_left, List.take_left]

theorem read_window {m : List α} {a b : Nat} (hab : a ≤ b) (hb : b ≤ m.length) :
    read m a (b - a) = .ok (window m a b) := by
  rw [read_eq (by omega), Nat.add_sub_cancel' hab]

theorem read_one {m : List α} {k : Nat} (h : k < m.length) : read m k 1 = .ok [m[k]] := by
  rw [read_eq (Nat.succ_le_of_lt h)]
  congr 1
  apply List.ext_getElem?
  intro i
  rw [window_getElem?]
  cases i with
  | zero => simp [h]
  | succ i => simp

theorem write_eq {m : List α} {off : Nat} {xs : List α} (h : off + xs.length ≤ m.length) :
    write m off xs = .ok (put m off xs) := if_pos h

theorem write_error {m : List α} {off : Nat} {xs : List α} (h : m.length < off + xs.length) :
    write m off xs = .error .outOfBounds := if_neg (Nat.not_le.mpr h)

/-- A write that goes on behind another one is within bounds where both are. -/
theorem write_append (m : List α) (off : Nat) (xs ys : List α) :
    (write m off xs >>= fun m => write m (off + xs.length) ys) = write m off (xs ++ ys) := by
  have hlen : off + (xs ++ ys).length = off + xs.length + ys.length := by
    rw [List.length_append, Nat.add_assoc]
  by_cases h : off + xs.length ≤ m.length
  · rw [write_eq h]
    change write (put m off xs) (off + xs.length) ys = _
    rw [write, put_length h, put_append ys h, write, hlen]
  · rw [write_error (Nat.not_le.mp h), write_error (by omega)]
    rfl

theorem move_eq {m : List α} {dst src n : Nat} (hsrc : src + n ≤ m.length)
    (hdst : dst + n ≤ m.length) :
    move m dst src n = .ok (put m dst (window m src (src + n))) := by
  have hlen : (window m src (src + n)).length = n := by
    rw [window_length m hsrc]; omega
  rw [move, read_eq hsrc]
  exact write_eq (by rw [hlen]; exact hdst)

variable [DecidableEq α]

theorem find_none {m : List α} {a b : Nat} {x : α} (hab : a ≤ b) (hb : b ≤ m.length)
    (h : x ∉ window m a b) : find m a (b - a) x = .ok none := by
  rw [find, read_window hab hb]
  have hnone : (window m a b).findIdx? (· == x) = none := by
    rw [List.findIdx?_eq_none_iff]
    intro y hy
    simpa using fun he : y = x => h (he ▸ hy)
  simp [Except.map, hnone]

theorem find_some {m : List α} {a b : Nat} {x : α} {xs ys : List α} (hab : a ≤ b)
    (hb : b ≤ m.length) (h : window m a b = xs ++ x :: ys) (hx : x ∉ xs) :
    find m a (b - a) x = .ok (some (a + xs.length)) := by
  rw [find, read_window hab hb, h]
  have hfirst : xs.findIdx? (· == x) = none := by
    rw [List.findIdx?_eq_none_iff]
    intro y hy
    simpa using fun he : y = x => hx (he ▸ hy)
  simp [Except.map, List.findIdx?_append, hfirst, List.findIdx?_cons]

theorem find_isSome {m : List α} {a b : Nat} {x : α} (hab : a ≤ b) (hb : b ≤ m.length) :
    ∃ i, find m a (b - a) x = .ok i ∧ (i.isSome ↔ x ∈ window m a b) := by
  by_cases h : x ∈ window m a b
  · obtain ⟨xs, ys, hsplit, hx⟩ := List.eq_append_cons_of_mem h
    exact ⟨_, find_some hab hb hsplit hx, by simp [h]⟩
  · exact ⟨none, find_none hab hb h, by simp [h]⟩

end Libzorpll.Region
