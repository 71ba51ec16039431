import Mathlib.Data.Option.Basic

/-! A mutex that its owner can lock again. -/

namespace Libzorpll.RecMutex

variable {α : Type} [DecidableEq α]

/-- The owner and how often more than once it has locked. -/
abbrev Mutex (α : Type) := Option (α × Nat)

/-- Nothing, where the caller has to wait. -/
def acquire (a : α) : Mutex α → Option (Mutex α)
  | none => some (some (a, 0))
  | some (b, n) => if a = b then some (some (b, n + 1)) else none

def release : Mutex α → Mutex α
  | none => none
  | some (_, 0) => none
  | some (b, n + 1) => some (b, n)

def depth (m : Mutex α) (a : α) : Nat :=
  match m with
  | none => 0
  | some (b, n) => if a = b then n + 1 else 0

variable {m m' : Mutex α} {a b : α}

theorem exclusive (ha : 0 < depth m a) (hb : 0 < depth m b) : a = b := by
  rcases m with - | ⟨c, n⟩
  · exact absurd ha (Nat.lt_irrefl 0)
  · rw [depth] at ha hb
    split at ha
    · split at hb
      · rename_i hac hbc
        exact hac.trans hbc.symm
      · exact absurd hb (Nat.lt_irrefl 0)
    · exact absurd ha (Nat.lt_irrefl 0)

theorem depth_acquire (h : acquire a m = some m') (b : α) :
    depth m' b = depth m b + if b = a then 1 else 0 := by
  rcases m with - | ⟨c, n⟩
  · cases h
    rw [depth, depth, Nat.zero_add, Nat.zero_add]
  · rw [acquire] at h
    split at h
    · rename_i hac
      cases h
      rw [depth, depth, hac]
      split
      · rfl
      · rfl
    · cases h

theorem depth_release (h : 0 < depth m a) (b : α) :
    depth (release m) b = depth m b - if b = a then 1 else 0 := by
  rcases m with - | ⟨c, n⟩
  · exact absurd h (Nat.lt_irrefl 0)
  · rw [depth] at h
    split at h
    · rename_i hac
      cases n with
      | zero =>
          rw [release, depth, depth, hac]
          split
          · rfl
          · rfl
      | succ n =>
          rw [release, depth, depth, hac]
          split
          · rfl
          · rfl
    · exact absurd h (Nat.lt_irrefl 0)

end Libzorpll.RecMutex
