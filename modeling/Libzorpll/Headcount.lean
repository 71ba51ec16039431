import Mathlib.Data.Set.Card

/-! A counter of the members of a set that come and go. -/

namespace Libzorpll.Headcount

variable {α : Type}

structure Counts (members : Set α) (n : Int) : Prop where
  finite : members.Finite
  count : n = members.ncard

variable {members : Set α} {n : Int}

theorem Counts.empty : Counts (∅ : Set α) 0 where
  finite := Set.finite_empty
  count := by rw [Set.ncard_empty, Int.natCast_zero]

theorem Counts.join (h : Counts members n) {a : α} (ha : a ∉ members) :
    Counts (insert a members) (n + 1) where
  finite := h.finite.insert a
  count := by
    rw [Set.ncard_insert_of_notMem ha h.finite, h.count]
    rfl

theorem Counts.quit (h : Counts members n) {a : α} (ha : a ∈ members) :
    Counts (members \ {a}) (n - 1) where
  finite := h.finite.sdiff
  count := by
    have hcard := Set.ncard_sdiff_singleton_add_one ha h.finite
    rw [h.count, ← hcard]
    omega

theorem Counts.nonempty (h : Counts members n) (hn : 0 < n) : members.Nonempty := by
  apply (Set.ncard_pos h.finite).mp
  have hcount := h.count
  omega

end Libzorpll.Headcount
