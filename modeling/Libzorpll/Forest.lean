import Mathlib.Order.Basic

/-! Trees by the parents of their nodes. -/

namespace Libzorpll.Forest

/-- Every way up comes to an end. -/
structure Parents (C : Type) where
  parent : C → Option C
  height : C → Nat
  parent_height {c p : C} : parent c = some p → height p < height c

variable {C : Type}

theorem Parents.induct (F : Parents C) {P : C → Prop} (hroot : ∀ c, F.parent c = none → P c)
    (hchild : ∀ c p, F.parent c = some p → P p → P c) (c : C) : P c := by
  generalize hn : F.height c = n
  induction n using Nat.strongRecOn generalizing c with
  | ind n ih =>
      cases hp : F.parent c with
      | none => exact hroot c hp
      | some p => exact hchild c p hp (ih (F.height p) (hn ▸ F.parent_height hp) p rfl)

/-- A node and all that are above it. -/
def Parents.ancestry (F : Parents C) (c : C) : List C :=
  match _h : F.parent c with
  | none => [c]
  | some p => c :: F.ancestry p
termination_by F.height c
decreasing_by exact F.parent_height _h

variable {F : Parents C} {c p : C}

theorem Parents.ancestry_root (h : F.parent c = none) : F.ancestry c = [c] := by
  rw [ancestry]
  split
  · rfl
  · rename_i p hp
    cases h.symm.trans hp

theorem Parents.ancestry_child (h : F.parent c = some p) : F.ancestry c = c :: F.ancestry p := by
  rw [ancestry]
  split
  · rename_i hp
    cases h.symm.trans hp
  · rename_i q hq
    cases h.symm.trans hq
    rfl

/-- What goes from a node to its parent goes to all of its ancestors. -/
theorem Parents.ancestry_closed {P : C → Prop} (hup : ∀ c p, P c → F.parent c = some p → P p) (h : P c) :
    ∀ d ∈ F.ancestry c, P d := by
  induction c using F.induct with
  | hroot c hp =>
      intro d hd
      rw [ancestry_root hp, List.mem_singleton] at hd
      exact hd ▸ h
  | hchild c p hp ih =>
      intro d hd
      rw [ancestry_child hp, List.mem_cons] at hd
      obtain rfl | hd := hd
      · exact h
      · exact ih (hup c p h hp) d hd

end Libzorpll.Forest
