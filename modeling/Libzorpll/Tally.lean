import Mathlib.Data.UInt
import Mathlib.Algebra.BigOperators.Group.Finset.Basic
import Mathlib.Algebra.Order.BigOperators.Group.List
import Mathlib.Algebra.Order.Group.Int

/-! A number kept for each member of a changing list without repetitions. -/

namespace Libzorpll.Tally

variable {ι : Type}

def total (l : List ι) (f : ι → Int) : Int := (l.map f).sum

theorem total_nonneg {l : List ι} {f : ι → Int} (h : ∀ c, 0 ≤ f c) : 0 ≤ total l f := by
  apply List.sum_nonneg
  intro x hx
  obtain ⟨c, -, rfl⟩ := List.mem_map.mp hx
  exact h c

variable [DecidableEq ι]

/-- Those that are no members may be counted, where they have zero. -/
theorem total_eq_sum {l : List ι} {f : ι → Int} (hl : l.Nodup) (hf : ∀ c, c ∉ l → f c = 0)
    {u : Finset ι} (hu : l.toFinset ⊆ u) : total l f = u.sum f := by
  rw [total, ← List.sum_toFinset f hl]
  apply Finset.sum_subset hu
  intro c _ hc
  exact hf c (fun hmem => hc (List.mem_toFinset.mpr hmem))

variable {l l' : List ι} {f g : ι → Int}

theorem total_same (hl : l.Nodup) (hl' : l'.Nodup) (hf : ∀ c, c ∉ l → f c = 0)
    (hg : ∀ c, c ∉ l' → g c = 0) (h : ∀ c, g c = f c) : total l' g = total l f := by
  rw [total_eq_sum hl hf Finset.subset_union_left, total_eq_sum hl' hg Finset.subset_union_right]
  exact Finset.sum_congr rfl (fun c _ => h c)

/-- Where one member changes, comes or goes, the total changes with it. -/
theorem total_change (hl : l.Nodup) (hl' : l'.Nodup) (hf : ∀ c, c ∉ l → f c = 0)
    (hg : ∀ c, c ∉ l' → g c = 0) (b : ι) (h : ∀ c, c ≠ b → g c = f c) :
    total l' g = total l f + (g b - f b) := by
  have hu : l.toFinset ⊆ insert b (l.toFinset ∪ l'.toFinset) :=
    Finset.subset_union_left.trans (Finset.subset_insert _ _)
  have hu' : l'.toFinset ⊆ insert b (l.toFinset ∪ l'.toFinset) :=
    Finset.subset_union_right.trans (Finset.subset_insert _ _)
  rw [total_eq_sum hl hf hu, total_eq_sum hl' hg hu']
  have hb : b ∈ insert b (l.toFinset ∪ l'.toFinset) := Finset.mem_insert_self _ _
  rw [← Finset.add_sum_erase _ g hb, ← Finset.add_sum_erase _ f hb]
  have hrest : ∑ c ∈ (insert b (l.toFinset ∪ l'.toFinset)).erase b, g c =
      ∑ c ∈ (insert b (l.toFinset ∪ l'.toFinset)).erase b, f c :=
    Finset.sum_congr rfl (fun c hc => h c (Finset.ne_of_mem_erase hc))
  rw [hrest]
  omega

end Libzorpll.Tally
