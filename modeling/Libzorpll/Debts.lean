import Mathlib.Algebra.BigOperators.Group.Finset.Basic
import Mathlib.Algebra.Order.BigOperators.Group.Finset
import Mathlib.Algebra.Order.Group.Int
import Mathlib.Data.Fintype.BigOperators

/-! What a number of debtors have yet to give back, each of them by a list of
things to do. -/

namespace Libzorpll.Debts

variable {A F : Type} {w : F → Int} {f : F} {l : List F}

def owed (w : F → Int) : List F → Int
  | [] => 0
  | f :: l => w f + owed w l

@[simp] theorem owed_nil (w : F → Int) : owed w [] = 0 := rfl

@[simp] theorem owed_cons (w : F → Int) (f : F) (l : List F) : owed w (f :: l) = w f + owed w l := rfl

@[simp] theorem owed_append (w : F → Int) (l l' : List F) : owed w (l ++ l') = owed w l + owed w l' := by
  induction l with
  | nil => exact (Int.zero_add _).symm
  | cons f l ih =>
      rw [List.cons_append, owed_cons, owed_cons, ih]
      omega

theorem owed_nonneg (hw : ∀ f, 0 ≤ w f) (l : List F) : 0 ≤ owed w l := by
  induction l with
  | nil => exact Int.le_refl 0
  | cons f l ih =>
      rw [owed_cons]
      exact Int.add_nonneg (hw f) ih

theorem owed_pos (hw : ∀ f, 0 ≤ w f) (hmem : f ∈ l) (hf : 0 < w f) : 0 < owed w l := by
  induction l with
  | nil => cases hmem
  | cons g l ih =>
      have hg := hw g
      have hl := owed_nonneg hw l
      rw [owed_cons]
      rcases List.mem_cons.mp hmem with rfl | hmem
      · omega
      · have hpos := ih hmem
        omega

theorem owed_eq_zero (h : ∀ f ∈ l, w f = 0) : owed w l = 0 := by
  induction l with
  | nil => rfl
  | cons f l ih =>
      rw [owed_cons, h f List.mem_cons_self, ih fun g hg => h g (List.mem_cons_of_mem _ hg)]
      rfl

variable [Fintype A] {todo : A → List F} {a : A}

def debt (w : F → Int) (todo : A → List F) : Int := ∑ a, owed w (todo a)

theorem debt_nonneg (hw : ∀ f, 0 ≤ w f) (todo : A → List F) : 0 ≤ debt w todo :=
  Finset.sum_nonneg fun a _ => owed_nonneg hw (todo a)

theorem owed_le_debt (hw : ∀ f, 0 ≤ w f) (todo : A → List F) (a : A) : owed w (todo a) ≤ debt w todo :=
  Finset.single_le_sum (f := fun a => owed w (todo a)) (fun a _ => owed_nonneg hw (todo a)) (Finset.mem_univ a)

theorem debt_pos (hw : ∀ f, 0 ≤ w f) (hmem : f ∈ todo a) (hf : 0 < w f) : 0 < debt w todo :=
  lt_of_lt_of_le (owed_pos hw hmem hf) (owed_le_debt hw todo a)

theorem debt_eq_zero (h : ∀ a, ∀ f ∈ todo a, w f = 0) : debt w todo = 0 :=
  Finset.sum_eq_zero fun a _ => owed_eq_zero (h a)

variable [DecidableEq A]

theorem sum_update (f : A → Int) (a : A) (x : Int) : ∑ b, Function.update f a x b = ∑ b, f b - f a + x := by
  rw [← Finset.add_sum_erase _ _ (Finset.mem_univ a), ← Finset.add_sum_erase _ f (Finset.mem_univ a),
    Function.update_self]
  have hrest : ∑ b ∈ Finset.univ.erase a, Function.update f a x b = ∑ b ∈ Finset.univ.erase a, f b :=
    Finset.sum_congr rfl fun b hb => Function.update_of_ne (Finset.ne_of_mem_erase hb) _ _
  rw [hrest]
  omega

/-- One of them has something else to do. -/
theorem debt_update (w : F → Int) (todo : A → List F) (a : A) (l : List F) :
    debt w (Function.update todo a l) = debt w todo - owed w (todo a) + owed w l := by
  have hcomp := Function.comp_update (owed w) todo a l
  have hsum := sum_update (owed w ∘ todo) a (owed w l)
  rw [← hcomp] at hsum
  exact hsum

theorem owed_add_le_debt (hw : ∀ f, 0 ≤ w f) {b : A} (hb : b ≠ a) : owed w (todo a) + owed w (todo b) ≤ debt w todo := by
  have hupdate := debt_update w todo a []
  have hle := owed_le_debt hw (Function.update todo a []) b
  rw [Function.update_of_ne hb] at hle
  rw [owed_nil] at hupdate
  omega

/-- Where only one thing is owed, there is nothing else to give back. -/
theorem alone (hw : ∀ f, 0 ≤ w f) (hdebt : debt w todo ≤ 1) {f : F} {rest : List F} (htodo : todo a = f :: rest) (hf : 0 < w f) :
    (∀ g ∈ rest, w g = 0) ∧ ∀ b, b ≠ a → ∀ g ∈ todo b, w g = 0 := by
  have howed := owed_cons w f rest
  rw [← htodo] at howed
  constructor
  · intro g hg
    by_contra hne
    have hpos := owed_pos hw hg (lt_of_le_of_ne (hw g) (Ne.symm hne))
    have hle := owed_le_debt hw todo a
    omega
  · intro b hb g hg
    by_contra hne
    have hpos := owed_pos hw hg (lt_of_le_of_ne (hw g) (Ne.symm hne))
    have hle : owed w (todo a) + owed w (todo b) ≤ debt w todo := owed_add_le_debt hw hb
    have hrest := owed_nonneg hw rest
    omega

end Libzorpll.Debts
