import Mathlib.Logic.Relation
import Mathlib.Data.Set.Card
import Mathlib.Data.Set.Finite.Basic

/-! Paths of a relation to which one edge is added, and the length of paths in
a finite relation without cycles. -/

namespace Libzorpll.Links

open Relation

variable {α : Type} {r r' : α → α → Prop} {x y a b : α}

def Adds (r r' : α → α → Prop) (x y : α) : Prop := ∀ a b, r' a b ↔ r a b ∨ (a = x ∧ b = y)

theorem reflTransGen_adds (h : Adds r r' x y) :
    ReflTransGen r' a b ↔ ReflTransGen r a b ∨ (ReflTransGen r a x ∧ ReflTransGen r y b) := by
  have hmono : ∀ a b, ReflTransGen r a b → ReflTransGen r' a b :=
    ReflTransGen.mono (fun a b hr => (h a b).mpr (.inl hr))
  constructor
  · intro hab
    induction hab with
    | refl => exact .inl .refl
    | tail _ hbc ih =>
        rcases (h _ _).mp hbc with hbc | ⟨rfl, rfl⟩
        · exact ih.imp (fun hab => hab.tail hbc) (fun hab => ⟨hab.1, hab.2.tail hbc⟩)
        · exact .inr ⟨ih.elim id And.left, .refl⟩
  · rintro (hab | ⟨hax, hyb⟩)
    · exact hmono a b hab
    · exact ((hmono a x hax).tail ((h x y).mpr (.inr ⟨rfl, rfl⟩))).trans (hmono y b hyb)

theorem transGen_adds (h : Adds r r' x y) :
    TransGen r' a b ↔ TransGen r a b ∨ (ReflTransGen r a x ∧ ReflTransGen r y b) := by
  constructor
  · intro hab
    obtain ⟨c, hac, hcb⟩ := TransGen.tail'_iff.mp hab
    rcases (h c b).mp hcb with hcb | ⟨rfl, rfl⟩
    · rcases (reflTransGen_adds h).mp hac with hac | ⟨hax, hyc⟩
      · exact .inl (.tail' hac hcb)
      · exact .inr ⟨hax, hyc.tail hcb⟩
    · rcases (reflTransGen_adds h).mp hac with hac | ⟨hax, -⟩
      · exact .inr ⟨hac, .refl⟩
      · exact .inr ⟨hax, .refl⟩
  · rintro (hab | ⟨hax, hyb⟩)
    · exact TransGen.mono (fun a b hr => (h a b).mpr (.inl hr)) _ _ hab
    · have hxy : r' x y := (h x y).mpr (.inr ⟨rfl, rfl⟩)
      exact ((TransGen.single hxy).trans_right ((reflTransGen_adds h).mpr (.inl hax))).trans_left
        ((reflTransGen_adds h).mpr (.inl hyb))

def Acyclic (r : α → α → Prop) : Prop := ∀ a, ¬TransGen r a a

theorem Acyclic.adds (h : Adds r r' x y) (hr : Acyclic r) (hxy : ¬ReflTransGen r y x) :
    Acyclic r' := by
  intro a ha
  rcases (transGen_adds h).mp ha with ha | ⟨hax, hya⟩
  · exact hr a ha
  · exact hxy (hya.trans hax)

theorem Acyclic.removes (h : Adds r r' x y) (hr : Acyclic r') : Acyclic r ∧ ¬ReflTransGen r y x := by
  refine ⟨fun a ha => hr a ((transGen_adds h).mpr (.inl ha)), fun hyx => ?_⟩
  exact hr x ((transGen_adds h).mpr (.inr ⟨.refl, hyx⟩))

/-- Where every place has at most one successor, a path that enters a cycle
stays on it. -/
theorem transGen_of_cycle (hr : ∀ a b c, r a b → r a c → b = c) (hx : TransGen r x x)
    (hxa : ReflTransGen r x a) : TransGen r a x := by
  induction hxa with
  | refl => exact hx
  | tail _ hbc ih =>
      obtain ⟨d, hbd, hdx⟩ := TransGen.head'_iff.mp ih
      obtain rfl := hr _ _ _ hbc hbd
      rcases reflTransGen_iff_eq_or_transGen.mp hdx with rfl | hdx
      · exact hx
      · exact hdx

/-- The number of places that can be reached. -/
noncomputable def reach (r : α → α → Prop) (a : α) : Nat := {b | TransGen r a b}.ncard

theorem reach_lt [Finite α] (hr : Acyclic r) (hab : r a b) : reach r b < reach r a := by
  refine Set.ncard_lt_ncard ⟨fun c hbc => TransGen.head hab hbc, fun hsub => ?_⟩ (Set.toFinite _)
  exact hr b (hsub (TransGen.single hab))

theorem reach_le [Fintype α] (r : α → α → Prop) (a : α) : reach r a ≤ Fintype.card α := by
  rw [← Nat.card_eq_fintype_card]
  exact Set.ncard_le_card _

end Libzorpll.Links
