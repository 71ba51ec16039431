import Mathlib.Logic.Function.Basic
import Mathlib.Data.List.Basic
import Mathlib.Data.List.Nodup

/-! Tokens that are kept in places, each of which is given back once. -/

namespace Libzorpll.Custody

inductive Event (τ : Type)
  | acquired (t : τ)
  | released (t : τ)
  | lost (t : τ)
  deriving DecidableEq

variable {σ τ : Type}

def Held (holds : σ → Option τ) (t : τ) : Prop := ∃ a, holds a = some t

variable [DecidableEq τ]

/-- How often a token has left. -/
def gone (t : τ) (es : List (Event τ)) : Nat := es.count (.released t) + es.count (.lost t)

structure Kept (es : List (Event τ)) (holds : σ → Option τ) : Prop where
  acquired : ∀ t, Held holds t → .acquired t ∈ es
  single : ∀ a b t, holds a = some t → holds b = some t → a = b
  held : ∀ t, Held holds t → gone t es = 0
  unheld : ∀ t, .acquired t ∈ es → ¬Held holds t → gone t es = 1
  unknown : ∀ t, .acquired t ∉ es → gone t es = 0

variable {es : List (Event τ)} {holds holds' : σ → Option τ}

theorem gone_append (t : τ) (es new : List (Event τ)) : gone t (es ++ new) = gone t es + gone t new := by
  rw [gone, gone, gone, List.count_append, List.count_append]
  omega

theorem Kept.nil : Kept ([] : List (Event τ)) (fun _ : σ => none) where
  acquired := by
    rintro t ⟨a, ha⟩
    cases ha
  single := by
    intro a b t ha
    cases ha
  held := by
    intro t _
    rfl
  unheld := by
    intro t ht
    cases ht
  unknown := by
    intro t _
    rfl

/-- Tokens can change places. -/
theorem Kept.rearrange (h : Kept es holds) (hheld : ∀ t, Held holds' t ↔ Held holds t)
    (hsingle : ∀ a b t, holds' a = some t → holds' b = some t → a = b) : Kept es holds' where
  acquired := by
    intro t ht
    exact h.acquired t ((hheld t).mp ht)
  single := hsingle
  held := by
    intro t ht
    exact h.held t ((hheld t).mp ht)
  unheld := by
    intro t hin ht
    exact h.unheld t hin (fun hold => ht ((hheld t).mpr hold))
  unknown := h.unknown

variable [DecidableEq σ]

omit [DecidableEq τ] in
theorem held_update_some {a : σ} (ha : holds a = none) (t u : τ) :
    Held (Function.update holds a (some t)) u ↔ Held holds u ∨ u = t := by
  constructor
  · rintro ⟨b, hb⟩
    by_cases hba : b = a
    · rw [hba, Function.update_self, Option.some.injEq] at hb
      exact .inr hb.symm
    · rw [Function.update_of_ne hba] at hb
      exact .inl ⟨b, hb⟩
  · rintro (⟨b, hb⟩ | rfl)
    · have hba : b ≠ a := by
        rintro rfl
        rw [ha] at hb
        cases hb
      exact ⟨b, by rw [Function.update_of_ne hba, hb]⟩
    · exact ⟨a, Function.update_self a _ holds⟩

/-- A new token in a free place. -/
theorem Kept.acquire (h : Kept es holds) {a : σ} {t : τ} (ha : holds a = none)
    (ht : .acquired t ∉ es) : Kept (es ++ [.acquired t]) (Function.update holds a (some t)) := by
  have hgone (u : τ) : gone u (es ++ [.acquired t]) = gone u es := by
    rw [gone_append]
    simp [gone]
  have hnot : ¬Held holds t := fun hold => ht (h.acquired t hold)
  constructor
  · intro u hu
    rw [List.mem_append, List.mem_singleton]
    rcases (held_update_some ha t u).mp hu with hu | rfl
    · exact .inl (h.acquired u hu)
    · exact .inr rfl
  · intro b c u hb hc
    by_cases hba : b = a <;> by_cases hca : c = a
    · exact hba.trans hca.symm
    · rw [hba, Function.update_self, Option.some.injEq] at hb
      rw [Function.update_of_ne hca, ← hb] at hc
      exact absurd ⟨c, hc⟩ hnot
    · rw [hca, Function.update_self, Option.some.injEq] at hc
      rw [Function.update_of_ne hba, ← hc] at hb
      exact absurd ⟨b, hb⟩ hnot
    · rw [Function.update_of_ne hba] at hb
      rw [Function.update_of_ne hca] at hc
      exact h.single b c u hb hc
  · intro u hu
    rw [hgone]
    rcases (held_update_some ha t u).mp hu with hu | rfl
    · exact h.held u hu
    · exact h.unknown u ht
  · intro u hin hu
    rw [hgone]
    rw [List.mem_append, List.mem_singleton] at hin
    rw [held_update_some ha] at hu
    rcases hin with hin | heq
    · exact h.unheld u hin (fun hold => hu (.inl hold))
    · exact absurd (.inr (Event.acquired.inj heq)) hu
  · intro u hu
    rw [hgone]
    exact h.unknown u (fun hin => hu (List.mem_append_left _ hin))

/-- A token leaves its place, given back or lost. -/
theorem Kept.leave (h : Kept es holds) {f : τ → Event τ} (hf : f = .released ∨ f = .lost) (a : σ) :
    Kept (es ++ (holds a).toList.map f) (Function.update holds a none) := by
  cases ha : holds a with
  | none =>
      have hsame : Function.update holds a none = holds := by
        rw [← ha]
        exact Function.update_eq_self a holds
      rw [hsame, Option.toList_none, List.map_nil, List.append_nil]
      exact h
  | some t =>
      have hgone (u : τ) : gone u (es ++ (some t).toList.map f) = gone u es + if u = t then 1 else 0 := by
        rw [gone_append]
        rcases hf with rfl | rfl <;> by_cases hut : t = u <;>
          simp [gone, hut, eq_comm]
      have hin (u : τ) : Event.acquired u ∈ es ++ (some t).toList.map f ↔ .acquired u ∈ es := by
        rcases hf with rfl | rfl <;> simp
      have hheld (u : τ) : Held (Function.update holds a none) u ↔ Held holds u ∧ u ≠ t := by
        constructor
        · rintro ⟨b, hb⟩
          have hba : b ≠ a := by
            rintro rfl
            rw [Function.update_self] at hb
            cases hb
          rw [Function.update_of_ne hba] at hb
          refine ⟨⟨b, hb⟩, ?_⟩
          rintro rfl
          exact hba (h.single b a u hb ha)
        · rintro ⟨⟨b, hb⟩, hut⟩
          have hba : b ≠ a := by
            rintro rfl
            exact hut (Option.some.inj (hb.symm.trans ha))
          exact ⟨b, by rw [Function.update_of_ne hba, hb]⟩
      constructor
      · intro u hu
        exact (hin u).mpr (h.acquired u ((hheld u).mp hu).1)
      · intro b c u hb hc
        have hba : b ≠ a := by
          rintro rfl
          rw [Function.update_self] at hb
          cases hb
        have hca : c ≠ a := by
          rintro rfl
          rw [Function.update_self] at hc
          cases hc
        rw [Function.update_of_ne hba] at hb
        rw [Function.update_of_ne hca] at hc
        exact h.single b c u hb hc
      · intro u hu
        have hu := (hheld u).mp hu
        rw [hgone, if_neg hu.2]
        exact h.held u hu.1
      · intro u hacq hu
        rw [hgone]
        by_cases hut : u = t
        · rw [if_pos hut, hut, h.held t ⟨a, ha⟩]
        · rw [if_neg hut]
          exact h.unheld u ((hin u).mp hacq) (fun hold => hu ((hheld u).mpr ⟨hold, hut⟩))
      · intro u hu
        have hut : u ≠ t := by
          rintro rfl
          exact hu ((hin u).mpr (h.acquired u ⟨a, ha⟩))
        rw [hgone, if_neg hut]
        exact h.unknown u (fun hacq => hu ((hin u).mpr hacq))

/-- A token moves to a free place. -/
theorem Kept.move (h : Kept es holds) {a b : σ} (hb : holds b = none) :
    Kept es (Function.update (Function.update holds b (holds a)) a none) := by
  have hfrom (x : σ) (t : τ)
      (hx : Function.update (Function.update holds b (holds a)) a none x = some t) :
      x ≠ a ∧ holds (if x = b then a else x) = some t := by
    by_cases hxa : x = a
    · rw [hxa, Function.update_self] at hx
      cases hx
    · rw [Function.update_of_ne hxa] at hx
      refine ⟨hxa, ?_⟩
      by_cases hxb : x = b
      · rw [hxb, Function.update_self] at hx
        rw [if_pos hxb]
        exact hx
      · rw [Function.update_of_ne hxb] at hx
        rw [if_neg hxb]
        exact hx
  apply h.rearrange
  · intro t
    constructor
    · rintro ⟨x, hx⟩
      exact ⟨_, (hfrom x t hx).2⟩
    · rintro ⟨x, hx⟩
      have hxb : x ≠ b := by
        rintro rfl
        rw [hb] at hx
        cases hx
      by_cases hxa : x = a
      · refine ⟨b, ?_⟩
        have hba : b ≠ a := fun heq => hxb (hxa.trans heq.symm)
        rw [Function.update_of_ne hba, Function.update_self, ← hxa]
        exact hx
      · refine ⟨x, ?_⟩
        rw [Function.update_of_ne hxa, Function.update_of_ne hxb]
        exact hx
  · intro x y t hx hy
    obtain ⟨hxa, hx⟩ := hfrom x t hx
    obtain ⟨hya, hy⟩ := hfrom y t hy
    have heq := h.single _ _ t hx hy
    by_cases hxb : x = b <;> by_cases hyb : y = b
    · exact hxb.trans hyb.symm
    · rw [if_pos hxb, if_neg hyb] at heq
      exact absurd heq.symm hya
    · rw [if_neg hxb, if_pos hyb] at heq
      exact absurd heq hxa
    · rw [if_neg hxb, if_neg hyb] at heq
      exact heq

theorem Kept.gone_le_one (h : Kept es holds) (t : τ) : gone t es ≤ 1 := by
  by_cases hin : .acquired t ∈ es
  · by_cases hold : Held holds t
    · rw [h.held t hold]
      exact Nat.zero_le 1
    · exact Nat.le_of_eq (h.unheld t hin hold)
  · rw [h.unknown t hin]
    exact Nat.zero_le 1

/-- The tokens of several places leave, one after the other. -/
theorem Kept.leaveAll {f : τ → Event τ} (hf : f = .released ∨ f = .lost) (l : List σ)
    (hl : l.Nodup) (h : Kept es holds) (hin : ∀ x ∈ l, holds' x = none)
    (hout : ∀ x, x ∉ l → holds' x = holds x) :
    Kept (es ++ l.flatMap (fun a => (holds a).toList.map f)) holds' := by
  induction l generalizing es holds with
  | nil =>
      have hsame : holds' = holds := by
        funext x
        exact hout x List.not_mem_nil
      rw [hsame, List.flatMap_nil, List.append_nil]
      exact h
  | cons a l ih =>
      obtain ⟨hal, hl⟩ := List.nodup_cons.mp hl
      have hothers : l.flatMap (fun b => (Function.update holds a none b).toList.map f) =
          l.flatMap (fun b => (holds b).toList.map f) := by
        apply List.flatMap_congr
        intro b hb
        have hba : b ≠ a := by
          rintro rfl
          exact hal hb
        rw [Function.update_of_ne hba]
      have hnext := ih hl (h.leave hf a) (fun x hx => hin x (List.mem_cons_of_mem a hx)) (by
        intro x hx
        by_cases hxa : x = a
        · rw [hxa, Function.update_self]
          exact hin a List.mem_cons_self
        · rw [Function.update_of_ne hxa]
          exact hout x (fun hmem => (List.mem_cons.mp hmem).elim hxa hx))
      rw [hothers, List.append_assoc] at hnext
      exact hnext

section Rows

variable {α β : Type} [DecidableEq α] {held : α × β → Option τ}

/-- A row of places takes over the tokens of another row. -/
def moveRow (a b : α) (held : α × β → Option τ) (x : α × β) : Option τ :=
  if x.1 = b then held (a, x.2) else if x.1 = a then none else held x

theorem Kept.moveRow (h : Kept es held) {a b : α} (hb : ∀ d, held (b, d) = none) :
    Kept es (moveRow a b held) := by
  have hfrom : ∀ x t, Custody.moveRow a b held x = some t → held (if x.1 = b then a else x.1, x.2) = some t ∧
      (x.1 ≠ b → x.1 ≠ a) := by
    intro x t hx
    rw [Custody.moveRow] at hx
    split at hx
    · rename_i hxb
      rw [if_pos hxb]
      exact ⟨hx, fun hne => absurd hxb hne⟩
    · rename_i hxb
      split at hx
      · cases hx
      · rename_i hxa
        rw [if_neg hxb]
        exact ⟨hx, fun _ => hxa⟩
  apply h.rearrange
  · intro t
    constructor
    · rintro ⟨x, hx⟩
      exact ⟨_, (hfrom x t hx).1⟩
    · rintro ⟨x, hx⟩
      by_cases hxa : x.1 = a
      · refine ⟨(b, x.2), ?_⟩
        rw [Custody.moveRow, if_pos rfl, ← hxa]
        exact hx
      · have hxb : x.1 ≠ b := by
          intro hxb
          have hnone := hb x.2
          rw [← hxb] at hnone
          rw [hnone] at hx
          cases hx
        refine ⟨x, ?_⟩
        rw [Custody.moveRow, if_neg hxb, if_neg hxa]
        exact hx
  · intro x y t hx hy
    obtain ⟨hx, hxa⟩ := hfrom x t hx
    obtain ⟨hy, hya⟩ := hfrom y t hy
    have heq := Prod.mk.inj (h.single _ _ t hx hy)
    refine Prod.ext ?_ heq.2
    by_cases hxb : x.1 = b <;> by_cases hyb : y.1 = b
    · exact hxb.trans hyb.symm
    · rw [if_pos hxb, if_neg hyb] at heq
      exact absurd heq.1.symm (hya hyb)
    · rw [if_neg hxb, if_pos hyb] at heq
      exact absurd heq.1 (hxa hxb)
    · rw [if_neg hxb, if_neg hyb] at heq
      exact heq.1

end Rows

end Libzorpll.Custody
