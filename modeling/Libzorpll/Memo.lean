import Mathlib.Logic.Function.Basic

/-! Tables that remember values of a function, with zero for what they do not
know yet. -/

namespace Libzorpll.Memo

variable {κ β γ : Type} [Zero γ]

/-- What the table knows is a value of the function, in its encoding. -/
def Agrees (encode : β → γ) (f : κ → β) (table : κ → γ) : Prop := ∀ k, table k ≠ 0 → table k = encode (f k)

variable {encode : β → γ} {f : κ → β} {table : κ → γ}

theorem agrees_empty (encode : β → γ) (f : κ → β) : Agrees encode f fun _ => 0 := fun _ h => absurd rfl h

theorem agrees_store [DecidableEq κ] (h : Agrees encode f table) (k : κ) :
    Agrees encode f (Function.update table k (encode (f k))) := by
  intro l hl
  by_cases hlk : l = k
  · rw [hlk, Function.update_self]
  · rw [Function.update_of_ne hlk] at hl ⊢
    exact h l hl

end Libzorpll.Memo
