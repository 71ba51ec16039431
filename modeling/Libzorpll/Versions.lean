import Mathlib.Data.List.Infix
import Mathlib.Logic.Function.Basic

/-! Tables that remember values of a function which changes from version to
version. -/

namespace Libzorpll.Versions

variable {σ κ β γ : Type}

/-- One of the versions from a number on. -/
def Since (history : List σ) (since : Nat) (P : σ → Prop) : Prop :=
  ∃ v x, since ≤ v ∧ history[v]? = some x ∧ P x

variable {history longer : List σ} {since since' : Nat} {P Q : σ → Prop}

theorem Since.imp (h : Since history since P) (hPQ : ∀ x, P x → Q x) : Since history since Q := by
  obtain ⟨v, x, hv, hx, hP⟩ := h
  exact ⟨v, x, hv, hx, hPQ x hP⟩

theorem Since.mono (h : Since history since P) (hle : since' ≤ since) : Since history since' P := by
  obtain ⟨v, x, hv, hx, hP⟩ := h
  exact ⟨v, x, Nat.le_trans hle hv, hx, hP⟩

theorem Since.later (h : Since history since P) (hmore : history <+: longer) : Since longer since P := by
  obtain ⟨v, x, hv, hx, hP⟩ := h
  obtain ⟨more, rfl⟩ := hmore
  refine ⟨v, x, hv, ?_, hP⟩
  rw [List.getElem?_append_left (List.getElem?_eq_some_iff.mp hx).1, hx]

/-- The version that is there now. -/
theorem Since.now {x : σ} (hlast : history.getLast? = some x) (hsince : since < history.length) (hP : P x) :
    Since history since P := by
  refine ⟨history.length - 1, x, by omega, ?_, hP⟩
  rw [← List.getLast?_eq_getElem?, hlast]

variable [Zero γ]

/-- What the table knows is a value of one of the versions, in its encoding. -/
def Fresh (encode : β → γ) (f : σ → κ → β) (history : List σ) (since : Nat) (table : κ → γ) : Prop :=
  ∀ k, table k ≠ 0 → Since history since fun x => table k = encode (f x k)

variable {encode : β → γ} {f : σ → κ → β} {table : κ → γ}

theorem fresh_empty (encode : β → γ) (f : σ → κ → β) (history : List σ) (since : Nat) :
    Fresh encode f history since fun _ => 0 := fun _ h => absurd rfl h

theorem Fresh.mono (h : Fresh encode f history since table) (hle : since' ≤ since) :
    Fresh encode f history since' table := fun k hk => (h k hk).mono hle

theorem Fresh.later (h : Fresh encode f history since table) (hmore : history <+: longer) :
    Fresh encode f longer since table := fun k hk => (h k hk).later hmore

theorem Fresh.store [DecidableEq κ] (h : Fresh encode f history since table) {k : κ} {value : β}
    (hvalue : Since history since fun x => value = f x k) :
    Fresh encode f history since (Function.update table k (encode value)) := by
  intro l hl
  by_cases hlk : l = k
  · rw [hlk, Function.update_self]
    exact hvalue.imp fun x hx => congrArg encode hx
  · rw [Function.update_of_ne hlk] at hl ⊢
    exact h l hl

end Libzorpll.Versions
