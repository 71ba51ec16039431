import Mathlib.Data.List.Basic

/-! Runs of a relation whose steps have an action and leave events. -/

namespace Libzorpll.Trace

variable {ι σ ε : Type}

/-- A run all of whose actions are allowed in the states they are taken in. -/
inductive Steps (step : ι → σ → List ε → σ → Prop) (P : ι → σ → Prop) : σ → List ε → σ → Prop
  | nil (s : σ) : Steps step P s [] s
  | snoc {s t u : σ} {es new : List ε} {i : ι} (h : Steps step P s es t) (hstep : step i t new u)
      (hP : P i t) : Steps step P s (es ++ new) u

variable {step : ι → σ → List ε → σ → Prop} {P Q : ι → σ → Prop} {s t : σ} {es : List ε}

theorem Steps.mono (hPQ : ∀ i s, P i s → Q i s) (h : Steps step P s es t) : Steps step Q s es t := by
  induction h with
  | nil => exact .nil _
  | snoc _ hstep hP ih => exact .snoc ih hstep (hPQ _ _ hP)

/-- What every step keeps holds after every run. -/
theorem Steps.invariant (h : Steps step P s es t) (Inv : List ε → σ → Prop) (hstart : Inv [] s)
    (hkeeps : ∀ i es s new t, Inv es s → P i s → step i s new t → Inv (es ++ new) t) : Inv es t := by
  induction h with
  | nil => exact hstart
  | snoc _ hstep hP ih => exact hkeeps _ _ _ _ _ ih hP hstep

end Libzorpll.Trace
