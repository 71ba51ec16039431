import Mathlib.Data.List.Basic

/-! Machines that answer each input, and states that no inputs tell apart. -/

namespace Libzorpll.Observe

variable {σ ι ο : Type} {step : ι → σ → ο × σ}

def outputs (step : ι → σ → ο × σ) : List ι → σ → List ο
  | [], _ => []
  | i :: is, s => (step i s).1 :: outputs step is (step i s).2

def after (step : ι → σ → ο × σ) : List ι → σ → σ
  | [], s => s
  | i :: is, s => after step is (step i s).2

def Reachable (step : ι → σ → ο × σ) (start s : σ) : Prop := ∃ is, after step is start = s

/-- Every later sequence of inputs gets the same answers. -/
def Alike (step : ι → σ → ο × σ) (s t : σ) : Prop := ∀ is, outputs step is s = outputs step is t

/-- Related states give the same answer and go on to related ones. -/
def Bisimulation (step : ι → σ → ο × σ) (R : σ → σ → Prop) : Prop :=
  ∀ i s t, R s t → (step i s).1 = (step i t).1 ∧ R (step i s).2 (step i t).2

theorem Bisimulation.alike {R : σ → σ → Prop} (h : Bisimulation step R) {s t : σ} (hst : R s t) :
    Alike step s t := by
  intro is
  induction is generalizing s t with
  | nil => rfl
  | cons i is ih =>
      obtain ⟨hout, hnext⟩ := h i s t hst
      rw [outputs, outputs, hout, ih hnext]

theorem Alike.next {s t : σ} (h : Alike step s t) (i : ι) : Alike step (step i s).2 (step i t).2 := by
  intro is
  have hall := h (i :: is)
  rw [outputs, outputs] at hall
  exact (List.cons.inj hall).2

theorem Alike.output {s t : σ} (h : Alike step s t) (i : ι) : (step i s).1 = (step i t).1 := by
  have hall := h [i]
  rw [outputs, outputs] at hall
  exact (List.cons.inj hall).1

/-- An invariant of the steps holds in every state that is reached. -/
theorem reachable_induct (Inv : σ → Prop) (hstep : ∀ i s, Inv s → Inv (step i s).2) {start s : σ}
    (hstart : Inv start) (h : Reachable step start s) : Inv s := by
  obtain ⟨is, rfl⟩ := h
  induction is generalizing start with
  | nil => exact hstart
  | cons i is ih => exact ih (hstep i start hstart)

end Libzorpll.Observe
