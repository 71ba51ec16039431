import Libzorpll.Run
import Mathlib.Logic.Relation

/-! The rounds of a loop, with no bound on their number. -/

namespace Libzorpll.Rounds

open Relation

variable {ε σ ρ : Type} {body : σ → Except ε (Option ρ × σ)} {s t u : σ} {r : ρ}

def Next (body : σ → Except ε (Option ρ × σ)) (s t : σ) : Prop := body s = .ok (none, t)

/-- The loop gets to a state. -/
abbrev Reaches (body : σ → Except ε (Option ρ × σ)) : σ → σ → Prop := ReflTransGen (Next body)

/-- The loop ends with a result. -/
def Ends (body : σ → Except ε (Option ρ × σ)) (s : σ) (r : ρ) (u : σ) : Prop :=
  ∃ t, Reaches body s t ∧ body t = .ok (some r, u)

/-- The loop always goes round again. -/
def Endless (body : σ → Except ε (Option ρ × σ)) (s : σ) : Prop :=
  ∀ t, Reaches body s t → ∃ u, Next body t u

theorem Next.unique (h : Next body s t) (h' : Next body s u) : t = u := by
  have heq := h.symm.trans h'
  simpa using heq

theorem Ends.before (h : Reaches body s t) (hends : Ends body t r u) : Ends body s r u := by
  obtain ⟨v, hv, hbody⟩ := hends
  exact ⟨v, h.trans hv, hbody⟩

theorem ends_now (h : body s = .ok (some r, u)) : Ends body s r u := ⟨s, .refl, h⟩

/-- A state that the loop gets to is on its only way. -/
theorem reaches_total (ht : Reaches body s t) (hu : Reaches body s u) : Reaches body t u ∨ Reaches body u t := by
  induction ht with
  | refl => exact .inl hu
  | tail hs hnext ih =>
      rcases ih with hto | hfrom
      · rcases ReflTransGen.cases_head hto with rfl | ⟨v, hv, hrest⟩
        · exact .inr (.single hnext)
        · exact .inl (hnext.unique hv ▸ hrest)
      · exact .inr (hfrom.tail hnext)

theorem Endless.before (h : Reaches body s t) (hendless : Endless body t) : Endless body s := by
  intro u hu
  rcases reaches_total h hu with hafter | hbefore
  · exact hendless u hafter
  · rcases ReflTransGen.cases_head hbefore with rfl | ⟨v, hv, -⟩
    · exact hendless u .refl
    · exact ⟨v, hv⟩

theorem Ends.unique {r' : ρ} {u' : σ} (h : Ends body s r u) (h' : Ends body s r' u') : r = r' ∧ u = u' := by
  obtain ⟨t, ht, hbody⟩ := h
  obtain ⟨t', ht', hbody'⟩ := h'
  have hstop {v w : σ} {r : ρ} {u : σ} (hv : body v = .ok (some r, u)) (hw : Reaches body v w) : v = w := by
    rcases ReflTransGen.cases_head hw with heq | ⟨x, hx, -⟩
    · exact heq
    · rw [Next, hv] at hx
      cases hx
  have heq : t = t' := by
    rcases reaches_total ht ht' with hto | hfrom
    · exact hstop hbody hto
    · exact (hstop hbody' hfrom).symm
  rw [heq, hbody'] at hbody
  cases hbody
  exact ⟨rfl, rfl⟩

theorem not_ends_of_endless (h : Endless body s) : ¬Ends body s r u := by
  rintro ⟨t, ht, hbody⟩
  obtain ⟨v, hv⟩ := h t ht
  rw [Next, hbody] at hv
  cases hv

/-- What every round keeps holds of every state. -/
theorem reaches_induct {Inv : σ → Prop} (hstart : Inv s) (hkeeps : ∀ t u, Inv t → Next body t u → Inv u)
    (h : Reaches body s t) : Inv t := by
  induction h with
  | refl => exact hstart
  | tail _ hnext ih => exact hkeeps _ _ ih hnext

theorem endless_induct {Inv : σ → Prop} (hstart : Inv s) (hgoes : ∀ t, Inv t → ∃ u, Next body t u ∧ Inv u) :
    Endless body s := by
  intro t ht
  have hinv : Inv t := by
    refine reaches_induct hstart (fun v w hv hnext => ?_) ht
    obtain ⟨w', hw', hinv⟩ := hgoes v hv
    exact hnext.unique hw' ▸ hinv
  obtain ⟨u, hu, -⟩ := hgoes t hinv
  exact ⟨u, hu⟩

/-- With enough fuel the loop ends as its rounds do. -/
theorem ends_iff_loop (limit : ε) :
    Ends body s r u ↔ ∃ fuel, Run.loop body limit fuel s = .ok (r, u) := by
  constructor
  · rintro ⟨t, ht, hbody⟩
    induction ht using ReflTransGen.head_induction_on with
    | refl => exact ⟨1, by rw [Run.loop, hbody]⟩
    | head hnext _ ih =>
        obtain ⟨fuel, hfuel⟩ := ih
        rw [Next] at hnext
        exact ⟨fuel + 1, by rw [Run.loop, hnext]; exact hfuel⟩
  · rintro ⟨fuel, hfuel⟩
    induction fuel generalizing s with
    | zero => cases hfuel
    | succ fuel ih =>
        rw [Run.loop] at hfuel
        split at hfuel
        · cases hfuel
        · rename_i r' t hbody
          cases hfuel
          exact ends_now hbody
        · rename_i t hbody
          exact (ih hfuel).before (.single hbody)

end Libzorpll.Rounds
