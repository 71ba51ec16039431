import Mathlib.Data.List.Basic

/-! Machines that read a symbol at a time and give output as they go, and can
refuse a symbol. -/

namespace Libzorpll.Transducer

variable {σ α β : Type}

/-- The output of a machine over a list of symbols, and its state after it. -/
def runOut (step : α → σ → Option (List β × σ)) : List α → σ → Option (List β × σ)
  | [], s => some ([], s)
  | a :: as, s =>
      match step a s with
      | none => none
      | some (out, t) => (runOut step as t).map (fun p => (out ++ p.1, p.2))

theorem runOut_cons {step : α → σ → Option (List β × σ)} {a : α} {s t : σ} {out : List β}
    (h : step a s = some (out, t)) (as : List α) :
    runOut step (a :: as) s = (runOut step as t).map (fun p => (out ++ p.1, p.2)) := by
  simp only [runOut, h]

theorem runOut_refused {step : α → σ → Option (List β × σ)} {a : α} {s : σ} (h : step a s = none)
    (as : List α) : runOut step (a :: as) s = none := by
  simp only [runOut, h]

theorem runOut_cons_inv {step : α → σ → Option (List β × σ)} {a : α} {as : List α} {s v : σ}
    {out : List β} (h : runOut step (a :: as) s = some (out, v)) :
    ∃ o t rest, step a s = some (o, t) ∧ runOut step as t = some (rest, v) ∧ out = o ++ rest := by
  cases hstep : step a s with
  | none => rw [runOut_refused hstep] at h; cases h
  | some p =>
      obtain ⟨o, t⟩ := p
      rw [runOut_cons hstep] at h
      obtain ⟨⟨rest, v'⟩, hrest, heq⟩ := Option.map_eq_some_iff.mp h
      cases heq
      exact ⟨o, t, rest, rfl, hrest, rfl⟩

/-- The runs over two parts of a list are joined at the state between them. -/
theorem runOut_append (step : α → σ → Option (List β × σ)) (as bs : List α) (s : σ) :
    runOut step (as ++ bs) s =
      (runOut step as s).bind (fun p => (runOut step bs p.2).map (fun q => (p.1 ++ q.1, q.2))) := by
  induction as generalizing s with
  | nil =>
      cases h : runOut step bs s with
      | none => simp [runOut, h]
      | some p => simp [runOut, h]
  | cons a as ih =>
      cases hstep : step a s with
      | none => rw [List.cons_append, runOut_refused hstep, runOut_refused hstep, Option.bind_none]
      | some p =>
          obtain ⟨out, t⟩ := p
          rw [List.cons_append, runOut_cons hstep, runOut_cons hstep, ih]
          cases runOut step as t with
          | none => rfl
          | some q =>
              cases h : runOut step bs q.2 with
              | none => simp [h]
              | some r => simp [h, List.append_assoc]

/-- Symbols that change nothing can be left out. -/
theorem runOut_filter {step : α → σ → Option (List β × σ)} {p : α → Bool}
    (hskip : ∀ a s, p a = false → step a s = some ([], s)) (as : List α) (s : σ) :
    runOut step (as.filter p) s = runOut step as s := by
  induction as generalizing s with
  | nil => rfl
  | cons a as ih =>
      cases hp : p a with
      | false =>
          rw [List.filter_cons_of_neg (by simp [hp]), ih, runOut_cons (hskip a s hp)]
          cases runOut step as s <;> simp
      | true =>
          rw [List.filter_cons_of_pos hp]
          cases hstep : step a s with
          | none => rw [runOut_refused hstep, runOut_refused hstep]
          | some q => rw [runOut_cons hstep, runOut_cons hstep, ih]

/-- A list with symbols of a kind put in at any places. -/
inductive Inserted (p : α → Prop) : List α → List α → Prop
  | nil : Inserted p [] []
  | keep (a : α) {as bs : List α} (h : Inserted p as bs) : Inserted p (a :: as) (a :: bs)
  | insert {b : α} (hb : p b) {as bs : List α} (h : Inserted p as bs) : Inserted p as (b :: bs)

/-- Symbols that change nothing can be put in. -/
theorem runOut_inserted {step : α → σ → Option (List β × σ)} {p : α → Prop}
    (hskip : ∀ a s, p a → step a s = some ([], s)) {as bs : List α} (h : Inserted p as bs) (s : σ) :
    runOut step bs s = runOut step as s := by
  induction h generalizing s with
  | nil => rfl
  | keep a h ih =>
      cases hstep : step a s with
      | none => rw [runOut_refused hstep, runOut_refused hstep]
      | some q => rw [runOut_cons hstep, runOut_cons hstep, ih]
  | @insert b hb as bs h ih =>
      rw [runOut_cons (hskip b s hb), ih]
      cases runOut step as s <;> simp

/-- A machine that takes more does the same where the other one goes on. -/
theorem runOut_mono {step step' : α → σ → Option (List β × σ)}
    (hmore : ∀ a s r, step a s = some r → step' a s = some r) {as : List α} {s : σ} {r : List β × σ}
    (h : runOut step as s = some r) : runOut step' as s = some r := by
  induction as generalizing s r with
  | nil => exact h
  | cons a as ih =>
      obtain ⟨out, v⟩ := r
      obtain ⟨o, t, rest, ha, hrest, rfl⟩ := runOut_cons_inv h
      rw [runOut_cons (hmore a s _ ha), ih hrest, Option.map_some]

/-- The output of a machine up to the first symbol that it refuses. -/
def outUntil (step : α → σ → Option (List β × σ)) : List α → σ → List β
  | [], _ => []
  | a :: as, s =>
      match step a s with
      | none => []
      | some (out, t) => out ++ outUntil step as t

theorem outUntil_of_runOut {step : α → σ → Option (List β × σ)} {as : List α} {s t : σ} {out : List β}
    (h : runOut step as s = some (out, t)) (bs : List α) :
    outUntil step (as ++ bs) s = out ++ outUntil step bs t := by
  induction as generalizing s out with
  | nil =>
      cases h
      rfl
  | cons a as ih =>
      obtain ⟨o, u, rest, ha, hrest, rfl⟩ := runOut_cons_inv h
      simp only [List.cons_append, outUntil, ha]
      rw [ih hrest, List.append_assoc]

theorem outUntil_of_refused {step : α → σ → Option (List β × σ)} {as : List α} {s : σ}
    (h : runOut step as s = none) (bs : List α) :
    outUntil step (as ++ bs) s = outUntil step as s := by
  induction as generalizing s with
  | nil => cases h
  | cons a as ih =>
      cases ha : step a s with
      | none => simp only [List.cons_append, outUntil, ha]
      | some p =>
          rw [runOut_cons ha, Option.map_eq_none_iff] at h
          simp only [List.cons_append, outUntil, ha]
          rw [ih h]

/-- The output of a machine for a whole message. -/
def message (step : α → σ → Option (List β × σ)) (stop : σ → Option (List β × σ))
    (as : List α) (s : σ) : Option (List β × σ) :=
  (runOut step as s).bind (fun p => (stop p.2).map (fun q => (p.1 ++ q.1, q.2)))

theorem message_some {step : α → σ → Option (List β × σ)} {stop : σ → Option (List β × σ)}
    {as : List α} {s v : σ} {out : List β} :
    message step stop as s = some (out, v) ↔
      ∃ first t last, runOut step as s = some (first, t) ∧ stop t = some (last, v) ∧
        out = first ++ last := by
  rw [message, Option.bind_eq_some_iff]
  constructor
  · rintro ⟨⟨first, t⟩, hfirst, hrest⟩
    obtain ⟨⟨last, v'⟩, hlast, heq⟩ := Option.map_eq_some_iff.mp hrest
    cases heq
    exact ⟨first, t, last, hfirst, hlast, rfl⟩
  · rintro ⟨first, t, last, hfirst, hlast, rfl⟩
    exact ⟨(first, t), hfirst, by rw [hlast, Option.map_some]⟩

end Libzorpll.Transducer
