import Mathlib.Data.List.Basic

/-! Loops and runs of operations that can stop with an error. -/

namespace Libzorpll.Run

variable {ε σ ρ ι α : Type}

/-- The body answers with a result, or with none to go round again. -/
def loop (body : σ → Except ε (Option ρ × σ)) (limit : ε) : Nat → σ → Except ε (ρ × σ)
  | 0, _ => .error limit
  | fuel + 1, s =>
      match body s with
      | .error e => .error e
      | .ok (some r, t) => .ok (r, t)
      | .ok (none, t) => loop body limit fuel t

/-- What one round of a loop does, by the answer of its body. -/
def Round (Inv : σ → Prop) (Post : ρ → σ → Prop) : Option ρ → σ → Prop
  | some r, t => Post r t
  | none, t => Inv t

/-- A loop whose body keeps the invariant establishes the postcondition or
runs out of fuel. Where every further round lowers the measure, it runs out
only of fuel that was below the measure. -/
theorem loop_rule {body : σ → Except ε (Option ρ × σ)} {limit : ε} {Inv : σ → Prop}
    {Post : ρ → σ → Prop} (Bounded : Prop) (size : σ → Nat)
    (hbody : ∀ s, Inv s → ∃ r t, body s = .ok (r, t) ∧
      Round (fun t => Inv t ∧ (Bounded → size t < size s)) Post r t)
    (fuel : Nat) {s : σ} (hs : Inv s) :
    (loop body limit fuel s = .error limit ∧ (Bounded → fuel ≤ size s)) ∨
      ∃ r t, loop body limit fuel s = .ok (r, t) ∧ Post r t := by
  induction fuel generalizing s with
  | zero => exact .inl ⟨rfl, fun _ => Nat.zero_le _⟩
  | succ fuel ih =>
      obtain ⟨r, t, hrun, hround⟩ := hbody s hs
      cases r with
      | some r => exact .inr ⟨r, t, by simp only [loop, hrun], hround⟩
      | none =>
          simp only [loop, hrun]
          refine (ih hround.1).imp_left (fun h => ⟨h.1, fun hb => ?_⟩)
          have hle := h.2 hb
          have hlt := hround.2 hb
          omega

/-- The results of a sequence of operations and the state after them. -/
def run (step : ι → σ → Except ε (ρ × σ)) : List ι → σ → Except ε (List ρ × σ)
  | [], s => .ok ([], s)
  | i :: is, s =>
      match step i s with
      | .error e => .error e
      | .ok (r, t) => (run step is t).map (fun p => (r :: p.1, p.2))

/-- The condition holds at every operation of a run, of the state before it. -/
def Meets (step : ι → σ → Except ε (ρ × σ)) (P : ι → σ → Prop) : List ι → σ → Prop
  | [], _ => True
  | i :: is, s => P i s ∧ ∀ r t, step i s = .ok (r, t) → Meets step P is t

/-- Every operation of a run comes back, related to the states around it, or
the run stops at it in a way that is allowed. -/
def Always (step : ι → σ → Except ε (ρ × σ)) (Stop : ι → σ → ε → Prop)
    (Q : ι → σ → ρ → σ → Prop) : List ι → σ → Prop
  | [], _ => True
  | i :: is, s =>
      (∃ e, step i s = .error e ∧ Stop i s e) ∨
        ∃ r t, step i s = .ok (r, t) ∧ Q i s r t ∧ Always step Stop Q is t

theorem meets_true (step : ι → σ → Except ε (ρ × σ)) {P : ι → σ → Prop} (is : List ι) (s : σ)
    (h : ∀ i ∈ is, ∀ s, P i s) : Meets step P is s := by
  induction is generalizing s with
  | nil => trivial
  | cons i is ih =>
      exact ⟨h i (by simp) s, fun r t _ => ih t (fun j hj => h j (List.mem_cons_of_mem i hj))⟩

theorem meets_cons {step : ι → σ → Except ε (ρ × σ)} {P : ι → σ → Prop} {i : ι} {is : List ι}
    {s t : σ} {r : ρ} (h : P i s) (hrun : step i s = .ok (r, t)) (hmeets : Meets step P is t) :
    Meets step P (i :: is) s := by
  refine ⟨h, fun r' t' hrun' => ?_⟩
  rw [hrun, Except.ok.injEq, Prod.mk.injEq] at hrun'
  exact hrun'.2 ▸ hmeets

theorem meets_and {step : ι → σ → Except ε (ρ × σ)} {A : ι → Prop} {P : ι → σ → Prop}
    {is : List ι} {s : σ} (h : ∀ i ∈ is, A i) (hmeets : Meets step P is s) :
    Meets step (fun i s => A i ∧ P i s) is s := by
  induction is generalizing s with
  | nil => trivial
  | cons i is ih =>
      exact ⟨⟨h i (by simp), hmeets.1⟩,
        fun r t hr => ih (fun j hj => h j (List.mem_cons_of_mem i hj)) (hmeets.2 r t hr)⟩

/-- The induction behind every statement about a run: an invariant, and a
relation of a state to the results still to come. -/
theorem run_induct {step : ι → σ → Except ε (ρ × σ)} {P : ι → σ → Prop} {Inv : σ → Prop}
    {Spec : σ → List ρ → Prop} (hnil : ∀ s, Inv s → Spec s [])
    (hstep : ∀ i s, Inv s → P i s → ∃ r t, step i s = .ok (r, t) ∧ Inv t ∧
      ∀ rs, Spec t rs → Spec s (r :: rs))
    (is : List ι) {s : σ} (hs : Inv s) (hmeets : Meets step P is s) :
    ∃ rs t, run step is s = .ok (rs, t) ∧ Inv t ∧ Spec s rs := by
  induction is generalizing s with
  | nil => exact ⟨[], s, rfl, hs, hnil s hs⟩
  | cons i is ih =>
      obtain ⟨r, t, hr, ht, hspec⟩ := hstep i s hs hmeets.1
      obtain ⟨rs, u, hrun, hu, hrs⟩ := ih ht (hmeets.2 r t hr)
      exact ⟨r :: rs, u, by simp only [run, hr, hrun, Except.map], hu, hspec rs hrs⟩

theorem always_induct {step : ι → σ → Except ε (ρ × σ)} {P : ι → σ → Prop}
    {Stop : ι → σ → ε → Prop} {Inv : σ → Prop} {Q : ι → σ → ρ → σ → Prop}
    (hstep : ∀ i s, Inv s → P i s → (∃ e, step i s = .error e ∧ Stop i s e) ∨
      ∃ r t, step i s = .ok (r, t) ∧ Inv t ∧ Q i s r t)
    (is : List ι) {s : σ} (hs : Inv s) (hmeets : Meets step P is s) :
    Always step Stop Q is s := by
  induction is generalizing s with
  | nil => trivial
  | cons i is ih =>
      obtain hstop | ⟨r, t, hr, ht, hq⟩ := hstep i s hs hmeets.1
      · exact .inl hstop
      · exact .inr ⟨r, t, hr, hq, ih ht (hmeets.2 r t hr)⟩

theorem always_cons {step : ι → σ → Except ε (ρ × σ)} {Stop : ι → σ → ε → Prop}
    {Q : ι → σ → ρ → σ → Prop} {i : ι} {is : List ι} {s t : σ} {r : ρ} (h : Always step Stop Q (i :: is) s)
    (hrun : step i s = .ok (r, t)) : Q i s r t ∧ Always step Stop Q is t := by
  obtain ⟨e, herr, -⟩ | ⟨r', t', hr, hq, hrest⟩ := h
  · rw [hrun] at herr
    cases herr
  · rw [hrun, Except.ok.injEq, Prod.mk.injEq] at hr
    obtain ⟨rfl, rfl⟩ := hr
    exact ⟨hq, hrest⟩

/-- Results of a run that delivers a list of items and then gives one last
answer for ever: at most `size` answers come before it. -/
def Drains (out : ρ → List α) (Live : ρ → Prop) (last : ρ) (items : List α) (size : Nat)
    (rs : List ρ) : Prop :=
  ∃ live k, rs = live ++ List.replicate k last ∧ (∀ r ∈ live, Live r) ∧ live.length ≤ size ∧
    live.flatMap out <+: items ∧ (0 < k → live.flatMap out = items)

theorem drains_cons {out : ρ → List α} {Live : ρ → Prop} {last r : ρ} {items : List α}
    {m n : Nat} {rs : List ρ} (hlive : Live r) (hlt : m < n)
    (h : Drains out Live last items m rs) : Drains out Live last (out r ++ items) n (r :: rs) := by
  obtain ⟨live, k, rfl, hall, hlen, hpre, hend⟩ := h
  refine ⟨r :: live, k, rfl, ?_, ?_, ?_, ?_⟩
  · simpa using ⟨hlive, hall⟩
  · simp only [List.length_cons]; omega
  · simpa only [List.flatMap_cons] using (List.prefix_append_right_inj (out r)).mpr hpre
  · intro hk
    rw [List.flatMap_cons, hend hk]

theorem drains_done {out : ρ → List α} {Live : ρ → Prop} {last : ρ} (n k : Nat) :
    Drains out Live last [] n (List.replicate k last) :=
  ⟨[], k, rfl, by simp, by simp, by simp, by simp⟩

/-- A run of operations, each of which either delivers the head of what is
left and lowers the measure, or finds nothing left and finishes. -/
theorem run_drains {step : ι → σ → Except ε (ρ × σ)} {P : ι → σ → Prop}
    {out : ρ → List α} {Live : ρ → Prop} {last : ρ} (Inv Done : σ → Prop) (rest : σ → List α) (size : σ → Nat)
    (hdone : ∀ i s, Done s → ∃ t, step i s = .ok (last, t) ∧ Done t)
    (hstep : ∀ i s, Inv s → P i s → ∃ r t, step i s = .ok (r, t) ∧
      ((Inv t ∧ Live r ∧ out r ++ rest t = rest s ∧ size t < size s) ∨
        (Live r ∧ out r = rest s ∧ 0 < size s ∧ Done t) ∨ (r = last ∧ rest s = [] ∧ Done t)))
    (is : List ι) {s : σ} (hs : Inv s) (hmeets : Meets step P is s) :
    ∃ rs t, run step is s = .ok (rs, t) ∧ Drains out Live last (rest s) (size s) rs := by
  have hend (is : List ι) {s : σ} (hs : Done s) :
      ∃ t, run step is s = .ok (List.replicate is.length last, t) := by
    induction is generalizing s with
    | nil => exact ⟨s, rfl⟩
    | cons i is ih =>
        obtain ⟨t, hr, ht⟩ := hdone i s hs
        obtain ⟨u, hu⟩ := ih ht
        exact ⟨u, by simp only [run, hr, hu, Except.map, List.length_cons, List.replicate_succ]⟩
  induction is generalizing s with
  | nil => exact ⟨[], s, rfl, [], 0, rfl, by simp, by simp, by simp, by simp⟩
  | cons i is ih =>
      obtain ⟨r, t, hr, ⟨ht, hlive, hout, hlt⟩ | ⟨hlive, hout, hpos, ht⟩ | ⟨rfl, hout, ht⟩⟩ :=
        hstep i s hs hmeets.1
      · obtain ⟨rs, u, hrun, hrs⟩ := ih ht (hmeets.2 r t hr)
        exact ⟨r :: rs, u, by simp only [run, hr, hrun, Except.map],
          hout ▸ drains_cons hlive hlt hrs⟩
      · obtain ⟨u, hu⟩ := hend is ht
        refine ⟨_, u, by simp only [run, hr, hu, Except.map]; rfl, ?_⟩
        have hnone : Drains out Live last [] 0 (List.replicate is.length last) := drains_done 0 _
        have h := drains_cons hlive hpos hnone
        rwa [List.append_nil, hout] at h
      · obtain ⟨u, hu⟩ := hend is ht
        refine ⟨_, u, by simp only [run, hr, hu, Except.map]; rfl, ?_⟩
        rw [hout]
        exact drains_done (size s) (is.length + 1)

/-- Once a run has more operations than the measure, it has drained. -/
theorem Drains.complete {out : ρ → List α} {Live : ρ → Prop} {last : ρ} {items : List α}
    {size : Nat} {rs : List ρ} (h : Drains out Live last items size rs) (hlen : size < rs.length) :
    ∃ live k, rs = live ++ List.replicate (k + 1) last ∧ (∀ r ∈ live, Live r) ∧
      live.flatMap out = items := by
  obtain ⟨live, k, rfl, hall, hbound, -, hend⟩ := h
  simp only [List.length_append, List.length_replicate] at hlen
  obtain ⟨k, rfl⟩ : ∃ m, k = m + 1 := ⟨k - 1, by omega⟩
  exact ⟨live, k, rfl, hall, hend (by omega)⟩

/-- The first items of a run that is long enough are those of its list,
followed by the last answer as often as asked for. -/
theorem Drains.take {out : ρ → List α} {Live : ρ → Prop} {last : ρ} {items : List α} {size : Nat}
    {rs : List ρ} (h : Drains out Live last items size rs) {a : α} (hlast : out last = [a]) {k : Nat}
    (hlen : size + k ≤ rs.length) :
    (rs.flatMap out).take k = (items ++ List.replicate k a).take k ∧ k ≤ (rs.flatMap out).length := by
  obtain ⟨live, j, rfl, -, hbound, -, hend⟩ := h
  rw [List.length_append, List.length_replicate] at hlen
  have hrep (j : Nat) : (List.replicate j last).flatMap out = List.replicate j a := by
    induction j with
    | zero => rfl
    | succ j ih => rw [List.replicate_succ, List.flatMap_cons, hlast, ih, List.replicate_succ]; rfl
  cases k with
  | zero => simp
  | succ k =>
      have hj : j = (k + 1) + (j - (k + 1)) := by omega
      rw [List.flatMap_append, hrep, hend (by omega)]
      refine ⟨?_, ?_⟩
      · rw [hj, ← List.replicate_append_replicate, ← List.append_assoc,
          List.take_append_of_le_length]
        rw [List.length_append, List.length_replicate]
        omega
      · rw [List.length_append, List.length_replicate]
        omega

theorem ok_bind {β : Type} (a : α) (f : α → Except ε β) : ((.ok a : Except ε α) >>= f) = f a := rfl

theorem map_ok {β : Type} {f : α → β} {e : Except ε α} {b : β} (h : e.map f = .ok b) :
    ∃ a, e = .ok a ∧ f a = b := by
  cases e with
  | error => cases h
  | ok a => exact ⟨a, rfl, Except.ok.inj h⟩

theorem bind_ok {β : Type} {f : α → Except ε β} {e : Except ε α} {b : β} (h : (e >>= f) = .ok b) :
    ∃ a, e = .ok a ∧ f a = .ok b := by
  cases e with
  | error => cases h
  | ok a => exact ⟨a, rfl, h⟩

/-- A sequence comes to an answer where both of its parts do. -/
theorem exists_bind_ok_iff {β : Type} {f : α → Except ε β} {e : Except ε α} {P Q : Prop}
    (he : (∃ a, e = .ok a) ↔ P) (hf : ∀ a, e = .ok a → ((∃ b, f a = .ok b) ↔ Q)) :
    (∃ b, (e >>= f) = .ok b) ↔ P ∧ Q := by
  constructor
  · rintro ⟨b, h⟩
    obtain ⟨a, ha, hb⟩ := bind_ok h
    exact ⟨he.mp ⟨a, ha⟩, (hf a ha).mp ⟨b, hb⟩⟩
  · rintro ⟨hP, hQ⟩
    obtain ⟨a, ha⟩ := he.mpr hP
    obtain ⟨b, hb⟩ := (hf a ha).mpr hQ
    exact ⟨b, by rw [ha, ok_bind, hb]⟩

theorem run_cons {step : ι → σ → Except ε (ρ × σ)} {i : ι} {is : List ι} {s u : σ} {rs : List ρ}
    (h : run step (i :: is) s = .ok (rs, u)) :
    ∃ r t rest, step i s = .ok (r, t) ∧ run step is t = .ok (rest, u) ∧ rs = r :: rest := by
  rw [run] at h
  split at h
  · cases h
  · rename_i r t hstep
    obtain ⟨⟨rest, v⟩, hrest, heq⟩ := map_ok h
    obtain ⟨rfl, rfl⟩ := Prod.mk.inj heq
    exact ⟨r, t, rest, hstep, hrest, rfl⟩

theorem run_length {step : ι → σ → Except ε (ρ × σ)} {is : List ι} {s t : σ} {rs : List ρ}
    (h : run step is s = .ok (rs, t)) : rs.length = is.length := by
  induction is generalizing s rs with
  | nil => cases h; rfl
  | cons i is ih =>
      obtain ⟨r, u, rest, -, hrest, rfl⟩ := run_cons h
      rw [List.length_cons, List.length_cons, ih hrest]

end Libzorpll.Run
