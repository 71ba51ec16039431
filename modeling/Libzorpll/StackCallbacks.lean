import Libzorpll.StackEnd

/-! What a callback finds, and when there is none any more. -/

namespace Libzorpll.StackCallbacks

open StackLife StackHeld StackSteps StackPhases StackRun StackCalls StackEnd Debts

variable {T : Type} [DecidableEq T] [Fintype T] {es new before after : List (Event T)} {s t : Stack T} {a b : Option T}
  {f g : Frame} {frames rest : List Frame} {i j top depth : Nat} {polled : Bool} {user : Option T} {action : Action}

/-! The stack that a callback finds -/

omit [DecidableEq T] [Fintype T] in
theorem whole_of_mem (h : Phase s) (hmem : f ∈ s.todo a) (hf : structural f = true) (hunlink : ∀ k, f ≠ .unlink k)
    (hunref : ∀ k, f ≠ .structUnref k) : Whole s := by
  have hnot {l : List Frame} (hquiet : Quiet l) (hin : f ∈ l) : False :=
    Bool.noConfusion ((hquiet f hin).symm.trans hf)
  have hbusy {b : Option T} {g : Frame} {rest : List Frame} (htodo : s.todo b = g :: rest) (hne : f ≠ g)
      (hrest : Quiet rest) (hothers : ∀ c, c ≠ b → Quiet (s.todo c)) : False := by
    by_cases hab : a = b
    · subst hab
      rw [htodo] at hmem
      rcases List.mem_cons.mp hmem with heq | hmem
      · exact hne heq
      · exact hnot hrest hmem
    · exact hnot (hothers a hab) hmem
  cases h with
  | whole h => exact h
  | breaking k b rest _ _ _ htodo hrest hothers => exact (hbusy htodo (hunlink k) hrest hothers).elim
  | passing k b rest _ _ _ _ htodo _ hrest hothers => exact (hbusy htodo (hunref k) hrest hothers).elim
  | broken _ _ hquiet => exact (hnot (hquiet a) hmem).elim

/-- A callback is called with the whole stack, and whatever it does and the
other threads do, it has the whole stack until it comes back. -/
theorem callback_whole (h : Run user depth polled es s) (hcallback : .inCallback i top ∈ s.todo none) :
    top = 0 ∧ i ≤ depth ∧ (∀ j, j ≤ depth → .freed j ∉ es) ∧
      ∀ j, j < depth → (s.streams j).child = true ∧ (s.streams (j + 1)).parent = true := by
  have hi := inv_run h
  obtain ⟨-, hle, htop, hin⟩ := hi.frames none _ hcallback
  have hwhole := whole_of_mem hi.phase hcallback rfl (fun _ heq => by cases heq) fun _ heq => by cases heq
  rw [← depth_run h]
  refine ⟨htop, hle, fun j hj => live_not_freed hi (live_whole hi hwhole (.inr hin) hj), fun j hj => ?_⟩
  have hchild := hwhole.linked j hj
  exact ⟨hchild, (hi.counted.parents j hj).trans hchild⟩

/-- A thread closes the stack while the callback of its second stream runs. -/
theorem callback_whole_closed : ∃ (es : List (Event Unit)) (s : Stack Unit), Run (some ()) 1 true es s ∧ s.isOpen = false ∧
    s.todo (some ()) = [] ∧ (∀ j, j ≤ 1 → .freed j ∉ es) ∧
      ∀ j, j < 1 → (s.streams j).child = true ∧ (s.streams (j + 1)).parent = true := by
  have h0 : Run (some ()) 1 true [] (made (some ()) 1 true) := .nil _
  have h1 := Trace.Steps.snoc h0 (@Step.dispatch Unit _ _ 1 false (.inl rfl) rfl rfl) trivial
  have h2 := Trace.Steps.snoc h1 (@Step.run Unit _ _ none _ _ _ rfl rfl) trivial
  have h3 := Trace.Steps.snoc h2 (@Step.run Unit _ _ none _ _ _ rfl rfl) trivial
  have h4 := Trace.Steps.snoc h3 (@Step.close Unit _ _ (some ()) ⟨.inl rfl, Nat.one_pos⟩) rfl
  have h5 := Trace.Steps.snoc h4 (@Step.run Unit _ _ (some ()) _ _ _ rfl rfl) trivial
  have h6 := Trace.Steps.snoc h5 (@Step.run Unit _ _ (some ()) _ _ _ rfl rfl) trivial
  have h7 := Trace.Steps.snoc h6 (@Step.run Unit _ _ (some ()) _ _ _ rfl rfl) trivial
  have h8 := Trace.Steps.snoc h7 (@Step.run Unit _ _ (some ()) _ _ _ rfl rfl) trivial
  have hcallback := callback_whole h8 (List.mem_cons_self (a := Frame.inCallback 1 0))
  exact ⟨_, _, h8, rfl, rfl, hcallback.2.2⟩

/-! Where a detach has come to its end -/

/-- The one call that takes the sources off has done so before it returns. -/
structure Told (s : Stack T) : Prop where
  detached : ∀ a, .detached ∈ s.todo a → s.attached = false
  others : ∀ a, .detached ∈ s.todo a → ∀ b, b ≠ a → ∀ g ∈ s.todo b, detaching g = 0
  behind : ∀ a, (s.todo a).Pairwise fun f g => f = .detached → detaching g = 0

omit [Fintype T] in
theorem told_next (h : Told s) (hattached : t.attached = s.attached)
    (htodo : t.todo = Function.update s.todo a (frames ++ rest)) (hrest : rest <:+ s.todo a)
    (hframes : ∀ g ∈ frames, g ≠ .detached ∧ (detaching g ≠ 0 → ∃ f ∈ s.todo a, detaching f ≠ 0)) : Told t := by
  have hold {c : Option T} (hmem : .detached ∈ t.todo c) : .detached ∈ s.todo c := by
    rcases mem_update htodo hrest hmem with ⟨-, hmem⟩ | hmem
    · exact absurd rfl (hframes _ hmem).1
    · exact hmem
  refine ⟨fun c hmem => hattached.trans (h.detached c (hold hmem)), fun c hmem b hb g hg => ?_, fun c => ?_⟩
  · rcases mem_update htodo hrest hg with ⟨rfl, hg⟩ | hg
    · by_contra hne
      obtain ⟨f, hf, hdetaching⟩ := (hframes g hg).2 hne
      exact hdetaching (h.others c (hold hmem) b hb f hf)
    · exact h.others c (hold hmem) b hb g hg
  · rw [htodo]
    by_cases hc : c = a
    · subst hc
      rw [Function.update_self, List.pairwise_append]
      refine ⟨?_, (h.behind c).sublist hrest.sublist, fun f hf g _ heq => absurd heq (hframes f hf).1⟩
      exact List.pairwise_of_forall_mem_list fun f hf g _ heq => absurd heq (hframes f hf).1
    · rw [Function.update_of_ne hc]
      exact h.behind c

omit [DecidableEq T] [Fintype T] in
theorem exec_frames (hexec : exec a (inCall s) s.streams f = some out) :
    ∀ g ∈ out.frames, g ≠ .detached ∧ (detaching g ≠ 0 → detaching f ≠ 0) := by
  cases f with
  | close | detach | descend =>
      cases hexec
      simp only
      split <;> simp [detaching]
  | structUnref =>
      simp only [exec] at hexec
      split at hexec <;> cases hexec <;> simp [detaching]
  | unlink =>
      simp only [exec] at hexec
      split at hexec
      · split at hexec <;> cases hexec <;> simp [detaching]
      · cases hexec
        simp
  | grab i poll =>
      simp only [exec, Option.some.injEq] at hexec
      split at hexec <;> cases hexec
      · cases poll <;> simp [detaching]
      · simp
  | inCallback => cases hexec
  | _ =>
      cases hexec
      simp [detaching]

omit [Fintype T] in
/-- A step leaves frames that are no end of a detach, or it begins one. -/
theorem step_todo (hstep : Step action s new t) :
    (∃ a frames rest, t.attached = s.attached ∧ t.todo = Function.update s.todo a (frames ++ rest) ∧ rest <:+ s.todo a ∧
      ∀ g ∈ frames, g ≠ .detached ∧ (detaching g ≠ 0 → ∃ f ∈ s.todo a, detaching f ≠ 0)) ∨
    ∃ a top todo, (Once action s → s.attached = true) ∧ t.attached = false ∧
      t.todo = Function.update s.todo a (.detach top :: .detached :: todo) ∧ ∀ g ∈ todo, g ∈ s.todo a ∨ g = .unref top := by
  have hsame (a : Option T) : s.todo = Function.update s.todo a ([] ++ s.todo a) := (Function.update_eq_self a s.todo).symm
  have hnone (a : Option T) : ∀ g ∈ ([] : List Frame), g ≠ .detached ∧ (detaching g ≠ 0 → ∃ f ∈ s.todo a, detaching f ≠ 0) :=
    fun g hg => absurd hg List.not_mem_nil
  cases hstep with
  | @run _ a f rest out htodo hexec =>
      refine .inl ⟨a, out.frames, rest, rfl, rfl, htodo ▸ List.suffix_cons f rest, fun g hg => ?_⟩
      obtain ⟨hne, hleft⟩ := exec_frames hexec g hg
      exact ⟨hne, fun hdetaching => ⟨f, htodo ▸ List.mem_cons_self, hleft hdetaching⟩⟩
  | share a => exact .inl ⟨a, [], s.todo a, rfl, hsame a, List.suffix_refl _, hnone a⟩
  | drop a => exact .inl ⟨a, [.unref 0], s.todo a, rfl, rfl, List.suffix_refl _, by simp [detaching]⟩
  | close a => exact .inl ⟨a, [.close 0], s.todo a, rfl, rfl, List.suffix_refl _, by simp [detaching]⟩
  | detach a => exact .inr ⟨a, 0, s.todo a, id, rfl, rfl, fun _ hg => .inl hg⟩
  | dispatch i poll =>
      exact .inl ⟨none, [.grab i poll, .release i poll], s.todo none, rfl, rfl, List.suffix_refl _, by simp [detaching]⟩
  | comeBack htodo => exact .inl ⟨none, [], _, rfl, rfl, htodo ▸ List.suffix_cons _ _, hnone none⟩
  | @comeBackFalse _ i top rest htodo =>
      refine .inr ⟨none, top, .unref top :: rest, id, rfl, rfl, fun g hg => ?_⟩
      rcases List.mem_cons.mp hg with rfl | hg
      · exact .inr rfl
      · exact .inl (htodo ▸ List.mem_cons_of_mem _ hg)
  | finalize => exact .inl ⟨none, [], s.todo none, rfl, hsame none, List.suffix_refl _, hnone none⟩

theorem told_begin (hi : Inv es s) (h : Told s) (hattached : s.attached = true) (hdetached : t.attached = false)
    {todo : List Frame} (htodo : t.todo = Function.update s.todo a (.detach top :: .detached :: todo))
    (hrest : ∀ g ∈ todo, g ∈ s.todo a ∨ g = .unref top) : Told t := by
  have hnot {c : Option T} (hmem : .detached ∈ s.todo c) : False :=
    Bool.noConfusion (hattached.symm.trans (h.detached c hmem))
  have hquiet {g : Frame} (hg : g ∈ todo) : detaching g = 0 ∧ g ≠ .detached := by
    rcases hrest g hg with hg | rfl
    · exact ⟨attached_alone hi.sourced hattached hg, fun heq => hnot (heq ▸ hg)⟩
    · exact ⟨rfl, fun heq => by cases heq⟩
  refine ⟨fun _ _ => hdetached, fun c hmem b hb g hg => ?_, fun c => ?_⟩
  · rw [htodo] at hmem hg
    by_cases hc : c = a
    · subst hc
      rw [Function.update_of_ne hb] at hg
      exact attached_alone hi.sourced hattached hg
    · rw [Function.update_of_ne hc] at hmem
      exact (hnot hmem).elim
  · rw [htodo]
    by_cases hc : c = a
    · subst hc
      rw [Function.update_self]
      refine .cons (fun g _ heq => by cases heq) (.cons (fun g hg _ => (hquiet hg).1) ?_)
      exact List.pairwise_of_forall_mem_list fun f hf g _ heq => absurd heq (hquiet hf).2
    · rw [Function.update_of_ne hc]
      exact h.behind c

theorem told_step (hi : Inv es s) (h : Told s) (honce : Once action s) (hstep : Step action s new t) : Told t := by
  rcases step_todo hstep with ⟨a, frames, rest, hattached, htodo, hrest, hframes⟩ | ⟨a, top, todo, hbegins, hdetached, htodo, hrest⟩
  · exact told_next h hattached htodo hrest hframes
  · exact told_begin hi h (hbegins honce) hdetached htodo hrest

/-! Behind the end of the detach -/

def isCalled : Event T → Bool
  | .called _ => true
  | _ => false

def isCallback : Frame → Bool
  | .callback _ _ => true
  | _ => false

/-- The main loop has a reference to the structure and is about to call. -/
def pending (s : Stack T) : Nat := (s.todo none).countP isCallback

end Libzorpll.StackCallbacks
