import Libzorpll.StackCalls

/-! What a program can rely on when a stack ends. -/

namespace Libzorpll.StackEnd

open StackLife StackHeld StackSteps StackPhases StackRun StackCalls Debts

variable {T : Type} [DecidableEq T] [Fintype T] {es new before after : List (Event T)} {s t : Stack T} {a b : Option T}
  {f g : Frame} {rest : List Frame} {i j depth : Nat} {polled : Bool} {user : Option T} {action : Action}

/-- An event of a run is one of the last step's, or an earlier one. -/
theorem append_split {ε : Type} {es new before after : List ε} {e : ε} (h : es ++ new = before ++ e :: after) :
    (∃ middle, es = before ++ e :: middle ∧ after = middle ++ new) ∨ ∃ middle, before = es ++ middle ∧ new = middle ++ e :: after := by
  rcases List.append_eq_append_iff.mp h with ⟨middle, hbefore, hnew⟩ | ⟨middle, hes, hafter⟩
  · exact .inr ⟨middle, hbefore, hnew⟩
  · cases middle with
    | nil => exact .inr ⟨[], by rw [hes, List.append_nil, List.append_nil], hafter.symm⟩
    | cons x middle =>
        obtain ⟨rfl, rfl⟩ := List.cons.inj hafter
        exact .inl ⟨middle, hes, rfl⟩

omit [Fintype T] in
theorem depth_step (hstep : Step action s new t) : t.depth = s.depth := by
  cases hstep <;> rfl

omit [Fintype T] in
theorem depth_run (h : Run user depth polled es s) : s.depth = depth :=
  Trace.Steps.invariant h (fun _ s => s.depth = depth) rfl fun _ _ _ _ _ hdepth _ hstep => (depth_step hstep).trans hdepth

/-! What has been freed is left alone -/

theorem live_not_freed (hi : Inv es s) (hj : 0 < (s.streams j).refcnt) : .freed j ∉ es := by
  refine List.count_eq_zero.mp ((hi.freed j).trans (if_neg ?_))
  rintro ⟨-, hzero⟩
  omega

omit [DecidableEq T] [Fintype T] in
/-- A reference is given back before the stream is freed. -/
theorem drop_first {streams : Streams} {middle : List (Event T)}
    (h : .touched i :: freeing i streams = middle ++ .touched j :: after) : middle = [] ∧ j = i := by
  cases middle with
  | nil => exact ⟨rfl, (Event.touched.inj (List.cons.inj h).1).symm⟩
  | cons x middle =>
      have hmem : Event.touched j ∈ (freeing i streams : List (Event T)) := by
        rw [(List.cons.inj h).2]
        exact List.mem_append_right _ List.mem_cons_self
      rw [freeing] at hmem
      split at hmem
      · split at hmem <;> cases List.mem_singleton.mp hmem
      · cases hmem

/-- Nothing is touched that this step has freed, or an earlier one. -/
theorem touched_step (hi : Inv es s) (hstep : Step action s new t) {middle : List (Event T)}
    (hnew : new = middle ++ .touched j :: after) : .freed j ∉ middle ∧ 0 < (s.streams j).refcnt := by
  have hone {k : Nat} (heq : [Event.touched k] = middle ++ .touched j :: after) : middle = [] ∧ j = k := by
    cases middle with
    | nil => exact ⟨rfl, (Event.touched.inj (List.cons.inj heq).1).symm⟩
    | cons x middle => exact absurd (List.cons.inj heq).2.symm (List.append_ne_nil_of_right_ne_nil _ (List.cons_ne_nil _ _))
  have hnone (heq : [] = middle ++ .touched j :: after) : False :=
    List.append_ne_nil_of_right_ne_nil _ (List.cons_ne_nil _ _) heq.symm
  cases hstep with
  | @run _ a f rest out htodo hexec =>
      have hmem : .touched j ∈ out.events := hnew ▸ List.mem_append_right _ List.mem_cons_self
      refine ⟨fun hfreed => ?_, (touched_run hi htodo hexec hmem).2⟩
      by_cases hf : ∃ i, f = .unref i
      · obtain ⟨i, rfl⟩ := hf
        cases hexec
        obtain ⟨rfl, -⟩ := drop_first hnew
        cases hfreed
      · have hf' (i : Nat) : f ≠ .unref i := fun heq => hf ⟨i, heq⟩
        have hin : .freed j ∈ out.events := hnew ▸ List.mem_append_left _ hfreed
        rcases events_run hi htodo hexec hf' hin with ⟨k, hk⟩ | ⟨k, hk⟩ | hk <;> cases hk
  | share a b hmay =>
      obtain ⟨rfl, rfl⟩ := hone hnew
      exact ⟨List.not_mem_nil, live_hold hi.counted hmay.2⟩
  | comeBackFalse htodo =>
      obtain ⟨rfl, rfl⟩ := hone hnew
      have hmem := htodo ▸ List.mem_cons_self (a := Frame.inCallback _ _)
      obtain ⟨-, -, rfl, hin⟩ := hi.frames none _ hmem
      have hwhole := whole_of_head hi.phase htodo rfl (fun _ heq => by cases heq) fun _ heq => by cases heq
      exact ⟨List.not_mem_nil, live_whole hi hwhole (.inr hin) (Nat.zero_le _)⟩
  | finalize i hgone href huse =>
      obtain ⟨rfl, rfl⟩ := drop_first hnew
      exact ⟨List.not_mem_nil, live_source hi.counted (hi.sourced.depth j href) href⟩
  | drop | close | detach | dispatch | comeBack => exact (hnone hnew).elim

/-- A stack that is closed once and detached once is taken apart safely, however
the threads and the main loop get between each other: nothing is done with a
stream that has been freed, none is freed twice, and none while it still has a
child. -/
theorem stack_safe (h : Run user depth polled es s) :
    (∀ before after i, es = before ++ .touched i :: after → .freed i ∉ before) ∧ .aborted ∉ es ∧
      ∀ i, es.count (.freed i) ≤ 1 := by
  have hi := inv_run h
  refine ⟨?_, hi.aborted, fun i => ?_⟩
  · have hboth := Trace.Steps.invariant h (fun es s => Inv es s ∧ ∀ before after i, es = before ++ .touched i :: after →
      .freed i ∉ before) ⟨inv_made user depth polled, fun before after i hes => ?_⟩ fun _ es s new t hboth honce hstep =>
        ⟨inv_step hboth.1 honce hstep, fun before after i hes => ?_⟩
    · exact hboth.2
    · exact absurd hes.symm (List.append_ne_nil_of_right_ne_nil _ (List.cons_ne_nil _ _))
    · rcases append_split hes with ⟨middle, hes, -⟩ | ⟨middle, rfl, hnew⟩
      · exact hboth.2 before middle i hes
      · obtain ⟨hmiddle, hlive⟩ := touched_step hboth.1 hstep hnew
        intro hfreed
        rcases List.mem_append.mp hfreed with hfreed | hfreed
        · exact live_not_freed hboth.1 hlive hfreed
        · exact hmiddle hfreed
  · rw [hi.freed]
    split
    · exact Nat.le_refl 1
    · exact Nat.zero_le 1

/-! What waits for nothing -/

/-- A stack that nobody is busy with is held, or has been taken apart. -/
theorem idle_broken (hi : Inv es s) (hidle : ∀ a, s.todo a = []) (hclosed : s.isOpen = false)
    (hsources : ∀ i, i ≤ s.depth → (s.streams i).sourceRef = false) : Cut s.depth s := by
  cases hi.phase with
  | whole hwhole =>
      have hcount := hi.counted.structs 0 (Nat.zero_le _)
      have hsource : (s.streams 0).source = false :=
        Bool.eq_false_iff.mpr fun hsource => Bool.eq_false_iff.mp (hsources 0 (Nat.zero_le _)) (hi.sourced.refs 0 hsource)
      rw [hclosed, hsource, debt_nothing hidle] at hcount
      have hzero : (s.streams 0).structRef = 0 := hcount
      exact absurd hwhole.held (by rw [hzero]; exact lt_irrefl 0)
  | breaking k a rest _ _ _ htodo => exact absurd (htodo.symm.trans (hidle a)) (List.cons_ne_nil _ _)
  | passing k a rest _ _ _ _ htodo => exact absurd (htodo.symm.trans (hidle a)) (List.cons_ne_nil _ _)
  | broken _ hcut => exact hcut

/-- The references that are left are those to the top. -/
theorem idle_refs (hi : Inv es s) (hidle : ∀ a, s.todo a = []) (hclosed : s.isOpen = false)
    (hsources : ∀ i, i ≤ s.depth → (s.streams i).sourceRef = false) (hj : j ≤ s.depth) :
    (s.streams j).refcnt = if j = 0 then ∑ a, (s.hold a : Int) else 0 := by
  have hcut := idle_broken hi hidle hclosed hsources
  have hchild {k : Nat} (hk : k ≤ s.depth) : (s.streams k).child = false := by
    rcases Nat.eq_or_lt_of_le hk with rfl | hk
    · exact hi.counted.last
    · rw [hcut k hk]
      exact decide_eq_false (Nat.not_le.mpr hk)
  have habove : linkAbove s.streams j = false := by
    cases j with
    | zero => rfl
    | succ j => exact hchild (Nat.le_of_succ_le hj)
  rw [hi.counted.refs j hj, habove, hchild hj, hsources j hj, debt_nothing hidle]
  simp only [one, Bool.false_eq_true, if_false, Int.add_zero]

/-- A stack that is closed and detached, with no call on the way and no source
left, has been freed but for its top, and that too where nobody has a
reference. -/
theorem stack_ends (h : Run user depth polled es s) (hidle : ∀ a, s.todo a = []) (hclosed : s.isOpen = false)
    (hsources : ∀ i, i ≤ depth → (s.streams i).sourceRef = false) :
    (∀ i, 0 < i → i ≤ depth → .freed i ∈ es) ∧ (.freed 0 ∈ es ↔ ∀ a, s.hold a = 0) := by
  have hi := inv_run h
  rw [← depth_run h] at hsources
  have hrefs {j : Nat} (hj : j ≤ s.depth) := idle_refs hi hidle hclosed hsources hj
  have hfreed {j : Nat} (hj : j ≤ s.depth) : .freed j ∈ es ↔ (s.streams j).refcnt = 0 := by
    rw [← List.count_pos_iff, hi.freed]
    by_cases hzero : (s.streams j).refcnt = 0 <;> simp [hj, hzero]
  constructor
  · intro i hpos hle
    have hle' : i ≤ s.depth := by
      rw [depth_run h]
      exact hle
    rw [hfreed hle', hrefs hle', if_neg (Nat.ne_of_gt hpos)]
  · rw [hfreed (Nat.zero_le _), hrefs (Nat.zero_le _), if_pos rfl,
      Finset.sum_eq_zero_iff_of_nonneg fun a _ => Int.natCast_nonneg _]
    exact ⟨fun hzero a => Int.natCast_eq_zero.mp (hzero a (Finset.mem_univ a)), fun hzero a _ => Int.natCast_eq_zero.mpr (hzero a)⟩

/-- An attached stack of two that is closed and detached, and dropped after its
sources. -/
theorem taken_apart : ∃ es s, Run (some ()) 1 true es s ∧ (∀ a, s.todo a = []) ∧ s.isOpen = false ∧
    (∀ i, i ≤ 1 → (s.streams i).sourceRef = false) ∧ ∀ a, s.hold a = 0 := by
  have h0 : Run (some ()) 1 true [] (made (some ()) 1 true) := .nil _
  have h1 := Trace.Steps.snoc h0 (@Step.close Unit _ _ (some ()) ⟨.inl rfl, Nat.one_pos⟩) rfl
  have h2 := Trace.Steps.snoc h1 (@Step.run Unit _ _ (some ()) _ _ _ rfl rfl) trivial
  have h3 := Trace.Steps.snoc h2 (@Step.run Unit _ _ (some ()) _ _ _ rfl rfl) trivial
  have h4 := Trace.Steps.snoc h3 (@Step.run Unit _ _ (some ()) _ _ _ rfl rfl) trivial
  have h5 := Trace.Steps.snoc h4 (@Step.run Unit _ _ (some ()) _ _ _ rfl rfl) trivial
  have h6 := Trace.Steps.snoc h5 (@Step.detach Unit _ _ (some ()) ⟨.inl rfl, Nat.one_pos⟩) rfl
  have h7 := Trace.Steps.snoc h6 (@Step.run Unit _ _ (some ()) _ _ _ rfl rfl) trivial
  have h8 := Trace.Steps.snoc h7 (@Step.run Unit _ _ (some ()) _ _ _ rfl rfl) trivial
  have h9 := Trace.Steps.snoc h8 (@Step.run Unit _ _ (some ()) _ _ _ rfl rfl) trivial
  have h10 := Trace.Steps.snoc h9 (@Step.run Unit _ _ (some ()) _ _ _ rfl rfl) trivial
  have h11 := Trace.Steps.snoc h10 (@Step.run Unit _ _ (some ()) _ _ _ rfl rfl) trivial
  have h12 := Trace.Steps.snoc h11 (@Step.run Unit _ _ (some ()) _ _ _ rfl rfl) trivial
  have h13 := Trace.Steps.snoc h12 (@Step.run Unit _ _ (some ()) _ _ _ rfl rfl) trivial
  have h14 := Trace.Steps.snoc h13 (@Step.run Unit _ _ (some ()) _ _ _ rfl rfl) trivial
  have h15 := Trace.Steps.snoc h14 (@Step.run Unit _ _ (some ()) _ _ _ rfl rfl) trivial
  have h16 := Trace.Steps.snoc h15 (@Step.run Unit _ _ (some ()) _ _ _ rfl rfl) trivial
  have h17 := Trace.Steps.snoc h16 (@Step.run Unit _ _ (some ()) _ _ _ rfl rfl) trivial
  have h18 := Trace.Steps.snoc h17 (@Step.run Unit _ _ (some ()) _ _ _ rfl rfl) trivial
  have h19 := Trace.Steps.snoc h18 (@Step.finalize Unit _ _ 0 rfl rfl fun _ => List.not_mem_nil) trivial
  have h20 := Trace.Steps.snoc h19 (@Step.finalize Unit _ _ 1 rfl rfl fun _ => List.not_mem_nil) trivial
  have h21 := Trace.Steps.snoc h20 (@Step.drop Unit _ _ (some ()) ⟨.inl rfl, Nat.one_pos⟩) trivial
  have h22 := Trace.Steps.snoc h21 (@Step.run Unit _ _ (some ()) _ _ _ rfl rfl) trivial
  exact ⟨_, _, h22, by decide, rfl, by decide, by decide⟩

theorem stack_ends_taken_apart : ∃ (es : List (Event Unit)) (s : Stack Unit), Run (some ()) 1 true es s ∧
    (∀ i, 0 < i → i ≤ 1 → .freed i ∈ es) ∧ (.freed 0 ∈ es ↔ ∀ a, s.hold a = 0) ∧ ∀ a, s.hold a = 0 := by
  obtain ⟨es, s, h, hidle, hclosed, hsources, hhold⟩ := taken_apart
  obtain ⟨hbelow, htop⟩ := stack_ends h hidle hclosed hsources
  exact ⟨es, s, h, hbelow, htop, hhold⟩

theorem stack_safe_taken_apart : ∃ (es : List (Event Unit)) (s : Stack Unit), Run (some ()) 1 true es s ∧ s.isOpen = false ∧
    (∀ before after i, es = before ++ .touched i :: after → .freed i ∉ before) ∧ .aborted ∉ es ∧
      ∀ i, es.count (.freed i) ≤ 1 := by
  obtain ⟨es, s, h, -, hclosed, -⟩ := taken_apart
  exact ⟨es, s, h, hclosed, stack_safe h⟩

/-! Calls come to an end -/

/-- So many frames follow it at most, in a stack of such a depth. -/
def work (depth : Nat) : Frame → Nat
  | .close i => 6 * ((depth - i) * (depth - i + 1)) + 4
  | .detach i => 6 * ((depth - i + 1) * (depth - i + 1))
  | .descend i => 6 * ((depth - i) * (depth - i + 1)) + 2
  | .structUnref i => 6 * (depth - i) + 3
  | .unlink i => 6 * (depth - i) + 1
  | .grab _ _ => 6 * depth + 6
  | .callback _ _ => 2
  | _ => 1

def works (depth : Nat) : List Frame → Nat
  | [] => 0
  | f :: rest => work depth f + works depth rest

theorem works_append (todo todo' : List Frame) : works depth (todo ++ todo') = works depth todo + works depth todo' := by
  induction todo with
  | nil => exact (Nat.zero_add _).symm
  | cons f todo ih =>
      rw [List.cons_append, works, works, ih]
      exact (Nat.add_assoc _ _ _).symm

/-- What is left for the child is less. -/
theorem work_child (hi : i < depth) :
    works depth [.close (i + 1), .structUnref i] < work depth (.close i) ∧
      works depth [.detach (i + 1)] < work depth (.descend i) ∧
      works depth [.structUnref (i + 1), .unref (i + 1), .unref i] < work depth (.unlink i) := by
  obtain ⟨below, rfl⟩ : ∃ below, depth = i + 1 + below := ⟨depth - (i + 1), by omega⟩
  have hnext : i + 1 + below - (i + 1) = below := by omega
  have hhere : i + 1 + below - i = below + 1 := by omega
  have hsquare : (below + 1) * (below + 1 + 1) = (below + 1) * (below + 1) + (below + 1) := Nat.mul_succ _ _
  have hsquare' : (below + 1) * (below + 1) = below * (below + 1) + (below + 1) := Nat.succ_mul _ _
  simp only [works, work, hnext, hhere]
  omega

theorem work_exec (hi : Inv es s) (htodo : s.todo a = f :: rest) {out : Outcome T} (hexec : exec a (inCall s) s.streams f = some out) :
    works s.depth out.frames < work s.depth f := by
  have hframe := hi.frames a f (htodo ▸ List.mem_cons_self)
  cases f with
  | close i =>
      cases hexec
      by_cases hchild : (s.streams i).child = true
      · simp only [if_pos hchild]
        exact (work_child (child_lt hi.counted hframe hchild)).1
      · simp only [if_neg hchild, works, work]
        have hsquare : (s.depth - i) * (s.depth - i + 1) = (s.depth - i) * (s.depth - i) + (s.depth - i) := Nat.mul_succ _ _
        have hle : s.depth - i ≤ (s.depth - i) * (s.depth - i) := Nat.le_mul_self _
        omega
  | detach i =>
      cases hexec
      have hsquare : (s.depth - i + 1) * (s.depth - i + 1) = (s.depth - i) * (s.depth - i + 1) + (s.depth - i + 1) :=
        Nat.succ_mul _ _
      by_cases hsource : (s.streams i).source = true
      · simp only [if_pos hsource, works, work]
        omega
      · simp only [if_neg hsource, works, work]
        omega
  | descend i =>
      cases hexec
      by_cases hchild : (s.streams i).child = true
      · simp only [if_pos hchild]
        exact (work_child (child_lt hi.counted hframe hchild)).2.1
      · simp only [if_neg hchild]
        exact Nat.succ_pos _
  | structUnref i =>
      simp only [exec] at hexec
      split at hexec
      · cases hexec
        simp only [works, work]
        omega
      · cases hexec
        exact Nat.succ_pos _
  | unlink i =>
      simp only [exec] at hexec
      split at hexec
      · next hchild =>
          split at hexec
          · cases hexec
            exact (work_child (child_lt hi.counted hframe hchild)).2.2
          · cases hexec
            exact Nat.succ_pos _
      · cases hexec
        exact Nat.succ_pos _
  | grab i poll =>
      simp only [exec, Option.some.injEq] at hexec
      split at hexec
      · next top hgrab =>
          have hle : s.depth - top ≤ s.depth := Nat.sub_le _ _
          cases hexec
          cases poll <;> simp only [works, work, Bool.false_eq_true, if_true, if_false] <;> omega
      · cases hexec
        exact Nat.succ_pos _
  | callback | unref | detached | release =>
      cases hexec
      simp [works, work]
  | inCallback => cases hexec

/-- What all of them have to do. -/
def worked (s : Stack T) : Nat := ∑ a, works s.depth (s.todo a)

theorem worked_update {todo : List Frame} (htodo : t.todo = Function.update s.todo a todo) (hdepth : t.depth = s.depth)
    (hlt : works s.depth todo < works s.depth (s.todo a)) : worked t < worked s := by
  rw [worked, worked, htodo, hdepth]
  refine Finset.sum_lt_sum (fun b _ => ?_) ⟨a, Finset.mem_univ a, ?_⟩
  · by_cases hb : b = a
    · subst hb
      rw [Function.update_self]
      exact Nat.le_of_lt hlt
    · rw [Function.update_of_ne hb]
  · rw [Function.update_self]
    exact hlt

theorem worked_run (hi : Inv es s) (hstep : Step .run s new t) : worked t < worked s := by
  cases hstep with
  | @run _ a f rest out htodo hexec =>
      refine worked_update (a := a) rfl rfl ?_
      rw [works_append, htodo, works]
      exact Nat.add_lt_add_right (work_exec hi htodo hexec) _

omit [DecidableEq T] [Fintype T] in
/-- Only a callback keeps a thread waiting. -/
theorem exec_waits {called : Nat → Bool} {streams : Streams} (hexec : exec a called streams f = none) :
    ∃ i top, f = .inCallback i top := by
  cases f with
  | inCallback i top => exact ⟨i, top, rfl⟩
  | structUnref i =>
      simp only [exec] at hexec
      split at hexec <;> cases hexec
  | unlink i =>
      simp only [exec] at hexec
      split at hexec
      · split at hexec <;> cases hexec
      · cases hexec
  | _ => cases hexec

/-- However they get between each other, the calls do so many frames at most,
and then every thread is at home, or in a callback. -/
theorem calls_finish (h : Run user depth polled es s) :
    (∀ new t, Step .run s new t → worked t < worked s) ∧ ((∀ new t, ¬Step .run s new t) → ∀ a, AtHome s a) := by
  refine ⟨fun new t => worked_run (inv_run h), fun hstuck a => ?_⟩
  cases htodo : s.todo a with
  | nil => exact .inl htodo
  | cons f rest =>
      cases hexec : exec a (inCall s) s.streams f with
      | some out => exact absurd (.run a htodo hexec) (hstuck _ _)
      | none =>
          obtain ⟨i, top, rfl⟩ := exec_waits hexec
          exact .inr ⟨i, top, rest, htodo⟩

theorem calls_finish_close : ∃ (s : Stack Unit), Run (some ()) 1 true [] s ∧ s.todo (some ()) = [.close 0] ∧
    (∀ new t, Step .run s new t → worked t < worked s) ∧ ((∀ new t, ¬Step .run s new t) → ∀ a, AtHome s a) := by
  have h0 : Run (some ()) 1 true [] (made (some ()) 1 true) := .nil _
  have h1 := Trace.Steps.snoc h0 (@Step.close Unit _ _ (some ()) ⟨.inl rfl, Nat.one_pos⟩) rfl
  exact ⟨_, h1, rfl, calls_finish h1⟩

/-! Every stack comes to its end -/

/-- A thread that is not at home goes on, or comes back from its callback. -/
theorem busy_step (h : Run user depth polled es s) (hbusy : s.todo a ≠ []) :
    ∃ new t, Run user depth polled (es ++ new) t ∧ worked t < worked s ∧ t.isOpen = s.isOpen ∧ t.attached = s.attached ∧
      t.hold = s.hold := by
  have hi := inv_run h
  obtain ⟨f, rest, htodo⟩ := List.exists_cons_of_ne_nil hbusy
  cases hexec : exec a (inCall s) s.streams f with
  | some out =>
      have hstep := Step.run a htodo hexec
      exact ⟨_, _, .snoc h hstep trivial, worked_run hi hstep, rfl, rfl, rfl⟩
  | none =>
      obtain ⟨i, top, rfl⟩ := exec_waits hexec
      obtain ⟨rfl, -⟩ := hi.frames a _ (htodo ▸ List.mem_cons_self)
      refine ⟨_, _, .snoc h (.comeBack htodo) trivial, worked_update (a := none) rfl rfl ?_, rfl, rfl, rfl⟩
      rw [htodo, works]
      exact Nat.lt_add_of_pos_left Nat.one_pos

theorem calls_end (n : Nat) (h : Run user depth polled es s) (hn : worked s ≤ n) :
    ∃ more t, Run user depth polled (es ++ more) t ∧ (∀ a, t.todo a = []) ∧ t.isOpen = s.isOpen ∧ t.attached = s.attached ∧
      t.hold = s.hold := by
  induction n generalizing es s with
  | zero =>
      refine ⟨[], s, (List.append_nil es).symm ▸ h, fun a => ?_, rfl, rfl, rfl⟩
      by_contra hbusy
      obtain ⟨new, t, -, hlt, -⟩ := busy_step h hbusy
      omega
  | succ n ih =>
      by_cases hidle : ∀ a, s.todo a = []
      · exact ⟨[], s, (List.append_nil es).symm ▸ h, hidle, rfl, rfl, rfl⟩
      · obtain ⟨a, hbusy⟩ := not_forall.mp hidle
        obtain ⟨new, t, hnext, hlt, hopen, hattached, hhold⟩ := busy_step h hbusy
        obtain ⟨more, u, hlast, hidle, hopen', hattached', hhold'⟩ := ih hnext (by omega)
        rw [List.append_assoc] at hlast
        exact ⟨new ++ more, u, hlast, hidle, hopen'.trans hopen, hattached'.trans hattached, hhold'.trans hhold⟩

/-- Nothing keeps a source that has been taken off. -/
theorem sources_end (n : Nat) (h : Run user depth polled es s) (hidle : ∀ a, s.todo a = []) (hdetached : s.attached = false) :
    ∃ more t, Run user depth polled (es ++ more) t ∧ (∀ a, t.todo a = []) ∧ t.isOpen = s.isOpen ∧ t.attached = false ∧
      t.hold = s.hold ∧ ∀ i, i < n → (t.streams i).sourceRef = false := by
  induction n with
  | zero => exact ⟨[], s, (List.append_nil es).symm ▸ h, hidle, rfl, hdetached, rfl, fun i hi => absurd hi (Nat.not_lt_zero i)⟩
  | succ n ih =>
      obtain ⟨more, t, hnext, hidle', hopen, hattached, hhold, hdone⟩ := ih
      have hi := inv_run hnext
      cases href : (t.streams n).sourceRef with
      | false =>
          refine ⟨more, t, hnext, hidle', hopen, hattached, hhold, fun i hlt => ?_⟩
          rcases Nat.lt_succ_iff_lt_or_eq.mp hlt with hlt | rfl
          · exact hdone i hlt
          · exact href
      | true =>
          have hgone := hi.sourced.finished hattached (debt_nothing hidle') n (hi.sourced.depth n href)
          have hstep := Step.finalize n hgone href fun poll hmem => absurd hmem (by rw [hidle' none]; exact List.not_mem_nil)
          have hlast := Trace.Steps.snoc hnext hstep trivial
          rw [List.append_assoc] at hlast
          refine ⟨_, _, hlast, hidle', hopen, hattached, hhold, fun i hlt => ?_⟩
          simp only [finalize_eq]
          rcases Nat.lt_succ_iff_lt_or_eq.mp hlt with hlt | rfl
          · rw [hdone i hlt, Bool.false_and]
          · simp

/-- Whatever has happened, a stack that is closed and detached is freed when the
calls that are on the way come back and the main loop has finalized its
sources. -/
theorem stack_comes_to_end (h : Run user depth polled es s) (hclosed : s.isOpen = false) (hdetached : s.attached = false) :
    ∃ more t, Run user depth polled (es ++ more) t ∧ t.hold = s.hold ∧ (∀ i, 0 < i → i ≤ depth → .freed i ∈ es ++ more) ∧
      (.freed 0 ∈ es ++ more ↔ ∀ a, s.hold a = 0) := by
  obtain ⟨more, t, hcalls, hidle, hopen, hattached, hhold⟩ := calls_end (worked s) h (Nat.le_refl _)
  obtain ⟨more', u, hsources, hidle', hopen', -, hhold', hdone⟩ :=
    sources_end (depth + 1) hcalls hidle (hattached.trans hdetached)
  rw [List.append_assoc] at hsources
  have hends := stack_ends hsources hidle' ((hopen'.trans hopen).trans hclosed) fun i hi => hdone i (Nat.lt_succ_of_le hi)
  rw [hhold'.trans hhold] at hends
  exact ⟨more ++ more', u, hsources, hhold'.trans hhold, hends⟩

/-- The callback of the second stream runs when a thread has closed the stack
and begins to detach it. -/
theorem stack_comes_to_end_in_callback : ∃ (es more : List (Event Unit)) (s t : Stack Unit), Run (some ()) 1 true es s ∧
    .inCallback 1 0 ∈ s.todo none ∧ Run (some ()) 1 true (es ++ more) t ∧ .freed 1 ∈ es ++ more := by
  have h0 : Run (some ()) 1 true [] (made (some ()) 1 true) := .nil _
  have h1 := Trace.Steps.snoc h0 (@Step.dispatch Unit _ _ 1 false (.inl rfl) rfl rfl) trivial
  have h2 := Trace.Steps.snoc h1 (@Step.run Unit _ _ none _ _ _ rfl rfl) trivial
  have h3 := Trace.Steps.snoc h2 (@Step.run Unit _ _ none _ _ _ rfl rfl) trivial
  have h4 := Trace.Steps.snoc h3 (@Step.close Unit _ _ (some ()) ⟨.inl rfl, Nat.one_pos⟩) rfl
  have h5 := Trace.Steps.snoc h4 (@Step.run Unit _ _ (some ()) _ _ _ rfl rfl) trivial
  have h6 := Trace.Steps.snoc h5 (@Step.run Unit _ _ (some ()) _ _ _ rfl rfl) trivial
  have h7 := Trace.Steps.snoc h6 (@Step.run Unit _ _ (some ()) _ _ _ rfl rfl) trivial
  have h8 := Trace.Steps.snoc h7 (@Step.run Unit _ _ (some ()) _ _ _ rfl rfl) trivial
  have h9 := Trace.Steps.snoc h8 (@Step.detach Unit _ _ (some ()) ⟨.inl rfl, Nat.one_pos⟩) rfl
  obtain ⟨more, t, h, -, hfreed, -⟩ := stack_comes_to_end h9 rfl rfl
  exact ⟨_, more, _, t, h9, List.mem_cons_self, h, hfreed 1 Nat.one_pos (Nat.le_refl 1)⟩

end Libzorpll.StackEnd
