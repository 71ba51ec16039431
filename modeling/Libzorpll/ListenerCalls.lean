import Libzorpll.ListenerHeld

/-! Which callbacks a listener calls, and how many. -/

namespace Libzorpll.ListenerCalls

open Listener ListenerHeld

variable {T : Type}

def isCalled : Event T → Bool
  | .called => true
  | _ => false

/-- How many connections z_listener_accept may accept. -/
def limit (acceptOne : Bool) : Nat := if acceptOne then 1 else maxAcceptsAtATime

/-- What z_listener_accept knows of its accepts. -/
def LoopOk (acceptOne : Bool) : Loop → Prop
  | .testing _ rc accepts | .tested _ rc accepts => accepts ≤ limit acceptOne ∧ (acceptOne = true → rc = true → accepts = 0)
  | .accepting _ accepts | .inCallback _ accepts => accepts < limit acceptOne
  | _ => True

/-- How many callbacks there can have been since the dispatch began. -/
def Loop.calls (acceptOne : Bool) : Loop → Nat
  | .dispatched _ | .entered _ | .locked _ => 0
  | .testing _ _ accepts | .accepting _ accepts | .tested _ _ accepts => accepts
  | .inCallback _ accepts => accepts + 1
  | .idle | .leaving .. | .unlocking .. | .returned .. => limit acceptOne

def Loop.accepts : Loop → Nat
  | .accepting .. => 1
  | _ => 0

/-- What has been called, and what has not. -/
structure Told (acceptOne : Bool) (es : List (Event T)) (s : Listener T) : Prop where
  flags : s.acceptOne = acceptOne
  loop : LoopOk acceptOne s.loop
  silent : ∀ before after, es = before ++ .called :: after → ∀ a n, .cancelled a n ∈ before →
    n < before.countP isStarted
  bounded : ∀ before recent, es = before ++ recent → .dispatched ∉ recent →
    recent.countP isCalled ≤ Loop.calls acceptOne s.loop
  suspended : ∀ before a after, es = before ++ .suspended a :: after → .resumed ∉ after → .started ∉ after →
    (∀ watch, s.watch = some watch → (s.source watch).suspended = true) ∧
      after.countP isCalled + Loop.accepts s.loop ≤ if a = none then 0 else 1

variable {es new before after : List (Event T)} {s t : Listener T} {a : Option T} {acceptOne : Bool}

/-- The last event, or one before it. -/
theorem snoc_split {ε : Type} {es before after : List ε} {e x : ε} (h : es ++ [e] = before ++ x :: after) :
    (after = [] ∧ before = es ∧ x = e) ∨ ∃ after', after = after' ++ [e] ∧ es = before ++ x :: after' := by
  rcases List.eq_nil_or_concat after with rfl | ⟨after', y, rfl⟩
  · obtain ⟨hes, hx⟩ := List.append_inj' h rfl
    cases hx
    exact .inl ⟨rfl, hes.symm, rfl⟩
  · rw [List.concat_eq_append, ← List.cons_append, ← List.append_assoc] at h
    obtain ⟨hes, hy⟩ := List.append_inj' h rfl
    cases hy
    exact .inr ⟨after', List.concat_eq_append, hes⟩

theorem snoc_split_append {ε : Type} {es before recent : List ε} {e : ε} (h : es ++ [e] = before ++ recent) :
    recent = [] ∨ ∃ recent', recent = recent' ++ [e] ∧ es = before ++ recent' := by
  rcases List.eq_nil_or_concat recent with hnil | ⟨recent', y, rfl⟩
  · exact .inl hnil
  · rw [List.concat_eq_append, ← List.append_assoc] at h
    obtain ⟨hes, hy⟩ := List.append_inj' h rfl
    cases hy
    exact .inr ⟨recent', List.concat_eq_append, hes⟩

theorem calls_limit (hok : LoopOk acceptOne s.loop) : Loop.calls acceptOne s.loop ≤ limit acceptOne := by
  generalize s.loop = l at hok
  cases l with
  | dispatched | entered | locked => exact Nat.zero_le _
  | testing | tested => exact hok.1
  | accepting => exact Nat.le_of_lt hok
  | inCallback => exact hok
  | _ => exact Nat.le_refl _

variable [DecidableEq T]

/-- What a step does to the count of accepts, with an event or without. -/
theorem step_loop (hflags : s.acceptOne = acceptOne) (hok : LoopOk acceptOne s.loop) (hstep : Step () s new t) :
    t.acceptOne = acceptOne ∧ LoopOk acceptOne t.loop ∧
      (.dispatched ∈ new ∨ Loop.calls acceptOne s.loop + new.countP isCalled ≤ Loop.calls acceptOne t.loop) := by
  have hlimit := calls_limit hok
  have hat {l : Loop} (hloop : s.loop = l) : LoopOk acceptOne l := hloop ▸ hok
  have hsame (hnew : new.countP isCalled = 0) :
      Loop.calls acceptOne s.loop + new.countP isCalled ≤ Loop.calls acceptOne s.loop := by omega
  have hfreeing : (freeing s).countP isCalled = 0 := by
    rw [freeing]
    split
    · rfl
    · rfl
  cases hstep with
  | dispatch => exact ⟨hflags, trivial, .inl (List.mem_singleton_self _)⟩
  | check hloop =>
      rw [hloop] at hlimit ⊢
      split
      · exact ⟨hflags, trivial, .inr (Nat.zero_le _)⟩
      · exact ⟨hflags, trivial, .inr (Nat.le_refl _)⟩
  | lock hloop =>
      rw [hloop]
      exact ⟨hflags, trivial, .inr (Nat.le_refl _)⟩
  | cancelledBefore hloop =>
      rw [hloop]
      exact ⟨hflags, trivial, .inr (Nat.zero_le _)⟩
  | ref hloop =>
      rw [hloop]
      exact ⟨hflags, ⟨Nat.zero_le _, fun _ _ => rfl⟩, .inr (Nat.le_refl _)⟩
  | @test _ w accepts watch hloop hwatch hsuspended haccepts =>
      obtain ⟨-, hone⟩ := hat hloop
      rw [hloop]
      refine ⟨hflags, ?_, .inr (Nat.le_refl _)⟩
      change accepts < limit acceptOne
      cases acceptOne with
      | true =>
          rw [hone rfl rfl]
          exact Nat.one_pos
      | false => exact haccepts
  | stop hloop =>
      rw [hloop] at hlimit ⊢
      exact ⟨hflags, trivial, .inr hlimit⟩
  | acceptAgain hloop =>
      rw [hloop] at hlimit ⊢
      exact ⟨hflags, trivial, .inr hlimit⟩
  | call hloop =>
      have hok := hat hloop
      rw [hloop]
      exact ⟨hflags, hok, .inr (Nat.le_refl _)⟩
  | comeBack rc hloop =>
      have hok := hat hloop
      rw [hloop]
      refine ⟨hflags, ⟨hok, fun hone hrc => ?_⟩, .inr (Nat.le_refl _)⟩
      rw [hflags, if_pos hone] at hrc
      cases hrc
  | next hloop =>
      have hok := hat hloop
      rw [hloop] at hlimit ⊢
      simp only
      split
      · exact ⟨hflags, trivial, .inr hlimit⟩
      · exact ⟨hflags, hok, .inr (Nat.le_refl _)⟩
  | unref hloop =>
      rw [hloop, hfreeing]
      exact ⟨hflags, trivial, .inr (Nat.le_refl _)⟩
  | unlock hloop =>
      rw [hloop]
      exact ⟨hflags, trivial, .inr (Nat.le_refl _)⟩
  | goOn hloop | remove hloop =>
      rw [hloop]
      exact ⟨hflags, trivial, .inr (Nat.le_refl _)⟩
  | unrefSource | drop =>
      rw [hfreeing]
      exact ⟨hflags, hok, .inr (Nat.le_refl _)⟩
  | suspend | resume =>
      split
      · exact ⟨hflags, hok, .inr (Nat.le_refl _)⟩
      · exact ⟨hflags, hok, .inr (Nat.le_refl _)⟩
  | _ => exact ⟨hflags, hok, .inr (Nat.le_refl _)⟩

theorem events_le_one (hstep : Step () s new t) : new = [] ∨ ∃ e, new = [e] := by
  have hfreeing : freeing s = [] ∨ ∃ e, freeing s = [e] := by
    rw [freeing]
    split
    · exact .inr ⟨_, rfl⟩
    · exact .inl rfl
  cases hstep with
  | unref | unrefSource | drop => exact hfreeing
  | dispatch | call | opened | suspendSource | resumeSource | cancelReturn => exact .inr ⟨_, rfl⟩
  | _ => exact .inl rfl

/-- A callback is called only with a watch. -/
theorem called_watch (hi : Inv es s) (hstep : Step () s [.called] t) : s.watch ≠ none := by
  generalize hnew : [Event.called] = new at hstep
  cases hstep with
  | call hloop =>
      refine hi.watching ?_
      rw [hloop]
      rfl
  | unref | unrefSource | drop =>
      rw [freeing] at hnew
      split at hnew
      · cases hnew
      · cases hnew
  | _ => cases hnew

theorem step_silent (hi : Inv es s)
    (hsilent : ∀ before after, es = before ++ .called :: after → ∀ a n, .cancelled a n ∈ before →
      n < before.countP isStarted)
    (hstep : Step () s new t) (before after : List (Event T)) (hes : es ++ new = before ++ .called :: after) (a : Option T)
    (n : Nat) (hcancelled : .cancelled a n ∈ before) : n < before.countP isStarted := by
  rcases events_le_one hstep with rfl | ⟨e, rfl⟩
  · rw [List.append_nil] at hes
    exact hsilent before after hes a n hcancelled
  · rcases snoc_split hes with ⟨-, rfl, rfl⟩ | ⟨after', -, hes⟩
    · obtain ⟨hle, hnone⟩ := hi.cancelled a n hcancelled
      have hne : n ≠ s.sources := fun hlast => called_watch hi hstep (hnone hlast)
      rw [hi.starts]
      omega
    · exact hsilent before after' hes a n hcancelled

theorem step_bounded (hflags : s.acceptOne = acceptOne) (hok : LoopOk acceptOne s.loop)
    (hbounded : ∀ before recent, es = before ++ recent → .dispatched ∉ recent →
      recent.countP isCalled ≤ Loop.calls acceptOne s.loop)
    (hstep : Step () s new t) (before recent : List (Event T)) (hes : es ++ new = before ++ recent)
    (hrecent : .dispatched ∉ recent) : recent.countP isCalled ≤ Loop.calls acceptOne t.loop := by
  obtain ⟨-, -, hcount⟩ := step_loop hflags hok hstep
  rcases events_le_one hstep with rfl | ⟨e, rfl⟩
  · rw [List.append_nil] at hes
    have hcount := hcount.resolve_left List.not_mem_nil
    have hold := hbounded before recent hes hrecent
    exact Nat.le_trans hold hcount
  · rcases snoc_split_append hes with rfl | ⟨recent', rfl, hsplit⟩
    · exact Nat.zero_le _
    · have hcount := hcount.resolve_left fun hmem => hrecent (List.mem_append_right _ hmem)
      have hold := hbounded before recent' hsplit fun hmem => hrecent (List.mem_append_left _ hmem)
      rw [List.countP_append]
      omega

omit [DecidableEq T] in
theorem suspended_setSource {w : Nat} {source : Source} (hsource : (s.source w).suspended = true → source.suspended = true)
    (v : Nat) (hv : (s.source v).suspended = true) : ((setSource w source s).source v).suspended = true := by
  by_cases hvw : v = w
  · rw [hvw, setSource_self]
    exact hsource (hvw ▸ hv)
  · rw [setSource_other hvw]
    exact hv

/-- Where the watch is suspended, z_listener_accept accepts what it has begun
to accept, and nothing else. -/
theorem step_suspended (hsuspended : ∀ watch, s.watch = some watch → (s.source watch).suspended = true)
    (hstep : Step () s new t) (hresumed : .resumed ∉ new) (hstarted : .started ∉ new) :
    (∀ watch, t.watch = some watch → (t.source watch).suspended = true) ∧
      new.countP isCalled + Loop.accepts t.loop ≤ Loop.accepts s.loop := by
  have hfreeing : (freeing s).countP isCalled = 0 := by
    rw [freeing]
    split
    · rfl
    · rfl
  cases hstep with
  | test hloop hwatch hnot => exact Bool.noConfusion (hnot.symm.trans (hsuspended _ hwatch))
  | call hloop =>
      rw [hloop]
      exact ⟨hsuspended, Nat.le_refl _⟩
  | check | next =>
      simp only
      split
      · exact ⟨hsuspended, Nat.zero_le _⟩
      · exact ⟨hsuspended, Nat.zero_le _⟩
  | dispatch | lock | cancelledBefore | ref | stop | acceptAgain | comeBack | unlock | goOn =>
      exact ⟨hsuspended, Nat.zero_le _⟩
  | unref =>
      rw [hfreeing]
      exact ⟨hsuspended, Nat.zero_le _⟩
  | unrefSource | drop =>
      rw [hfreeing]
      exact ⟨hsuspended, Nat.le_of_eq (Nat.zero_add _)⟩
  | remove =>
      refine ⟨fun watch hwatch => ?_, Nat.zero_le _⟩
      refine suspended_setSource ?_ watch (hsuspended watch hwatch)
      exact id
  | opened => exact absurd (List.mem_singleton_self _) hstarted
  | resumeSource => exact absurd (List.mem_singleton_self _) hresumed
  | attach | cancelDestroy =>
      refine ⟨fun watch hwatch => ?_, Nat.le_of_eq (Nat.zero_add _)⟩
      refine suspended_setSource ?_ watch (hsuspended watch hwatch)
      exact id
  | suspendSource =>
      refine ⟨fun watch hwatch => ?_, Nat.le_of_eq (Nat.zero_add _)⟩
      refine suspended_setSource ?_ watch (hsuspended watch hwatch)
      exact fun _ => rfl
  | cancelTake =>
      refine ⟨fun watch hwatch => ?_, Nat.le_of_eq (Nat.zero_add _)⟩
      cases hwatch
  | suspend | resume =>
      split
      · exact ⟨hsuspended, Nat.le_of_eq (Nat.zero_add _)⟩
      · exact ⟨hsuspended, Nat.le_of_eq (Nat.zero_add _)⟩
  | _ => exact ⟨hsuspended, Nat.le_of_eq (Nat.zero_add _)⟩

/-- The watch has just been suspended, by the callback perhaps. -/
theorem suspended_now (hi : Inv es s) (hstep : Step () s [.suspended a] t) :
    (∀ watch, t.watch = some watch → (t.source watch).suspended = true) ∧
      Loop.accepts t.loop ≤ if a = none then 0 else 1 := by
  generalize hnew : [Event.suspended a] = new at hstep
  have hfreeing : [Event.suspended a] ≠ freeing s := by
    rw [freeing]
    split
    · intro heq
      cases heq
    · exact List.cons_ne_nil _ _
  cases hstep with
  | @suspendSource _ a' watch hcall hwatch =>
      cases hnew
      refine ⟨fun watch' hwatch' => ?_, ?_⟩
      · change s.watch = some watch' at hwatch'
        rw [hwatch] at hwatch'
        cases hwatch'
        change ((setSource watch _ s).source watch).suspended = true
        rw [setSource_self]
      · change Loop.accepts s.loop ≤ _
        split
        · rename_i ha
          subst ha
          have hbusy : s.calls none ≠ .idle := by
            rw [hcall]
            intro heq
            cases heq
          rcases hi.callers none hbusy with ⟨w, accepts, hin⟩ | ⟨hin, -⟩
          · rw [hin]
            exact Nat.le_refl _
          · rw [hin]
            exact Nat.le_refl _
        · cases s.loop with
          | accepting => exact Nat.le_refl _
          | _ => exact Nat.zero_le _
  | unref | unrefSource | drop => exact absurd hnew hfreeing
  | _ => cases hnew

theorem told_step (hi : Inv es s) (h : Told acceptOne es s) (hstep : Step () s new t) : Told acceptOne (es ++ new) t := by
  obtain ⟨hflags, hloop, hsilent, hbounded, hsuspended⟩ := h
  obtain ⟨hflags', hloop', -⟩ := step_loop hflags hloop hstep
  refine ⟨hflags', hloop', step_silent hi hsilent hstep, step_bounded hflags hloop hbounded hstep,
    fun before a after hes hresumed hstarted => ?_⟩
  rcases events_le_one hstep with rfl | ⟨e, rfl⟩
  · rw [List.append_nil] at hes
    obtain ⟨hwatch, hcount⟩ := hsuspended before a after hes hresumed hstarted
    obtain ⟨hwatch', hcount'⟩ := step_suspended hwatch hstep List.not_mem_nil List.not_mem_nil
    rw [List.countP_nil] at hcount'
    exact ⟨hwatch', by omega⟩
  · rcases snoc_split hes with ⟨rfl, -, rfl⟩ | ⟨after', rfl, hsplit⟩
    · obtain ⟨hwatch', hcount'⟩ := suspended_now hi hstep
      rw [List.countP_nil, Nat.zero_add]
      exact ⟨hwatch', hcount'⟩
    · obtain ⟨hwatch, hcount⟩ := hsuspended before a after' hsplit
        (fun hmem => hresumed (List.mem_append_left _ hmem)) (fun hmem => hstarted (List.mem_append_left _ hmem))
      obtain ⟨hwatch', hcount'⟩ := step_suspended hwatch hstep (fun hmem => hresumed (List.mem_append_right _ hmem))
        (fun hmem => hstarted (List.mem_append_right _ hmem))
      rw [List.countP_append]
      exact ⟨hwatch', by omega⟩

variable {user : Option T}

theorem told_run (h : Run user acceptOne es s) : Told acceptOne es s := by
  have hboth := Trace.Steps.invariant h (fun es s => Inv es s ∧ Told acceptOne es s) ⟨inv_made user acceptOne, rfl, trivial,
    fun before after hes => ?_, fun before recent hes _ => ?_, fun before a after hes => ?_⟩
    fun _ _ _ _ _ hboth _ hstep => ⟨inv_step hboth.1 hstep, told_step hboth.1 hboth.2 hstep⟩
  · exact hboth.2
  · exact absurd hes.symm (List.append_ne_nil_of_right_ne_nil _ (List.cons_ne_nil _ _))
  · rw [(List.append_eq_nil_iff.mp hes.symm).2]
    exact Nat.zero_le _
  · exact absurd hes.symm (List.append_ne_nil_of_right_ne_nil _ (List.cons_ne_nil _ _))

/-- After a z_listener_cancel has returned, no callback is called before the
listener is started again, whichever thread cancels and whatever the main loop
is doing: there have been more starts before the callback than before the call
of z_listener_cancel. -/
theorem cancel_silences {n : Nat} (h : Run user acceptOne (before ++ .called :: after) s)
    (hcancelled : .cancelled a n ∈ before) : n < before.countP isStarted :=
  (told_run h).silent before after rfl a n hcancelled

/-- A thread cancels a listener that was not started, starts it, and the main
loop accepts. -/
theorem cancel_silences_started :
    ∃ s : Listener Unit,
      Run (some ()) false ([.cancelled (some ()) 0, .started, .dispatched] ++ .called :: []) s ∧
        0 < List.countP isStarted [.cancelled (some ()) 0, .started, .dispatched] := by
  have h0 : Run (some ()) false [] (made (some ()) false) := .nil _
  have h1 := Trace.Steps.snoc h0 (@Step.cancel Unit _ _ (some ()) rfl rfl) trivial
  have h2 := Trace.Steps.snoc h1 (@Step.cancelTest Unit _ _ (some ()) 0 rfl) trivial
  have h3 := Trace.Steps.snoc h2 (@Step.cancelReturn Unit _ _ (some ()) 0 rfl) trivial
  have h4 := Trace.Steps.snoc h3 (@Step.start Unit _ _ (some ()) rfl rfl rfl) trivial
  have h5 := Trace.Steps.snoc h4 (@Step.opened Unit _ _ (some ()) rfl) trivial
  have h6 := Trace.Steps.snoc h5 (@Step.attach Unit _ _ (some ()) 0 rfl rfl rfl) trivial
  have h7 := Trace.Steps.snoc h6 (@Step.dispatch Unit _ _ 0 rfl rfl rfl rfl) trivial
  have h8 := Trace.Steps.snoc h7 (@Step.check Unit _ _ 0 rfl) trivial
  have h9 := Trace.Steps.snoc h8 (@Step.lock Unit _ _ 0 _ rfl rfl) trivial
  have h10 := Trace.Steps.snoc h9 (@Step.ref Unit _ _ 0 rfl nofun) trivial
  have h11 := Trace.Steps.snoc h10 (@Step.test Unit _ _ 0 0 0 rfl rfl rfl (by decide)) trivial
  have h12 := Trace.Steps.snoc h11 (@Step.call Unit _ _ 0 0 rfl) trivial
  exact ⟨_, h12, cancel_silences h12 (List.mem_cons_self)⟩

/-- A dispatch calls at most fifty callbacks, or one. -/
theorem dispatch_bounded (h : Run user acceptOne (before ++ after) s) (hafter : .dispatched ∉ after) :
    after.countP isCalled ≤ limit acceptOne := by
  obtain ⟨-, hloop, -, hbounded, -⟩ := told_run h
  exact Nat.le_trans (hbounded before after rfl hafter) (calls_limit hloop)

end Libzorpll.ListenerCalls
