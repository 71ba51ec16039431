import Libzorpll.Custody
import Libzorpll.Headcount
import Libzorpll.Trace

/-! The threads of z_thread_new and the jobs that wait for one of them. -/

namespace Libzorpll.ThreadPool

open Headcount Custody

/-- Where a z_thread_new is: it has not looked at the limit, it is creating its
thread, the creation has failed, or it has returned. -/
inductive Call
  | entering
  | creating
  | failed
  | returned (ok : Bool)
  deriving DecidableEq

/-- Where a z_thread_func is. -/
inductive Worker (J : Type)
  | absent
  | owns (job : J)
  | runs (job : J)
  | finished
  | exited

inductive Event (J : Type)
  | returned (job : J) (ok : Bool)
  | started (job : J)
  | finished (job : J)
  deriving DecidableEq

variable {J : Type}

/-- Jobs are the ZThreads, one for each call; a worker has the name of the job
it has been created for. -/
structure Pool (J : Type) where
  calls : J → Call := fun _ => .entering
  workers : J → Worker J := fun _ => .absent
  queue : List J := []
  numThreads : Int := 0

inductive Action (J : Type)
  | push (job : J)
  | reserve (job : J)
  | create (job : J)
  | fail (job : J)
  | giveBack (job : J)
  | start (worker : J)
  | finish (worker : J)
  | pop (worker : J)
  | exit (worker : J)

variable [DecidableEq J]

/-- What is done in one piece: the two branches of z_thread_new under the lock,
the outcomes of g_thread_create_full, what a failure does under the lock, and
the rounds of z_thread_func. -/
inductive Step (maxThreads : Int) : Action J → Pool J → List (Event J) → Pool J → Prop
  | push {s : Pool J} (j : J) (hcall : s.calls j = .entering) (hlimit : maxThreads ≤ s.numThreads) :
      Step maxThreads (.push j) s [.returned j true]
        { s with calls := Function.update s.calls j (.returned true), queue := s.queue ++ [j] }
  | reserve {s : Pool J} (j : J) (hcall : s.calls j = .entering)
      (hlimit : s.numThreads < maxThreads) :
      Step maxThreads (.reserve j) s []
        { s with calls := Function.update s.calls j .creating, numThreads := s.numThreads + 1 }
  | create {s : Pool J} (j : J) (hcall : s.calls j = .creating) :
      Step maxThreads (.create j) s [.returned j true]
        { s with
          calls := Function.update s.calls j (.returned true)
          workers := Function.update s.workers j (.owns j) }
  | fail {s : Pool J} (j : J) (hcall : s.calls j = .creating) :
      Step maxThreads (.fail j) s [] { s with calls := Function.update s.calls j .failed }
  | giveBack {s : Pool J} (j : J) (hcall : s.calls j = .failed) :
      Step maxThreads (.giveBack j) s [.returned j false]
        { s with
          calls := Function.update s.calls j (.returned false)
          numThreads := s.numThreads - 1 }
  | start {s : Pool J} (w : J) {j : J} (hworker : s.workers w = .owns j) :
      Step maxThreads (.start w) s [.started j]
        { s with workers := Function.update s.workers w (.runs j) }
  | finish {s : Pool J} (w : J) {j : J} (hworker : s.workers w = .runs j) :
      Step maxThreads (.finish w) s [.finished j]
        { s with workers := Function.update s.workers w .finished }
  | pop {s : Pool J} (w : J) {j : J} {rest : List J} (hworker : s.workers w = .finished)
      (hqueue : s.queue = j :: rest) :
      Step maxThreads (.pop w) s []
        { s with workers := Function.update s.workers w (.owns j), queue := rest }
  | exit {s : Pool J} (w : J) (hworker : s.workers w = .finished) (hqueue : s.queue = []) :
      Step maxThreads (.exit w) s []
        { s with
          workers := Function.update s.workers w .exited
          numThreads := s.numThreads - 1 }

/-- A worker is being started from the time its place is reserved until the
place is given back, or until its thread ends. -/
def Serves (call : Call) (worker : Worker J) : Prop :=
  match call with
  | .creating | .failed => True
  | .entering | .returned _ =>
      match worker with
      | .owns _ | .runs _ | .finished => True
      | .absent | .exited => False

def crew (s : Pool J) : Set J := { j | Serves (s.calls j) (s.workers j) }

/-- The ways a job can be after z_thread_new has returned TRUE for it. -/
inductive Placed (es : List (Event J)) (s : Pool J) (j : J) : Prop
  | finished (h : .finished j ∈ es)
  | running (w : J) (h : s.workers w = .runs j)
  | queued (h : j ∈ s.queue)
  | owned (w : J) (h : s.workers w = .owns j)

/-- The promises of the pool. -/
structure Healthy (maxThreads : Int) (es : List (Event J)) (s : Pool J) : Prop where
  once : ∀ j, es.count (.started j) ≤ 1
  placed : ∀ j, .returned j true ∈ es → Placed es s j
  limit : s.numThreads ≤ maxThreads
  counts : Counts (crew s) s.numThreads
  served : s.queue ≠ [] → (crew s).Nonempty

/-- No reserved place is given back when all that is left are jobs in the
queue. -/
def Settled : Action J → Pool J → Prop
  | .giveBack j, s => s.queue = [] ∨ ∃ k ∈ crew s, k ≠ j
  | _, _ => True

abbrev Run (maxThreads : Int) : List (Event J) → Pool J → Prop :=
  Trace.Steps (Step maxThreads) Settled {}

def owned : Worker J → Option J
  | .owns j => some j
  | .absent | .runs _ | .finished | .exited => none

/-- A job waits in the hands of a worker or in the queue. -/
def holds (s : Pool J) : J ⊕ J → Option J
  | .inl w => owned (s.workers w)
  | .inr j => if j ∈ s.queue then some j else none

def toCustody : Event J → Option (Custody.Event J)
  | .returned j true => some (.acquired j)
  | .returned _ false => none
  | .started j => some (.released j)
  | .finished _ => none

abbrev custody (es : List (Event J)) : List (Custody.Event J) := es.filterMap toCustody

omit [DecidableEq J] in
theorem mem_custody_acquired {es : List (Event J)} {j : J} :
    .acquired j ∈ custody es ↔ .returned j true ∈ es := by
  rw [custody, List.mem_filterMap]
  constructor
  · rintro ⟨e, he, heq⟩
    rcases e with ⟨k, ok⟩ | k | k
    · cases ok with
      | false => cases heq
      | true =>
          cases heq
          exact he
    · cases heq
    · cases heq
  · intro h
    exact ⟨_, h, rfl⟩

theorem count_started (es : List (Event J)) (j : J) :
    es.count (.started j) = gone j (custody es) := by
  induction es with
  | nil => rfl
  | cons e es ih =>
      rw [custody, ← List.singleton_append, List.filterMap_append, gone_append, ← custody,
        List.count_append, ih]
      congr 1
      rcases e with ⟨k, ok⟩ | k | k
      · cases ok with
        | false => rfl
        | true => rfl
      · by_cases hk : k = j
        · rw [hk, List.count_singleton_self]
          simp [custody, toCustody, gone]
        · simp [custody, toCustody, gone, hk]
      · rfl

theorem holds_worker (s : Pool J) (w : J) (x : Worker J) :
    holds { s with workers := Function.update s.workers w x } =
      Function.update (holds s) (.inl w) (owned x) := by
  funext a
  rcases a with v | j
  · by_cases hv : v = w
    · rw [hv, Function.update_self]
      exact congrArg owned (Function.update_self w x s.workers)
    · rw [Function.update_of_ne (fun heq => hv (Sum.inl.inj heq))]
      exact congrArg owned (Function.update_of_ne hv x s.workers)
  · rw [Function.update_of_ne Sum.inr_ne_inl]
    rfl

theorem holds_push (s : Pool J) (j : J) :
    holds { s with queue := s.queue ++ [j] } = Function.update (holds s) (.inr j) (some j) := by
  funext a
  rcases a with w | k
  · rw [Function.update_of_ne Sum.inl_ne_inr]
    rfl
  · by_cases hk : k = j
    · rw [hk, Function.update_self, holds, if_pos (List.mem_append_right _ List.mem_cons_self)]
    · rw [Function.update_of_ne (fun heq => hk (Sum.inr.inj heq)), holds, holds]
      simp only [List.mem_append, List.mem_singleton, hk, or_false]

theorem holds_pop {s : Pool J} {j : J} {rest : List J} (hqueue : s.queue = j :: rest)
    (hj : j ∉ rest) :
    holds { s with queue := rest } = Function.update (holds s) (.inr j) none := by
  funext a
  rcases a with w | k
  · rw [Function.update_of_ne Sum.inl_ne_inr]
    rfl
  · by_cases hk : k = j
    · rw [hk, Function.update_self, holds, if_neg hj]
    · rw [Function.update_of_ne (fun heq => hk (Sum.inr.inj heq)), holds, holds, hqueue]
      simp only [List.mem_cons, hk, false_or]

/-- What every step keeps, whether it is settled or not. -/
structure Inv (maxThreads : Int) (es : List (Event J)) (s : Pool J) : Prop where
  kept : Kept (custody es) (holds s)
  nodup : s.queue.Nodup
  pending : ∀ j, (∀ ok, s.calls j ≠ .returned ok) →
    s.workers j = .absent ∧ .returned j true ∉ es
  began : ∀ j, .started j ∈ es → .finished j ∈ es ∨ ∃ w, s.workers w = .runs j
  limit : s.numThreads ≤ maxThreads
  counts : Counts (crew s) s.numThreads

variable {maxThreads : Int} {es : List (Event J)} {s : Pool J}

theorem Inv.pending_of_call (h : Inv maxThreads es s) {j : J} {call : Call}
    (hcall : s.calls j = call) (hne : ∀ ok, call ≠ .returned ok) :
    s.workers j = .absent ∧ .returned j true ∉ es := by
  apply h.pending
  intro ok heq
  exact hne ok (hcall.symm.trans heq)

theorem Inv.not_queued (h : Inv maxThreads es s) {j : J} (hj : .returned j true ∉ es) :
    j ∉ s.queue := by
  intro hin
  apply hj
  apply mem_custody_acquired.mp
  exact h.kept.acquired j ⟨.inr j, if_pos hin⟩

theorem Inv.returned_of_worker (h : Inv maxThreads es s) {w : J} (hw : s.workers w ≠ .absent) :
    ∃ ok, s.calls w = .returned ok := by
  by_contra hnot
  exact hw (h.pending w (fun ok heq => hnot ⟨ok, heq⟩)).1

/-- The jobs change hands as tokens do. -/
theorem Inv.step_kept (h : Inv maxThreads es s) {a : Action J} {new : List (Event J)} {t : Pool J}
    (hstep : Step maxThreads a s new t) : Kept (custody (es ++ new)) (holds t) := by
  rw [custody, List.filterMap_append, ← custody]
  cases hstep with
  | push j hcall hlimit =>
      have hj := (h.pending_of_call hcall (by simp)).2
      have hfree : holds s (.inr j) = none := if_neg (h.not_queued hj)
      have hacquire := h.kept.acquire hfree (fun hin => hj (mem_custody_acquired.mp hin))
      rw [← holds_push] at hacquire
      exact hacquire
  | create j hcall =>
      obtain ⟨habsent, hj⟩ := h.pending_of_call hcall (by simp)
      have hfree : holds s (.inl j) = none := by rw [holds, habsent, owned]
      have hacquire := h.kept.acquire hfree (fun hin => hj (mem_custody_acquired.mp hin))
      have hworker := holds_worker s j (.owns j)
      rw [owned] at hworker
      rw [← hworker] at hacquire
      exact hacquire
  | reserve | fail | giveBack =>
      simp only [List.filterMap_cons, List.filterMap_nil, toCustody, List.append_nil]
      exact h.kept
  | @start _ w j hworker =>
      have hleave := h.kept.leave (f := .released) (.inl rfl) (.inl w)
      have howned : holds s (.inl w) = some j := by rw [holds, hworker, owned]
      rw [howned] at hleave
      rw [holds_worker]
      exact hleave
  | @finish _ w j hworker =>
      have hfree : holds s (.inl w) = none := by rw [holds, hworker, owned]
      rw [holds_worker, owned, ← hfree, Function.update_eq_self]
      simp only [List.filterMap_cons, List.filterMap_nil, toCustody, List.append_nil]
      exact h.kept
  | @pop _ w j rest hworker hqueue =>
      have hfree : holds s (.inl w) = none := by rw [holds, hworker, owned]
      have hmove := h.kept.move (a := .inr j) hfree
      have hnodup := h.nodup
      have hin : holds s (.inr j) = some j := by
        rw [holds, hqueue, if_pos List.mem_cons_self]
      rw [hqueue, List.nodup_cons] at hnodup
      have hrest := holds_pop (s := { s with workers := Function.update s.workers w (.owns j) })
        hqueue hnodup.1
      rw [holds_worker, owned, ← hin] at hrest
      rw [List.filterMap_nil, List.append_nil, hrest]
      exact hmove
  | exit w hworker hqueue =>
      have hfree : holds s (.inl w) = none := by rw [holds, hworker, owned]
      have hsame := holds_worker s w .exited
      rw [owned, ← hfree, Function.update_eq_self] at hsame
      rw [List.filterMap_nil, List.append_nil]
      change Kept (custody es) (holds { s with workers := Function.update s.workers w .exited })
      rw [hsame]
      exact h.kept

theorem Inv.step_nodup (h : Inv maxThreads es s) {a : Action J} {new : List (Event J)} {t : Pool J}
    (hstep : Step maxThreads a s new t) : t.queue.Nodup := by
  have hnodup := h.nodup
  cases hstep with
  | push j hcall hlimit =>
      have hj := h.not_queued (h.pending_of_call hcall (by simp)).2
      exact List.nodup_append.mpr ⟨hnodup, List.nodup_singleton j, by
        intro k hk k' hk' heq
        rw [heq, List.mem_singleton.mp hk'] at hk
        exact hj hk⟩
  | pop w hworker hqueue =>
      rw [hqueue, List.nodup_cons] at hnodup
      exact hnodup.2
  | reserve | create | fail | giveBack | start | finish | exit => exact hnodup

/-- A call that has not returned has no worker yet. -/
theorem Inv.step_pending (h : Inv maxThreads es s) {a : Action J} {new : List (Event J)}
    {t : Pool J} (hstep : Step maxThreads a s new t) (j : J)
    (hj : ∀ ok, t.calls j ≠ .returned ok) :
    t.workers j = .absent ∧ .returned j true ∉ es ++ new := by
  have hother (k : J) (c : Call) (hcall : ∀ ok, Function.update s.calls k c j ≠ .returned ok)
      (hk : ∀ ok, s.calls k ≠ .returned ok) :
      s.workers j = .absent ∧ .returned j true ∉ es := by
    by_cases hjk : j = k
    · exact h.pending j (hjk ▸ hk)
    · rw [Function.update_of_ne hjk] at hcall
      exact h.pending j hcall
  have hends (k : J) (b : Bool) (hcall : ∀ ok, Function.update s.calls k (.returned b) j ≠ .returned ok) :
      j ≠ k := by
    rintro rfl
    rw [Function.update_self] at hcall
    exact hcall b rfl
  have hworks (w : J) (x : Worker J) (hw : s.workers w ≠ .absent)
      (hcall : ∀ ok, s.calls j ≠ .returned ok) :
      Function.update s.workers w x j = .absent ∧ .returned j true ∉ es := by
    have habsent := h.pending j hcall
    have hjw : j ≠ w := by
      rintro rfl
      exact hw habsent.1
    rw [Function.update_of_ne hjw]
    exact habsent
  cases hstep with
  | push k hcall hlimit =>
      have hjk := hends k true hj
      have hold := hother k _ hj (by simp [hcall])
      exact ⟨hold.1, by simp [hold.2, hjk]⟩
  | reserve k hcall hlimit =>
      rw [List.append_nil]
      exact hother k _ hj (by simp [hcall])
  | create k hcall =>
      have hjk := hends k true hj
      have hold := hother k _ hj (by simp [hcall])
      exact ⟨(Function.update_of_ne hjk _ _).trans hold.1, by simp [hold.2, hjk]⟩
  | fail k hcall =>
      rw [List.append_nil]
      exact hother k _ hj (by simp [hcall])
  | giveBack k hcall =>
      have hold := hother k _ hj (by simp [hcall])
      exact ⟨hold.1, by simp [hold.2]⟩
  | @start _ w k hworker =>
      have hold := hworks w (.runs k) (by simp [hworker]) hj
      exact ⟨hold.1, by simp [hold.2]⟩
  | finish w hworker =>
      have hold := hworks w .finished (by simp [hworker]) hj
      exact ⟨hold.1, by simp [hold.2]⟩
  | pop w hworker hqueue =>
      rw [List.append_nil]
      exact hworks w _ (by simp [hworker]) hj
  | exit w hworker hqueue =>
      rw [List.append_nil]
      exact hworks w _ (by simp [hworker]) hj

/-- What has been started is run until it has finished. -/
theorem Inv.step_began (h : Inv maxThreads es s) {a : Action J} {new : List (Event J)} {t : Pool J}
    (hstep : Step maxThreads a s new t) (j : J) (hj : .started j ∈ es ++ new) :
    .finished j ∈ es ++ new ∨ ∃ w, t.workers w = .runs j := by
  have hkeep (w : J) (x : Worker J) (hw : ∀ k, s.workers w ≠ .runs k) (hold : .started j ∈ es) :
      .finished j ∈ es ∨ ∃ v, Function.update s.workers w x v = .runs j := by
    refine (h.began j hold).imp_right ?_
    rintro ⟨v, hv⟩
    have hvw : v ≠ w := by
      rintro rfl
      exact hw j hv
    exact ⟨v, (Function.update_of_ne hvw x s.workers).trans hv⟩
  cases hstep with
  | push k hcall hlimit =>
      have hold : .started j ∈ es := by simpa using hj
      exact (h.began j hold).imp_left (List.mem_append_left _)
  | giveBack k hcall =>
      have hold : .started j ∈ es := by simpa using hj
      exact (h.began j hold).imp_left (List.mem_append_left _)
  | create k hcall =>
      have hold : .started j ∈ es := by simpa using hj
      have habsent := (h.pending_of_call hcall (by simp)).1
      exact (hkeep k _ (by simp [habsent]) hold).imp_left (List.mem_append_left _)
  | reserve | fail =>
      rw [List.append_nil] at hj ⊢
      exact h.began j hj
  | @start _ w k hworker =>
      by_cases hjk : j = k
      · exact .inr ⟨w, hjk ▸ Function.update_self w _ s.workers⟩
      · have hold : .started j ∈ es := by simpa [hjk] using hj
        exact (hkeep w _ (by simp [hworker]) hold).imp_left (List.mem_append_left _)
  | @finish _ w k hworker =>
      have hold : .started j ∈ es := by simpa using hj
      rcases h.began j hold with hfinished | ⟨v, hv⟩
      · exact .inl (List.mem_append_left _ hfinished)
      · by_cases hvw : v = w
        · rw [hvw, hworker, Worker.runs.injEq] at hv
          rw [hv]
          exact .inl (List.mem_append_right _ List.mem_cons_self)
        · exact .inr ⟨v, (Function.update_of_ne hvw _ s.workers).trans hv⟩
  | pop w hworker hqueue =>
      rw [List.append_nil] at hj ⊢
      exact hkeep w _ (by simp [hworker]) hj
  | exit w hworker hqueue =>
      rw [List.append_nil] at hj ⊢
      exact hkeep w _ (by simp [hworker]) hj

/-- Two states that differ in one call and its worker only. -/
def SameBut (j : J) (s t : Pool J) : Prop :=
  ∀ k, k ≠ j → t.calls k = s.calls k ∧ t.workers k = s.workers k

section Crew

omit [DecidableEq J]

variable {j : J} {s t : Pool J}

theorem SameBut.mem_crew (h : SameBut j s t) {k : J} (hk : k ≠ j) : k ∈ crew t ↔ k ∈ crew s := by
  simp only [crew, Set.mem_ofPred_eq, h k hk]

theorem SameBut.crew_eq (h : SameBut j s t) (hj : j ∈ crew t ↔ j ∈ crew s) : crew t = crew s := by
  ext k
  by_cases hk : k = j
  · rw [hk]
    exact hj
  · exact h.mem_crew hk

theorem SameBut.crew_insert (h : SameBut j s t) (hj : j ∈ crew t) :
    crew t = insert j (crew s) := by
  ext k
  rw [Set.mem_insert_iff]
  by_cases hk : k = j
  · rw [hk]
    exact iff_of_true hj (.inl rfl)
  · rw [h.mem_crew hk]
    exact ⟨.inr, fun hor => hor.resolve_left hk⟩

theorem SameBut.crew_erase (h : SameBut j s t) (hj : j ∉ crew t) : crew t = crew s \ {j} := by
  ext k
  rw [Set.mem_sdiff, Set.mem_singleton_iff]
  by_cases hk : k = j
  · rw [hk]
    exact iff_of_false hj (fun hand => hand.2 rfl)
  · rw [h.mem_crew hk]
    exact ⟨fun hin => ⟨hin, hk⟩, And.left⟩

/-- A worker that has a job or looks for one is in the crew, whatever its call
says. -/
theorem mem_crew_of_worker {w : J}
    (hw : (∃ j, s.workers w = .owns j) ∨ (∃ j, s.workers w = .runs j) ∨ s.workers w = .finished) :
    w ∈ crew s := by
  change Serves (s.calls w) (s.workers w)
  cases s.calls w with
  | creating | failed => trivial
  | entering | returned =>
      rcases hw with ⟨j, hw⟩ | ⟨j, hw⟩ | hw <;> rw [hw] <;> trivial

theorem mem_crew_of_call {j : J} (hj : s.calls j = .creating ∨ s.calls j = .failed) : j ∈ crew s := by
  change Serves (s.calls j) (s.workers j)
  rcases hj with hj | hj <;> rw [hj] <;> trivial

theorem not_mem_crew {j : J} (hcall : s.calls j = .entering ∨ ∃ ok, s.calls j = .returned ok)
    (hworker : s.workers j = .absent ∨ s.workers j = .exited) : j ∉ crew s := by
  change ¬Serves (s.calls j) (s.workers j)
  rcases hcall with hcall | ⟨ok, hcall⟩ <;> rcases hworker with hworker | hworker <;>
    rw [hcall, hworker] <;> exact id

end Crew

theorem sameBut_call (s : Pool J) (j : J) (c : Call) (queue : List J) (n : Int) :
    SameBut j s
      { s with calls := Function.update s.calls j c, queue := queue, numThreads := n } := by
  intro k hk
  exact ⟨Function.update_of_ne hk c s.calls, rfl⟩

theorem sameBut_worker (s : Pool J) (w : J) (x : Worker J) (queue : List J) (n : Int) :
    SameBut w s
      { s with workers := Function.update s.workers w x, queue := queue, numThreads := n } := by
  intro k hk
  exact ⟨rfl, Function.update_of_ne hk x s.workers⟩

/-- How a step changes the crew and its counter. -/
inductive Turnover (s t : Pool J) : Action J → Prop
  | same {a : Action J} (hcrew : crew t = crew s) (hcount : t.numThreads = s.numThreads) :
      Turnover s t a
  | join (j : J) (hj : j ∉ crew s) (hcrew : crew t = insert j (crew s))
      (hcount : t.numThreads = s.numThreads + 1) : Turnover s t (.reserve j)
  | giveBack (j : J) (hj : j ∈ crew s) (hcrew : crew t = crew s \ {j})
      (hcount : t.numThreads = s.numThreads - 1) : Turnover s t (.giveBack j)
  | exit (w : J) (hw : w ∈ crew s) (hcrew : crew t = crew s \ {w})
      (hcount : t.numThreads = s.numThreads - 1) : Turnover s t (.exit w)

theorem Inv.step_turnover (h : Inv maxThreads es s) {a : Action J} {new : List (Event J)}
    {t : Pool J} (hstep : Step maxThreads a s new t) : Turnover s t a := by
  cases hstep with
  | push j hcall hlimit =>
      have habsent := (h.pending_of_call hcall (by simp)).1
      apply Turnover.same ((sameBut_call s j _ _ _).crew_eq (iff_of_false ?_ ?_)) rfl
      · exact not_mem_crew (.inr ⟨true, Function.update_self j _ s.calls⟩) (.inl habsent)
      · exact not_mem_crew (.inl hcall) (.inl habsent)
  | reserve j hcall hlimit =>
      have habsent := (h.pending_of_call hcall (by simp)).1
      apply Turnover.join j (not_mem_crew (.inl hcall) (.inl habsent)) _ rfl
      apply (sameBut_call s j _ _ _).crew_insert
      exact mem_crew_of_call (.inl (Function.update_self j _ s.calls))
  | create j hcall =>
      have hsame : SameBut j s
          { s with
            calls := Function.update s.calls j (.returned true)
            workers := Function.update s.workers j (.owns j) } := by
        intro k hk
        exact ⟨Function.update_of_ne hk _ _, Function.update_of_ne hk _ _⟩
      apply Turnover.same (hsame.crew_eq (iff_of_true ?_ ?_)) rfl
      · exact mem_crew_of_worker (.inl ⟨j, Function.update_self j _ s.workers⟩)
      · exact mem_crew_of_call (.inl hcall)
  | fail j hcall =>
      apply Turnover.same ((sameBut_call s j _ _ _).crew_eq (iff_of_true ?_ ?_)) rfl
      · exact mem_crew_of_call (.inr (Function.update_self j _ s.calls))
      · exact mem_crew_of_call (.inl hcall)
  | giveBack j hcall =>
      have habsent := (h.pending_of_call hcall (by simp)).1
      apply Turnover.giveBack j (mem_crew_of_call (.inr hcall)) _ rfl
      apply (sameBut_call s j _ _ _).crew_erase
      exact not_mem_crew (.inr ⟨false, Function.update_self j _ s.calls⟩) (.inl habsent)
  | @start _ w j hworker =>
      apply Turnover.same ((sameBut_worker s w _ _ _).crew_eq (iff_of_true ?_ ?_)) rfl
      · exact mem_crew_of_worker (.inr (.inl ⟨j, Function.update_self w _ s.workers⟩))
      · exact mem_crew_of_worker (.inl ⟨j, hworker⟩)
  | @finish _ w j hworker =>
      apply Turnover.same ((sameBut_worker s w _ _ _).crew_eq (iff_of_true ?_ ?_)) rfl
      · exact mem_crew_of_worker (.inr (.inr (Function.update_self w _ s.workers)))
      · exact mem_crew_of_worker (.inr (.inl ⟨j, hworker⟩))
  | @pop _ w j rest hworker hqueue =>
      apply Turnover.same ((sameBut_worker s w _ _ _).crew_eq (iff_of_true ?_ ?_)) rfl
      · exact mem_crew_of_worker (.inl ⟨j, Function.update_self w _ s.workers⟩)
      · exact mem_crew_of_worker (.inr (.inr hworker))
  | exit w hworker hqueue =>
      apply Turnover.exit w (mem_crew_of_worker (.inr (.inr hworker))) _ rfl
      apply (sameBut_worker s w _ _ _).crew_erase
      exact not_mem_crew (.inr (h.returned_of_worker (by simp [hworker])))
        (.inr (Function.update_self w _ s.workers))

theorem Inv.step_limit (h : Inv maxThreads es s) {a : Action J} {new : List (Event J)} {t : Pool J}
    (hstep : Step maxThreads a s new t) : t.numThreads ≤ maxThreads := by
  have hlimit := h.limit
  cases hstep with
  | reserve j hcall hroom => exact hroom
  | giveBack | exit => exact Int.le_of_lt (Int.sub_one_lt_of_le hlimit)
  | push | create | fail | start | finish | pop => exact hlimit

theorem Inv.step_counts (h : Inv maxThreads es s) {a : Action J} {new : List (Event J)} {t : Pool J}
    (hstep : Step maxThreads a s new t) : Counts (crew t) t.numThreads := by
  cases h.step_turnover hstep with
  | same hcrew hcount =>
      rw [hcrew, hcount]
      exact h.counts
  | join j hj hcrew hcount =>
      rw [hcrew, hcount]
      exact h.counts.join hj
  | giveBack j hj hcrew hcount =>
      rw [hcrew, hcount]
      exact h.counts.quit hj
  | exit w hw hcrew hcount =>
      rw [hcrew, hcount]
      exact h.counts.quit hw

theorem Inv.step (h : Inv maxThreads es s) {a : Action J} {new : List (Event J)} {t : Pool J}
    (hstep : Step maxThreads a s new t) : Inv maxThreads (es ++ new) t where
  kept := h.step_kept hstep
  nodup := h.step_nodup hstep
  pending := h.step_pending hstep
  began := h.step_began hstep
  limit := h.step_limit hstep
  counts := h.step_counts hstep

theorem Inv.start (hmax : 1 ≤ maxThreads) : Inv maxThreads [] ({} : Pool J) where
  kept := by
    have hnone : holds ({} : Pool J) = fun _ => none := by
      funext a
      rcases a with w | j
      · rfl
      · rw [holds, if_neg List.not_mem_nil]
    rw [hnone]
    exact Kept.nil
  nodup := List.nodup_nil
  pending := by
    intro j _
    exact ⟨rfl, List.not_mem_nil⟩
  began := by
    intro j hj
    cases hj
  limit := Int.le_trans Int.one_nonneg hmax
  counts := by
    have hnone : crew ({} : Pool J) = ∅ := by
      ext j
      exact iff_of_false id id
    rw [hnone]
    exact Counts.empty

theorem Inv.once (h : Inv maxThreads es s) (j : J) : es.count (.started j) ≤ 1 := by
  rw [count_started]
  exact h.kept.gone_le_one j

theorem Inv.placed (h : Inv maxThreads es s) {j : J} (hj : .returned j true ∈ es) :
    Placed es s j := by
  by_cases hold : Held (holds s) j
  · obtain ⟨a, ha⟩ := hold
    rcases a with w | k
    · cases hw : s.workers w with
      | owns i =>
          rw [holds, hw, owned, Option.some.injEq] at ha
          exact .owned w (ha ▸ hw)
      | absent | runs | finished | exited =>
          rw [holds, hw, owned] at ha
          cases ha
    · rw [holds] at ha
      split at ha
      · rename_i hin
        exact .queued (Option.some.inj ha ▸ hin)
      · cases ha
  · have hgone := h.kept.unheld j (mem_custody_acquired.mpr hj) hold
    rw [← count_started] at hgone
    have hstarted : Event.started j ∈ es := List.count_pos_iff.mp (by omega)
    rcases h.began j hstarted with hfinished | ⟨w, hw⟩
    · exact .finished hfinished
    · exact .running w hw

/-- A job that waits has somebody who will look for it, if the step is settled. -/
theorem Inv.step_served (h : Inv maxThreads es s) (hmax : 1 ≤ maxThreads)
    (hserved : s.queue ≠ [] → (crew s).Nonempty) {a : Action J} {new : List (Event J)} {t : Pool J}
    (hstep : Step maxThreads a s new t) (hsettled : Settled a s) (hne : t.queue ≠ []) :
    (crew t).Nonempty := by
  have hold : t.queue = s.queue → (crew s).Nonempty := fun heq => hserved (heq ▸ hne)
  have hturnover := h.step_turnover hstep
  cases hstep with
  | push j hcall hlimit =>
      cases hturnover with
      | same hcrew => exact hcrew ▸ h.counts.nonempty (by omega)
  | reserve j hcall hlimit =>
      cases hturnover with
      | same hcrew => exact hcrew ▸ hold rfl
      | join j hj hcrew => exact hcrew ▸ Set.insert_nonempty j _
  | giveBack j hcall =>
      cases hturnover with
      | same hcrew => exact hcrew ▸ hold rfl
      | giveBack j hj hcrew =>
          rcases hsettled with hnil | ⟨k, hk, hkj⟩
          · exact absurd hnil hne
          · exact ⟨k, hcrew ▸ ⟨hk, hkj⟩⟩
  | exit w hworker hqueue => exact absurd hqueue hne
  | pop w hworker hqueue =>
      exact ⟨w, mem_crew_of_worker (.inl ⟨_, Function.update_self w _ s.workers⟩)⟩
  | create | fail | start | finish =>
      cases hturnover with
      | same hcrew => exact hcrew ▸ hold rfl

/-- Any other step leaves jobs that nobody is going to look for. -/
theorem Inv.stranded (h : Inv maxThreads es s) {a : Action J} {new : List (Event J)} {t : Pool J}
    (hstep : Step maxThreads a s new t) (hnot : ¬Settled a s) : t.queue ≠ [] ∧ crew t = ∅ := by
  have hturnover := h.step_turnover hstep
  cases hstep with
  | giveBack j hcall =>
      rw [Settled, not_or] at hnot
      refine ⟨hnot.1, ?_⟩
      cases hturnover with
      | same hcrew hcount =>
          simp only at hcount
          omega
      | giveBack j hj hcrew =>
          rw [hcrew, Set.eq_empty_iff_forall_notMem]
          rintro k ⟨hk, hkj⟩
          exact hnot.2 ⟨k, hk, hkj⟩
  | push | reserve | create | fail | start | finish | pop | exit => exact absurd trivial hnot

/-- In every run whose steps are settled the pool keeps its promises. -/
theorem pool_healthy (hmax : 1 ≤ maxThreads) (h : Run maxThreads es s) :
    Healthy maxThreads es s := by
  have hboth : Inv maxThreads es s ∧ (s.queue ≠ [] → (crew s).Nonempty) := by
    refine h.invariant (fun es s => Inv maxThreads es s ∧ (s.queue ≠ [] → (crew s).Nonempty)) ?_ ?_
    · exact ⟨Inv.start hmax, fun hne => absurd rfl hne⟩
    · intro a es s new t hinv hsettled hstep
      exact ⟨hinv.1.step hstep, hinv.1.step_served hmax hinv.2 hstep hsettled⟩
  obtain ⟨hinv, hserved⟩ := hboth
  exact ⟨hinv.once, fun j => hinv.placed, hinv.limit, hinv.counts, hserved⟩

/-- A creation that fails with nothing in the queue, then a worker that takes
over a second job. -/
theorem pool_healthy_busy :
    ∃ (es : List (Event Nat)) (s : Pool Nat), Run 1 es s ∧ s.workers 1 = .owns 2 ∧ Healthy 1 es s := by
  have hrun : Run 1 ([.returned 0 false, .returned 1 true, .returned 2 true, .started 1,
      .finished 1] : List (Event Nat)) _ :=
    .snoc (.snoc (.snoc (.snoc (.snoc (.snoc (.snoc (.snoc (.snoc (.nil _)
      (Step.reserve 0 rfl (by decide)) trivial) (Step.fail 0 rfl) trivial)
      (Step.giveBack 0 rfl) (.inl rfl)) (Step.reserve 1 rfl (by decide)) trivial)
      (Step.create 1 rfl) trivial) (Step.push 2 rfl (by decide)) trivial)
      (Step.start 1 rfl) trivial) (Step.finish 1 rfl) trivial)
      (Step.pop 1 rfl rfl) trivial
  exact ⟨_, _, hrun, rfl, pool_healthy (by decide) hrun⟩

/-- The creation fails when another call has left its job to the thread. -/
theorem pool_stranded :
    ¬∀ (maxThreads : Int) (es : List (Event Nat)) (s : Pool Nat), 1 ≤ maxThreads →
      Trace.Steps (Step maxThreads) (fun _ _ => True) {} es s → Healthy maxThreads es s := by
  intro h
  have hrun : Trace.Steps (Step 1) (fun _ _ => True) {}
      ([.returned 1 true, .returned 0 false] : List (Event Nat)) _ :=
    .snoc (.snoc (.snoc (.snoc (.nil _) (Step.reserve 0 rfl (by decide)) trivial)
      (Step.push 1 rfl (by decide)) trivial) (Step.fail 0 rfl) trivial)
      (Step.giveBack 0 rfl) trivial
  obtain ⟨k, hk⟩ := (h 1 _ _ (by decide) hrun).served (by simp)
  refine not_mem_crew ?_ (.inl rfl) hk
  by_cases h0 : k = 0
  · rw [h0]
    exact .inr ⟨false, rfl⟩
  · by_cases h1 : k = 1
    · rw [h1]
      exact .inr ⟨true, rfl⟩
    · left
      simp [h0, h1]

end Libzorpll.ThreadPool
