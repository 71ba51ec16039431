import Libzorpll.Connector
import Libzorpll.Custody
import Libzorpll.Headcount

/-! Cancelling a connector is safe at any moment. -/

namespace Libzorpll.ConnectorCancel

open RecMutex Connector Headcount Custody

variable {T D : Type}

def isCall : Event T D → Bool
  | .called _ _ => true
  | .crashed | .closed _ | .cancelled _ | .userDataDestroyed => false

/-- What must not have happened before the callback is called. -/
def comesAfter : Event T D → Bool
  | .cancelled _ | .userDataDestroyed => true
  | .called _ _ | .crashed | .closed _ => false

/-- The descriptor is handed over or closed. -/
def disposes [DecidableEq D] (d : D) : Event T D → Bool
  | .called fd _ => fd = some d
  | .closed d' => d' = d
  | .crashed | .cancelled _ | .userDataDestroyed => false

/-- What is promised for a connector and its socket. -/
structure Safe [DecidableEq D] (sock : D) (es : List (Event T D)) (s : Connector T D) : Prop where
  once : es.countP isCall ≤ 1
  inTime : es.Pairwise (fun e e' => isCall e' = true → comesAfter e = false)
  sound : .crashed ∉ es
  atMostOnce : es.countP (disposes sock) ≤ 1
  noOther : ∀ d, d ≠ sock → es.countP (disposes d) = 0
  exactlyOnce : s.phase = .freed → es.countP (disposes sock) = 1
  ends : (∀ h, s.held h = false) → s.phase ≠ .alive
  untouched : s.phase ≠ .alive → inUse s.loop = false ∧ ∀ a, s.calls a = .idle

/-- The function has seen a callback that it has not called yet. -/
def beforeCall : Loop D → Bool
  | .reading _ | .deciding _ _ | .waiting _ _ | .locked _ _ | .starting _ _ => true
  | .idle | .entered _ | .calling | .closing _ | .unlocking | .returned | .ended => false

/-- The call has been through the lock. -/
def passed : Call → Bool
  | .unlocking _ | .destroying | .leaving => true
  | .idle | .entered | .locked => false

/-- The destroy notify has not been called. -/
def pending {A : Type} : Life A → Bool
  | .attached | .destroyed _ | .dropped => true
  | .notifying _ | .unreffing _ | .released => false

/-- How often a thread has to unlock. -/
def loopOwes : Loop D → Nat
  | .locked _ _ | .starting _ _ | .calling | .closing _ | .unlocking => 1
  | .idle | .entered _ | .reading _ | .deciding _ _ | .waiting _ _ | .returned | .ended => 0

def callOwes : Call → Nat
  | .locked | .unlocking _ => 1
  | .idle | .entered | .destroying | .leaving => 0

def owes (s : Connector T D) (a : Option T) : Nat :=
  (if a = none then loopOwes s.loop else 0) + callOwes (s.calls a)

inductive Place
  | connector
  | loop
  deriving DecidableEq

/-- The descriptor that z_connector_connected has to hand over or to close. -/
def taken : Loop D → Option D
  | .waiting _ fd | .locked _ fd | .starting _ fd | .closing fd => fd
  | .idle | .entered _ | .reading _ | .deciding _ _ | .calling | .unlocking | .returned | .ended => none

def unclosed (s : Connector T D) : Option D :=
  match s.phase with
  | .alive | .freeing _ | .closing _ => s.fd
  | .unwatching _ | .freed => none

def holds (s : Connector T D) : Place → Option D
  | .connector => unclosed s
  | .loop => taken s.loop

def toCustody : Event T D → Option (Custody.Event D)
  | .called fd _ => fd.map .released
  | .closed d => some (.lost d)
  | .crashed | .cancelled _ | .userDataDestroyed => none

/-- The socket is there from the start. -/
abbrev custody (sock : D) (es : List (Event T D)) : List (Custody.Event D) :=
  .acquired sock :: es.filterMap toCustody

variable [DecidableEq T] [DecidableEq D]

/-- What every step keeps. -/
structure Inv (sock : D) (es : List (Event T D)) (s : Connector T D) : Prop where
  counts : Counts { h | s.held h = true } s.refcnt
  alive : s.phase = .alive ↔ s.refcnt ≠ 0
  source : s.held none = true ↔ s.life ≠ .released
  inUse : inUse s.loop = true → pending s.life = true
  callers : ∀ t, s.calls (some t) ≠ .idle → s.held (some t) = true
  nested : s.calls none ≠ .idle → s.loop = .calling
  locks : ∀ a, depth s.lock a = owes s a
  starting : ∀ n fd, s.loop = .starting n fd → s.watch = true
  cancelled : s.watch = true → ∀ a, passed (s.calls a) = false ∧ .cancelled a ∉ es
  callback : beforeCall s.loop = true → s.callback = true
  uncalled : s.callback = true → es.countP isCall = 0
  userData : pending s.life = true → .userDataDestroyed ∉ es
  sameFd : ∀ timedOut fd, s.loop = .deciding timedOut fd → fd = s.fd
  kept : Kept (custody sock es) (holds s)
  once : es.countP isCall ≤ 1
  inTime : es.Pairwise (fun e e' => isCall e' = true → comesAfter e = false)
  sound : .crashed ∉ es

variable {sock : D} {es : List (Event T D)} {s : Connector T D}

theorem Inv.alive_of_held (h : Inv sock es s) {x : Option T} (hx : s.held x = true) :
    s.phase = .alive := by
  apply h.alive.mpr
  intro hzero
  have hcard := h.counts.count
  have hpos : 0 < { y | s.held y = true }.ncard := (Set.ncard_pos h.counts.finite).mpr ⟨x, hx⟩
  omega

theorem pending_ne {A : Type} {l : Life A} (h : pending l = true) : l ≠ .released := by
  rintro rfl
  cases h

theorem Inv.held_of_use (h : Inv sock es s) (huse : Connector.inUse s.loop = true) :
    s.held none = true := h.source.mpr (pending_ne (h.inUse huse))

theorem Inv.alive_of_use (h : Inv sock es s) (huse : Connector.inUse s.loop = true) :
    s.phase = .alive := h.alive_of_held (h.held_of_use huse)

theorem Inv.held_of_cancel (h : Inv sock es s) {a : Option T} (hmay : MayCancel s a) :
    ∃ x, s.held x = true := by
  cases a with
  | none =>
      have hcalling : s.loop = .calling := hmay
      exact ⟨none, h.held_of_use (by rw [hcalling]; rfl)⟩
  | some t => exact ⟨some t, hmay⟩

/-- Nobody is inside the functions of a connector that is being freed. -/
theorem Inv.untouched (h : Inv sock es s) (hphase : s.phase ≠ .alive) :
    Connector.inUse s.loop = false ∧ ∀ a, s.calls a = .idle := by
  have huse : Connector.inUse s.loop = false := by
    by_contra hne
    exact hphase (h.alive_of_use (Bool.eq_true_of_not_eq_false hne))
  refine ⟨huse, ?_⟩
  intro a
  by_contra hne
  cases a with
  | none =>
      rw [h.nested hne] at huse
      cases huse
  | some t => exact hphase (h.alive_of_held (h.callers t hne))

theorem Inv.refcnt_of_phase (h : Inv sock es s) (hphase : s.phase ≠ .alive) : s.refcnt = 0 := by
  by_contra hne
  exact hphase (h.alive.mpr hne)

omit [DecidableEq D] in
theorem held_insert (s : Connector T D) (x : Option T) :
    { y | Function.update s.held x true y = true } = insert x { y | s.held y = true } := by
  ext y
  rw [Set.mem_ofPred_eq, Set.mem_insert_iff, Set.mem_ofPred_eq, Function.update_apply]
  split
  · rename_i hyx
    simp only [hyx, true_or]
  · rename_i hyx
    simp only [hyx, false_or]

omit [DecidableEq D] in
theorem held_sdiff (s : Connector T D) (x : Option T) :
    { y | Function.update s.held x false y = true } = { y | s.held y = true } \ {x} := by
  ext y
  rw [Set.mem_ofPred_eq, Set.mem_sdiff, Set.mem_singleton_iff, Set.mem_ofPred_eq, Function.update_apply]
  split
  · rename_i hyx
    simp [hyx]
  · rename_i hyx
    simp [hyx]

theorem Inv.counts_unref (h : Inv sock es s) {x : Option T} (hx : s.held x = true) (a : Option T) :
    Counts { y | (unref a x s).held y = true } (unref a x s).refcnt := by
  have hquit := h.counts.quit (a := x) hx
  rw [← held_sdiff] at hquit
  exact hquit

theorem Inv.alive_unref (h : Inv sock es s) {x : Option T} (hx : s.held x = true) (a : Option T) :
    (unref a x s).phase = .alive ↔ (unref a x s).refcnt ≠ 0 := by
  rw [unref]
  simp only
  split
  · rename_i hzero
    simp [hzero]
  · rename_i hne
    simp [hne, h.alive_of_held hx]

theorem Inv.held_of_unreffing (h : Inv sock es s) {a : Option T} (hlife : s.life = .unreffing a) :
    s.held none = true := by
  rw [h.source, hlife]
  exact nofun

variable {new : List (Event T D)} {t : Connector T D}

theorem Inv.step_counts (h : Inv sock es s) (hstep : Step s new t) :
    Counts { y | t.held y = true } t.refcnt := by
  cases hstep with
  | @unrefSource a hlife => exact h.counts_unref (h.held_of_unreffing hlife) a
  | unref u hheld hcall => exact h.counts_unref hheld _
  | ref a u hby hnew =>
      have hnot : some u ∉ { y | s.held y = true } := by
        rw [Set.mem_ofPred_eq, hnew]
        exact Bool.false_ne_true
      have hjoin := h.counts.join hnot
      rw [← held_insert] at hjoin
      exact hjoin
  | dispatch | check | read | fail | take | lock | test | call | comeBack | close | unlock | endUse
  | remove | next | cancel | cancelLock | cancelTake | cancelUnlock | cancelDestroy | cancelReturn | drop
  | notify | freeData | freeFd | freeWatch => exact h.counts

theorem Inv.step_alive (h : Inv sock es s) (hstep : Step s new t) : t.phase = .alive ↔ t.refcnt ≠ 0 := by
  have hfree {p q : Phase (Option T)} (hphase : s.phase = p) (hp : p ≠ .alive) (hq : q ≠ .alive) :
      q = .alive ↔ s.refcnt ≠ 0 := by
    have hzero := h.refcnt_of_phase (hphase ▸ hp)
    exact ⟨fun heq => absurd heq hq, fun hne => absurd hzero hne⟩
  cases hstep with
  | @unrefSource a hlife => exact h.alive_unref (h.held_of_unreffing hlife) a
  | unref u hheld hcall => exact h.alive_unref hheld _
  | ref a u hby hnew =>
      obtain ⟨x, hx⟩ := h.held_of_cancel hby
      have hcount := h.counts.count
      exact ⟨fun _ => by simp only; omega, fun _ => h.alive_of_held hx⟩
  | freeData hphase => exact hfree hphase nofun nofun
  | freeFd hphase => exact hfree hphase nofun nofun
  | freeWatch hphase => exact hfree hphase nofun nofun
  | dispatch | check | read | fail | take | lock | test | call | comeBack | close | unlock | endUse
  | remove | next | cancel | cancelLock | cancelTake | cancelUnlock | cancelDestroy | cancelReturn | drop
  | notify => exact h.alive

theorem destroySource_released {A : Type} (a : A) (l : Life A) :
    destroySource a l = .released ↔ l = .released := by
  cases l <;> simp [destroySource]

theorem destroySource_pending {A : Type} (a : A) (l : Life A) :
    pending (destroySource a l) = pending l := by
  cases l <;> rfl

theorem Inv.step_source (h : Inv sock es s) (hstep : Step s new t) :
    t.held none = true ↔ t.life ≠ .released := by
  have hsame {l l' : Life (Option T)} (hlife : s.life = l) (hl : l ≠ .released) (hl' : l' ≠ .released) :
      s.held none = true ↔ l' ≠ .released :=
    ⟨fun _ => hl', fun _ => h.source.mpr (hlife ▸ hl)⟩
  cases hstep with
  | endUse hloop =>
      simp only
      split
      · rename_i hlife
        exact hsame hlife nofun nofun
      · exact h.source
  | remove | cancelDestroy =>
      simp only
      rw [ne_eq, destroySource_released]
      exact h.source
  | drop hlife =>
      simp only
      split
      · exact hsame hlife nofun nofun
      · exact hsame hlife nofun nofun
  | notify hlife => exact hsame hlife nofun nofun
  | unrefSource hlife =>
      have hout : Function.update s.held none false none = false := Function.update_self none false s.held
      rw [Connector.unref]
      simp only
      rw [hout]
      exact ⟨nofun, fun hne => absurd rfl hne⟩
  | unref u hheld hcall =>
      have hkeep : Function.update s.held (some u) false none = s.held none :=
        Function.update_of_ne (Option.some_ne_none u).symm false s.held
      rw [Connector.unref]
      simp only
      rw [hkeep]
      exact h.source
  | ref a u hby hnew =>
      have hkeep : Function.update s.held (some u) true none = s.held none :=
        Function.update_of_ne (Option.some_ne_none u).symm true s.held
      simp only
      rw [hkeep]
      exact h.source
  | freeWatch hphase =>
      simp only
      split
      · rw [ne_eq, destroySource_released]
        exact h.source
      · exact h.source
  | dispatch | check | read | fail | take | lock | test | call | comeBack | close | unlock | next
  | cancel | cancelLock | cancelTake | cancelUnlock | cancelReturn | freeData | freeFd => exact h.source

/-- The callback data stays as long as the dispatch uses it. -/
theorem Inv.step_inUse (h : Inv sock es s) (hstep : Step s new t) (huse : Connector.inUse t.loop = true) :
    pending t.life = true := by
  cases hstep with
  | dispatch timedOut hloop hlife => exact congrArg pending hlife
  | check hloop | read hloop | fail _ hloop | take _ hloop | lock hloop | test hloop | call hloop
  | comeBack hloop | close hloop | unlock hloop =>
      apply h.inUse
      rw [hloop]
      rfl
  | endUse hloop => cases huse
  | next hloop hlife => cases huse
  | remove | cancelDestroy =>
      simp only
      rw [destroySource_pending]
      exact h.inUse huse
  | drop hlife =>
      simp only at huse ⊢
      rw [if_pos huse]
      rfl
  | notify hlife | unrefSource hlife =>
      have hpending := h.inUse huse
      rw [hlife] at hpending
      cases hpending
  | freeWatch hphase =>
      simp only
      split
      · rw [destroySource_pending]
        exact h.inUse huse
      · exact h.inUse huse
  | cancel | cancelLock | cancelTake | cancelUnlock | cancelReturn | ref | unref | freeData | freeFd =>
      exact h.inUse huse

/-- A call goes on. -/
theorem Inv.callers_update (h : Inv sock es s) {a : Option T} (hcall : s.calls a ≠ .idle) (c : Call) (u : T)
    (hu : Function.update s.calls a c (some u) ≠ .idle) : s.held (some u) = true := by
  by_cases hua : some u = a
  · rw [← hua] at hcall
    exact h.callers u hcall
  · rw [Function.update_of_ne hua] at hu
    exact h.callers u hu

theorem Inv.step_callers (h : Inv sock es s) (hstep : Step s new t) (u : T) (hu : t.calls (some u) ≠ .idle) :
    t.held (some u) = true := by
  cases hstep with
  | cancel a hmay hcall =>
      by_cases hua : some u = a
      · rw [← hua] at hmay
        exact hmay
      · simp only at hu
        rw [Function.update_of_ne hua] at hu
        exact h.callers u hu
  | cancelLock hcall => exact h.callers_update (by rw [hcall]; exact nofun) _ u hu
  | cancelTake hcall => exact h.callers_update (by rw [hcall]; exact nofun) _ u hu
  | cancelUnlock hcall => exact h.callers_update (by rw [hcall]; exact nofun) _ u hu
  | cancelDestroy hcall => exact h.callers_update (by rw [hcall]; exact nofun) _ u hu
  | cancelReturn hcall => exact h.callers_update (by rw [hcall]; exact nofun) _ u hu
  | unrefSource hlife =>
      have hkeep : Function.update s.held none false (some u) = s.held (some u) :=
        Function.update_of_ne (Option.some_ne_none u) false s.held
      rw [Connector.unref]
      simp only
      rw [hkeep]
      exact h.callers u hu
  | unref v hheld hcall =>
      have huv : some u ≠ some v := by
        intro heq
        rw [← heq] at hcall
        exact hu hcall
      rw [Connector.unref]
      simp only
      rw [Function.update_of_ne huv]
      exact h.callers u hu
  | ref a v hby hnew =>
      simp only
      rw [Function.update_apply]
      split
      · rfl
      · exact h.callers u hu
  | dispatch | check | read | fail | take | lock | test | call | comeBack | close | unlock | endUse
  | remove | next | drop | notify | freeData | freeFd | freeWatch => exact h.callers u hu

theorem Inv.nested_update (h : Inv sock es s) {a : Option T} (hcall : s.calls a ≠ .idle) (c : Call)
    (hne : Function.update s.calls a c none ≠ .idle) : s.loop = .calling := by
  by_cases ha : none = a
  · rw [← ha] at hcall
    exact h.nested hcall
  · rw [Function.update_of_ne ha] at hne
    exact h.nested hne

/-- The main loop is in the callback as long as the callback cancels. -/
theorem Inv.step_nested (h : Inv sock es s) (hstep : Step s new t) (hne : t.calls none ≠ .idle) :
    t.loop = .calling := by
  have hnot {l : Loop D} (hloop : s.loop = l) (hl : l ≠ .calling) : t.calls none = s.calls none → False :=
    fun heq => hl (hloop.symm.trans (h.nested (heq ▸ hne)))
  cases hstep with
  | dispatch _ hloop => exact absurd rfl (hnot hloop nofun)
  | check hloop => exact absurd rfl (hnot hloop nofun)
  | read hloop => exact absurd rfl (hnot hloop nofun)
  | fail _ hloop => exact absurd rfl (hnot hloop nofun)
  | take _ hloop => exact absurd rfl (hnot hloop nofun)
  | lock hloop => exact absurd rfl (hnot hloop nofun)
  | test hloop => exact absurd rfl (hnot hloop nofun)
  | call hloop => rfl
  | comeBack hloop hidle => exact absurd hidle hne
  | close hloop => exact absurd rfl (hnot hloop nofun)
  | unlock hloop => exact absurd rfl (hnot hloop nofun)
  | endUse hloop => exact absurd rfl (hnot hloop nofun)
  | next hloop => exact absurd rfl (hnot hloop nofun)
  | cancel a hmay hcall =>
      by_cases ha : none = a
      · rw [← ha] at hmay
        exact hmay
      · simp only at hne
        rw [Function.update_of_ne ha] at hne
        exact h.nested hne
  | cancelLock hcall => exact h.nested_update (by rw [hcall]; exact nofun) _ hne
  | cancelTake hcall => exact h.nested_update (by rw [hcall]; exact nofun) _ hne
  | cancelUnlock hcall => exact h.nested_update (by rw [hcall]; exact nofun) _ hne
  | cancelDestroy hcall => exact h.nested_update (by rw [hcall]; exact nofun) _ hne
  | cancelReturn hcall => exact h.nested_update (by rw [hcall]; exact nofun) _ hne
  | remove | drop | notify | unrefSource | ref | unref | freeData | freeFd | freeWatch => exact h.nested hne

theorem Inv.locks_loop (h : Inv sock es s) {l l' : Loop D} (hloop : s.loop = l)
    (howes : loopOwes l' = loopOwes l) (a : Option T) : depth s.lock a = owes { s with loop := l' } a := by
  rw [h.locks, owes, owes, hloop, howes]

omit [DecidableEq D] in
theorem owes_call (s : Connector T D) (b : Option T) (c : Call) (a : Option T) :
    owes { s with calls := Function.update s.calls b c } a + (if a = b then callOwes (s.calls b) else 0) =
      owes s a + if a = b then callOwes c else 0 := by
  rw [owes, owes]
  simp only
  by_cases hab : a = b
  · rw [hab, Function.update_self, if_pos rfl, if_pos rfl]
    omega
  · rw [Function.update_of_ne hab, if_neg hab, if_neg hab]

/-- A call that keeps what it owes. -/
theorem Inv.locks_call (h : Inv sock es s) {b : Option T} {c : Call} (hcall : s.calls b = c) (c' : Call)
    (howes : callOwes c' = callOwes c) (a : Option T) :
    depth s.lock a = owes { s with calls := Function.update s.calls b c' } a := by
  have hupdate := owes_call s b c' a
  rw [hcall, howes] at hupdate
  rw [h.locks]
  omega

theorem Inv.step_locks (h : Inv sock es s) (hstep : Step s new t) (a : Option T) :
    depth t.lock a = owes t a := by
  cases hstep with
  | dispatch _ hloop => exact h.locks_loop hloop rfl a
  | check hloop => exact h.locks_loop hloop (by split <;> rfl) a
  | read hloop => exact h.locks_loop hloop rfl a
  | fail _ hloop => exact h.locks_loop hloop rfl a
  | take _ hloop => exact h.locks_loop hloop rfl a
  | test hloop => exact h.locks_loop hloop (by split <;> rfl) a
  | call hloop => exact h.locks_loop hloop rfl a
  | comeBack hloop => exact h.locks_loop hloop rfl a
  | close hloop => exact h.locks_loop hloop rfl a
  | endUse hloop => exact h.locks_loop hloop rfl a
  | next hloop => exact h.locks_loop hloop rfl a
  | lock hloop hlock =>
      simp only
      rw [depth_acquire hlock, h.locks, owes, owes, hloop]
      simp only [loopOwes, ite_self, Nat.zero_add]
      exact Nat.add_comm _ _
  | unlock hloop =>
      have howes : 0 < depth s.lock none := by
        rw [h.locks, owes, hloop, if_pos rfl]
        exact Nat.add_pos_left Nat.one_pos _
      simp only
      rw [depth_release howes, h.locks, owes, owes, hloop]
      simp only [loopOwes, ite_self, Nat.zero_add]
      exact Nat.add_sub_cancel_left _ _
  | cancel b hmay hcall => exact h.locks_call hcall .entered rfl a
  | cancelTake hcall => exact h.locks_call hcall (.unlocking s.watch) rfl a
  | cancelDestroy hcall => exact h.locks_call hcall .leaving rfl a
  | cancelReturn hcall => exact h.locks_call hcall .idle rfl a
  | @cancelLock b m hcall hlock =>
      have hupdate := owes_call s b .locked a
      rw [hcall] at hupdate
      simp only [callOwes, ite_self, Nat.add_zero] at hupdate
      simp only
      rw [depth_acquire hlock, h.locks]
      exact hupdate.symm
  | @cancelUnlock b watch hcall =>
      have hpos : 0 < depth s.lock b := by
        rw [h.locks, owes, hcall]
        exact Nat.add_pos_right _ Nat.one_pos
      have hnext : callOwes (if watch = true then Call.destroying else .leaving) = 0 := by
        split <;> rfl
      have hupdate := owes_call s b (if watch = true then .destroying else .leaving) a
      rw [hcall, hnext] at hupdate
      simp only [callOwes, ite_self, Nat.add_zero] at hupdate
      simp only
      rw [depth_release hpos, h.locks, ← hupdate]
      exact Nat.add_sub_cancel _ _
  | remove | drop | notify | unrefSource | ref | unref | freeData | freeFd | freeWatch => exact h.locks a

/-- Nobody takes the watch away from a callback that is about to start. -/
theorem Inv.step_starting (h : Inv sock es s) (hstep : Step s new t) {n : Int} {fd : Option D}
    (hstarting : t.loop = .starting n fd) : t.watch = true := by
  cases hstep with
  | dispatch | read | fail | take | lock | call | comeBack | close | unlock | endUse | next => cases hstarting
  | check hloop =>
      simp only at hstarting
      split at hstarting
      · cases hstarting
      · cases hstarting
  | test hloop =>
      simp only at hstarting
      split at hstarting
      · rename_i hwatch
        exact hwatch
      · cases hstarting
  | @cancelTake a hcall =>
      have hloop : 0 < depth s.lock none := by
        rw [h.locks, owes, hstarting, if_pos rfl]
        exact Nat.add_pos_left Nat.one_pos _
      have hlocked : 0 < depth s.lock a := by
        rw [h.locks, owes, hcall]
        exact Nat.add_pos_right _ Nat.one_pos
      have hcalling := h.nested (by rw [exclusive hloop hlocked, hcall]; exact nofun)
      rw [hcalling] at hstarting
      cases hstarting
  | freeWatch hphase =>
      have huse := (h.untouched (by rw [hphase]; exact nofun)).1
      simp only at hstarting
      rw [hstarting] at huse
      cases huse
  | remove | cancel | cancelLock | cancelUnlock | cancelDestroy | cancelReturn | drop | notify | unrefSource
  | ref | unref | freeData | freeFd => exact h.starting n fd hstarting

/-- A call that has been through the lock has taken the watch. -/
theorem Inv.step_passed (h : Inv sock es s) (hstep : Step s new t) (hwatch : t.watch = true) (a : Option T) :
    passed (t.calls a) = false := by
  have hgone {b : Option T} {c : Call} (hcall : s.calls b = c) (hc : passed c = true) (hs : s.watch = true) :
      False := by
    have hpassed := (h.cancelled hs b).1
    rw [hcall, hc] at hpassed
    cases hpassed
  have hother (b : Option T) {c : Call} (hc : passed c = false) (hs : s.watch = true) :
      passed (Function.update s.calls b c a) = false := by
    rw [Function.update_apply]
    split
    · exact hc
    · exact (h.cancelled hs a).1
  cases hstep with
  | cancel b hmay hcall => exact hother b rfl hwatch
  | cancelLock hcall hlock => exact hother _ rfl hwatch
  | cancelTake hcall => cases hwatch
  | cancelUnlock hcall => exact (hgone hcall rfl hwatch).elim
  | cancelDestroy hcall => exact (hgone hcall rfl hwatch).elim
  | cancelReturn hcall => exact (hgone hcall rfl hwatch).elim
  | freeWatch hphase => cases hwatch
  | dispatch | check | read | fail | take | lock | test | call | comeBack | close | unlock | endUse | remove
  | next | drop | notify | unrefSource | ref | unref | freeData | freeFd => exact (h.cancelled hwatch a).1

omit [DecidableEq T] [DecidableEq D] in
theorem beforeCall_inUse {l : Loop D} (h : beforeCall l = true) : Connector.inUse l = true := by
  cases l <;> first | rfl | cases h

/-- The callback that has been seen is still there when it is called. -/
theorem Inv.step_callback (h : Inv sock es s) (hstep : Step s new t) (hbefore : beforeCall t.loop = true) :
    t.callback = true := by
  have hkeep {l : Loop D} (hloop : s.loop = l) (hl : beforeCall l = true) : s.callback = true :=
    h.callback (by rw [hloop]; exact hl)
  cases hstep with
  | dispatch | call | comeBack | close | unlock | endUse | next => cases hbefore
  | check hloop =>
      simp only at hbefore
      split at hbefore
      · rename_i hcallback
        exact hcallback
      · cases hbefore
  | read hloop => exact hkeep hloop rfl
  | fail _ hloop => exact hkeep hloop rfl
  | take _ hloop => exact hkeep hloop rfl
  | lock hloop => exact hkeep hloop rfl
  | test hloop => exact hkeep hloop rfl
  | freeData hphase =>
      have huse := (h.untouched (by rw [hphase]; exact nofun)).1
      rw [beforeCall_inUse hbefore] at huse
      cases huse
  | remove | cancel | cancelLock | cancelTake | cancelUnlock | cancelDestroy | cancelReturn | drop | notify
  | unrefSource | ref | unref | freeFd | freeWatch => exact h.callback hbefore

/-- What a step leaves behind. -/
inductive New (s t : Connector T D) : List (Event T D) → Prop
  | nothing : New s t []
  | call {n : Int} {fd : Option D} (hloop : s.loop = .starting n fd) (hcallback : t.callback = false) :
      New s t [if s.callback then .called fd n else .crashed]
  | close (fd : Option D) : New s t (fd.toList.map .closed)
  | cancelled {a : Option T} (hcall : s.calls a = .leaving) : New s t [.cancelled a]
  | destroyed (hlife : pending t.life = false) : New s t [.userDataDestroyed]

theorem Inv.life_of_phase (h : Inv sock es s) (hphase : s.phase ≠ .alive) : s.life = .released := by
  by_contra hne
  exact hphase (h.alive_of_held (h.source.mpr hne))

theorem Inv.step_new (h : Inv sock es s) (hstep : Step s new t) : New s t new := by
  cases hstep with
  | call hloop => exact .call hloop rfl
  | close hloop | freeFd hphase => exact .close _
  | cancelReturn hcall hbusy => exact .cancelled hcall
  | notify hlife =>
      split
      · exact .destroyed rfl
      · exact .nothing
  | freeData hphase =>
      split
      · refine .destroyed ?_
        simp only
        rw [h.life_of_phase (by rw [hphase]; exact nofun)]
        rfl
      · exact .nothing
  | dispatch | check | read | fail | take | lock | test | comeBack | unlock | endUse | remove | next
  | cancel | cancelLock | cancelTake | cancelUnlock | cancelDestroy | drop | unrefSource | ref | unref
  | freeWatch => exact .nothing

omit [DecidableEq D] in
/-- What is gone does not come back. -/
theorem step_back (hstep : Step s new t) :
    (t.watch = true → s.watch = true) ∧ (t.callback = true → s.callback = true) ∧
      (pending t.life = true → pending s.life = true) := by
  cases hstep with
  | call => exact ⟨id, nofun, id⟩
  | endUse hloop =>
      refine ⟨id, id, ?_⟩
      intro hpending
      simp only at hpending
      split at hpending
      · cases hpending
      · exact hpending
  | remove | cancelDestroy => exact ⟨id, id, fun hpending => (destroySource_pending _ _).symm.trans hpending⟩
  | cancelTake => exact ⟨nofun, id, id⟩
  | drop hlife => exact ⟨id, id, fun _ => by rw [hlife]; rfl⟩
  | notify | unrefSource => exact ⟨id, id, nofun⟩
  | freeData => exact ⟨id, nofun, id⟩
  | freeWatch hphase =>
      refine ⟨nofun, id, ?_⟩
      intro hpending
      simp only at hpending
      split at hpending
      · exact (destroySource_pending _ _).symm.trans hpending
      · exact hpending
  | dispatch | check | read | fail | take | lock | test | comeBack | close | unlock | next | cancel
  | cancelLock | cancelUnlock | cancelReturn | ref | unref | freeFd => exact ⟨id, id, id⟩

theorem Inv.step_cancelled (h : Inv sock es s) (hstep : Step s new t) (hwatch : t.watch = true)
    (a : Option T) : .cancelled a ∉ es ++ new := by
  have hs := (step_back hstep).1 hwatch
  intro hin
  rcases List.mem_append.mp hin with hin | hin
  · exact (h.cancelled hs a).2 hin
  · cases h.step_new hstep with
    | nothing => cases hin
    | call hloop hcallback =>
        split at hin
        · cases List.mem_singleton.mp hin
        · cases List.mem_singleton.mp hin
    | close fd =>
        obtain ⟨d, -, hd⟩ := List.mem_map.mp hin
        cases hd
    | @cancelled b hcall =>
        have hpassed := (h.cancelled hs b).1
        rw [hcall] at hpassed
        cases hpassed
    | destroyed hlife => cases List.mem_singleton.mp hin

theorem Inv.step_userData (h : Inv sock es s) (hstep : Step s new t) (hlife : pending t.life = true) :
    .userDataDestroyed ∉ es ++ new := by
  intro hin
  rcases List.mem_append.mp hin with hin | hin
  · exact h.userData ((step_back hstep).2.2 hlife) hin
  · cases h.step_new hstep with
    | nothing => cases hin
    | call hloop hcallback =>
        split at hin
        · cases List.mem_singleton.mp hin
        · cases List.mem_singleton.mp hin
    | close fd =>
        obtain ⟨d, -, hd⟩ := List.mem_map.mp hin
        cases hd
    | cancelled hcall => cases List.mem_singleton.mp hin
    | destroyed hnot =>
        rw [hnot] at hlife
        cases hlife

/-- The callback is called if it is there, or nothing about it happens. -/
theorem Inv.step_quiet (h : Inv sock es s) (hstep : Step s new t) :
    (∃ n fd, s.loop = .starting n fd ∧ s.callback = true ∧ t.callback = false ∧ new = [.called fd n]) ∨
      ∀ e ∈ new, isCall e = false ∧ e ≠ .crashed := by
  cases h.step_new hstep with
  | nothing => exact .inr nofun
  | @call n fd hloop hcallback =>
      have hs : s.callback = true := h.callback (by rw [hloop]; rfl)
      refine .inl ⟨n, fd, hloop, hs, hcallback, ?_⟩
      rw [if_pos hs]
  | close fd =>
      refine .inr ?_
      intro e he
      obtain ⟨d, -, rfl⟩ := List.mem_map.mp he
      exact ⟨rfl, nofun⟩
  | cancelled hcall =>
      refine .inr ?_
      intro e he
      rw [List.mem_singleton.mp he]
      exact ⟨rfl, nofun⟩
  | destroyed hlife =>
      refine .inr ?_
      intro e he
      rw [List.mem_singleton.mp he]
      exact ⟨rfl, nofun⟩

omit [DecidableEq T] [DecidableEq D] in
theorem countP_quiet (hquiet : ∀ e ∈ new, isCall e = false ∧ e ≠ .crashed) : new.countP isCall = 0 := by
  apply List.countP_eq_zero.mpr
  intro e he hcall
  rw [(hquiet e he).1] at hcall
  cases hcall

theorem Inv.step_uncalled (h : Inv sock es s) (hstep : Step s new t) (hcallback : t.callback = true) :
    (es ++ new).countP isCall = 0 := by
  rw [List.countP_append, h.uncalled ((step_back hstep).2.1 hcallback)]
  obtain ⟨n, fd, -, -, ht, -⟩ | hquiet := h.step_quiet hstep
  · rw [ht] at hcallback
    cases hcallback
  · rw [countP_quiet hquiet]

theorem Inv.step_once (h : Inv sock es s) (hstep : Step s new t) : (es ++ new).countP isCall ≤ 1 := by
  rw [List.countP_append]
  obtain ⟨n, fd, -, hs, -, rfl⟩ | hquiet := h.step_quiet hstep
  · rw [h.uncalled hs, Nat.zero_add]
    exact Nat.le_refl 1
  · rw [countP_quiet hquiet, Nat.add_zero]
    exact h.once

theorem Inv.step_inTime (h : Inv sock es s) (hstep : Step s new t) :
    (es ++ new).Pairwise (fun e e' => isCall e' = true → comesAfter e = false) := by
  rw [List.pairwise_append]
  obtain ⟨n, fd, hloop, -, -, rfl⟩ | hquiet := h.step_quiet hstep
  · refine ⟨h.inTime, List.pairwise_singleton _ _, ?_⟩
    have hwatch := h.starting n fd hloop
    have hlife := h.inUse (by rw [hloop]; rfl)
    intro e he e' _ _
    rcases e with ⟨fd', n'⟩ | - | d | a | -
    · rfl
    · rfl
    · rfl
    · exact absurd he (h.cancelled hwatch a).2
    · exact absurd he (h.userData hlife)
  · have hnone (e e' : Event T D) (he' : e' ∈ new) (hcall : isCall e' = true) : comesAfter e = false := by
      rw [(hquiet e' he').1] at hcall
      cases hcall
    refine ⟨h.inTime, List.pairwise_of_forall_mem_list ?_, ?_⟩
    · intro e _ e' he'
      exact hnone e e' he'
    · intro e _ e' he'
      exact hnone e e' he'

theorem Inv.step_sound (h : Inv sock es s) (hstep : Step s new t) : .crashed ∉ es ++ new := by
  intro hin
  rcases List.mem_append.mp hin with hin | hin
  · exact h.sound hin
  · obtain ⟨n, fd, -, -, -, rfl⟩ | hquiet := h.step_quiet hstep
    · cases List.mem_singleton.mp hin
    · exact (hquiet _ hin).2 rfl

/-- Nobody else touches the descriptor while it is being read. -/
theorem Inv.step_sameFd (h : Inv sock es s) (hstep : Step s new t) {timedOut : Bool} {fd : Option D}
    (hloop : t.loop = .deciding timedOut fd) : fd = t.fd := by
  cases hstep with
  | dispatch | fail | take | lock | call | comeBack | close | unlock | endUse | next => cases hloop
  | check | test =>
      simp only at hloop
      split at hloop
      · cases hloop
      · cases hloop
  | read hs =>
      cases hloop
      rfl
  | remove | cancel | cancelLock | cancelTake | cancelUnlock | cancelDestroy | cancelReturn | drop | notify
  | unrefSource | ref | unref | freeData | freeFd | freeWatch => exact h.sameFd timedOut fd hloop

omit [DecidableEq T] [DecidableEq D] in
theorem holds_same (hfd : unclosed t = unclosed s) (hloop : taken t.loop = taken s.loop) :
    holds t = holds s := by
  funext place
  cases place with
  | connector => exact hfd
  | loop => exact hloop

omit [DecidableEq T] [DecidableEq D] in
theorem holds_released (hfd : unclosed t = unclosed s) (hloop : taken t.loop = none) :
    holds t = Function.update (holds s) .loop none := by
  funext place
  cases place with
  | connector => exact hfd
  | loop => exact hloop

omit [DecidableEq T] [DecidableEq D] in
theorem custody_append (sock : D) (es new : List (Event T D)) :
    custody sock (es ++ new) = custody sock es ++ new.filterMap toCustody := by
  rw [custody, List.filterMap_append]
  rfl

theorem Inv.unclosed_unref (h : Inv sock es s) {x : Option T} (hx : s.held x = true) (a : Option T) :
    unclosed (Connector.unref a x s) = unclosed s := by
  rw [unclosed, unclosed, h.alive_of_held hx, Connector.unref, h.alive_of_held hx]
  simp only
  split
  · rename_i hphase
    rfl
  · rename_i hphase
    rfl
  · rfl
  · rename_i hphase
    split at hphase
    · cases hphase
    · cases hphase
  · rename_i hphase
    split at hphase
    · cases hphase
    · cases hphase

omit [DecidableEq T] [DecidableEq D] in
theorem custody_closed (fd : Option D) :
    ((fd.toList.map .closed : List (Event T D)).filterMap toCustody) = fd.toList.map .lost := by
  cases fd <;> rfl

/-- The descriptor changes hands as a token does. -/
theorem Inv.step_kept (h : Inv sock es s) (hstep : Step s new t) :
    Kept (custody sock (es ++ new)) (holds t) := by
  rw [custody_append]
  have hsame (hfd : unclosed t = unclosed s) (hloop : taken t.loop = taken s.loop)
      (hnew : new.filterMap toCustody = []) : Kept (custody sock es ++ new.filterMap toCustody) (holds t) := by
    rw [hnew, List.append_nil, holds_same hfd hloop]
    exact h.kept
  cases hstep with
  | dispatch _ hloop => exact hsame rfl (by rw [hloop]; rfl) rfl
  | check hloop => exact hsame rfl (by rw [hloop]; simp only; split <;> rfl) rfl
  | read hloop => exact hsame rfl (by rw [hloop]; rfl) rfl
  | fail _ hloop => exact hsame rfl (by rw [hloop]; rfl) rfl
  | lock hloop => exact hsame rfl (by rw [hloop]; rfl) rfl
  | test hloop => exact hsame rfl (by rw [hloop]; simp only; split <;> rfl) rfl
  | comeBack hloop => exact hsame rfl (by rw [hloop]; rfl) rfl
  | unlock hloop => exact hsame rfl (by rw [hloop]; rfl) rfl
  | endUse hloop => exact hsame rfl (by rw [hloop]; rfl) rfl
  | next hloop => exact hsame rfl (by rw [hloop]; rfl) rfl
  | @take timedOut fd _ hloop herror =>
      have hphase := h.alive_of_use (by rw [hloop]; rfl)
      have hempty : holds s .loop = none := by rw [holds, hloop, taken]
      have hfd : holds s .connector = fd := by
        rw [h.sameFd timedOut fd hloop, holds, unclosed, hphase]
      have hmove := h.kept.move (a := .connector) hempty
      have hplaces : Function.update (Function.update (holds s) .loop (holds s .connector)) .connector none =
          holds { s with fd := none, loop := .waiting 0 fd } := by
        funext place
        cases place with
        | connector =>
            rw [Function.update_self, holds, unclosed]
            simp only [hphase]
        | loop =>
            rw [Function.update_of_ne (by decide : Place.loop ≠ .connector), Function.update_self, hfd]
            rfl
      rw [hplaces] at hmove
      rw [List.filterMap_nil, List.append_nil]
      exact hmove
  | @call n fd hloop =>
      have hcallback : s.callback = true := h.callback (by rw [hloop]; rfl)
      have hleave := h.kept.leave (f := .released) (.inl rfl) .loop
      have htaken : holds s .loop = fd := by rw [holds, hloop, taken]
      have hevents : [if s.callback = true then Connector.Event.called (T := T) fd n else .crashed].filterMap
          toCustody = fd.toList.map .released := by
        rw [if_pos hcallback]
        cases fd <;> rfl
      have hplaces : holds { s with callback := false, loop := .calling } =
          Function.update (holds s) .loop none := holds_released rfl rfl
      rw [hevents, hplaces, ← htaken]
      exact hleave
  | @close fd hloop =>
      have hleave := h.kept.leave (f := .lost) (.inr rfl) .loop
      have htaken : holds s .loop = fd := by rw [holds, hloop, taken]
      have hplaces : holds { s with loop := .unlocking } = Function.update (holds s) .loop none :=
        holds_released rfl rfl
      rw [custody_closed, hplaces, ← htaken]
      exact hleave
  | @freeFd a hphase =>
      have hleave := h.kept.leave (f := .lost) (.inr rfl) .connector
      have hfd : holds s .connector = s.fd := by rw [holds, unclosed, hphase]
      have hplaces : holds { s with phase := .unwatching a } = Function.update (holds s) .connector none := by
        funext place
        cases place with
        | connector => rfl
        | loop => rfl
      rw [custody_closed, hplaces, ← hfd]
      exact hleave
  | notify => exact hsame rfl rfl (by split <;> rfl)
  | freeData hphase =>
      refine hsame ?_ rfl (by split <;> rfl)
      rw [unclosed, unclosed, hphase]
  | freeWatch hphase =>
      refine hsame ?_ rfl rfl
      rw [unclosed, unclosed, hphase]
  | @unrefSource a hlife => exact hsame (h.unclosed_unref (h.held_of_unreffing hlife) a) rfl rfl
  | unref u hheld hcall => exact hsame (h.unclosed_unref hheld _) rfl rfl
  | remove | cancel | cancelLock | cancelTake | cancelUnlock | cancelDestroy | cancelReturn | drop | ref =>
      exact hsame rfl rfl rfl

theorem Inv.step (h : Inv sock es s) (hstep : Step s new t) : Inv sock (es ++ new) t where
  counts := h.step_counts hstep
  alive := h.step_alive hstep
  source := h.step_source hstep
  inUse := h.step_inUse hstep
  callers := h.step_callers hstep
  nested := h.step_nested hstep
  locks := h.step_locks hstep
  starting := fun _ _ => h.step_starting hstep
  cancelled := fun hwatch a => ⟨h.step_passed hstep hwatch a, h.step_cancelled hstep hwatch a⟩
  callback := h.step_callback hstep
  uncalled := h.step_uncalled hstep
  userData := h.step_userData hstep
  sameFd := fun _ _ => h.step_sameFd hstep
  kept := h.step_kept hstep
  once := h.step_once hstep
  inTime := h.step_inTime hstep
  sound := h.step_sound hstep

omit [DecidableEq T] in
theorem countP_disposes (sock d : D) (es : List (Event T D)) :
    es.countP (disposes d) = gone d (custody sock es) := by
  have hsock (l : List (Custody.Event D)) : gone d (.acquired sock :: l) = gone d l := by
    simp [gone]
  rw [custody, hsock]
  induction es with
  | nil => rfl
  | cons e es ih =>
      rw [← List.singleton_append, List.countP_append, List.filterMap_append, gone_append, ih]
      congr 1
      rcases e with ⟨fd, n⟩ | - | d' | a | -
      · cases fd with
        | none => rfl
        | some d' =>
            by_cases hd : d' = d
            · simp [disposes, toCustody, gone, hd]
            · simp [disposes, toCustody, gone, hd]
      · rfl
      · by_cases hd : d' = d
        · simp [disposes, toCustody, gone, hd]
        · simp [disposes, toCustody, gone, hd]
      · rfl
      · rfl

omit [DecidableEq T] [DecidableEq D] in
theorem acquired_iff (sock d : D) (es : List (Event T D)) : .acquired d ∈ custody sock es ↔ d = sock := by
  rw [custody, List.mem_cons, List.mem_filterMap]
  constructor
  · rintro (heq | ⟨e, -, he⟩)
    · exact Custody.Event.acquired.inj heq
    · rcases e with ⟨fd, n⟩ | - | d' | a | -
      · cases fd with
        | none => cases he
        | some d' => cases he
      · cases he
      · cases he
      · cases he
      · cases he
  · rintro rfl
    exact .inl rfl

theorem inv_started (user : T) (sock : D) (hasCallback hasUserData : Bool) :
    Inv sock [] (started user sock hasCallback hasUserData) := by
  constructor
  case counts =>
    have hempty : (none : Option T) ∉ (∅ : Set (Option T)) := Set.notMem_empty _
    have hnot : some user ∉ insert none (∅ : Set (Option T)) := by simp
    have hjoin := (Counts.empty.join hempty).join hnot
    have hset : { h | (started user sock hasCallback hasUserData).held h = true } =
        insert (some user) (insert none ∅) := by
      ext h
      simp [started, or_comm]
    rw [hset]
    exact hjoin
  case kept =>
    have hacquire := (Kept.nil (σ := Place) (τ := D)).acquire (a := .connector) (t := sock) rfl (by rintro ⟨⟩)
    have hplaces : holds (started user sock hasCallback hasUserData) =
        Function.update (fun _ => none) .connector (some sock) := by
      funext place
      cases place with
      | connector => rfl
      | loop => rfl
    rw [hplaces]
    exact hacquire
  case alive => exact ⟨fun _ => (by decide : (2 : Int) ≠ 0), fun _ => rfl⟩
  case source => exact ⟨fun _ => (by rintro ⟨⟩), fun _ => by simp [started]⟩
  case inUse => rintro ⟨⟩
  case callers => exact fun _ hne => absurd rfl hne
  case nested => exact fun hne => absurd rfl hne
  case locks =>
    intro a
    rw [owes]
    simp only [started, loopOwes, callOwes, ite_self]
    rfl
  case starting => rintro n fd ⟨⟩
  case cancelled => exact fun _ _ => ⟨rfl, List.not_mem_nil⟩
  case callback => rintro ⟨⟩
  case uncalled => exact fun _ => rfl
  case userData => exact fun _ => List.not_mem_nil
  case sameFd => rintro timedOut fd ⟨⟩
  case once => exact Nat.zero_le 1
  case inTime => exact List.Pairwise.nil
  case sound => exact List.not_mem_nil

theorem Inv.ends (h : Inv sock es s) (hheld : ∀ x, s.held x = false) : s.phase ≠ .alive := by
  intro halive
  apply h.alive.mp halive
  have hempty : { x | s.held x = true } = ∅ := by
    apply Set.eq_empty_of_forall_notMem
    intro x hx
    rw [Set.mem_ofPred_eq, hheld x] at hx
    cases hx
  rw [h.counts.count, hempty, Set.ncard_empty]
  rfl

omit [DecidableEq T] [DecidableEq D] in
theorem taken_of_unused {l : Loop D} (h : Connector.inUse l = false) : taken l = none := by
  cases l <;> first | rfl | cases h

/-- Once the connector is gone nobody has the descriptor any more. -/
theorem Inv.exactlyOnce (h : Inv sock es s) (hfreed : s.phase = .freed) :
    es.countP (disposes sock) = 1 := by
  rw [countP_disposes sock]
  apply h.kept.unheld sock ((acquired_iff sock sock es).mpr rfl)
  rintro ⟨place, hplace⟩
  cases place with
  | connector =>
      rw [holds, unclosed, hfreed] at hplace
      cases hplace
  | loop =>
      have huse := (h.untouched (by rw [hfreed]; exact nofun)).1
      rw [holds, taken_of_unused huse] at hplace
      cases hplace

/-- Whatever the threads do, the callback is called at most once and not after
a cancel has returned, and the descriptor is handed over or closed once. -/
theorem cancel_safe (user : T) (sock : D) (hasCallback hasUserData : Bool)
    (hrun : Run user sock hasCallback hasUserData es s) : Safe sock es s := by
  have hinv : Inv sock es s :=
    hrun.invariant (Inv sock) (inv_started user sock hasCallback hasUserData)
      (fun _ _ _ _ _ h _ hstep => h.step hstep)
  constructor
  case once => exact hinv.once
  case inTime => exact hinv.inTime
  case sound => exact hinv.sound
  case atMostOnce =>
    rw [countP_disposes sock]
    exact hinv.kept.gone_le_one sock
  case noOther =>
    intro d hd
    rw [countP_disposes sock]
    exact hinv.kept.unknown d (fun hin => hd ((acquired_iff sock d es).mp hin))
  case exactlyOnce => exact hinv.exactlyOnce
  case ends => exact hinv.ends
  case untouched => exact hinv.untouched

/-- A cancel comes between the loop's taking of the descriptor and its lock. -/
theorem cancel_safe_between :
    ∃ s : Connector Unit Nat, Run () 3 true true [.closed 3] s ∧ s.calls (some ()) = .destroying ∧
      Safe 3 [.closed 3] s := by
  have hstart : Run () 3 true true [] (started () 3 true true) := .nil _
  have hentered := hstart.snoc (i := ()) (.dispatch false rfl rfl) trivial
  have hchecked := hentered.snoc (i := ()) (.check rfl) trivial
  have hread := hchecked.snoc (i := ()) (.read rfl) trivial
  have htaken := hread.snoc (i := ()) (.take none rfl rfl) trivial
  have hcancel := htaken.snoc (i := ()) (.cancel (some ()) rfl rfl) trivial
  have hinside := hcancel.snoc (i := ()) (.cancelLock (a := some ()) rfl rfl) trivial
  have hwatch := hinside.snoc (i := ()) (.cancelTake (a := some ()) rfl) trivial
  have houtside := hwatch.snoc (i := ())
    (.cancelUnlock (a := some ()) (rfl : _ = Call.unlocking true)) trivial
  have hlocked := houtside.snoc (i := ()) (.lock rfl rfl) trivial
  have htested := hlocked.snoc (i := ()) (.test rfl) trivial
  have hrun := htested.snoc (i := ()) (.close rfl) trivial
  exact ⟨_, hrun, rfl, cancel_safe () 3 true true hrun⟩

end Libzorpll.ConnectorCancel
