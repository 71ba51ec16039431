import Libzorpll.Headcount
import Libzorpll.Listener

/-! Who holds a listener, its lock and its sources. -/

namespace Libzorpll.ListenerHeld

open RecMutex Listener Headcount

variable {T : Type}

/-- z_listener_accept has its own reference. -/
def Loop.holds : Loop → Bool
  | .testing .. | .accepting .. | .inCallback .. | .tested .. | .leaving .. => true
  | _ => false

/-- z_listener_accept has the lock. -/
def Loop.owes : Loop → Nat
  | .locked _ | .testing .. | .accepting .. | .inCallback .. | .tested .. | .leaving .. | .unlocking .. => 1
  | _ => 0

/-- z_listener_accept relies on its watch. -/
def Loop.watches : Loop → Bool
  | .testing .. | .accepting .. => true
  | _ => false

def Call.owes : Call → Nat
  | .taking _ | .unlocking .. => 1
  | _ => 0

/-- The starts before a z_listener_cancel that has been through the lock. -/
def Call.passed : Call → Option Nat
  | .unlocking starts _ | .destroying starts _ | .leaving starts => some starts
  | _ => none

/-- The starts before a z_listener_cancel. -/
def Call.starts : Call → Option Nat
  | .cancelling starts | .locking starts | .taking starts | .unlocking starts _ | .destroying starts _
  | .leaving starts => some starts
  | _ => none

/-- The source that a z_listener_cancel destroys. -/
def Call.taken : Call → Option Nat
  | .unlocking _ watch | .destroying _ watch => watch
  | _ => none

def isStarted : Event T → Bool
  | .started => true
  | _ => false

def isFreed : Event T → Bool
  | .freed => true
  | _ => false

variable [DecidableEq T]

def owes (s : Listener T) (a : Option T) : Nat := (if a = none then Loop.owes s.loop else 0) + Call.owes (s.calls a)

/-- A z_listener_cancel that has been through the lock leaves no watch, as
long as nobody starts the listener again. -/
structure CallOk (s : Listener T) (call : Call) : Prop where
  begun : ∀ n, Call.starts call = some n → n ≤ s.sources
  passed : ∀ n, Call.passed call = some n → n = s.sources → s.watch = none
  taken : ∀ w, Call.taken call = some w → w < s.sources

structure Inv (es : List (Event T)) (s : Listener T) : Prop where
  counts : Counts { h | s.held h = true } s.refcnt
  fresh : ∀ w, s.sources ≤ w → s.source w = {} ∧ s.held (.source w) = false
  kept : ∀ w, w < s.sources → (s.source w).destroyed = false → s.held (.source w) = true
  inUse : ∀ w, s.loop.source = some w → s.held (.source w) = true
  accept : s.held .accept = Loop.holds s.loop
  callers : ∀ a, s.calls a ≠ .idle → MayCall s a
  locks : ∀ a, depth s.lock a = owes s a
  watching : Loop.watches s.loop = true → s.watch ≠ none
  watched : ∀ w, s.watch = some w → w < s.sources
  starts : es.countP isStarted = s.sources
  calling : ∀ a, CallOk s (s.calls a)
  cancelled : ∀ a n, .cancelled a n ∈ es → n ≤ s.sources ∧ (n = s.sources → s.watch = none)
  freed : es.countP isFreed = if s.refcnt = 0 then 1 else 0

variable {es new : List (Event T)} {s t : Listener T} {a : Option T} {h : Holder T}

theorem Inv.refcnt_pos (hi : Inv es s) (hh : s.held h = true) : 0 < s.refcnt := by
  have hcard := hi.counts.count
  have hpos : 0 < { y | s.held y = true }.ncard := (Set.ncard_pos hi.counts.finite).mpr ⟨h, hh⟩
  omega

/-- Who may call has a reference, or the callback does. -/
theorem Inv.held_of_call (hi : Inv es s) (hmay : MayCall s a) : ∃ h, s.held h = true := by
  cases a with
  | none =>
      rcases hmay with ⟨w, accepts, hloop⟩ | ⟨-, hheld⟩
      · exact ⟨.source w, hi.inUse w (by rw [hloop]; rfl)⟩
      · exact ⟨_, hheld⟩
  | some t => exact ⟨_, hmay⟩

theorem Inv.held_of_calls (hi : Inv es s) (hcall : s.calls a ≠ .idle) : ∃ h, s.held h = true :=
  hi.held_of_call (hi.callers a hcall)

theorem Inv.made_of_held (hi : Inv es s) {w : Nat} (hheld : s.held (.source w) = true) : w < s.sources := by
  by_contra hge
  have hnot := (hi.fresh w (Nat.le_of_not_lt hge)).2
  exact Bool.noConfusion (hnot.symm.trans hheld)

theorem Inv.made_of_attached (hi : Inv es s) {w : Nat} (hattached : (s.source w).attached = true) : w < s.sources := by
  by_contra hge
  rw [(hi.fresh w (Nat.le_of_not_lt hge)).1] at hattached
  cases hattached

theorem Inv.not_accept (hi : Inv es s) {l : Loop} (hloop : s.loop = l) (hholds : Loop.holds l = false) :
    s.held .accept = false := hi.accept.trans (hloop ▸ hholds)

/-! References -/

theorem held_ref (s : Listener T) (h : Holder T) :
    { y | (ref h s).held y = true } = insert h { y | s.held y = true } := by
  ext y
  change Function.update s.held h true y = true ↔ y = h ∨ s.held y = true
  by_cases hy : y = h
  · rw [hy, Function.update_self]
    exact iff_of_true rfl (.inl rfl)
  · rw [Function.update_of_ne hy]
    exact ⟨.inr, fun hor => hor.resolve_left hy⟩

theorem held_unref (s : Listener T) (h : Holder T) :
    { y | (unref h s).held y = true } = { y | s.held y = true } \ {h} := by
  ext y
  change Function.update s.held h false y = true ↔ s.held y = true ∧ ¬y = h
  by_cases hy : y = h
  · rw [hy, Function.update_self]
    exact iff_of_false Bool.false_ne_true fun hand => hand.2 rfl
  · rw [Function.update_of_ne hy]
    exact ⟨fun hheld => ⟨hheld, hy⟩, And.left⟩

theorem Counts.ref (hc : Counts { y | s.held y = true } s.refcnt) (hnew : s.held h = false) :
    Counts { y | (ref h s).held y = true } (ref h s).refcnt := by
  rw [held_ref]
  exact hc.join fun hheld => Bool.noConfusion (hnew.symm.trans hheld)

theorem Counts.unref (hc : Counts { y | s.held y = true } s.refcnt) (hheld : s.held h = true) :
    Counts { y | (unref h s).held y = true } (unref h s).refcnt := by
  rw [held_unref]
  exact hc.quit hheld

theorem step_counts (hi : Inv es s) (hstep : Step () s new t) : Counts { y | t.held y = true } t.refcnt := by
  cases hstep with
  | ref hloop => exact Counts.ref hi.counts (hi.not_accept hloop rfl)
  | opened => exact Counts.ref hi.counts (hi.fresh _ (Nat.le_refl _)).2
  | share a b hmay hnew => exact Counts.ref hi.counts hnew
  | unref hloop =>
      refine Counts.unref hi.counts (hi.accept.trans ?_)
      rw [hloop]
      rfl
  | unrefSource w hdestroyed hheld => exact Counts.unref hi.counts hheld
  | drop a hmay hheld => exact Counts.unref hi.counts hheld
  | suspend | resume =>
      split
      · exact hi.counts
      · exact hi.counts
  | _ => exact hi.counts

omit [DecidableEq T] in
theorem countP_freeing (s : Listener T) : (freeing s).countP isFreed = if s.refcnt - 1 = 0 then 1 else 0 := by
  rw [freeing]
  split
  · rfl
  · rfl

/-- The listener is freed with its last reference. -/
theorem step_freed (hi : Inv es s) (hstep : Step () s new t) :
    (es ++ new).countP isFreed = if t.refcnt = 0 then 1 else 0 := by
  have hsame (hnew : new.countP isFreed = 0) (hrefcnt : t.refcnt = s.refcnt) :
      (es ++ new).countP isFreed = if t.refcnt = 0 then 1 else 0 := by
    rw [List.countP_append, hnew, hrefcnt, hi.freed, Nat.add_zero]
  have hrefs {h : Holder T} (hnew : new.countP isFreed = 0) (hheld : s.held h = true)
      (hrefcnt : t.refcnt = s.refcnt + 1) : (es ++ new).countP isFreed = if t.refcnt = 0 then 1 else 0 := by
    have hpos := hi.refcnt_pos hheld
    rw [List.countP_append, hnew, hi.freed, hrefcnt, if_neg (by omega), if_neg (by omega)]
  have hunrefs {h : Holder T} (hnew : new = freeing s) (hheld : s.held h = true) (hrefcnt : t.refcnt = s.refcnt - 1) :
      (es ++ new).countP isFreed = if t.refcnt = 0 then 1 else 0 := by
    have hpos := hi.refcnt_pos hheld
    rw [List.countP_append, hnew, countP_freeing, hi.freed, hrefcnt, if_neg (by omega), Nat.zero_add]
  cases hstep with
  | ref hloop => exact hrefs rfl (hi.inUse _ (by rw [hloop]; rfl)) rfl
  | opened hcall =>
      obtain ⟨h, hheld⟩ := hi.held_of_calls (by rw [hcall]; rintro ⟨⟩)
      exact hrefs rfl hheld rfl
  | share a b hmay hnew =>
      obtain ⟨h, hheld⟩ := hi.held_of_call hmay
      exact hrefs rfl hheld rfl
  | unref hloop => exact hunrefs rfl (hi.inUse _ (by rw [hloop]; rfl)) rfl
  | unrefSource w hdestroyed hheld => exact hunrefs rfl hheld rfl
  | drop a hmay hheld => exact hunrefs rfl hheld rfl
  | suspend | resume => exact hsame rfl (by split <;> rfl)
  | _ => exact hsame rfl rfl

/-! Sources -/

omit [DecidableEq T] in
theorem setSource_self (w : Nat) (source : Source) (s : Listener T) : (setSource w source s).source w = source :=
  Function.update_self _ _ _

omit [DecidableEq T] in
theorem setSource_other {w v : Nat} (hv : v ≠ w) (source : Source) (s : Listener T) :
    (setSource w source s).source v = s.source v := Function.update_of_ne hv _ _

/-- Sources that are there change, others do not. -/
theorem fresh_setSource (hi : Inv es s) {w : Nat} (hw : w < s.sources) (source : Source) (v : Nat) (hv : s.sources ≤ v) :
    (setSource w source s).source v = {} ∧ s.held (.source v) = false := by
  rw [setSource_other (by omega)]
  exact hi.fresh v hv

theorem kept_setSource (hi : Inv es s) {w : Nat} {source : Source}
    (hsource : source.destroyed = false → (s.source w).destroyed = false) (v : Nat) (hv : v < s.sources)
    (hlive : ((setSource w source s).source v).destroyed = false) : s.held (.source v) = true := by
  by_cases hvw : v = w
  · rw [hvw, setSource_self] at hlive
    exact hi.kept v hv (hvw ▸ hsource hlive)
  · rw [setSource_other hvw] at hlive
    exact hi.kept v hv hlive

theorem ref_other {h y : Holder T} (hy : y ≠ h) (s : Listener T) : (ref h s).held y = s.held y :=
  Function.update_of_ne hy _ _

theorem unref_other {h y : Holder T} (hy : y ≠ h) (s : Listener T) : (unref h s).held y = s.held y :=
  Function.update_of_ne hy _ _

theorem ref_self (h : Holder T) (s : Listener T) : (ref h s).held h = true := Function.update_self _ _ _

theorem unref_self (h : Holder T) (s : Listener T) : (unref h s).held h = false := Function.update_self _ _ _

theorem step_fresh (hi : Inv es s) (hstep : Step () s new t) (v : Nat) (hv : t.sources ≤ v) :
    t.source v = {} ∧ t.held (.source v) = false := by
  have hsame := hi.fresh v
  cases hstep with
  | ref =>
      change s.source v = {} ∧ (Listener.ref .accept s).held (.source v) = false
      rw [ref_other (by rintro ⟨⟩)]
      exact hsame hv
  | share a b =>
      change s.source v = {} ∧ (Listener.ref (.thread b) s).held (.source v) = false
      rw [ref_other (by rintro ⟨⟩)]
      exact hsame hv
  | opened =>
      change s.sources + 1 ≤ v at hv
      change _ ∧ (Listener.ref _ s).held _ = false
      have hne : (Holder.source v : Holder T) ≠ .source s.sources := fun heq => by
        have hvs := Holder.source.inj heq
        omega
      rw [ref_other hne]
      exact hsame (by omega)
  | unref =>
      change s.source v = {} ∧ (Listener.unref .accept s).held (.source v) = false
      rw [unref_other (by rintro ⟨⟩)]
      exact hsame hv
  | drop a =>
      change s.source v = {} ∧ (Listener.unref (.thread a) s).held (.source v) = false
      rw [unref_other (by rintro ⟨⟩)]
      exact hsame hv
  | unrefSource w =>
      change _ ∧ (Listener.unref _ s).held _ = false
      by_cases hvw : v = w
      · rw [hvw, unref_self]
        exact ⟨(hi.fresh w (hvw ▸ hv)).1, rfl⟩
      · rw [unref_other fun heq => hvw (Holder.source.inj heq)]
        exact hsame hv
  | remove hloop =>
      have hw := hi.made_of_held (hi.inUse _ (by rw [hloop]; rfl))
      exact fresh_setSource hi hw _ v hv
  | attach hcall hwatch => exact fresh_setSource hi (hi.watched _ hwatch) _ v hv
  | suspendSource hcall hwatch => exact fresh_setSource hi (hi.watched _ hwatch) _ v hv
  | resumeSource hcall hwatch => exact fresh_setSource hi (hi.watched _ hwatch) _ v hv
  | cancelDestroy hcall => exact fresh_setSource hi ((hi.calling _).taken _ (by rw [hcall]; rfl)) _ v hv
  | suspend | resume =>
      split at hv
      · split
        · exact hsame hv
        · exact hsame hv
      · split
        · exact hsame hv
        · exact hsame hv
  | _ => exact hsame hv

theorem step_kept (hi : Inv es s) (hstep : Step () s new t) (v : Nat) (hv : v < t.sources)
    (hlive : (t.source v).destroyed = false) : t.held (.source v) = true := by
  have hsame := hi.kept v
  cases hstep with
  | ref =>
      change (Listener.ref .accept s).held (.source v) = true
      rw [ref_other (by rintro ⟨⟩)]
      exact hsame hv hlive
  | share a b =>
      change (Listener.ref (.thread b) s).held (.source v) = true
      rw [ref_other (by rintro ⟨⟩)]
      exact hsame hv hlive
  | opened =>
      change v < s.sources + 1 at hv
      change (Listener.ref _ s).held _ = true
      by_cases hvs : v = s.sources
      · rw [hvs, ref_self]
      · rw [ref_other fun heq => hvs (Holder.source.inj heq)]
        exact hsame (by omega) hlive
  | unref =>
      change (Listener.unref .accept s).held (.source v) = true
      rw [unref_other (by rintro ⟨⟩)]
      exact hsame hv hlive
  | drop a =>
      change (Listener.unref (.thread a) s).held (.source v) = true
      rw [unref_other (by rintro ⟨⟩)]
      exact hsame hv hlive
  | unrefSource w hdestroyed =>
      change (Listener.unref _ s).held _ = true
      have hvw : v ≠ w := by
        rintro rfl
        exact Bool.noConfusion (hlive.symm.trans hdestroyed)
      rw [unref_other fun heq => hvw (Holder.source.inj heq)]
      exact hsame hv hlive
  | remove | cancelDestroy => exact kept_setSource hi Bool.noConfusion v hv hlive
  | attach | suspendSource | resumeSource =>
      refine kept_setSource hi ?_ v hv hlive
      exact id
  | suspend | resume =>
      split at hv
      · rename_i hwatch
        rw [if_pos hwatch] at hlive ⊢
        exact hsame hv hlive
      · rename_i hwatch
        rw [if_neg hwatch] at hlive ⊢
        exact hsame hv hlive
  | _ => exact hsame hv hlive

/-- The callback data stays as long as the dispatch uses it. -/
theorem step_inUse (hi : Inv es s) (hstep : Step () s new t) (v : Nat) (hv : t.loop.source = some v) :
    t.held (.source v) = true := by
  have hold {l : Loop} (hloop : s.loop = l) (hl : l.source = some v) : s.held (.source v) = true :=
    hi.inUse v (hloop ▸ hl)
  cases hstep with
  | dispatch w hloop hcall hattached hlive =>
      cases hv
      exact hi.kept _ (hi.made_of_attached hattached) hlive
  | check hloop =>
      refine hold hloop ?_
      split at hv
      · exact hv
      · exact hv
  | next hloop =>
      refine hold hloop ?_
      split at hv
      · exact hv
      · exact hv
  | lock hloop | cancelledBefore hloop | test hloop | stop hloop | acceptAgain hloop | call hloop | comeBack _ hloop
  | unlock hloop => exact hold hloop hv
  | ref hloop =>
      change (Listener.ref .accept s).held (.source v) = true
      rw [ref_other (by rintro ⟨⟩)]
      exact hold hloop hv
  | unref hloop =>
      change (Listener.unref .accept s).held (.source v) = true
      rw [unref_other (by rintro ⟨⟩)]
      exact hold hloop hv
  | goOn | remove => cases hv
  | share =>
      change (Listener.ref _ s).held _ = true
      rw [ref_other (by rintro ⟨⟩)]
      exact hi.inUse v hv
  | opened =>
      change (Listener.ref _ s).held _ = true
      have hmade := hi.made_of_held (hi.inUse v hv)
      have hne : (Holder.source v : Holder T) ≠ .source s.sources := fun heq => by
        have hvs := Holder.source.inj heq
        omega
      rw [ref_other hne]
      exact hi.inUse v hv
  | drop =>
      change (Listener.unref _ s).held _ = true
      rw [unref_other (by rintro ⟨⟩)]
      exact hi.inUse v hv
  | unrefSource w hdestroyed hheld huse =>
      change (Listener.unref _ s).held _ = true
      have hvw : v ≠ w := by
        rintro rfl
        exact huse hv
      rw [unref_other fun heq => hvw (Holder.source.inj heq)]
      exact hi.inUse v hv
  | suspend | resume =>
      split at hv
      · rename_i hwatch
        rw [if_pos hwatch]
        exact hi.inUse v hv
      · rename_i hwatch
        rw [if_neg hwatch]
        exact hi.inUse v hv
  | _ => exact hi.inUse v hv

theorem step_accept (hi : Inv es s) (hstep : Step () s new t) : t.held .accept = Loop.holds t.loop := by
  have hold {l l' : Loop} (hloop : s.loop = l) (hl : Loop.holds l = Loop.holds l') : s.held .accept = Loop.holds l' :=
    (hi.accept.trans (hloop ▸ rfl)).trans hl
  cases hstep with
  | dispatch w hloop | lock hloop | cancelledBefore hloop | test hloop | stop hloop | acceptAgain hloop | call hloop
  | comeBack _ hloop | unlock hloop | goOn hloop | remove hloop => exact hold hloop rfl
  | check hloop =>
      split
      · exact hold hloop rfl
      · exact hold hloop rfl
  | next hloop =>
      split
      · exact hold hloop rfl
      · exact hold hloop rfl
  | ref => exact ref_self .accept s
  | unref => exact unref_self .accept s
  | share a b => exact (ref_other (by rintro ⟨⟩) s).trans hi.accept
  | opened =>
      have hother : (Listener.ref (.source s.sources) s).held .accept = s.held .accept := ref_other (by rintro ⟨⟩) s
      exact hother.trans hi.accept
  | drop | unrefSource => exact (unref_other (by rintro ⟨⟩) s).trans hi.accept
  | suspend | resume =>
      split
      · exact hi.accept
      · exact hi.accept
  | _ => exact hi.accept

/-! Calls -/

theorem setCall_self (a : Option T) (call : Call) (s : Listener T) : (setCall a call s).calls a = call :=
  Function.update_self _ _ _

theorem setCall_other {b : Option T} (hb : b ≠ a) (call : Call) (s : Listener T) :
    (setCall a call s).calls b = s.calls b := Function.update_of_ne hb _ _

omit [DecidableEq T] in
/-- What a thread needs to call stays, where neither the main loop moves nor
the thread loses its reference. -/
theorem mayCall_congr (hloop : t.loop = s.loop) (hheld : t.held (.thread a) = s.held (.thread a)) (hmay : MayCall s a) :
    MayCall t a := by
  cases a with
  | none =>
      rcases hmay with ⟨w, accepts, hin⟩ | ⟨hidle, hhas⟩
      · exact .inl ⟨w, accepts, hloop.trans hin⟩
      · exact .inr ⟨hloop.trans hidle, hheld.trans hhas⟩
  | some u => exact hheld.trans hmay

/-- Where the main loop moves, the others can go on as before. -/
theorem callers_loop (hi : Inv es s) (hcalls : t.calls = s.calls)
    (hheld : ∀ u, t.held (.thread u) = s.held (.thread u))
    (hnone : s.calls none = .idle) (b : Option T) (hb : t.calls b ≠ .idle) : MayCall t b := by
  rw [hcalls] at hb
  cases b with
  | none => exact absurd hnone hb
  | some u => exact (hheld _).trans (hi.callers _ hb)

/-- The call of a thread goes on. -/
theorem callers_call (hi : Inv es s) (hmay : MayCall s a) (hloop : t.loop = s.loop)
    (hheld : ∀ u, t.held (.thread u) = s.held (.thread u)) (hcalls : ∀ u, u ≠ a → t.calls u = s.calls u)
    (b : Option T) (hb : t.calls b ≠ .idle) : MayCall t b := by
  by_cases hba : b = a
  · rw [hba]
    exact mayCall_congr hloop (hheld a) hmay
  · rw [hcalls b hba] at hb
    exact mayCall_congr hloop (hheld b) (hi.callers b hb)

/-- The main loop does not move while one of its calls goes on. -/
theorem Inv.loop_idle (hi : Inv es s) {l : Loop} (hloop : s.loop = l) (hidle : l ≠ .idle)
    (hcallback : ∀ w accepts, l ≠ .inCallback w accepts) : s.calls none = .idle := by
  by_contra hne
  rcases hi.callers none hne with ⟨w, accepts, hin⟩ | ⟨hin, -⟩
  · exact hcallback w accepts (hloop.symm.trans hin)
  · exact hidle (hloop.symm.trans hin)

theorem step_callers (hi : Inv es s) (hstep : Step () s new t) (b : Option T) (hb : t.calls b ≠ .idle) : MayCall t b := by
  have hmay (a : Option T) {call : Call} (hcall : s.calls a = call) (hne : call ≠ .idle) : MayCall s a :=
    hi.callers a (hcall ▸ hne)
  have hidle {l : Loop} (hloop : s.loop = l) (hl : l ≠ .idle) (hcallback : ∀ w accepts, l ≠ .inCallback w accepts) :
      s.calls none = .idle := hi.loop_idle hloop hl hcallback
  cases hstep with
  | dispatch w hloop hcall | comeBack rc hloop hcall =>
      refine callers_loop hi ?_ ?_ hcall b hb
      · rfl
      · exact fun _ => rfl
  | check hloop | lock hloop | cancelledBefore hloop | test hloop | stop hloop | acceptAgain hloop | call hloop
  | next hloop | unlock hloop | goOn hloop | remove hloop =>
      refine callers_loop hi ?_ ?_ (hidle hloop nofun nofun) b hb
      · rfl
      · exact fun _ => rfl
  | ref hloop =>
      refine callers_loop hi ?_ ?_ (hidle hloop nofun nofun) b hb
      · rfl
      · have hother (u : Option T) : (Listener.ref .accept s).held (.thread u) = s.held (.thread u) :=
          ref_other (by rintro ⟨⟩) s
        exact hother
  | unref hloop =>
      refine callers_loop hi ?_ ?_ (hidle hloop nofun nofun) b hb
      · rfl
      · have hother (u : Option T) : (Listener.unref .accept s).held (.thread u) = s.held (.thread u) :=
          unref_other (by rintro ⟨⟩) s
        exact hother
  | unrefSource w hdestroyed hheld huse =>
      refine mayCall_congr ?_ (unref_other (by rintro ⟨⟩) s) (hi.callers b hb)
      rfl
  | startAgain => exact hi.callers b hb
  | start a hm | cancel a hm =>
      refine callers_call hi hm ?_ ?_ (fun u hu => setCall_other hu _ s) b hb
      · rfl
      · exact fun _ => rfl
  | suspend a hm | resume a hm =>
      split at hb
      · rename_i hwatch
        rw [if_pos hwatch]
        exact hi.callers b hb
      · rename_i hwatch
        rw [if_neg hwatch]
        refine callers_call hi hm ?_ ?_ (fun u hu => setCall_other hu _ s) b hb
        · rfl
        · exact fun _ => rfl
  | opened hcall =>
      refine callers_call hi (hmay _ hcall nofun) ?_ ?_ (fun u hu => setCall_other hu _ _) b hb
      · rfl
      · have hother (u : Option T) : (Listener.ref (.source s.sources) s).held (.thread u) = s.held (.thread u) :=
          ref_other (by rintro ⟨⟩) s
        exact hother
  | openFails hcall | attach hcall | attachNothing hcall | suspendSource hcall | resumeSource hcall | cancelTest hcall
  | cancelLock hcall | cancelTake hcall | cancelUnlock hcall | cancelDestroy hcall | cancelNothing hcall
  | cancelReturn hcall =>
      refine callers_call hi (hmay _ hcall nofun) ?_ ?_ (fun u hu => setCall_other hu _ _) b hb
      · rfl
      · exact fun _ => rfl
  | share a c =>
      have hkeeps {u : Option T} (hu : MayCall s u) : MayCall (Listener.ref (.thread c) s) u := by
        have hheld (x : Option T) (hx : s.held (.thread x) = true) : (Listener.ref (.thread c) s).held (.thread x) = true := by
          by_cases hxc : x = c
          · rw [hxc, ref_self]
          · rw [ref_other fun heq => hxc (Holder.thread.inj heq), hx]
        cases u with
        | none => exact hu.imp id fun ⟨hl, hx⟩ => ⟨hl, hheld _ hx⟩
        | some x => exact hheld _ hu
      exact hkeeps (hi.callers b hb)
  | drop a hm hheld hcall =>
      have hba : b ≠ a := by
        rintro rfl
        exact hb hcall
      refine mayCall_congr ?_ (unref_other (fun heq => hba (Holder.thread.inj heq)) s) (hi.callers b hb)
      rfl

/-! The lock -/

/-- A thread that goes on without the lock. -/
theorem locks_call (hi : Inv es s) {call : Call} (hlock : t.lock = s.lock) (hloop : t.loop = s.loop)
    (hcalls : ∀ u, u ≠ a → t.calls u = s.calls u) (hcall : s.calls a = call)
    (howes : Call.owes (t.calls a) = Call.owes call) (b : Option T) : depth t.lock b = owes t b := by
  rw [hlock, hi.locks b, owes, owes, hloop]
  by_cases hba : b = a
  · rw [hba, howes, hcall]
  · rw [hcalls b hba]

theorem locks_loop (hi : Inv es s) {l : Loop} (hlock : t.lock = s.lock) (hcalls : t.calls = s.calls) (hloop : s.loop = l)
    (howes : Loop.owes t.loop = Loop.owes l) (b : Option T) : depth t.lock b = owes t b := by
  rw [hlock, hi.locks b, owes, owes, hcalls, howes, hloop]

theorem step_locks (hi : Inv es s) (hstep : Step () s new t) (b : Option T) : depth t.lock b = owes t b := by
  cases hstep with
  | lock hloop hlock =>
      have hdepth := depth_acquire hlock b
      rw [hdepth, hi.locks b, owes, owes, hloop]
      by_cases hb : b = none
      · rw [if_pos hb, if_pos hb, if_pos hb]
        change 0 + Call.owes (s.calls b) + 1 = 1 + Call.owes (s.calls b)
        omega
      · rw [if_neg hb, if_neg hb, if_neg hb]
        rfl
  | unlock hloop =>
      have hpos : 0 < depth s.lock none := by
        rw [hi.locks none, owes, if_pos rfl, hloop]
        exact Nat.lt_of_lt_of_le Nat.one_pos (Nat.le_add_right _ _)
      have hdepth := depth_release hpos b
      rw [hdepth, hi.locks b, owes, owes, hloop]
      by_cases hb : b = none
      · rw [if_pos hb, if_pos hb, if_pos hb]
        change 1 + Call.owes (s.calls b) - 1 = 0 + Call.owes (s.calls b)
        omega
      · rw [if_neg hb, if_neg hb, if_neg hb, Nat.sub_zero]
  | @cancelLock _ a starts m hcall hlock =>
      have hdepth := depth_acquire hlock b
      change depth m b = (if b = none then Loop.owes s.loop else 0) +
        Call.owes (Function.update s.calls a (.taking starts) b)
      rw [hdepth, hi.locks b, owes]
      by_cases hba : b = a
      · rw [if_pos hba, hba, Function.update_self, hcall]
        rfl
      · rw [if_neg hba, Function.update_of_ne hba, Nat.add_zero]
  | @cancelUnlock _ a starts watch hcall =>
      have hpos : 0 < depth s.lock a := by
        rw [hi.locks a, owes, hcall]
        exact Nat.lt_of_lt_of_le Nat.one_pos (Nat.le_add_left _ _)
      have hdepth := depth_release hpos b
      change depth (release s.lock) b = (if b = none then Loop.owes s.loop else 0) +
        Call.owes (Function.update s.calls a (.destroying starts watch) b)
      rw [hdepth, hi.locks b, owes]
      by_cases hba : b = a
      · rw [if_pos hba, hba, Function.update_self, hcall]
        rfl
      · rw [if_neg hba, Function.update_of_ne hba, Nat.sub_zero]
  | dispatch w hloop | cancelledBefore hloop | ref hloop | test hloop | stop hloop | acceptAgain hloop | call hloop
  | comeBack rc hloop | unref hloop | goOn hloop | remove hloop =>
      refine locks_loop hi ?_ ?_ hloop ?_ b
      · rfl
      · rfl
      · rfl
  | check hloop | next hloop =>
      refine locks_loop hi ?_ ?_ hloop ?_ b
      · rfl
      · rfl
      · simp only
        split
        · rfl
        · rfl
  | unrefSource | startAgain | share | drop => exact hi.locks b
  | start a hm hcall | cancel a hm hcall =>
      refine locks_call hi ?_ ?_ (fun u hu => setCall_other hu _ _) hcall ?_ b
      · rfl
      · rfl
      · rw [setCall_self]
        rfl
  | suspend a hm hcall | resume a hm hcall =>
      split
      · exact hi.locks b
      · refine locks_call hi ?_ ?_ (fun u hu => setCall_other hu _ _) hcall ?_ b
        · rfl
        · rfl
        · rw [setCall_self]
          rfl
  | cancelTest hcall =>
      refine locks_call hi ?_ ?_ (fun u hu => setCall_other hu _ _) hcall ?_ b
      · rfl
      · rfl
      · rw [setCall_self]
        split
        · rfl
        · rfl
  | openFails hcall | opened hcall | attach hcall | attachNothing hcall | suspendSource hcall | resumeSource hcall
  | cancelTake hcall | cancelDestroy hcall | cancelNothing hcall | cancelReturn hcall =>
      refine locks_call hi ?_ ?_ (fun u hu => setCall_other hu _ _) hcall ?_ b
      · rfl
      · rfl
      · rw [setCall_self]
        rfl

/-- z_listener_accept looks at the watch under the lock. -/
theorem step_watching (hi : Inv es s) (hstep : Step () s new t) (hwatches : Loop.watches t.loop = true) : t.watch ≠ none := by
  cases hstep with
  | ref hloop hwatch => exact hwatch
  | test hloop hwatch =>
      rw [hwatch]
      exact Option.some_ne_none _
  | next hloop =>
      simp only at hwatches ⊢
      split at hwatches
      · cases hwatches
      · rename_i hwatch
        exact hwatch
  | check hloop =>
      simp only at hwatches
      split at hwatches
      · cases hwatches
      · cases hwatches
  | opened => exact Option.some_ne_none _
  | @cancelTake _ a starts hcall =>
      have hloop : 0 < depth s.lock none := by
        rw [hi.locks none, owes, if_pos rfl]
        change Loop.watches s.loop = true at hwatches
        cases hl : s.loop with
        | testing | accepting => exact Nat.lt_of_lt_of_le Nat.one_pos (Nat.le_add_right _ _)
        | _ =>
            rw [hl] at hwatches
            cases hwatches
      have htaking : 0 < depth s.lock a := by
        rw [hi.locks a, owes, hcall]
        exact Nat.lt_of_lt_of_le Nat.one_pos (Nat.le_add_left _ _)
      have ha := exclusive htaking hloop
      subst ha
      change Loop.watches s.loop = true at hwatches
      rcases hi.callers none (by rw [hcall]; rintro ⟨⟩) with ⟨w, accepts, hin⟩ | ⟨hin, -⟩
      · rw [hin] at hwatches
        cases hwatches
      · rw [hin] at hwatches
        cases hwatches
  | dispatch | lock | cancelledBefore | stop | acceptAgain | call | comeBack | unref | unlock | goOn | remove =>
      cases hwatches
  | suspend | resume =>
      split at hwatches
      · rename_i hwatch
        rw [if_pos hwatch]
        exact hi.watching hwatches
      · rename_i hwatch
        rw [if_neg hwatch]
        exact hi.watching hwatches
  | _ => exact hi.watching hwatches

/-! Starts and cancellations -/

theorem step_watched (hi : Inv es s) (hstep : Step () s new t) (w : Nat) (hw : t.watch = some w) : w < t.sources := by
  have hsame := hi.watched w
  cases hstep with
  | opened =>
      cases hw
      exact Nat.lt_succ_self _
  | cancelTake => cases hw
  | suspend | resume =>
      split at hw
      · rename_i hwatch
        rw [if_pos hwatch]
        exact hsame hw
      · rename_i hwatch
        rw [if_neg hwatch]
        exact hsame hw
  | _ => exact hsame hw

theorem step_starts (hi : Inv es s) (hstep : Step () s new t) : (es ++ new).countP isStarted = t.sources := by
  have hstarts := hi.starts
  have hfreeing : (freeing s).countP isStarted = 0 := by
    rw [freeing]
    split
    · rfl
    · rfl
  rw [List.countP_append, hstarts]
  cases hstep with
  | unref | unrefSource | drop => rw [hfreeing]; rfl
  | suspend | resume =>
      split
      · rfl
      · rfl
  | _ => rfl

omit [DecidableEq T] in
theorem CallOk.mono {call : Call} (h : CallOk s call) (hsources : s.sources ≤ t.sources)
    (hwatch : t.sources = s.sources → s.watch = none → t.watch = none) : CallOk t call where
  begun n hn := Nat.le_trans (h.begun n hn) hsources
  passed n hn hlast := by
    have hle : n ≤ s.sources := by
      refine h.begun n ?_
      cases call with
      | unlocking | destroying | leaving => exact hn
      | _ => cases hn
    exact hwatch (by omega) (h.passed n hn (by omega))
  taken w hw := Nat.lt_of_lt_of_le (h.taken w hw) hsources

theorem step_mono (hstep : Step () s new t) :
    s.sources ≤ t.sources ∧ (t.sources = s.sources → s.watch = none → t.watch = none) := by
  cases hstep with
  | opened => exact ⟨Nat.le_succ _, fun hsame => absurd hsame (Nat.succ_ne_self _)⟩
  | cancelTake => exact ⟨Nat.le_refl _, fun _ _ => rfl⟩
  | suspend | resume =>
      split
      · exact ⟨Nat.le_refl _, fun _ hnone => hnone⟩
      · exact ⟨Nat.le_refl _, fun _ hnone => hnone⟩
  | _ => exact ⟨Nat.le_refl _, fun _ hnone => hnone⟩

/-- One thread has gone on with its call. -/
theorem calling_call {call : Call} (hi : Inv es s) (hstep : Step () s new t) (hcalls : ∀ u, u ≠ a → t.calls u = s.calls u)
    (hcall : t.calls a = call) (hnew : CallOk t call) (u : Option T) : CallOk t (t.calls u) := by
  by_cases hu : u = a
  · rw [hu, hcall]
    exact hnew
  · rw [hcalls u hu]
    exact (hi.calling u).mono (step_mono hstep).1 (step_mono hstep).2

omit [DecidableEq T] in
theorem callOk_other {call : Call} (hstarts : Call.starts call = none) (s : Listener T) : CallOk s call := by
  cases call with
  | cancelling | locking | taking | unlocking | destroying | leaving => cases hstarts
  | _ => exact ⟨nofun, nofun, nofun⟩

theorem step_calling (hi : Inv es s) (hstep : Step () s new t) (u : Option T) : CallOk t (t.calls u) := by
  have hold {a : Option T} {call : Call} (hcall : s.calls a = call) : CallOk s call := hcall ▸ hi.calling a
  have hmono := step_mono hstep
  have hstep' := hstep
  cases hstep with
  | start | openFails | opened | attach | attachNothing | suspendSource | resumeSource | cancelReturn =>
      exact calling_call hi hstep' (fun v hv => setCall_other hv _ _) (setCall_self _ _ _) (callOk_other rfl _) u
  | suspend | resume =>
      split
      · exact hi.calling u
      · rename_i hwatch
        rw [if_neg hwatch] at hstep'
        exact calling_call hi hstep' (fun v hv => setCall_other hv _ _) (setCall_self _ _ _) (callOk_other rfl _) u
  | cancel a hm hcall =>
      refine calling_call hi hstep' (fun v hv => setCall_other hv _ _) (setCall_self _ _ _) ⟨fun n hn => ?_, ?_, ?_⟩ u
      · cases hn
        exact Nat.le_refl _
      · rintro n ⟨⟩
      · rintro w ⟨⟩
  | cancelTest hcall =>
      have hbegun := (hold hcall).begun _ rfl
      refine calling_call hi hstep' (fun v hv => setCall_other hv _ _) (setCall_self _ _ _) ?_ u
      split
      · rename_i hwatch
        refine ⟨fun n hn => ?_, fun _ _ _ => hwatch, ?_⟩
        · cases hn
          exact hbegun
        · rintro w ⟨⟩
      · refine ⟨fun n hn => ?_, ?_, ?_⟩
        · cases hn
          exact hbegun
        · rintro n ⟨⟩
        · rintro w ⟨⟩
  | cancelLock hcall =>
      obtain ⟨hbegun, -, -⟩ := hold hcall
      exact calling_call hi hstep' (fun v hv => setCall_other hv _ _) (setCall_self _ _ _) ⟨hbegun, nofun, nofun⟩ u
  | cancelTake hcall =>
      obtain ⟨hbegun, -, -⟩ := hold hcall
      exact calling_call hi hstep' (fun v hv => setCall_other hv _ _) (setCall_self _ _ _)
        ⟨hbegun, fun _ _ _ => rfl, fun w hw => hi.watched w hw⟩ u
  | cancelUnlock hcall =>
      obtain ⟨hbegun, hpassed, htaken⟩ := hold hcall
      exact calling_call hi hstep' (fun v hv => setCall_other hv _ _) (setCall_self _ _ _) ⟨hbegun, hpassed, htaken⟩ u
  | cancelDestroy hcall | cancelNothing hcall =>
      obtain ⟨hbegun, hpassed, -⟩ := hold hcall
      exact calling_call hi hstep' (fun v hv => setCall_other hv _ _) (setCall_self _ _ _) ⟨hbegun, hpassed, nofun⟩ u
  | _ => exact (hi.calling u).mono hmono.1 hmono.2

theorem step_cancelled (hi : Inv es s) (hstep : Step () s new t) (a : Option T) (n : Nat)
    (hmem : .cancelled a n ∈ es ++ new) : n ≤ t.sources ∧ (n = t.sources → t.watch = none) := by
  obtain ⟨hsources, hwatch⟩ := step_mono hstep
  rcases List.mem_append.mp hmem with hold | hnew
  · obtain ⟨hle, hnone⟩ := hi.cancelled a n hold
    exact ⟨Nat.le_trans hle hsources, fun hlast => hwatch (by omega) (hnone (by omega))⟩
  · have hfreeing : .cancelled a n ∉ freeing s := by
      rw [freeing]
      split
      · intro hfreed
        cases List.mem_singleton.mp hfreed
      · exact List.not_mem_nil
    cases hstep with
    | cancelReturn hcall =>
        cases List.mem_singleton.mp hnew
        have hcalling := hi.calling a
        rw [hcall] at hcalling
        exact ⟨hcalling.begun n rfl, hcalling.passed n rfl⟩
    | unref | unrefSource | drop => exact absurd hnew hfreeing
    | dispatch | call | opened | suspendSource | resumeSource => cases List.mem_singleton.mp hnew
    | _ => exact (List.not_mem_nil hnew).elim

theorem inv_step (hi : Inv es s) (hstep : Step () s new t) : Inv (es ++ new) t where
  counts := step_counts hi hstep
  fresh := step_fresh hi hstep
  kept := step_kept hi hstep
  inUse := step_inUse hi hstep
  accept := step_accept hi hstep
  callers := step_callers hi hstep
  locks := step_locks hi hstep
  watching := step_watching hi hstep
  watched := step_watched hi hstep
  starts := step_starts hi hstep
  calling := step_calling hi hstep
  cancelled := step_cancelled hi hstep
  freed := step_freed hi hstep

theorem inv_made (user : Option T) (acceptOne : Bool) : Inv [] (made user acceptOne) := by
  have hheld : { h | (made user acceptOne).held h = true } = insert (Holder.thread user) ∅ := by
    ext h
    change decide (h = .thread user) = true ↔ h = .thread user ∨ h ∈ (∅ : Set (Holder T))
    rw [decide_eq_true_eq, Set.mem_empty_iff_false, or_false]
  have hcounts : Counts { h | (made user acceptOne).held h = true } 1 := by
    rw [hheld]
    exact Counts.empty.join (Set.notMem_empty _)
  have hother {h : Holder T} (hne : h ≠ .thread user) : (made user acceptOne).held h = false := by
    change decide (h = .thread user) = false
    exact decide_eq_false hne
  refine ⟨hcounts, fun w _ => ⟨rfl, hother nofun⟩, fun w hw => absurd hw (Nat.not_lt_zero w), nofun, hother nofun,
    fun _ hcall => absurd rfl hcall, fun a => ?_, nofun, nofun, rfl, fun _ => callOk_other rfl _, nofun, rfl⟩
  rw [owes]
  change 0 = (if a = none then 0 else 0) + 0
  split
  · rfl
  · rfl

theorem inv_run {user : Option T} {acceptOne : Bool} (h : Run user acceptOne es s) : Inv es s :=
  Trace.Steps.invariant h Inv (inv_made user acceptOne) fun _ _ _ _ _ hi _ hstep => inv_step hi hstep

end Libzorpll.ListenerHeld
