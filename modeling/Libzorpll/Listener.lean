import Mathlib.Logic.Function.Basic
import Libzorpll.RecMutex
import Libzorpll.Trace

/-! A ZListener and its sources in the main loop, and the threads that start,
suspend, resume and cancel it. -/

namespace Libzorpll.Listener

open RecMutex

def maxAcceptsAtATime : Nat := 50

/-- A ZSocketSource in the main loop, with the reference that its callback data
is. -/
structure Source where
  attached : Bool := false
  destroyed : Bool := false
  suspended : Bool := false
  deriving DecidableEq

/-- Where the main loop is: in z_socket_source_dispatch of a source, or in
z_listener_accept, with its rc and accepts. -/
inductive Loop
  | idle
  | dispatched (w : Nat)
  | entered (w : Nat)
  | locked (w : Nat)
  | testing (w : Nat) (rc : Bool) (accepts : Nat)
  | accepting (w : Nat) (accepts : Nat)
  | inCallback (w : Nat) (accepts : Nat)
  | tested (w : Nat) (rc : Bool) (accepts : Nat)
  | leaving (w : Nat) (rc : Bool)
  | unlocking (w : Nat) (rc : Bool)
  | returned (w : Nat) (rc : Bool)
  deriving DecidableEq

/-- Where a call of a thread is, with the number of sources that there were
when a z_listener_cancel was called. -/
inductive Call
  | idle
  | opening
  | attaching
  | suspending
  | resuming
  | cancelling (starts : Nat)
  | locking (starts : Nat)
  | taking (starts : Nat)
  | unlocking (starts : Nat) (watch : Option Nat)
  | destroying (starts : Nat) (watch : Option Nat)
  | leaving (starts : Nat)
  deriving DecidableEq

/-- A reference belongs to a thread, to a source or to z_listener_accept. -/
inductive Holder (T : Type)
  | thread (a : Option T)
  | source (w : Nat)
  | accept
  deriving DecidableEq

/-- The return of a z_listener_cancel has the number of starts before its
call. -/
inductive Event (T : Type)
  | started
  | dispatched
  | called
  | suspended (a : Option T)
  | resumed
  | cancelled (a : Option T) (starts : Nat)
  | freed
  deriving DecidableEq

/-- The thread of the main loop is none, every other thread has a name. -/
structure Listener (T : Type) where
  acceptOne : Bool
  isOpen : Bool := false
  watch : Option Nat := none
  sources : Nat := 0
  source : Nat → Source := fun _ => {}
  lock : Mutex (Option T) := none
  refcnt : Int
  held : Holder T → Bool
  loop : Loop := .idle
  calls : Option T → Call := fun _ => .idle

/-- The source whose callback data the dispatch uses. -/
def Loop.source : Loop → Option Nat
  | .idle => none
  | .dispatched w | .entered w | .locked w | .testing w _ _ | .accepting w _ | .inCallback w _ | .tested w _ _
  | .leaving w _ | .unlocking w _ | .returned w _ => some w

variable {T : Type}

/-- Who has a reference can call, and the callback; the main loop does nothing
else in a dispatch. -/
def MayCall (s : Listener T) : Option T → Prop
  | none => (∃ w accepts, s.loop = .inCallback w accepts) ∨ (s.loop = .idle ∧ s.held (.thread none) = true)
  | some t => s.held (.thread (some t)) = true

variable [DecidableEq T]

def setCall (a : Option T) (call : Call) (s : Listener T) : Listener T :=
  { s with calls := Function.update s.calls a call }

def setSource (w : Nat) (source : Source) (s : Listener T) : Listener T :=
  { s with source := Function.update s.source w source }

def ref (h : Holder T) (s : Listener T) : Listener T :=
  { s with refcnt := s.refcnt + 1, held := Function.update s.held h true }

def unref (h : Holder T) (s : Listener T) : Listener T :=
  { s with refcnt := s.refcnt - 1, held := Function.update s.held h false }

/-- z_listener_free, where that was the last reference. -/
def freeing (s : Listener T) : List (Event T) := if s.refcnt - 1 = 0 then [.freed] else []

inductive Step : Unit → Listener T → List (Event T) → Listener T → Prop
  | dispatch {s : Listener T} (w : Nat) (hloop : s.loop = .idle) (hcall : s.calls none = .idle)
      (hattached : (s.source w).attached = true) (hlive : (s.source w).destroyed = false) :
      Step () s [.dispatched] { s with loop := .dispatched w }
  | check {s : Listener T} {w} (hloop : s.loop = .dispatched w) :
      Step () s [] { s with loop := if (s.source w).suspended then .returned w true else .entered w }
  | lock {s : Listener T} {w m} (hloop : s.loop = .entered w) (hlock : acquire none s.lock = some m) :
      Step () s [] { s with lock := m, loop := .locked w }
  | cancelledBefore {s : Listener T} {w} (hloop : s.loop = .locked w) (hwatch : s.watch = none) :
      Step () s [] { s with loop := .unlocking w true }
  | ref {s : Listener T} {w} (hloop : s.loop = .locked w) (hwatch : s.watch ≠ none) :
      Step () s [] { ref .accept s with loop := .testing w true 0 }
  | test {s : Listener T} {w accepts watch} (hloop : s.loop = .testing w true accepts) (hwatch : s.watch = some watch)
      (hsuspended : (s.source watch).suspended = false) (haccepts : accepts < maxAcceptsAtATime) :
      Step () s [] { s with loop := .accepting w accepts }
  | stop {s : Listener T} {w rc accepts} (hloop : s.loop = .testing w rc accepts) :
      Step () s [] { s with loop := .leaving w rc }
  | acceptAgain {s : Listener T} {w accepts} (hloop : s.loop = .accepting w accepts) :
      Step () s [] { s with loop := .leaving w true }
  | call {s : Listener T} {w accepts} (hloop : s.loop = .accepting w accepts) :
      Step () s [.called] { s with loop := .inCallback w accepts }
  | comeBack {s : Listener T} {w accepts} (rc : Bool) (hloop : s.loop = .inCallback w accepts)
      (hcall : s.calls none = .idle) :
      Step () s [] { s with loop := .tested w (if s.acceptOne then false else rc) (accepts + 1) }
  | next {s : Listener T} {w rc accepts} (hloop : s.loop = .tested w rc accepts) :
      Step () s [] { s with loop := if s.watch = none then .leaving w rc else .testing w rc accepts }
  | unref {s : Listener T} {w rc} (hloop : s.loop = .leaving w rc) :
      Step () s (freeing s) { unref .accept s with loop := .unlocking w rc }
  | unlock {s : Listener T} {w rc} (hloop : s.loop = .unlocking w rc) :
      Step () s [] { s with lock := release s.lock, loop := .returned w rc }
  | goOn {s : Listener T} {w} (hloop : s.loop = .returned w true) : Step () s [] { s with loop := .idle }
  | remove {s : Listener T} {w} (hloop : s.loop = .returned w false) :
      Step () s [] { setSource w { s.source w with destroyed := true } s with loop := .idle }
  | unrefSource {s : Listener T} (w : Nat) (hdestroyed : (s.source w).destroyed = true)
      (hheld : s.held (.source w) = true) (huse : s.loop.source ≠ some w) :
      Step () s (freeing s) (unref (.source w) s)
  | startAgain {s : Listener T} (a : Option T) (hmay : MayCall s a) (hcall : s.calls a = .idle)
      (hwatch : s.watch ≠ none) : Step () s [] s
  | start {s : Listener T} (a : Option T) (hmay : MayCall s a) (hcall : s.calls a = .idle) (hwatch : s.watch = none) :
      Step () s [] (setCall a .opening s)
  | openFails {s : Listener T} {a} (hcall : s.calls a = .opening) (hopen : s.isOpen = false) :
      Step () s [] (setCall a .idle s)
  | opened {s : Listener T} {a} (hcall : s.calls a = .opening) :
      Step () s [.started] (setCall a .attaching (ref (.source s.sources)
        { s with isOpen := true, watch := some s.sources, sources := s.sources + 1 }))
  | attach {s : Listener T} {a watch} (hcall : s.calls a = .attaching) (hwatch : s.watch = some watch)
      (hlive : (s.source watch).destroyed = false) :
      Step () s [] (setCall a .idle (setSource watch { s.source watch with attached := true } s))
  | attachNothing {s : Listener T} {a} (hcall : s.calls a = .attaching)
      (hgone : ∀ watch, s.watch = some watch → (s.source watch).destroyed = true) :
      Step () s [] (setCall a .idle s)
  | suspend {s : Listener T} (a : Option T) (hmay : MayCall s a) (hcall : s.calls a = .idle) :
      Step () s [] (if s.watch = none then s else setCall a .suspending s)
  | suspendSource {s : Listener T} {a watch} (hcall : s.calls a = .suspending) (hwatch : s.watch = some watch) :
      Step () s [.suspended a] (setCall a .idle (setSource watch { s.source watch with suspended := true } s))
  | resume {s : Listener T} (a : Option T) (hmay : MayCall s a) (hcall : s.calls a = .idle) :
      Step () s [] (if s.watch = none then s else setCall a .resuming s)
  | resumeSource {s : Listener T} {a watch} (hcall : s.calls a = .resuming) (hwatch : s.watch = some watch) :
      Step () s [.resumed] (setCall a .idle (setSource watch { s.source watch with suspended := false } s))
  | cancel {s : Listener T} (a : Option T) (hmay : MayCall s a) (hcall : s.calls a = .idle) :
      Step () s [] (setCall a (.cancelling s.sources) s)
  | cancelTest {s : Listener T} {a starts} (hcall : s.calls a = .cancelling starts) :
      Step () s [] (setCall a (if s.watch = none then .leaving starts else .locking starts) s)
  | cancelLock {s : Listener T} {a starts m} (hcall : s.calls a = .locking starts) (hlock : acquire a s.lock = some m) :
      Step () s [] (setCall a (.taking starts) { s with lock := m })
  | cancelTake {s : Listener T} {a starts} (hcall : s.calls a = .taking starts) :
      Step () s [] (setCall a (.unlocking starts s.watch) { s with watch := none })
  | cancelUnlock {s : Listener T} {a starts watch} (hcall : s.calls a = .unlocking starts watch) :
      Step () s [] (setCall a (.destroying starts watch) { s with lock := release s.lock })
  | cancelDestroy {s : Listener T} {a starts w} (hcall : s.calls a = .destroying starts (some w)) :
      Step () s [] (setCall a (.leaving starts) (setSource w { s.source w with destroyed := true } s))
  | cancelNothing {s : Listener T} {a starts} (hcall : s.calls a = .destroying starts none) :
      Step () s [] (setCall a (.leaving starts) s)
  | cancelReturn {s : Listener T} {a starts} (hcall : s.calls a = .leaving starts) :
      Step () s [.cancelled a starts] (setCall a .idle s)
  | share {s : Listener T} (a b : Option T) (hmay : MayCall s a) (hnew : s.held (.thread b) = false) :
      Step () s [] (ref (.thread b) s)
  | drop {s : Listener T} (a : Option T) (hmay : MayCall s a) (hheld : s.held (.thread a) = true)
      (hcall : s.calls a = .idle) :
      Step () s (freeing s) (unref (.thread a) s)

/-- A listener that a thread has made. -/
def made (user : Option T) (acceptOne : Bool) : Listener T where
  acceptOne := acceptOne
  refcnt := 1
  held := fun h => h = .thread user

def Run (user : Option T) (acceptOne : Bool) (es : List (Event T)) (s : Listener T) : Prop :=
  Trace.Steps Step (fun _ _ => True) (made user acceptOne) es s

end Libzorpll.Listener
