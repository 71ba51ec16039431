import Libzorpll.RecMutex
import Libzorpll.Trace

/-! A ZConnector that has been started: its source in the main loop, the calls
of z_connector_cancel, and the references. -/

namespace Libzorpll.Connector

open RecMutex

/-- Where z_connector_connected is, with its error_num and fd. After its FALSE
the main loop destroys the source. -/
inductive Loop (D : Type)
  | idle
  | entered (timedOut : Bool)
  | reading (timedOut : Bool)
  | deciding (timedOut : Bool) (fd : Option D)
  | waiting (errorNum : Int) (fd : Option D)
  | locked (errorNum : Int) (fd : Option D)
  | starting (errorNum : Int) (fd : Option D)
  | calling
  | closing (fd : Option D)
  | unlocking
  | returned
  | ended

/-- Where a z_connector_cancel is, with its watch. -/
inductive Call
  | idle
  | entered
  | locked
  | unlocking (watch : Bool)
  | destroying
  | leaving
  deriving DecidableEq

/-- The callback data of the source, and who has to go on with it:
g_source_destroy has marked the source, a dispatch still uses the data, or
z_connector_source_destroy_cb is running. -/
inductive Life (A : Type)
  | attached
  | destroyed (a : A)
  | dropped
  | notifying (a : A)
  | unreffing (a : A)
  | released
  deriving DecidableEq

/-- Where z_connector_free is, and who runs it. -/
inductive Phase (A : Type)
  | alive
  | freeing (a : A)
  | closing (a : A)
  | unwatching (a : A)
  | freed
  deriving DecidableEq

inductive Event (T D : Type)
  | called (fd : Option D) (errorNum : Int)
  | crashed
  | closed (d : D)
  | cancelled (a : Option T)
  | userDataDestroyed
  deriving DecidableEq

/-- The thread of the main loop is none, every other thread has a name. A
reference belongs to a thread, or to the source. The descriptor -1 is none,
and user data is there if it has a destroy function. -/
structure Connector (T D : Type) where
  fd : Option D
  watch : Bool := true
  callback : Bool
  userData : Bool
  lock : Mutex (Option T) := none
  refcnt : Int
  held : Option T → Bool
  loop : Loop D := .idle
  calls : Option T → Call := fun _ => .idle
  life : Life (Option T) := .attached
  phase : Phase (Option T) := .alive

def etimedout : Int := 110

/-- The error number of getsockopt, if it does not fail. -/
def errorNum (timedOut : Bool) (soError : Option Int) : Int :=
  if timedOut then etimedout else soError.getD 0

/-- The dispatch keeps the callback data until the function has returned. -/
def inUse {D : Type} : Loop D → Bool
  | .idle | .ended => false
  | _ => true

def destroySource {A : Type} (a : A) : Life A → Life A
  | .attached => .destroyed a
  | l => l

variable {T D : Type}

/-- The thread has not come back from g_source_destroy, or from an unref. -/
def Busy (a : Option T) (s : Connector T D) : Prop :=
  s.life = .destroyed a ∨ s.life = .notifying a ∨ s.life = .unreffing a ∨
    s.phase = .freeing a ∨ s.phase = .closing a ∨ s.phase = .unwatching a

/-- The callback can cancel, and everyone who has a reference. -/
def MayCancel (s : Connector T D) : Option T → Prop
  | none => s.loop = .calling
  | some t => s.held (some t) = true

variable [DecidableEq T]

def unref (a : Option T) (h : Option T) (s : Connector T D) : Connector T D :=
  { s with
    refcnt := s.refcnt - 1
    held := Function.update s.held h false
    phase := if s.refcnt - 1 = 0 then .freeing a else s.phase }

inductive Step : Connector T D → List (Event T D) → Connector T D → Prop
  | dispatch {s : Connector T D} (timedOut : Bool) (hloop : s.loop = .idle) (hlife : s.life = .attached) :
      Step s [] { s with loop := .entered timedOut }
  | check {s : Connector T D} {timedOut : Bool} (hloop : s.loop = .entered timedOut) :
      Step s [] { s with loop := if s.callback then .reading timedOut else .returned }
  | read {s : Connector T D} {timedOut : Bool} (hloop : s.loop = .reading timedOut) :
      Step s [] { s with loop := .deciding timedOut s.fd }
  | fail {s : Connector T D} {timedOut : Bool} {fd : Option D} (soError : Option Int)
      (hloop : s.loop = .deciding timedOut fd) (herror : errorNum timedOut soError ≠ 0) :
      Step s [] { s with loop := .waiting (errorNum timedOut soError) none }
  | take {s : Connector T D} {timedOut : Bool} {fd : Option D} (soError : Option Int)
      (hloop : s.loop = .deciding timedOut fd) (herror : errorNum timedOut soError = 0) :
      Step s [] { s with fd := none, loop := .waiting 0 fd }
  | lock {s : Connector T D} {n : Int} {fd : Option D} {m : Mutex (Option T)}
      (hloop : s.loop = .waiting n fd) (hlock : acquire none s.lock = some m) :
      Step s [] { s with lock := m, loop := .locked n fd }
  | test {s : Connector T D} {n : Int} {fd : Option D} (hloop : s.loop = .locked n fd) :
      Step s [] { s with loop := if s.watch then .starting n fd else .closing fd }
  | call {s : Connector T D} {n : Int} {fd : Option D} (hloop : s.loop = .starting n fd) :
      Step s [if s.callback then .called fd n else .crashed] { s with callback := false, loop := .calling }
  | comeBack {s : Connector T D} (hloop : s.loop = .calling) (hidle : s.calls none = .idle) :
      Step s [] { s with loop := .unlocking }
  | close {s : Connector T D} {fd : Option D} (hloop : s.loop = .closing fd) :
      Step s (fd.toList.map .closed) { s with loop := .unlocking }
  | unlock {s : Connector T D} (hloop : s.loop = .unlocking) :
      Step s [] { s with lock := release s.lock, loop := .returned }
  | endUse {s : Connector T D} (hloop : s.loop = .returned) :
      Step s [] { s with life := if s.life = .dropped then .notifying none else s.life, loop := .ended }
  | remove {s : Connector T D} (hloop : s.loop = .ended) (hlife : s.life = .attached) :
      Step s [] { s with life := destroySource none s.life }
  | next {s : Connector T D} (hloop : s.loop = .ended) (hlife : s.life ≠ .attached) (hbusy : ¬Busy none s) :
      Step s [] { s with loop := .idle }
  | cancel {s : Connector T D} (a : Option T) (hmay : MayCancel s a) (hcall : s.calls a = .idle) :
      Step s [] { s with calls := Function.update s.calls a .entered }
  | cancelLock {s : Connector T D} {a : Option T} {m : Mutex (Option T)} (hcall : s.calls a = .entered)
      (hlock : acquire a s.lock = some m) :
      Step s [] { s with lock := m, calls := Function.update s.calls a .locked }
  | cancelTake {s : Connector T D} {a : Option T} (hcall : s.calls a = .locked) :
      Step s [] { s with watch := false, calls := Function.update s.calls a (.unlocking s.watch) }
  | cancelUnlock {s : Connector T D} {a : Option T} {watch : Bool} (hcall : s.calls a = .unlocking watch) :
      Step s []
        { s with
          lock := release s.lock
          calls := Function.update s.calls a (if watch then .destroying else .leaving) }
  | cancelDestroy {s : Connector T D} {a : Option T} (hcall : s.calls a = .destroying) :
      Step s [] { s with life := destroySource a s.life, calls := Function.update s.calls a .leaving }
  | cancelReturn {s : Connector T D} {a : Option T} (hcall : s.calls a = .leaving) (hbusy : ¬Busy a s) :
      Step s [.cancelled a] { s with calls := Function.update s.calls a .idle }
  | drop {s : Connector T D} {a : Option T} (hlife : s.life = .destroyed a) :
      Step s [] { s with life := if inUse s.loop then .dropped else .notifying a }
  | notify {s : Connector T D} {a : Option T} (hlife : s.life = .notifying a) :
      Step s (if s.userData then [.userDataDestroyed] else []) { s with userData := false, life := .unreffing a }
  | unrefSource {s : Connector T D} {a : Option T} (hlife : s.life = .unreffing a) :
      Step s [] { unref a none s with life := .released }
  | ref {s : Connector T D} (a : Option T) (t : T) (hby : MayCancel s a) (hnew : s.held (some t) = false) :
      Step s [] { s with refcnt := s.refcnt + 1, held := Function.update s.held (some t) true }
  | unref {s : Connector T D} (t : T) (hheld : s.held (some t) = true) (hcall : s.calls (some t) = .idle) :
      Step s [] (unref (some t) (some t) s)
  | freeData {s : Connector T D} {a : Option T} (hphase : s.phase = .freeing a) :
      Step s (if s.userData then [.userDataDestroyed] else [])
        { s with callback := false, userData := false, phase := .closing a }
  | freeFd {s : Connector T D} {a : Option T} (hphase : s.phase = .closing a) :
      Step s (s.fd.toList.map .closed) { s with phase := .unwatching a }
  | freeWatch {s : Connector T D} {a : Option T} (hphase : s.phase = .unwatching a) :
      Step s []
        { s with
          watch := false
          life := if s.watch then destroySource a s.life else s.life
          phase := .freed }

/-- A connector that a thread has made and started. -/
def started (user : T) (sock : D) (hasCallback hasUserData : Bool) : Connector T D where
  fd := some sock
  callback := hasCallback
  userData := hasUserData
  refcnt := 2
  held := fun h => h = none ∨ h = some user

abbrev Run (user : T) (sock : D) (hasCallback hasUserData : Bool) :
    List (Event T D) → Connector T D → Prop :=
  Trace.Steps (fun _ : Unit => Step) (fun _ _ => True) (started user sock hasCallback hasUserData)

end Libzorpll.Connector
