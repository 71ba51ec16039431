import Libzorpll.BlobSystem
import Libzorpll.Trace

namespace Libzorpll.BlobRun

open Blob (Halt Transfer)
open BlobSystem

variable {ι : Type} [DecidableEq ι]

/-- Where the owner of a blob is; in the middle of z_blob_alloc with the size
it has determined. -/
inductive Phase
  | absent
  | starting
  | idle
  | holding
  | denied (size : Nat)
  | waiting (size : Nat)
  | granted (size : Nat)
  | filed

/-- The management thread has mtx_blobsys while it scans the waiting list, of
which `cur` is left, and in z_blob_system_swap_in. -/
inductive Manager (ι : Type)
  | idle
  | scanning (cur : List ι)
  | searching
  | fetching (b : ι)

structure State (ι : Type) where
  system : ZBlobSystem ι
  phase : ι → Phase
  manager : Manager ι

inductive OwnAction
  | enter
  | lock
  | unlock
  | wake
  | finish
  | write
  | edit
  | release
  | forget
  | storageLock

/-- The steps of an owner without mtx_blobsys: they are on its own blob. -/
inductive OwnStep : OwnAction → Phase → SystemBlob → Phase → SystemBlob → Prop
  | enter {blob} : OwnStep .enter .starting blob .idle blob
  | lock {blob} (hlock : blob.locked = false) :
      OwnStep .lock .idle blob .holding { blob with locked := true }
  | unlock {blob} : OwnStep .unlock .holding blob .idle { blob with locked := false }
  | wake {blob} (size) (hreplied : blob.replied = true) (happroved : blob.approved = true) :
      OwnStep .wake (.waiting size) blob (.granted size) blob
  | finish {blob} (now) (size) :
      OwnStep .finish (.granted size) blob (if blob.locked then .holding else .idle)
        (finishAlloc now size blob)
  | write {blob} (now io pos data written) (moved : Blob.Blob)
      (hinside : pos + data.length ≤ blob.allocSize)
      (hwrite : Blob.addCopy now none io pos data blob.toBlob = .ok (written, moved)) :
      OwnStep .write .holding blob .holding { blob with toBlob := moved }
  | edit {blob} (file : List UInt8) (hfile : file.length < 2 ^ 63) :
      OwnStep .edit .filed blob .filed { blob with file := file }
  | release {blob} : OwnStep .release .filed blob .idle { releaseFile blob with locked := false }
  | forget {blob} : OwnStep .forget .filed blob .idle { blob with locked := false }
  | storageLock {p blob} (st : Bool) (hp : p = .idle ∨ p = .holding ∨ p = .filed) :
      OwnStep .storageLock p blob p { blob with storageLocked := st }

def ownEvents (b : ι) : OwnAction → List (Event ι)
  | .finish => [.completed b]
  | _ => []

inductive Action (ι : Type)
  | own (a : OwnAction) (b : ι)
  | create (b : ι)
  | ask (env : Env) (size : Nat) (b : ι)
  | post (b : ι)
  | getFile (env : Env) (b : ι)
  | unref (env : Env) (b : ι)
  | process (env : Env) (b : ι)
  | rescan
  | scan (env : Env) (b : ι)
  | scanned
  | search
  | fetch (env : Env) (b : ι)

/-- A blob is fetched whose lock is free and that still fits. -/
def fetchStep (env : Env) (b : ι) (self : ZBlobSystem ι) : Except Halt (List (Event ι) × ZBlobSystem ι) :=
  if (self.blob b).locked then .ok ([], self) else fetchBest env b self

/-- The owners and the management thread. z_blob_new does not lock its blob,
and z_blob_get_file may fail behind its move. -/
inductive Step : Action ι → State ι → List (Event ι) → State ι → Prop
  | own {s} (a b p blob) (h : OwnStep a (s.phase b) (s.system.blob b) p blob) :
      Step (.own a b) s (ownEvents b a)
        ⟨setBlob b blob s.system, Function.update s.phase b p, s.manager⟩
  | create {s} (b) (now) (hphase : s.phase b = .absent) (hfree : s.manager = .idle) :
      Step (.create b) s [] ⟨register now b s.system, Function.update s.phase b .starting, s.manager⟩
  | ask {s} (env b) (reqSize size : Nat) (success events system)
      (hphase : s.phase b = .starting ∨ s.phase b = .holding) (hfree : s.manager = .idle)
      (hreq : reqSize < 2 ^ 63) (hsize : Blob.reqAllocSize reqSize (s.system.blob b).toBlob = .ok size)
      (hne : size ≠ (s.system.blob b).allocSize)
      (hask : askAlloc env size b s.system = .ok (success, events, system)) :
      Step (.ask env size b) s events
        ⟨system, Function.update s.phase b (if success then .granted size else .denied size), s.manager⟩
  | post {s} (b size) (hphase : s.phase b = .denied size) :
      Step (.post b) s (postRequest b s.system).1
        ⟨(postRequest b s.system).2, Function.update s.phase b (.waiting size), s.manager⟩
  | getFile {s} (env b) (success resolved : Bool) (events system) (hphase : s.phase b = .idle)
      (hlock : (s.system.blob b).locked = false)
      (hfree : s.manager = .idle ∨ (s.system.blob b).isInFile ∨ (s.system.blob b).storageLocked)
      (hget : getFile env b s.system = .ok (success, events, system)) :
      Step (.getFile env b) s events
        ⟨setBlob b { system.blob b with locked := success && resolved } system,
          Function.update s.phase b (if success && resolved then .filed else .idle), s.manager⟩
  | unref {s} (env b events system) (hphase : s.phase b = .idle ∨ s.phase b = .filed)
      (hfree : s.manager = .idle) (hunref : unref env b s.system = .ok (events, system)) :
      Step (.unref env b) s events ⟨system, Function.update s.phase b .absent, s.manager⟩
  | process {s} (env b rest events system) (hfree : s.manager = .idle)
      (hqueue : s.system.reqQueue = .request b :: rest)
      (hprocess : processRequest env b { s.system with reqQueue := rest } = .ok (events, system)) :
      Step (.process env b) s events ⟨system, s.phase, .idle⟩
  | rescan {s} (rest) (hfree : s.manager = .idle) (hqueue : s.system.reqQueue = .memFreed :: rest) :
      Step .rescan s [] ⟨{ s.system with reqQueue := rest }, s.phase, .scanning s.system.waitingList⟩
  | scan {s} (env b cur events system) (hscan : s.manager = .scanning (b :: cur))
      (hcheck : scanRequest env b s.system = .ok (events, system)) :
      Step (.scan env b) s events ⟨system, s.phase, .scanning cur⟩
  | scanned {s} (hscan : s.manager = .scanning []) :
      Step .scanned s [] { s with manager := if swapInStarts s.system then .searching else .idle }
  | search {s} (now) (tried : ι → Bool) (hsearch : s.manager = .searching)
      (htried : ∀ b, tried b = true → (s.system.blob b).locked = false) :
      Step .search s [] { s with manager := (bestBlob now tried s.system).elim .idle .fetching }
  | fetch {s} (env b events system) (hfetch : s.manager = .fetching b)
      (hin : fetchStep env b s.system = .ok (events, system)) :
      Step (.fetch env b) s events ⟨system, s.phase, .searching⟩

def start (dmax mmax low hiw : Nat) : State ι :=
  ⟨systemNew dmax mmax low hiw, fun _ => .absent, .idle⟩

/-- All runs, from a state. -/
def Run (s : State ι) (es : List (Event ι)) (t : State ι) : Prop := Trace.Steps Step (fun _ _ => True) s es t

theorem Run.nil (s : State ι) : Run s [] s := Trace.Steps.nil s

theorem Run.snoc {s t u : State ι} {es new : List (Event ι)} {a : Action ι} (h : Run s es t)
    (hstep : Step a t new u) : Run s (es ++ new) u :=
  Trace.Steps.snoc h hstep trivial

end Libzorpll.BlobRun
