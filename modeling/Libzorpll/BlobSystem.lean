import Mathlib.Logic.Function.Basic
import Mathlib.Tactic.Simps.Basic
import Libzorpll.Blob

namespace Libzorpll.BlobSystem

open Blob (Halt Transfer)

variable {ι : Type} [DecidableEq ι]

/-- A number as a guint64. -/
def toUInt64 (x : Int) : Nat := (x % 2 ^ 64).toNat

/-- A guint64 as a gint64. -/
def toInt64 (x : Nat) : Int := if x < 2 ^ 63 then x else x - 2 ^ 64

/-- A blob with what it shares with the management thread, and whether its
mtx_lock is held. -/
structure SystemBlob extends Blob.Blob where
  allocReq : Int := 0
  approved : Bool := false
  replied : Bool := false
  locked : Bool := false

/-- What the management thread pops: a blob, or Z_BLOB_MEM_FREED. -/
inductive Message (ι : Type)
  | request (b : ι)
  | memFreed
  deriving DecidableEq

/-- The disk numbers are gint64 and the memory numbers gsize. What is on disk
never comes near to the bounds of a gint64. -/
structure ZBlobSystem (ι : Type) where
  diskMax : Nat
  diskUsed : Int := 0
  memMax : Nat
  memUsed : Nat := 0
  lowat : Nat
  hiwat : Nat
  blobs : List ι := []
  blob : ι → SystemBlob := fun _ => {}
  reqQueue : List (Message ι) := []
  waitingList : List ι := []

/-- What happens to requests and to the two counters. -/
inductive Event (ι : Type)
  | asked (b : ι) (allocReq : Int)
  | charged (b : ι) (allocReq : Int) (onDisk : Bool)
  | moved (b : ι) (allocSize : Nat) (toDisk : Bool)
  | posted (b : ι)
  | signalled (b : ι) (approved : Bool)
  | completed (b : ι)
  deriving DecidableEq

@[simps] def setBlob (b : ι) (blob : SystemBlob) (self : ZBlobSystem ι) : ZBlobSystem ι :=
  { self with blob := Function.update self.blob b blob }

/-- A call of z_blob_swap_out or z_blob_system_swap_in has the answers of time
and of its reads and writes. -/
structure Env where
  now : Int := 0
  io : List Transfer := []

def systemNew (dmax mmax low hiw : Nat) : ZBlobSystem ι where
  diskMax := dmax
  memMax := mmax
  lowat := if mmax ≤ low then toUInt64 (mmax - 1) else low
  hiwat := if mmax ≤ hiw then toUInt64 (mmax - 1) else hiw

@[simps] def addMem (x : Int) (self : ZBlobSystem ι) : ZBlobSystem ι :=
  { self with memUsed := toUInt64 (self.memUsed + x) }

@[simps] def addDisk (x : Int) (self : ZBlobSystem ι) : ZBlobSystem ι :=
  { self with diskUsed := self.diskUsed + x }

@[simps] def push (message : Message ι) (self : ZBlobSystem ι) : ZBlobSystem ι :=
  { self with reqQueue := self.reqQueue ++ [message] }

def swapOut (env : Env) (b : ι) (self : ZBlobSystem ι) :
    Except Halt (List (Event ι) × ZBlobSystem ι) :=
  let blob := self.blob b
  if ¬blob.storageLocked ∧ ¬blob.isInFile then
    (Blob.swapOut env.now env.io blob.toBlob).map fun out =>
      ([.moved b blob.allocSize true],
        addDisk blob.allocSize (addMem (-blob.allocSize) (setBlob b { blob with toBlob := out } self)))
  else .ok ([], self)

def memAvailable (self : ZBlobSystem ι) : Nat := toUInt64 (self.memMax - self.memUsed)

def diskAvailable (self : ZBlobSystem ι) : Nat := toUInt64 (self.diskMax - self.diskUsed)

/-- z_blob_check_alloc, with its `success`. -/
def checkAlloc (env : Env) (b : ι) (self : ZBlobSystem ι) :
    Except Halt (Bool × List (Event ι) × ZBlobSystem ι) :=
  let blob := self.blob b
  let reqTotal := toUInt64 (blob.allocSize + blob.allocReq)
  match
    if blob.isInFile then
      .ok (true, [.charged b blob.allocReq true], addDisk blob.allocReq self)
    else if blob.allocReq < 0 ∨ toUInt64 blob.allocReq ≤ memAvailable self then
      .ok (true, [.charged b blob.allocReq false], addMem blob.allocReq self)
    else if ¬blob.storageLocked ∧ reqTotal ≤ diskAvailable self then
      (swapOut env b self).map fun (events, self) =>
        (true, events ++ [.charged b blob.allocReq true], addDisk blob.allocReq self)
    else .ok (false, [], self) with
  | .error halt => .error halt
  | .ok (success, events, self) =>
      .ok (success, events, if blob.allocReq < 0 then push .memFreed self else self)

def setApproved (approved : Bool) (b : ι) (self : ZBlobSystem ι) : ZBlobSystem ι :=
  setBlob b { self.blob b with approved := approved } self

/-- The owner is signalled with what stands in `approved`. -/
def signalReady (b : ι) (self : ZBlobSystem ι) : List (Event ι) × ZBlobSystem ι :=
  ([.signalled b (self.blob b).approved], setBlob b { self.blob b with replied := true } self)

/-! The management thread -/

/-- The check of a request that waits for its answer. -/
def checkRequest (env : Env) (b : ι) (self : ZBlobSystem ι) :
    Except Halt (Bool × List (Event ι) × ZBlobSystem ι) :=
  match checkAlloc env b self with
  | .error halt => .error halt
  | .ok (true, events, self) =>
      let (signals, self) := signalReady b (setApproved true b self)
      .ok (true, events ++ signals, self)
  | .ok (false, events, self) => .ok (false, events, setApproved false b self)

/-- What is done with a blob that has been popped. -/
def processRequest (env : Env) (b : ι) (self : ZBlobSystem ι) :
    Except Halt (List (Event ι) × ZBlobSystem ι) :=
  (checkRequest env b self).map fun (approved, events, self) =>
    (events, if approved then self else { self with waitingList := self.waitingList ++ [b] })

/-- A round of the loop over the waiting list. -/
def scanRequest (env : Env) (b : ι) (self : ZBlobSystem ι) :
    Except Halt (List (Event ι) × ZBlobSystem ι) :=
  (checkRequest env b self).map fun (approved, events, self) =>
    (events, if approved then { self with waitingList := self.waitingList.erase b } else self)

/-- Whether z_blob_system_swap_in gets to its loop. -/
def swapInStarts (self : ZBlobSystem ι) : Prop :=
  ¬(self.lowat ≤ self.memUsed ∨ toUInt64 self.diskUsed < self.hiwat)

instance (self : ZBlobSystem ι) : Decidable (swapInStarts self) :=
  inferInstanceAs (Decidable (¬(_ ∨ _)))

def spaceAvailable (self : ZBlobSystem ι) : Int := toInt64 (toUInt64 (self.hiwat - self.memUsed))

/-- A blob that z_blob_system_swap_in may fetch. -/
def swapInFits (self : ZBlobSystem ι) (b : ι) : Prop :=
  ¬(self.blob b).storageLocked ∧ (self.blob b).isInFile ∧ (self.blob b).allocSize ≤ spaceAvailable self

instance (self : ZBlobSystem ι) (b : ι) : Decidable (swapInFits self b) :=
  inferInstanceAs (Decidable (_ ∧ _ ∧ _))

def decFactor (now : Int) (blob : SystemBlob) : Int :=
  let elapsed := now - blob.lastAccessed
  if 0 < elapsed then (blob.reqRd + blob.reqWr) / elapsed else 0

/-- The search of a round, over the blobs whose lock it gets. -/
def bestLoop (now : Int) (tried : ι → Bool) (self : ZBlobSystem ι) :
    List ι → Int → Option ι → Option ι
  | [], _, best => best
  | b :: cur, decFactorBest, best =>
      if tried b = true ∧ swapInFits self b ∧ decFactorBest < decFactor now (self.blob b) then
        bestLoop now tried self cur (decFactor now (self.blob b)) (some b)
      else bestLoop now tried self cur decFactorBest best

def bestBlob (now : Int) (tried : ι → Bool) (self : ZBlobSystem ι) : Option ι :=
  bestLoop now tried self self.blobs (-1) none

/-- The end of a round, with the lock of the best blob. -/
def fetchBest (env : Env) (b : ι) (self : ZBlobSystem ι) :
    Except Halt (List (Event ι) × ZBlobSystem ι) :=
  let blob := self.blob b
  if swapInFits self b then
    (Blob.swapIn env.now env.io blob.toBlob).map fun back =>
      ([.moved b blob.allocSize false],
        addMem blob.allocSize (addDisk (-blob.allocSize) (setBlob b { blob with toBlob := back } self)))
  else .ok ([], self)

/-! The owner of a blob -/

def register (now : Int) (b : ι) (self : ZBlobSystem ι) : ZBlobSystem ι :=
  { setBlob b { lastAccessed := now } self with blobs := self.blobs ++ [b] }

def asking (size : Nat) (b : ι) (self : ZBlobSystem ι) : ZBlobSystem ι :=
  setBlob b { self.blob b with allocReq := size - (self.blob b).allocSize } self

/-- z_blob_alloc up to its first check, for a size that is not the one
allocated. -/
def askAlloc (env : Env) (size : Nat) (b : ι) (self : ZBlobSystem ι) :
    Except Halt (Bool × List (Event ι) × ZBlobSystem ι) :=
  (checkAlloc env b (asking size b self)).map fun (success, events, t) =>
    (success, .asked b (size - (self.blob b).allocSize) :: events, t)

def postRequest (b : ι) (self : ZBlobSystem ι) : List (Event ι) × ZBlobSystem ι :=
  ([.posted b],
    push (.request b) (setBlob b { self.blob b with approved := false, replied := false } self))

/-- The part of z_blob_alloc behind the grant. -/
def finishAlloc (now : Int) (size : Nat) (blob : SystemBlob) : SystemBlob :=
  { blob with toBlob := Blob.allocGranted now size blob.toBlob }

def leaving (b : ι) (self : ZBlobSystem ι) : ZBlobSystem ι :=
  { setBlob b { self.blob b with allocReq := -(self.blob b).allocSize } self with
    blobs := self.blobs.erase b }

def unref (env : Env) (b : ι) (self : ZBlobSystem ι) : Except Halt (List (Event ι) × ZBlobSystem ι) :=
  (checkAlloc env b (leaving b self)).map fun (_, events, t) =>
    (.asked b (-(self.blob b).allocSize) :: events ++ [.completed b], t)

/-- The move of z_blob_get_file, and whether there is one to be given. -/
def getFile (env : Env) (b : ι) (self : ZBlobSystem ι) :
    Except Halt (Bool × List (Event ι) × ZBlobSystem ι) :=
  if (self.blob b).isInFile then .ok (true, [], self)
  else if (self.blob b).storageLocked then .ok (false, [], self)
  else (swapOut env b self).map fun (events, self) => (true, events, self)

/-- The size of the file, as its holder has left it. -/
def releaseFile (blob : SystemBlob) : SystemBlob :=
  { blob with size := blob.file.length, allocSize := blob.file.length }

end Libzorpll.BlobSystem
