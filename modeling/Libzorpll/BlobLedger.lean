import Mathlib.Algebra.BigOperators.Group.List.Basic
import Libzorpll.BlobRun
import Libzorpll.Run

namespace Libzorpll.BlobLedger

open Blob (Halt Transfer)
open BlobSystem BlobRun

variable {ι : Type}

theorem toUInt64_add (x y : Int) : toUInt64 (toUInt64 x + y) = toUInt64 (x + y) := by
  unfold toUInt64
  omega

theorem toUInt64_of_lt {x : Int} (hpos : 0 ≤ x) (hlt : x < 2 ^ 64) : (toUInt64 x : Int) = x := by
  unfold toUInt64
  omega

/-- What an event adds to mem_used. -/
def memOf : Event ι → Int
  | .charged _ allocReq false => allocReq
  | .moved _ allocSize true => -allocSize
  | .moved _ allocSize false => allocSize
  | _ => 0

/-- What an event adds to disk_used. -/
def diskOf : Event ι → Int
  | .charged _ allocReq true => allocReq
  | .moved _ allocSize true => allocSize
  | .moved _ allocSize false => -allocSize
  | _ => 0

def memTotal (es : List (Event ι)) : Int := (es.map memOf).sum

def diskTotal (es : List (Event ι)) : Int := (es.map diskOf).sum

@[simp] theorem memTotal_nil : memTotal ([] : List (Event ι)) = 0 := rfl

@[simp] theorem diskTotal_nil : diskTotal ([] : List (Event ι)) = 0 := rfl

@[simp] theorem memTotal_cons (e : Event ι) (es : List (Event ι)) :
    memTotal (e :: es) = memOf e + memTotal es := by
  simp [memTotal]

@[simp] theorem diskTotal_cons (e : Event ι) (es : List (Event ι)) :
    diskTotal (e :: es) = diskOf e + diskTotal es := by
  simp [diskTotal]

@[simp] theorem memTotal_append (es new : List (Event ι)) :
    memTotal (es ++ new) = memTotal es + memTotal new := by
  simp [memTotal]

@[simp] theorem diskTotal_append (es new : List (Event ι)) :
    diskTotal (es ++ new) = diskTotal es + diskTotal new := by
  simp [diskTotal]

/-- The message for the waiting list, behind a request that gives space back. -/
def announce (allocReq : Int) (self : ZBlobSystem ι) : ZBlobSystem ι :=
  if allocReq < 0 then push .memFreed self else self

@[simp] theorem announce_memUsed (r : Int) (self : ZBlobSystem ι) :
    (announce r self).memUsed = self.memUsed := by
  unfold announce
  split <;> rfl

@[simp] theorem announce_diskUsed (r : Int) (self : ZBlobSystem ι) :
    (announce r self).diskUsed = self.diskUsed := by
  unfold announce
  split <;> rfl

/-- What a charge or a move of one blob leaves as it is. -/
structure Frame (b : ι) (s t : ZBlobSystem ι) : Prop where
  diskMax : t.diskMax = s.diskMax
  memMax : t.memMax = s.memMax
  lowat : t.lowat = s.lowat
  hiwat : t.hiwat = s.hiwat
  blobs : t.blobs = s.blobs
  waitingList : t.waitingList = s.waitingList
  reqQueue : ∃ n, t.reqQueue = s.reqQueue ++ List.replicate n .memFreed
  other : ∀ c, c ≠ b → t.blob c = s.blob c
  allocSize : (t.blob b).allocSize = (s.blob b).allocSize
  allocReq : (t.blob b).allocReq = (s.blob b).allocReq
  storageLocked : (t.blob b).storageLocked = (s.blob b).storageLocked
  approved : (t.blob b).approved = (s.blob b).approved
  replied : (t.blob b).replied = (s.blob b).replied
  locked : (t.blob b).locked = (s.blob b).locked

theorem Frame.refl (b : ι) (self : ZBlobSystem ι) : Frame b self self :=
  ⟨rfl, rfl, rfl, rfl, rfl, rfl, ⟨0, (List.append_nil _).symm⟩, fun _ _ => rfl, rfl, rfl, rfl, rfl, rfl, rfl⟩

theorem Frame.trans {b : ι} {s t u : ZBlobSystem ι} (h : Frame b s t) (h' : Frame b t u) : Frame b s u := by
  obtain ⟨n, hn⟩ := h.reqQueue
  obtain ⟨m, hm⟩ := h'.reqQueue
  exact ⟨h'.diskMax.trans h.diskMax, h'.memMax.trans h.memMax, h'.lowat.trans h.lowat, h'.hiwat.trans h.hiwat,
    h'.blobs.trans h.blobs, h'.waitingList.trans h.waitingList,
    ⟨n + m, by rw [hm, hn, List.append_assoc, List.replicate_append_replicate]⟩, fun c hc => (h'.other c hc).trans (h.other c hc), h'.allocSize.trans h.allocSize,
    h'.allocReq.trans h.allocReq, h'.storageLocked.trans h.storageLocked, h'.approved.trans h.approved,
    h'.replied.trans h.replied, h'.locked.trans h.locked⟩

theorem frame_addMem (b : ι) (x : Int) (self : ZBlobSystem ι) : Frame b self (addMem x self) :=
  ⟨rfl, rfl, rfl, rfl, rfl, rfl, ⟨0, (List.append_nil _).symm⟩, fun _ _ => rfl, rfl, rfl, rfl, rfl, rfl, rfl⟩

theorem frame_addDisk (b : ι) (x : Int) (self : ZBlobSystem ι) : Frame b self (addDisk x self) :=
  ⟨rfl, rfl, rfl, rfl, rfl, rfl, ⟨0, (List.append_nil _).symm⟩, fun _ _ => rfl, rfl, rfl, rfl, rfl, rfl, rfl⟩

theorem frame_announce (b : ι) (r : Int) (self : ZBlobSystem ι) : Frame b self (announce r self) := by
  unfold announce
  split
  · exact ⟨rfl, rfl, rfl, rfl, rfl, rfl, ⟨1, rfl⟩, fun _ _ => rfl, rfl, rfl, rfl, rfl, rfl, rfl⟩
  · exact .refl b self

/-- The counters have what the events have charged and moved. -/
structure Ledger (es : List (Event ι)) (s : ZBlobSystem ι) : Prop where
  mem : s.memUsed = toUInt64 (memTotal es)
  disk : s.diskUsed = diskTotal es

theorem Ledger.charge_mem {es : List (Event ι)} {s : ZBlobSystem ι} (h : Ledger es s) (b : ι) (r : Int) :
    Ledger (es ++ [.charged b r false]) (addMem r s) := by
  constructor
  · simp [memOf, h.mem, toUInt64_add]
  · simp [diskOf, h.disk]

theorem Ledger.charge_disk {es : List (Event ι)} {s : ZBlobSystem ι} (h : Ledger es s) (b : ι) (r : Int) :
    Ledger (es ++ [.charged b r true]) (addDisk r s) := by
  constructor
  · simp [memOf, h.mem]
  · simp [diskOf, h.disk]

theorem Ledger.announce {es : List (Event ι)} {s : ZBlobSystem ι} (h : Ledger es s) (r : Int) :
    Ledger es (announce r s) :=
  ⟨(announce_memUsed r s).trans h.mem, (announce_diskUsed r s).trans h.disk⟩

theorem Ledger.silent {es new : List (Event ι)} {s t : ZBlobSystem ι} (h : Ledger es s)
    (hnew : memTotal new = 0 ∧ diskTotal new = 0) (hmem : t.memUsed = s.memUsed)
    (hdisk : t.diskUsed = s.diskUsed) : Ledger (es ++ new) t := by
  constructor
  · rw [hmem, h.mem, memTotal_append, hnew.1, Int.add_zero]
  · rw [hdisk, h.disk, diskTotal_append, hnew.2, Int.add_zero]

def signals (success : Bool) (b : ι) : List (Event ι) := if success then [.signalled b true] else []

theorem totals_signals (success : Bool) (b : ι) :
    memTotal (signals success b) = 0 ∧ diskTotal (signals success b) = 0 := by
  cases success <;> exact ⟨rfl, rfl⟩

theorem totals_ownEvents (b : ι) (a : OwnAction) :
    memTotal (ownEvents b a) = 0 ∧ diskTotal (ownEvents b a) = 0 := by
  cases a <;> exact ⟨rfl, rfl⟩

theorem ledger_start (dmax mmax low hiw : Nat) : Ledger [] (start dmax mmax low hiw : State ι).system := ⟨rfl, rfl⟩

variable [DecidableEq ι]

/-! What the calls have done when they come back -/

def toFile (now : Int) (file : List UInt8) (blob : SystemBlob) : SystemBlob :=
  { blob with isInFile := true, file := file, data := [], lastAccessed := now }

def toMemory (now : Int) (data : List UInt8) (blob : SystemBlob) : SystemBlob :=
  { blob with isInFile := false, file := [], data := data, lastAccessed := now }

def swappedOut (now : Int) (file : List UInt8) (b : ι) (self : ZBlobSystem ι) : ZBlobSystem ι :=
  addDisk (self.blob b).allocSize (addMem (-(self.blob b).allocSize)
    (setBlob b (toFile now file (self.blob b)) self))

def fetchedIn (now : Int) (data : List UInt8) (b : ι) (self : ZBlobSystem ι) : ZBlobSystem ι :=
  addMem (self.blob b).allocSize (addDisk (-(self.blob b).allocSize)
    (setBlob b (toMemory now data (self.blob b)) self))

theorem swapOut_eq {env : Env} {b : ι} {self t : ZBlobSystem ι} {es : List (Event ι)}
    (hopen : (self.blob b).storageLocked = false) (hout : (self.blob b).isInFile = false)
    (h : swapOut env b self = .ok (es, t)) :
    es = [.moved b (self.blob b).allocSize true] ∧ ∃ file, t = swappedOut env.now file b self := by
  unfold swapOut at h
  simp only [hopen, hout, Bool.false_eq_true, not_false_eq_true, and_self, if_true, Blob.swapOut] at h
  obtain ⟨out, hmoved, hevents⟩ := Run.map_ok h
  obtain ⟨⟨written, file⟩, -, rfl⟩ := Run.map_ok hmoved
  cases hevents
  refine ⟨rfl, file, ?_⟩
  simp only [swappedOut, toFile, hopen]

/-- A request is charged on the disk where the blob is in a file, in memory
where it fits, on the disk behind a move, or not at all. -/
inductive Checked (b : ι) (self : ZBlobSystem ι) : Bool → List (Event ι) → ZBlobSystem ι → Prop
  | inFile (hin : (self.blob b).isInFile = true) :
      Checked b self true [.charged b (self.blob b).allocReq true]
        (announce (self.blob b).allocReq (addDisk (self.blob b).allocReq self))
  | inMemory (hout : (self.blob b).isInFile = false)
      (hfits : (self.blob b).allocReq < 0 ∨ toUInt64 (self.blob b).allocReq ≤ memAvailable self) :
      Checked b self true [.charged b (self.blob b).allocReq false]
        (announce (self.blob b).allocReq (addMem (self.blob b).allocReq self))
  | moved (now : Int) (file : List UInt8) (hout : (self.blob b).isInFile = false)
      (hgrows : 0 ≤ (self.blob b).allocReq)
      (hfull : memAvailable self < toUInt64 (self.blob b).allocReq)
      (hopen : (self.blob b).storageLocked = false)
      (hfits : toUInt64 ((self.blob b).allocSize + (self.blob b).allocReq) ≤ diskAvailable self) :
      Checked b self true
        [.moved b (self.blob b).allocSize true, .charged b (self.blob b).allocReq true]
        (addDisk (self.blob b).allocReq (swappedOut now file b self))
  | denied (hout : (self.blob b).isInFile = false) (hgrows : 0 ≤ (self.blob b).allocReq)
      (hfull : memAvailable self < toUInt64 (self.blob b).allocReq)
      (hclosed : (self.blob b).storageLocked = true ∨
        diskAvailable self < toUInt64 ((self.blob b).allocSize + (self.blob b).allocReq)) :
      Checked b self false [] self

theorem checkAlloc_checked {env : Env} {b : ι} {self t : ZBlobSystem ι} {success : Bool}
    {es : List (Event ι)} (h : checkAlloc env b self = .ok (success, es, t)) :
    Checked b self success es t := by
  unfold checkAlloc at h
  by_cases hin : (self.blob b).isInFile = true
  · simp only [hin, if_true, Except.ok.injEq, Prod.mk.injEq] at h
    obtain ⟨rfl, rfl, rfl⟩ := h
    exact .inFile hin
  · have hout : (self.blob b).isInFile = false := Bool.eq_false_iff.mpr hin
    simp only [hout, Bool.false_eq_true, if_false] at h
    by_cases hfits : (self.blob b).allocReq < 0 ∨ toUInt64 (self.blob b).allocReq ≤ memAvailable self
    · rw [if_pos hfits] at h
      simp only [Except.ok.injEq, Prod.mk.injEq] at h
      obtain ⟨rfl, rfl, rfl⟩ := h
      exact .inMemory hout hfits
    · have hgrows : 0 ≤ (self.blob b).allocReq := Int.not_lt.mp (fun hneg => hfits (.inl hneg))
      have hfull : memAvailable self < toUInt64 (self.blob b).allocReq :=
        Nat.not_le.mp (fun hle => hfits (.inr hle))
      rw [if_neg hfits] at h
      simp only [if_neg (Int.not_lt.mpr hgrows)] at h
      split at h
      · cases h
      · rename_i heq
        split at heq
        · rename_i hdisk
          have hopen : (self.blob b).storageLocked = false := Bool.eq_false_iff.mpr hdisk.1
          obtain ⟨⟨moves, mid⟩, hswap, hcharge⟩ := Run.map_ok heq
          obtain ⟨rfl, file, rfl⟩ := swapOut_eq hopen hout hswap
          cases hcharge
          cases h
          exact .moved env.now file hout hgrows hfull hopen hdisk.2
        · rename_i hdisk
          simp only [Except.ok.injEq, Prod.mk.injEq] at heq h
          obtain ⟨rfl, rfl, rfl⟩ := heq
          obtain ⟨rfl, rfl, rfl⟩ := h
          refine .denied hout hgrows hfull ?_
          by_cases hlocked : (self.blob b).storageLocked = true
          · exact .inl hlocked
          · exact .inr (Nat.not_le.mp (fun hle => hdisk ⟨hlocked, hle⟩))

theorem frame_swappedOut (now : Int) (file : List UInt8) (b : ι) (self : ZBlobSystem ι) :
    Frame b self (swappedOut now file b self) := by
  constructor
  case other => intro c hc; exact Function.update_of_ne hc _ _
  case reqQueue => exact ⟨0, (List.append_nil _).symm⟩
  all_goals simp [swappedOut, toFile]

theorem frame_fetchedIn (now : Int) (data : List UInt8) (b : ι) (self : ZBlobSystem ι) :
    Frame b self (fetchedIn now data b self) := by
  constructor
  case other => intro c hc; exact Function.update_of_ne hc _ _
  case reqQueue => exact ⟨0, (List.append_nil _).symm⟩
  all_goals simp [fetchedIn, toMemory]

theorem Checked.frame {b : ι} {self t : ZBlobSystem ι} {success : Bool} {es : List (Event ι)}
    (h : Checked b self success es t) : Frame b self t := by
  cases h with
  | inFile => exact (frame_addDisk b _ self).trans (frame_announce b _ _)
  | inMemory => exact (frame_addMem b _ self).trans (frame_announce b _ _)
  | moved now file => exact (frame_swappedOut now file b self).trans (frame_addDisk b _ _)
  | denied => exact .refl b self

/-! The calls around the check -/

def answered (success : Bool) (b : ι) (self : ZBlobSystem ι) : ZBlobSystem ι :=
  setBlob b { self.blob b with approved := success, replied := success || (self.blob b).replied } self

theorem checkRequest_checked {env : Env} {b : ι} {self t : ZBlobSystem ι} {success : Bool}
    {es : List (Event ι)} (h : checkRequest env b self = .ok (success, es, t)) :
    ∃ charges mid, Checked b self success charges mid ∧ es = charges ++ signals success b ∧
      t = answered success b mid := by
  unfold checkRequest at h
  split at h
  · cases h
  · rename_i charges mid hcheck
    simp only [signalReady, setApproved, Except.ok.injEq, Prod.mk.injEq] at h
    obtain ⟨rfl, rfl, rfl⟩ := h
    refine ⟨charges, mid, checkAlloc_checked hcheck, ?_, ?_⟩
    · simp [signals]
    · simp [answered, setBlob]
  · rename_i charges mid hcheck
    simp only [setApproved, Except.ok.injEq, Prod.mk.injEq] at h
    obtain ⟨rfl, rfl, rfl⟩ := h
    refine ⟨charges, mid, checkAlloc_checked hcheck, ?_, ?_⟩
    · simp [signals]
    · simp [answered]

theorem processRequest_checked {env : Env} {b : ι} {self t : ZBlobSystem ι} {es : List (Event ι)}
    (h : processRequest env b self = .ok (es, t)) :
    ∃ success charges mid, Checked b self success charges mid ∧ es = charges ++ signals success b ∧
      t = { answered success b mid with
        waitingList := if success then mid.waitingList else mid.waitingList ++ [b] } := by
  obtain ⟨⟨success, events, after⟩, hcheck, hlist⟩ := Run.map_ok h
  obtain ⟨charges, mid, hmid, rfl, rfl⟩ := checkRequest_checked hcheck
  cases hlist
  refine ⟨success, charges, mid, hmid, rfl, ?_⟩
  cases success <;> rfl

theorem scanRequest_checked {env : Env} {b : ι} {self t : ZBlobSystem ι} {es : List (Event ι)}
    (h : scanRequest env b self = .ok (es, t)) :
    ∃ success charges mid, Checked b self success charges mid ∧ es = charges ++ signals success b ∧
      t = { answered success b mid with
        waitingList := if success then mid.waitingList.erase b else mid.waitingList } := by
  obtain ⟨⟨success, events, after⟩, hcheck, hlist⟩ := Run.map_ok h
  obtain ⟨charges, mid, hmid, rfl, rfl⟩ := checkRequest_checked hcheck
  cases hlist
  refine ⟨success, charges, mid, hmid, rfl, ?_⟩
  cases success <;> rfl

theorem askAlloc_checked {env : Env} {size : Nat} {b : ι} {self t : ZBlobSystem ι} {success : Bool}
    {es : List (Event ι)} (h : askAlloc env size b self = .ok (success, es, t)) :
    ∃ charges, Checked b (asking size b self) success charges t ∧
      es = .asked b (size - (self.blob b).allocSize) :: charges := by
  obtain ⟨⟨granted, charges, after⟩, hcheck, hasked⟩ := Run.map_ok h
  cases hasked
  exact ⟨charges, checkAlloc_checked hcheck, rfl⟩

theorem unref_checked {env : Env} {b : ι} {self t : ZBlobSystem ι} {es : List (Event ι)}
    (h : unref env b self = .ok (es, t)) :
    ∃ success charges, Checked b (leaving b self) success charges t ∧
      es = .asked b (-(self.blob b).allocSize) :: charges ++ [.completed b] := by
  obtain ⟨⟨granted, charges, after⟩, hcheck, hasked⟩ := Run.map_ok h
  cases hasked
  exact ⟨granted, charges, checkAlloc_checked hcheck, rfl⟩

/-- A request that does not grow is granted. -/
theorem Checked.granted {b : ι} {self t : ZBlobSystem ι} {success : Bool} {es : List (Event ι)}
    (h : Checked b self success es t) (hr : (self.blob b).allocReq ≤ 0) : success = true := by
  cases h with
  | denied hout hgrows hfull =>
      have hzero : (self.blob b).allocReq = 0 := Int.le_antisymm hr hgrows
      rw [hzero] at hfull
      exact absurd hfull (Nat.not_lt_zero _)
  | inFile | inMemory | moved => rfl

theorem getFile_cases {env : Env} {b : ι} {self t : ZBlobSystem ι} {success : Bool} {es : List (Event ι)}
    (h : getFile env b self = .ok (success, es, t)) :
    (t = self ∧ es = [] ∧ (success = true → (self.blob b).isInFile = true)) ∨
      ((self.blob b).isInFile = false ∧ (self.blob b).storageLocked = false ∧
        es = [.moved b (self.blob b).allocSize true] ∧ ∃ file, t = swappedOut env.now file b self) := by
  unfold getFile at h
  by_cases hin : (self.blob b).isInFile = true
  · simp only [hin, if_true, Except.ok.injEq, Prod.mk.injEq] at h
    exact .inl ⟨h.2.2.symm, h.2.1.symm, fun _ => hin⟩
  · have hout : (self.blob b).isInFile = false := Bool.eq_false_iff.mpr hin
    simp only [hout, Bool.false_eq_true, if_false] at h
    by_cases hlocked : (self.blob b).storageLocked = true
    · simp only [hlocked, if_true, Except.ok.injEq, Prod.mk.injEq] at h
      obtain ⟨rfl, rfl, rfl⟩ := h
      exact .inl ⟨rfl, rfl, nofun⟩
    · have hopen : (self.blob b).storageLocked = false := Bool.eq_false_iff.mpr hlocked
      simp only [hopen, Bool.false_eq_true, if_false] at h
      obtain ⟨⟨moves, mid⟩, hswap, hevents⟩ := Run.map_ok h
      cases hevents
      exact .inr ⟨hout, hopen, swapOut_eq hopen hout hswap⟩

theorem getFile_frame {env : Env} {b : ι} {self t : ZBlobSystem ι} {success : Bool} {es : List (Event ι)}
    (h : getFile env b self = .ok (success, es, t)) : Frame b self t := by
  obtain ⟨rfl, -, -⟩ | ⟨-, -, -, file, rfl⟩ := getFile_cases h
  · exact .refl b _
  · exact frame_swappedOut env.now file b self

/-- Whether a blob is moved into memory by the end of a round. -/
def Fetched (self : ZBlobSystem ι) (b : ι) : Prop := (self.blob b).locked = false ∧ swapInFits self b

theorem fetchStep_cases {env : Env} {b : ι} {self t : ZBlobSystem ι} {es : List (Event ι)}
    (h : fetchStep env b self = .ok (es, t)) :
    (t = self ∧ es = []) ∨
      (Fetched self b ∧ es = [.moved b (self.blob b).allocSize false] ∧
        ∃ data, t = fetchedIn env.now data b self) := by
  unfold fetchStep at h
  by_cases hlocked : (self.blob b).locked = true
  · simp only [hlocked, if_true, Except.ok.injEq, Prod.mk.injEq] at h
    exact .inl ⟨h.2.symm, h.1.symm⟩
  · rw [if_neg hlocked, fetchBest] at h
    by_cases hfits : swapInFits self b
    · rw [if_pos hfits] at h
      obtain ⟨back, hback, hevents⟩ := Run.map_ok h
      obtain ⟨⟨rd, data⟩, -, rfl⟩ := Run.map_ok hback
      cases hevents
      exact .inr ⟨⟨Bool.eq_false_iff.mpr hlocked, hfits⟩, rfl, data, rfl⟩
    · simp only [if_neg hfits, Except.ok.injEq, Prod.mk.injEq] at h
      exact .inl ⟨h.2.symm, h.1.symm⟩

theorem fetchStep_frame {env : Env} {b : ι} {self t : ZBlobSystem ι} {es : List (Event ι)}
    (h : fetchStep env b self = .ok (es, t)) : Frame b self t := by
  obtain ⟨rfl, -⟩ | ⟨-, -, data, rfl⟩ := fetchStep_cases h
  · exact .refl b _
  · exact frame_fetchedIn env.now data b self

theorem Ledger.swappedOut {es : List (Event ι)} {s : ZBlobSystem ι} (h : Ledger es s) (b : ι)
    (now : Int) (file : List UInt8) :
    Ledger (es ++ [.moved b (s.blob b).allocSize true]) (swappedOut now file b s) := by
  constructor
  · simp [BlobLedger.swappedOut, memOf, h.mem, toUInt64_add]
  · simp [BlobLedger.swappedOut, diskOf, h.disk]

theorem Ledger.fetchedIn {es : List (Event ι)} {s : ZBlobSystem ι} (h : Ledger es s) (b : ι)
    (now : Int) (data : List UInt8) :
    Ledger (es ++ [.moved b (s.blob b).allocSize false]) (fetchedIn now data b s) := by
  constructor
  · simp [BlobLedger.fetchedIn, memOf, h.mem, toUInt64_add]
  · simp [BlobLedger.fetchedIn, diskOf, h.disk]

theorem Ledger.checked {es new : List (Event ι)} {b : ι} {s t : ZBlobSystem ι} {success : Bool}
    (h : Ledger es s) (hc : Checked b s success new t) : Ledger (es ++ new) t := by
  cases hc with
  | inFile => exact (h.charge_disk b _).announce _
  | inMemory => exact (h.charge_mem b _).announce _
  | moved now file =>
      have hmoved := (h.swappedOut b now file).charge_disk b (s.blob b).allocReq
      rwa [List.append_assoc] at hmoved
  | denied => rwa [List.append_nil]

theorem Ledger.step {es new : List (Event ι)} {a : Action ι} {s t : State ι} (h : Ledger es s.system)
    (hstep : Step a s new t) : Ledger (es ++ new) t.system := by
  cases hstep with
  | own a b p blob hown => exact h.silent (totals_ownEvents b a) rfl rfl
  | create | post | rescan | scanned | search => exact h.silent ⟨rfl, rfl⟩ rfl rfl
  | ask env b reqSize size success events system hphase hfree hreq hsize hne hask =>
      obtain ⟨charges, hcheck, rfl⟩ := askAlloc_checked hask
      have hasked : Ledger (es ++ [.asked b (size - (s.system.blob b).allocSize)])
          (asking size b s.system) := h.silent ⟨rfl, rfl⟩ rfl rfl
      simpa using hasked.checked hcheck
  | getFile env b success resolved events system hphase hlock hfree hget =>
      obtain ⟨rfl, rfl, -⟩ | ⟨-, -, rfl, file, rfl⟩ := getFile_cases hget
      · exact h.silent ⟨rfl, rfl⟩ rfl rfl
      · have hmoved := h.swappedOut b env.now file
        exact ⟨hmoved.mem, hmoved.disk⟩
  | unref env b events system hphase hfree hunref =>
      obtain ⟨success, charges, hcheck, rfl⟩ := unref_checked hunref
      have hasked : Ledger (es ++ [.asked b (-(s.system.blob b).allocSize)]) (leaving b s.system) :=
        h.silent ⟨rfl, rfl⟩ rfl rfl
      have hdone : Ledger ((es ++ [.asked b (-(s.system.blob b).allocSize)] ++ charges) ++ [.completed b])
          system := (hasked.checked hcheck).silent ⟨rfl, rfl⟩ rfl rfl
      simpa using hdone
  | process env b rest events system hfree hqueue hprocess =>
      obtain ⟨success, charges, mid, hcheck, rfl, rfl⟩ := processRequest_checked hprocess
      have hpopped : Ledger es { s.system with reqQueue := rest } := ⟨h.mem, h.disk⟩
      rw [← List.append_assoc]
      exact (hpopped.checked hcheck).silent (totals_signals success b) rfl rfl
  | scan env b cur events system hscan hscanned =>
      obtain ⟨success, charges, mid, hcheck, rfl, rfl⟩ := scanRequest_checked hscanned
      rw [← List.append_assoc]
      exact (h.checked hcheck).silent (totals_signals success b) rfl rfl
  | fetch env b events system hfetch hin =>
      obtain ⟨rfl, rfl⟩ | ⟨-, rfl, data, rfl⟩ := fetchStep_cases hin
      · exact h.silent ⟨rfl, rfl⟩ rfl rfl
      · exact h.fetchedIn b env.now data

end Libzorpll.BlobLedger
