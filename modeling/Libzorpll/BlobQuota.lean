import Libzorpll.BlobAccount

/-! The counters of the system against its limits. -/

namespace Libzorpll.BlobQuota

open BlobSystem BlobRun BlobLedger BlobState BlobAccount
open Trace (Steps)

variable {ι : Type}

theorem toUInt64_le {x : Int} (h : 0 ≤ x) : (toUInt64 x : Int) ≤ x := by
  unfold toUInt64
  omega

/-- Both counters are inside of their limits. -/
structure Within (s : ZBlobSystem ι) : Prop where
  limit : s.memMax < 2 ^ 64
  mem : s.memUsed ≤ s.memMax
  disk : s.diskUsed ≤ s.diskMax

theorem Within.memAvailable {s : ZBlobSystem ι} (h : Within s) :
    (BlobSystem.memAvailable s : Int) = s.memMax - s.memUsed := by
  have hlimit := h.limit
  have hmem := h.mem
  apply toUInt64_of_lt
  · omega
  · omega

theorem Within.diskAvailable {s : ZBlobSystem ι} (h : Within s) :
    (BlobSystem.diskAvailable s : Int) ≤ s.diskMax - s.diskUsed := by
  have hdisk := h.disk
  apply toUInt64_le
  omega

/-- What is granted fits, apart from what a blob in a file grows by. -/
theorem Checked.fits [DecidableEq ι] {b : ι} {s t : ZBlobSystem ι} {success : Bool} {es : List (Event ι)}
    (h : Checked b s success es t) (hw : Within s) {size : Nat} (hsize : size < 2 ^ 63)
    (hreq : (s.blob b).allocReq = size - (s.blob b).allocSize)
    (hgrows : (s.blob b).isInFile = true → (s.blob b).allocReq ≤ s.diskMax - s.diskUsed) :
    memTotal es ≤ s.memMax - s.memUsed ∧ diskTotal es ≤ s.diskMax - s.diskUsed := by
  have hmem := hw.mem
  have hdisk := hw.disk
  cases h with
  | inFile hin =>
      have hfile := hgrows hin
      simp only [memTotal_cons, diskTotal_cons, memTotal_nil, diskTotal_nil, memOf, diskOf]
      omega
  | inMemory hout hfits =>
      simp only [memTotal_cons, diskTotal_cons, memTotal_nil, diskTotal_nil, memOf, diskOf]
      refine ⟨?_, by omega⟩
      obtain hneg | hfits := hfits
      · omega
      · by_cases hneg : (s.blob b).allocReq < 0
        · omega
        · have hreq64 : (toUInt64 (s.blob b).allocReq : Int) = (s.blob b).allocReq :=
            toUInt64_of_lt (Int.not_lt.mp hneg) (by omega)
          have havailable := hw.memAvailable
          omega
  | moved now file hout hpos hfull hopen hfits =>
      have htotal : (toUInt64 ((s.blob b).allocSize + (s.blob b).allocReq) : Int) = size := by
        rw [toUInt64_of_lt (by omega) (by omega), hreq]
        omega
      have havailable := hw.diskAvailable
      simp only [memTotal_cons, diskTotal_cons, memTotal_nil, diskTotal_nil, memOf, diskOf]
      omega
  | denied =>
      simp only [memTotal_nil, diskTotal_nil]
      omega

/-- The high water mark is below of the limit, or there is no memory at all. -/
def Marked (s : ZBlobSystem ι) : Prop := s.hiwat < s.memMax ∨ (s.memMax = 0 ∧ s.hiwat = 2 ^ 64 - 1)

/-- What the swap-in fetches fits, unless mem_used is that far above of the
mark that their difference turns positive. -/
theorem fetched_fits {s : ZBlobSystem ι} (hw : Within s) (hm : Marked s) {b : ι} (hf : Fetched s b)
    (hnear : s.memUsed ≤ s.hiwat + 2 ^ 63) : s.memUsed + (s.blob b).allocSize ≤ s.memMax := by
  have hspace := hf.2.2.2
  have hlimit := hw.limit
  have hmem := hw.mem
  unfold spaceAvailable toInt64 toUInt64 at hspace
  obtain hbelow | ⟨hzero, hmark⟩ := hm
  · split at hspace <;> omega
  · split at hspace <;> omega

variable [DecidableEq ι]

/-- A blob only grows in its file, or is put into one, where there is room on
the disk for it; and what is fetched is not charged for more than it has. -/
def RoomOnDisk : Action ι → State ι → Prop
  | .ask _ size b, s => (s.system.blob b).isInFile = true →
      (size : Int) - (s.system.blob b).allocSize ≤ s.system.diskMax - s.system.diskUsed
  | .getFile _ b, s => (s.system.blob b).isInFile = false → (s.system.blob b).storageLocked = false →
      ((s.system.blob b).allocSize : Int) ≤ s.system.diskMax - s.system.diskUsed
  | .fetch _ b, s => Fetched s.system b → ¬Charged (s.phase b) (s.system.blob b) ∧
      (s.system.memUsed ≤ s.system.hiwat + 2 ^ 63 ∨
        s.system.memUsed + (s.system.blob b).allocSize ≤ s.system.memMax)
  | _, _ => True

omit [DecidableEq ι] in
theorem RoomOnDisk.fetch {a : Action ι} {s : State ι} (h : RoomOnDisk a s) : FetchExact a s := by
  cases a with
  | fetch env b => exact fun hf => (h hf).1
  | own | create | ask | post | getFile | unref | process | rescan | scan | scanned | search => trivial

/-- The limits are those of the beginning. -/
structure SameLimits (s t : ZBlobSystem ι) : Prop where
  diskMax : t.diskMax = s.diskMax
  memMax : t.memMax = s.memMax
  hiwat : t.hiwat = s.hiwat

theorem step_limits {a : Action ι} {s t : State ι} {new : List (Event ι)} (hstep : Step a s new t) :
    SameLimits s.system t.system := by
  cases hstep with
  | own | create | post | rescan | scanned | search => exact ⟨rfl, rfl, rfl⟩
  | ask env b reqSize size success events system hphase hfree hreq hsize hne hask =>
      obtain ⟨charges, hcheck, -⟩ := askAlloc_checked hask
      exact ⟨hcheck.frame.diskMax, hcheck.frame.memMax, hcheck.frame.hiwat⟩
  | getFile env b success resolved events system hphase hlock hfree hget =>
      have hframe := getFile_frame hget
      exact ⟨hframe.diskMax, hframe.memMax, hframe.hiwat⟩
  | unref env b events system hphase hfree hunref =>
      obtain ⟨success, charges, hcheck, -⟩ := unref_checked hunref
      exact ⟨hcheck.frame.diskMax, hcheck.frame.memMax, hcheck.frame.hiwat⟩
  | process env b rest events system hfree hqueue hprocess =>
      obtain ⟨success, charges, mid, hcheck, -, rfl⟩ := processRequest_checked hprocess
      exact ⟨hcheck.frame.diskMax, hcheck.frame.memMax, hcheck.frame.hiwat⟩
  | scan env b cur events system hscan hscanned =>
      obtain ⟨success, charges, mid, hcheck, -, rfl⟩ := scanRequest_checked hscanned
      exact ⟨hcheck.frame.diskMax, hcheck.frame.memMax, hcheck.frame.hiwat⟩
  | fetch env b events system hfetch hin =>
      have hframe := fetchStep_frame hin
      exact ⟨hframe.diskMax, hframe.memMax, hframe.hiwat⟩

theorem answer_fits {s : State ι} (hs : Sound s) {b : ι} {success : Bool} {charges : List (Event ι)}
    {popped mid : ZBlobSystem ι} (hw : Within popped)
    (hlisted : 0 < s.system.reqQueue.count (.request b) + s.system.waitingList.count b)
    (hblob : popped.blob = s.system.blob) (hcheck : Checked b popped success charges mid) :
    memTotal (charges ++ signals success b) ≤ popped.memMax - popped.memUsed ∧
      diskTotal (charges ++ signals success b) ≤ popped.diskMax - popped.diskUsed := by
  obtain ⟨size, -, -, hpending⟩ := hs.pending hlisted
  rw [← hblob] at hpending
  have hfits := Checked.fits hcheck hw hpending.bounded hpending.allocReq
    (fun hin => absurd (hin.symm.trans hpending.isInFile) (by decide))
  simp only [memTotal_append, diskTotal_append, totals_signals success b, Int.add_zero]
  exact hfits

theorem step_fits {a : Action ι} {s t : State ι} {new : List (Event ι)} (hs : Sound s)
    (hw : Within s.system) (hm : Marked s.system) (hstep : Step a s new t) (hroom : RoomOnDisk a s) :
    memTotal new ≤ s.system.memMax - s.system.memUsed ∧
      diskTotal new ≤ s.system.diskMax - s.system.diskUsed := by
  have hmem := hw.mem
  have hdisk := hw.disk
  cases hstep with
  | own a b p blob hown =>
      rw [(totals_ownEvents b a).1, (totals_ownEvents b a).2]
      omega
  | create | rescan | scanned | search =>
      simp only [memTotal_nil, diskTotal_nil]
      omega
  | post =>
      simp only [postRequest, memTotal_cons, diskTotal_cons, memTotal_nil, diskTotal_nil, memOf, diskOf]
      omega
  | ask env b reqSize size success events system hphase hfree hreq hsize hne hask =>
      obtain ⟨charges, hcheck, rfl⟩ := askAlloc_checked hask
      have hwa : Within (asking size b s.system) := ⟨hw.limit, hw.mem, hw.disk⟩
      have hfits := Checked.fits hcheck hwa (reqAllocSize_lt hreq hsize) (by simp [asking])
        (by simpa [asking, RoomOnDisk] using hroom)
      simpa [memOf, diskOf, asking] using hfits
  | getFile env b success resolved events system hphase hlock hfree hget =>
      obtain ⟨-, rfl, -⟩ | ⟨hout, hopen, rfl, -⟩ := getFile_cases hget
      · simp only [memTotal_nil, diskTotal_nil]
        omega
      · have hfile := hroom hout hopen
        simp only [memTotal_cons, diskTotal_cons, memTotal_nil, diskTotal_nil, memOf, diskOf]
        omega
  | unref env b events system hphase hfree hunref =>
      obtain ⟨success, charges, hcheck, rfl⟩ := unref_checked hunref
      have hwl : Within (leaving b s.system) := ⟨hw.limit, hw.mem, hw.disk⟩
      have hfits := Checked.fits hcheck hwl (by decide : 0 < 2 ^ 63) (by simp [leaving]) ?_
      · simpa [memOf, diskOf, leaving] using hfits
      · intro _
        simp only [leaving, setBlob_blob, Function.update_self, setBlob_diskMax, setBlob_diskUsed]
        omega
  | process env b rest events system hfree hqueue hprocess =>
      obtain ⟨success, charges, mid, hcheck, rfl, rfl⟩ := processRequest_checked hprocess
      have hwp : Within { s.system with reqQueue := rest } := ⟨hw.limit, hw.mem, hw.disk⟩
      have hlisted : 0 < s.system.reqQueue.count (.request b) + s.system.waitingList.count b := by
        rw [hqueue, List.count_cons_self]
        omega
      have hfits := answer_fits hs hwp hlisted rfl hcheck
      exact hfits
  | scan env b cur events system hscan hscanned =>
      obtain ⟨success, charges, mid, hcheck, rfl, rfl⟩ := scanRequest_checked hscanned
      exact answer_fits hs hw (Nat.add_pos_right _ (hs.scanned_count hscan)) rfl hcheck
  | fetch env b events system hfetch hin =>
      obtain ⟨-, rfl⟩ | ⟨hf, rfl, -⟩ := fetchStep_cases hin
      · simp only [memTotal_nil, diskTotal_nil]
        omega
      · have hfits : s.system.memUsed + (s.system.blob b).allocSize ≤ s.system.memMax := by
          obtain hnear | hfits := (hroom hf).2
          · exact fetched_fits hw hm hf hnear
          · exact hfits
        simp only [memTotal_cons, diskTotal_cons, memTotal_nil, diskTotal_nil, memOf, diskOf]
        omega

/-! Runs -/

/-- What every run keeps; mem_used is all of what the events have left, not
just up to the size of a gsize. -/
structure Kept (es : List (Event ι)) (t : State ι) : Prop where
  sound : Sound t
  ledger : Ledger es t.system
  used : (t.system.memUsed : Int) = memTotal es
  owed : shares memPart t = memTotal es
  within : Within t.system
  marked : Marked t.system

omit [DecidableEq ι] in
theorem shares_nonneg (t : State ι) : 0 ≤ shares memPart t := by
  apply Tally.total_nonneg
  intro b
  unfold share memPart
  split
  · exact Int.le_refl 0
  · exact Int.natCast_nonneg _

theorem Kept.step {a : Action ι} {es new : List (Event ι)} {s t : State ι} (h : Kept es s)
    (hroom : RoomOnDisk a s) (hstep : Step a s new t) : Kept (es ++ new) t := by
  have hledger := h.ledger.step hstep
  have howed : shares memPart t = memTotal (es ++ new) := by
    rw [step_mem h.sound hstep hroom.fetch, h.owed, memTotal_append]
  obtain ⟨hfits, hfitsDisk⟩ := step_fits h.sound h.within h.marked hstep hroom
  have hlimits := step_limits hstep
  have hlimit := h.within.limit
  have htotal : memTotal (es ++ new) ≤ s.system.memMax := by
    rw [memTotal_append, ← h.used]
    omega
  have hused : (t.system.memUsed : Int) = memTotal (es ++ new) := by
    rw [hledger.mem]
    exact toUInt64_of_lt (howed ▸ shares_nonneg t) (by omega)
  refine ⟨h.sound.step hstep, hledger, hused, howed, ⟨?_, ?_, ?_⟩, ?_⟩
  · rw [hlimits.memMax]
    exact hlimit
  · rw [hlimits.memMax]
    omega
  · rw [hlimits.diskMax, hledger.disk, diskTotal_append, ← h.ledger.disk]
    omega
  · unfold Marked
    rw [hlimits.memMax, hlimits.hiwat]
    exact h.marked

end Libzorpll.BlobQuota
