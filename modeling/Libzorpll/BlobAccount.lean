import Libzorpll.BlobState
import Libzorpll.Tally

/-! The counters of the system against the sizes of its blobs. -/

namespace Libzorpll.BlobAccount

open BlobSystem BlobRun BlobLedger BlobState
open Tally (total)
open Trace (Steps)

variable {ι : Type}

/-- A request that has been charged, and that z_blob_alloc has not taken over
yet. -/
def Charged : Phase → SystemBlob → Prop
  | .granted _, _ => True
  | .waiting _, blob => blob.replied = true
  | _, _ => False

/-- What a blob has been charged for. -/
def owed : Phase → SystemBlob → Nat
  | .absent, _ => 0
  | .granted size, _ => size
  | .waiting size, blob => if blob.replied then size else blob.allocSize
  | _, blob => blob.allocSize

def memPart (size : Nat) (blob : SystemBlob) : Int := if blob.isInFile then 0 else size

def diskPart (size : Nat) (blob : SystemBlob) : Int := if blob.isInFile then size else 0

theorem owed_of_not_charged {p : Phase} {blob : SystemBlob} (hp : p ≠ .absent) (h : ¬Charged p blob) :
    owed p blob = blob.allocSize := by
  cases p with
  | absent => exact absurd rfl hp
  | granted => exact absurd trivial h
  | waiting => exact if_neg h
  | starting | idle | holding | denied | filed => rfl

/-! What one step does to the parts of its blob -/

/-- The counters change as the parts of the blob do, between two sizes. -/
structure Settles (b : ι) (before after : Nat) (es : List (Event ι)) (s t : ZBlobSystem ι) : Prop where
  mem : memPart after (t.blob b) = memPart before (s.blob b) + memTotal es
  disk : diskPart after (t.blob b) = diskPart before (s.blob b) + diskTotal es

@[simp] theorem announce_blob (r : Int) (s : ZBlobSystem ι) : (announce r s).blob = s.blob := by
  unfold announce
  split <;> rfl

theorem settles_same {b : ι} {size : Nat} {es : List (Event ι)} {s t : ZBlobSystem ι}
    (hin : (t.blob b).isInFile = (s.blob b).isInFile) (hes : memTotal es = 0 ∧ diskTotal es = 0) :
    Settles b size size es s t := by
  constructor
  · rw [memPart, memPart, hin, hes.1, Int.add_zero]
  · rw [diskPart, diskPart, hin, hes.2, Int.add_zero]

theorem Settles.congr {b : ι} {before after : Nat} {es es' : List (Event ι)} {s s' t t' : ZBlobSystem ι}
    (h : Settles b before after es s t) (hs : (s'.blob b).isInFile = (s.blob b).isInFile)
    (ht : (t'.blob b).isInFile = (t.blob b).isInFile)
    (hes : memTotal es' = memTotal es ∧ diskTotal es' = diskTotal es) : Settles b before after es' s' t' := by
  constructor
  · rw [memPart, memPart, hs, ht, hes.1]
    exact h.mem
  · rw [diskPart, diskPart, hs, ht, hes.2]
    exact h.disk

theorem settles_zero {b : ι} {es : List (Event ι)} {s t : ZBlobSystem ι}
    (hes : memTotal es = 0 ∧ diskTotal es = 0) : Settles b 0 0 es s t := by
  constructor
  · simp [memPart, hes.1]
  · simp [diskPart, hes.2]

/-- A fetch finds no blob with a request that is charged and not taken over. -/
def FetchExact : Action ι → State ι → Prop
  | .fetch _ b, s => Fetched s.system b → ¬Charged (s.phase b) (s.system.blob b)
  | _, _ => True

/-- Besides, a file is given back with the size that is allocated. -/
def Exact : Action ι → State ι → Prop
  | .own .release b, s => (s.system.blob b).file.length = (s.system.blob b).allocSize
  | a, s => FetchExact a s

theorem Exact.fetch {a : Action ι} {s : State ι} (h : Exact a s) : FetchExact a s := by
  cases a with
  | own a b => trivial
  | create | ask | post | getFile | unref | process | rescan | scan | scanned | search | fetch => exact h

variable [DecidableEq ι]

theorem settles_swappedOut (now : Int) (file : List UInt8) (b : ι) (s : ZBlobSystem ι)
    (hout : (s.blob b).isInFile = false) :
    Settles b (s.blob b).allocSize (s.blob b).allocSize [.moved b (s.blob b).allocSize true] s
      (swappedOut now file b s) := by
  constructor
  · simp [swappedOut, toFile, memPart, hout, memOf]
  · simp [swappedOut, toFile, diskPart, hout, diskOf]

theorem settles_fetchedIn (now : Int) (data : List UInt8) (b : ι) (s : ZBlobSystem ι)
    (hin : (s.blob b).isInFile = true) :
    Settles b (s.blob b).allocSize (s.blob b).allocSize [.moved b (s.blob b).allocSize false] s
      (fetchedIn now data b s) := by
  constructor
  · simp [fetchedIn, toMemory, memPart, hin, memOf]
  · simp [fetchedIn, toMemory, diskPart, hin, diskOf]

theorem Checked.settles {b : ι} {s t : ZBlobSystem ι} {success : Bool} {es : List (Event ι)}
    (h : Checked b s success es t) (size : Nat) (hreq : (s.blob b).allocReq = size - (s.blob b).allocSize) :
    Settles b (s.blob b).allocSize (if success then size else (s.blob b).allocSize) es s t := by
  cases h with
  | inFile hin =>
      constructor
      · simp [memPart, hin, memOf]
      · simp [diskPart, hin, diskOf, hreq]
  | inMemory hout =>
      constructor
      · simp [memPart, hout, memOf, hreq]
      · simp [diskPart, hout, diskOf]
  | moved now file hout =>
      constructor
      · simp [swappedOut, toFile, memPart, hout, memOf]
      · simp [swappedOut, toFile, diskPart, hout, diskOf, hreq]
  | denied hout =>
      constructor
      · simp
      · simp

theorem ownStep_owed {a : OwnAction} {p p' : Phase} {blob blob' : SystemBlob}
    (h : OwnStep a p blob p' blob') (ha : a ≠ .release) :
    owed p' blob' = owed p blob ∧ blob'.isInFile = blob.isInFile := by
  cases h with
  | wake size hreplied => exact ⟨(if_pos hreplied).symm, rfl⟩
  | finish now size =>
      have hkept : ∀ b : Blob.Blob, (Blob.allocGranted now size b).isInFile = b.isInFile := by
        intro b
        unfold Blob.allocGranted
        split <;> rfl
      refine ⟨?_, hkept blob.toBlob⟩
      split <;> rfl
  | write now io pos data written moved hinside hwrite => exact addCopy_keeps hinside hwrite
  | storageLock st hp => obtain rfl | rfl | rfl := hp <;> exact ⟨rfl, rfl⟩
  | release => exact absurd rfl ha
  | enter | lock | unlock | edit | forget => exact ⟨rfl, rfl⟩

/-- An answered request is charged with its size, and a denied one not. -/
theorem answer_settles {s : State ι} (hs : Sound s) {b : ι} {success : Bool} {charges : List (Event ι)}
    {popped mid t : ZBlobSystem ι}
    (hlisted : 0 < s.system.reqQueue.count (.request b) + s.system.waitingList.count b)
    (hblob : popped.blob = s.system.blob) (hcheck : Checked b popped success charges mid)
    (ht : t.blob = (answered success b mid).blob) :
    Settles b (owed (s.phase b) (s.system.blob b)) (owed (s.phase b) (t.blob b))
      (charges ++ signals success b) s.system t := by
  obtain ⟨size, hphase, hreplied, hpending⟩ := hs.pending hlisted
  have hbefore : owed (s.phase b) (s.system.blob b) = (popped.blob b).allocSize := by
    simp [hphase, owed, hreplied, hblob]
  have hafter : owed (s.phase b) (t.blob b) = if success then size else (popped.blob b).allocSize := by
    have hmid : (mid.blob b).replied = false := by rw [hcheck.frame.replied, hblob, hreplied]
    rw [ht, hphase]
    cases success <;> simp [owed, answered, hmid, hcheck.frame.allocSize]
  rw [hbefore, hafter]
  have hsettles := Checked.settles hcheck size (by rw [hblob]; exact hpending.allocReq)
  apply hsettles.congr
  · rw [hblob]
  · rw [ht]
    simp [answered]
  · simp [totals_signals success b]

theorem step_settles {a : Action ι} {s t : State ι} {new : List (Event ι)} (hs : Sound s)
    (hstep : Step a s new t) (hfetch : FetchExact a s) {b : ι} (hb : subject a = some b)
    (hrelease : a ≠ .own .release b) :
    Settles b (owed (s.phase b) (s.system.blob b)) (owed (t.phase b) (t.system.blob b)) new s.system
      t.system := by
  cases hstep with
  | own a b p blob hown =>
      cases hb
      have hkept := ownStep_owed hown (fun heq => hrelease (by rw [heq]))
      simp only [Function.update_self, setBlob_blob, hkept.1]
      exact settles_same (by simpa using hkept.2) (totals_ownEvents b a)
  | create b now hphase =>
      cases hb
      simp only [register, hphase, owed, Function.update_self, setBlob_blob]
      exact settles_zero ⟨rfl, rfl⟩
  | ask env b reqSize size success events system hphase hfree hreq hsize hne hask =>
      cases hb
      obtain ⟨charges, hcheck, rfl⟩ := askAlloc_checked hask
      have hbefore : owed (s.phase b) (s.system.blob b) = ((asking size b s.system).blob b).allocSize := by
        obtain hp | hp := hphase <;> simp [hp, owed, asking]
      have hafter : owed (if success then .granted size else .denied size) (system.blob b) =
          if success then size else ((asking size b s.system).blob b).allocSize := by
        cases success with
        | true => rfl
        | false => exact hcheck.frame.allocSize
      simp only [Function.update_self, hbefore, hafter]
      have hsettles := Checked.settles hcheck size (by simp [asking])
      exact hsettles.congr (by simp [asking]) rfl (by simp [memOf, diskOf])
  | post b size hphase =>
      cases hb
      simp only [hphase, postRequest, Function.update_self, push_blob, setBlob_blob, owed,
        Bool.false_eq_true, if_false]
      exact settles_same (by simp) ⟨rfl, rfl⟩
  | getFile env b success resolved events system hphase hlock hfree hget =>
      cases hb
      have hafter : owed (if success && resolved then .filed else .idle)
          { system.blob b with locked := success && resolved } = (s.system.blob b).allocSize := by
        split <;> exact (getFile_frame hget).allocSize
      simp only [Function.update_self, setBlob_blob, hphase, hafter]
      obtain ⟨rfl, rfl, -⟩ | ⟨hout, -, rfl, file, rfl⟩ := getFile_cases hget
      · exact settles_same (by simp) ⟨rfl, rfl⟩
      · exact (settles_swappedOut env.now file b s.system hout).congr rfl (by simp) ⟨rfl, rfl⟩
  | unref env b events system hphase hfree hunref =>
      cases hb
      obtain ⟨success, charges, hcheck, rfl⟩ := unref_checked hunref
      have hbefore : owed (s.phase b) (s.system.blob b) = ((leaving b s.system).blob b).allocSize := by
        obtain hp | hp := hphase <;> simp [hp, owed, leaving]
      have hgranted : success = true := hcheck.granted (by simp [leaving])
      simp only [Function.update_self, hbefore]
      have hsettles := Checked.settles hcheck 0 (by simp [leaving])
      rw [if_pos hgranted] at hsettles
      exact hsettles.congr (by simp [leaving]) rfl (by simp [memOf, diskOf])
  | process env b rest events system hfree hqueue hprocess =>
      cases hb
      obtain ⟨success, charges, mid, hcheck, rfl, rfl⟩ := processRequest_checked hprocess
      refine answer_settles hs ?_ ?_ hcheck rfl
      · rw [hqueue, List.count_cons_self]
        omega
      · rfl
  | scan env b cur events system hscan hscanned =>
      cases hb
      obtain ⟨success, charges, mid, hcheck, rfl, rfl⟩ := scanRequest_checked hscanned
      refine answer_settles hs ?_ rfl hcheck rfl
      exact Nat.add_pos_right _ (hs.scanned_count hscan)
  | fetch env b events system hf hin =>
      cases hb
      obtain ⟨rfl, rfl⟩ | ⟨hfits, rfl, data, rfl⟩ := fetchStep_cases hin
      · exact settles_same rfl ⟨rfl, rfl⟩
      · have hpresent : s.phase b ≠ .absent := by
          apply (hs.view b).present.mp
          simpa [BlobState.view] using hs.fetches b hf
        have hframe := frame_fetchedIn env.now data b s.system
        have hfree := hfetch hfits
        have hfree' : ¬Charged (s.phase b) ((fetchedIn env.now data b s.system).blob b) := by
          cases hphase : s.phase b with
          | waiting size =>
              rw [hphase] at hfree
              simpa only [Charged, hframe.replied] using hfree
          | granted => rw [hphase] at hfree; exact hfree
          | absent | starting | idle | holding | denied | filed => exact id
        rw [owed_of_not_charged hpresent hfree, owed_of_not_charged hpresent hfree', hframe.allocSize]
        exact settles_fetchedIn env.now data b s.system hfits.2.2.1
  | rescan | scanned | search => cases hb

/-! The sums over all blobs -/

/-- The part of a sum for one blob. -/
def share (part : Nat → SystemBlob → Int) (s : State ι) (b : ι) : Int :=
  part (owed (s.phase b) (s.system.blob b)) (s.system.blob b)

def shares (part : Nat → SystemBlob → Int) (s : State ι) : Int := total s.system.blobs (share part s)

theorem share_absent {part : Nat → SystemBlob → Int} (hpart : ∀ blob, part 0 blob = 0) {s : State ι}
    (hs : Sound s) (b : ι) (hb : b ∉ s.system.blobs) : share part s b = 0 := by
  have hpresent := (hs.view b).present
  have habsent : s.phase b = .absent := by simpa [BlobState.view, hb] using hpresent
  rw [share, habsent]
  exact hpart _

theorem step_share {part : Nat → SystemBlob → Int} {a : Action ι} {s t : State ι} {new : List (Event ι)}
    (hstep : Step a s new t) {c : ι} (hc : subject a ≠ some c) : share part t c = share part s c := by
  have hview := step_other hstep hc
  simp only [BlobState.view, View.mk.injEq] at hview
  rw [share, share, hview.2.1, hview.2.2.1]

theorem step_shares {part : Nat → SystemBlob → Int} (hpart : ∀ blob, part 0 blob = 0) {a : Action ι}
    {s t : State ι} {new : List (Event ι)} (hs : Sound s) (hstep : Step a s new t) {delta : Int}
    (hnone : subject a = none → delta = 0)
    (hsome : ∀ b, subject a = some b → share part t b = share part s b + delta) :
    shares part t = shares part s + delta := by
  have ht := hs.step hstep
  cases hb : subject a with
  | none =>
      rw [hnone hb, Int.add_zero]
      exact Tally.total_same hs.nodup ht.nodup (share_absent hpart hs) (share_absent hpart ht)
        (fun c => step_share hstep (by rw [hb]; exact nofun))
  | some b =>
      have hother : ∀ c, c ≠ b → share part t c = share part s c := by
        intro c hc
        exact step_share hstep (by rw [hb]; exact fun heq => hc (Option.some.inj heq).symm)
      rw [shares, Tally.total_change hs.nodup ht.nodup (share_absent hpart hs) (share_absent hpart ht) b hother,
        hsome b hb, ← shares]
      omega

theorem totals_unsubjected {a : Action ι} {s t : State ι} {new : List (Event ι)} (hstep : Step a s new t)
    (ha : subject a = none) : memTotal new = 0 ∧ diskTotal new = 0 := by
  cases hstep with
  | rescan | scanned | search => exact ⟨rfl, rfl⟩
  | own | create | ask | post | getFile | unref | process | scan | fetch => cases ha

theorem release_cases {b : ι} {s t : State ι} {new : List (Event ι)} (hs : Sound s)
    (hstep : Step (.own .release b) s new t) :
    new = [] ∧ owed (s.phase b) (s.system.blob b) = (s.system.blob b).allocSize ∧
      owed (t.phase b) (t.system.blob b) = (s.system.blob b).file.length ∧
      (s.system.blob b).isInFile = true ∧ (t.system.blob b).isInFile = true := by
  cases hstep with
  | own _ _ p blob hown =>
      have hplaced := (hs.view b).placed
      simp only [BlobState.view] at hplaced
      generalize s.phase b = q at hown hplaced
      generalize hblob : s.system.blob b = before at hown hplaced
      cases hown with
      | release =>
          refine ⟨rfl, rfl, ?_, hplaced.2, ?_⟩
          · simp [releaseFile, owed]
          · simpa [releaseFile] using hplaced.2

theorem step_mem {a : Action ι} {s t : State ι} {new : List (Event ι)} (hs : Sound s)
    (hstep : Step a s new t) (hfetch : FetchExact a s) :
    shares memPart t = shares memPart s + memTotal new := by
  refine step_shares (fun blob => by simp [memPart]) hs hstep (fun ha => (totals_unsubjected hstep ha).1) ?_
  intro b hb
  by_cases hrelease : a = .own .release b
  · subst hrelease
    obtain ⟨rfl, -, -, hin, hin'⟩ := release_cases hs hstep
    simp [share, memPart, hin, hin']
  · exact (step_settles hs hstep hfetch hb hrelease).mem

end Libzorpll.BlobAccount
