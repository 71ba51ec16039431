import Libzorpll.BlobState

/-! What becomes of the requests, and of those that have to wait. -/

namespace Libzorpll.BlobWait

open BlobSystem BlobRun BlobLedger BlobState
open Trace (Steps)

variable {ι : Type}

/-! The life of a request -/

/-- Where the request of a blob is, by its events. -/
inductive Life
  | idle
  | asked (allocReq : Int)
  | posted (allocReq : Int)
  | served
  | granted

/-- A request is charged once for what it has asked, and if it was posted, its
owner gets one signal, with approval. -/
def next : Life → Event ι → Option Life
  | l, .moved _ _ _ => some l
  | .idle, .asked _ allocReq => some (.asked allocReq)
  | .asked allocReq, .charged _ charge _ => if charge = allocReq then some .granted else none
  | .asked allocReq, .posted _ => some (.posted allocReq)
  | .posted allocReq, .charged _ charge _ => if charge = allocReq then some .served else none
  | .served, .signalled _ true => some .granted
  | .granted, .completed _ => some .idle
  | _, _ => none

def about : Event ι → ι
  | .asked b _ | .charged b _ _ | .moved b _ _ | .posted b | .signalled b _ | .completed b => b

def lifeOf : Phase → SystemBlob → Life
  | .denied _, blob => .asked blob.allocReq
  | .waiting _, blob => if blob.replied then .granted else .posted blob.allocReq
  | .granted _, _ => .granted
  | _, _ => .idle

theorem lifeOf_own {a : OwnAction} {p p' : Phase} {blob blob' : SystemBlob} (b : ι)
    (h : OwnStep a p blob p' blob') :
    (ownEvents b a).foldl (fun l e => l.bind (next · e)) (some (lifeOf p blob)) = some (lifeOf p' blob') := by
  cases h with
  | wake size hreplied => simp [ownEvents, lifeOf, hreplied]
  | finish now size =>
      split <;> rfl
  | storageLock st hp => obtain rfl | rfl | rfl := hp <;> rfl
  | enter | lock | unlock | write | edit | release | forget => rfl

variable [DecidableEq ι]

def follow (b : ι) (l : Option Life) (e : Event ι) : Option Life :=
  if about e = b then l.bind (next · e) else l

/-- Where the request of a blob is after all its events, if they are in order. -/
def history (b : ι) (es : List (Event ι)) : Option Life := es.foldl (follow b) (some .idle)

theorem foldl_follow_about {b : ι} {es : List (Event ι)} (h : ∀ e ∈ es, about e = b) (l : Option Life) :
    es.foldl (follow b) l = es.foldl (fun l e => l.bind (next · e)) l := by
  induction es generalizing l with
  | nil => rfl
  | cons e es ih =>
      rw [List.foldl_cons, List.foldl_cons, follow, if_pos (h e List.mem_cons_self)]
      exact ih (fun e he => h e (List.mem_cons_of_mem _ he)) _

theorem foldl_follow_other {b c : ι} (hc : c ≠ b) {es : List (Event ι)} (h : ∀ e ∈ es, about e = b)
    (l : Option Life) : es.foldl (follow c) l = l := by
  induction es generalizing l with
  | nil => rfl
  | cons e es ih =>
      have hne : about e ≠ c := fun heq => hc (heq.symm.trans (h e List.mem_cons_self))
      rw [List.foldl_cons, follow, if_neg hne]
      exact ih (fun e he => h e (List.mem_cons_of_mem _ he)) l

theorem checked_about {b : ι} {s t : ZBlobSystem ι} {success : Bool} {es : List (Event ι)}
    (h : Checked b s success es t) : ∀ e ∈ es, about e = b := by
  cases h <;> simp [about]

theorem answer_about {b : ι} {s t : ZBlobSystem ι} {success : Bool} {charges : List (Event ι)}
    (h : Checked b s success charges t) : ∀ e ∈ charges ++ signals success b, some b = some (about e) := by
  intro e he
  obtain he | he := List.mem_append.mp he
  · exact congrArg some (checked_about h e he).symm
  · cases success with
    | true =>
        obtain rfl := List.mem_singleton.mp he
        rfl
    | false => cases he

/-- The charge of a request that is granted. -/
theorem checked_follows {b : ι} {s t : ZBlobSystem ι} {success : Bool} {es : List (Event ι)}
    (h : Checked b s success es t) :
    es.foldl (fun l e => l.bind (next · e)) (some (.asked (s.blob b).allocReq)) =
        some (if success then .granted else .asked (s.blob b).allocReq) ∧
      es.foldl (fun l e => l.bind (next · e)) (some (.posted (s.blob b).allocReq)) =
        some (if success then .served else .posted (s.blob b).allocReq) := by
  cases h <;> simp [next]

theorem step_about {a : Action ι} {s t : State ι} {new : List (Event ι)} (hstep : Step a s new t) :
    ∀ e ∈ new, subject a = some (about e) := by
  cases hstep with
  | own a b => cases a <;> simp [ownEvents, subject, about]
  | create | rescan | scanned | search => exact nofun
  | ask env b reqSize size success events system hphase hfree hreq hsize hne hask =>
      obtain ⟨charges, hcheck, rfl⟩ := askAlloc_checked hask
      intro e he
      obtain rfl | he := List.mem_cons.mp he
      · rfl
      · exact congrArg some (checked_about hcheck e he).symm
  | post b => simp [postRequest, subject, about]
  | getFile env b success resolved events system hphase hlock hfree hget =>
      obtain ⟨-, rfl, -⟩ | ⟨-, -, rfl, -⟩ := getFile_cases hget
      · exact nofun
      · simp [subject, about]
  | unref env b events system hphase hfree hunref =>
      obtain ⟨success, charges, hcheck, rfl⟩ := unref_checked hunref
      intro e he
      obtain he | he := List.mem_append.mp he
      · obtain rfl | he := List.mem_cons.mp he
        · rfl
        · exact congrArg some (checked_about hcheck e he).symm
      · obtain rfl := List.mem_singleton.mp he
        rfl
  | process env b rest events system hfree hqueue hprocess =>
      obtain ⟨success, charges, mid, hcheck, rfl, -⟩ := processRequest_checked hprocess
      exact answer_about hcheck
  | scan env b cur events system hscan hscanned =>
      obtain ⟨success, charges, mid, hcheck, rfl, -⟩ := scanRequest_checked hscanned
      exact answer_about hcheck
  | fetch env b events system hfetch hin =>
      obtain ⟨-, rfl⟩ | ⟨-, rfl, -⟩ := fetchStep_cases hin
      · exact nofun
      · simp [subject, about]

/-- The answer of a posted request. -/
theorem answer_follows {s : State ι} (hs : Sound s) {b : ι} {success : Bool} {charges : List (Event ι)}
    {popped mid t : ZBlobSystem ι}
    (hlisted : 0 < s.system.reqQueue.count (.request b) + s.system.waitingList.count b)
    (hblob : popped.blob = s.system.blob) (hcheck : Checked b popped success charges mid)
    (ht : t.blob = (answered success b mid).blob) :
    (charges ++ signals success b).foldl (fun l e => l.bind (next · e))
        (some (lifeOf (s.phase b) (s.system.blob b))) = some (lifeOf (s.phase b) (t.blob b)) := by
  obtain ⟨size, hphase, hreplied, -⟩ := hs.pending hlisted
  have hbefore : lifeOf (s.phase b) (s.system.blob b) = .posted (popped.blob b).allocReq := by
    simp [hphase, lifeOf, hreplied, hblob]
  have hmid : (mid.blob b).replied = false := by rw [hcheck.frame.replied, hblob, hreplied]
  rw [hbefore, List.foldl_append, (checked_follows hcheck).2, ht, hphase]
  cases success with
  | true => simp [signals, next, answered, lifeOf]
  | false => simp [signals, answered, lifeOf, hmid, hcheck.frame.allocReq]

theorem step_follows {a : Action ι} {s t : State ι} {new : List (Event ι)} (hs : Sound s)
    (hstep : Step a s new t) {b : ι} (hb : subject a = some b) :
    new.foldl (fun l e => l.bind (next · e)) (some (lifeOf (s.phase b) (s.system.blob b))) =
      some (lifeOf (t.phase b) (t.system.blob b)) := by
  cases hstep with
  | own a b p blob hown =>
      cases hb
      simpa using lifeOf_own b hown
  | create b now hphase =>
      cases hb
      simp [hphase, lifeOf]
  | ask env b reqSize size success events system hphase hfree hreq hsize hne hask =>
      cases hb
      obtain ⟨charges, hcheck, rfl⟩ := askAlloc_checked hask
      have hidle : lifeOf (s.phase b) (s.system.blob b) = .idle := by
        obtain hp | hp := hphase <;> rw [hp] <;> rfl
      have hfollows := (checked_follows hcheck).1
      simp only [asking, setBlob_blob, Function.update_self] at hfollows
      rw [hidle, List.foldl_cons, Option.bind_some, next, hfollows]
      cases success with
      | true => simp [lifeOf]
      | false => simp [lifeOf, hcheck.frame.allocReq, asking]
  | post b size hphase =>
      cases hb
      simp [postRequest, hphase, lifeOf, next]
  | getFile env b success resolved events system hphase hlock hfree hget =>
      cases hb
      have hidle : lifeOf (if success && resolved then .filed else .idle)
          { system.blob b with locked := success && resolved } = .idle := by
        split <;> rfl
      simp only [Function.update_self, setBlob_blob, hphase, hidle]
      obtain ⟨-, rfl, -⟩ | ⟨-, -, rfl, -⟩ := getFile_cases hget <;> rfl
  | unref env b events system hphase hfree hunref =>
      cases hb
      obtain ⟨success, charges, hcheck, rfl⟩ := unref_checked hunref
      have hidle : lifeOf (s.phase b) (s.system.blob b) = .idle := by
        obtain hp | hp := hphase <;> rw [hp] <;> rfl
      have hgranted : success = true := hcheck.granted (by simp [leaving])
      have hfollows := (checked_follows hcheck).1
      simp only [leaving, setBlob_blob, Function.update_self, hgranted, if_true] at hfollows
      rw [hidle, List.cons_append, List.foldl_cons, List.foldl_append, Option.bind_some, next, hfollows]
      simp [next, lifeOf]
  | process env b rest events system hfree hqueue hprocess =>
      cases hb
      obtain ⟨success, charges, mid, hcheck, rfl, rfl⟩ := processRequest_checked hprocess
      refine answer_follows hs ?_ ?_ hcheck rfl
      · rw [hqueue, List.count_cons_self]
        omega
      · rfl
  | scan env b cur events system hscan hscanned =>
      cases hb
      obtain ⟨success, charges, mid, hcheck, rfl, rfl⟩ := scanRequest_checked hscanned
      exact answer_follows hs (Nat.add_pos_right _ (hs.scanned_count hscan)) rfl hcheck rfl
  | fetch env b events system hfetch hin =>
      cases hb
      have hframe := fetchStep_frame hin
      have hsame : lifeOf (s.phase b) (system.blob b) = lifeOf (s.phase b) (s.system.blob b) := by
        cases s.phase b with
        | denied => simp only [lifeOf, hframe.allocReq]
        | waiting => simp only [lifeOf, hframe.allocReq, hframe.replied]
        | absent | starting | idle | holding | filed | granted => rfl
      rw [hsame]
      obtain ⟨-, rfl⟩ | ⟨-, rfl, -⟩ := fetchStep_cases hin <;> rfl
  | rescan | scanned | search => cases hb

theorem history_step {a : Action ι} {s t : State ι} {es new : List (Event ι)} (hs : Sound s)
    (hstep : Step a s new t) {b : ι}
    (h : history b es = some (lifeOf (s.phase b) (s.system.blob b))) :
    history b (es ++ new) = some (lifeOf (t.phase b) (t.system.blob b)) := by
  have habout := step_about hstep
  rw [history, List.foldl_append, ← history, h]
  by_cases hb : subject a = some b
  · rw [foldl_follow_about]
    · exact step_follows hs hstep hb
    · intro e he
      exact Option.some.inj ((habout e he).symm.trans hb)
  · have hview := step_other hstep hb
    simp only [view, View.mk.injEq] at hview
    rw [hview.2.1, hview.2.2.1]
    cases ha : subject a with
    | none =>
        cases new with
        | nil => rfl
        | cons e new =>
            have hsome := habout e List.mem_cons_self
            rw [ha] at hsome
            cases hsome
    | some c =>
        apply foldl_follow_other (b := c)
        · intro heq
          exact hb (ha.trans (congrArg some heq.symm))
        · intro e he
          exact Option.some.inj ((habout e he).symm.trans ha)

/-! Requests on the waiting list -/

/-- The grant condition of z_blob_check_alloc, where so much is available. -/
def Fits (mem disk : Nat) (blob : SystemBlob) : Prop :=
  blob.isInFile = true ∨ blob.allocReq < 0 ∨ toUInt64 blob.allocReq ≤ mem ∨
    (blob.storageLocked = false ∧ toUInt64 (blob.allocSize + blob.allocReq) ≤ disk)

def Grantable (s : ZBlobSystem ι) (b : ι) : Prop := Fits (memAvailable s) (diskAvailable s) (s.blob b)

theorem checked_grantable {b : ι} {s t : ZBlobSystem ι} {success : Bool} {es : List (Event ι)}
    (h : Checked b s success es t) : success = true ↔ Grantable s b := by
  cases h with
  | inFile hin => exact ⟨fun _ => .inl hin, fun _ => rfl⟩
  | inMemory hout hfits =>
      refine ⟨fun _ => ?_, fun _ => rfl⟩
      obtain hneg | hfits := hfits
      · exact .inr (.inl hneg)
      · exact .inr (.inr (.inl hfits))
  | moved now file hout hgrows hfull hopen hfits =>
      exact ⟨fun _ => .inr (.inr (.inr ⟨hopen, hfits⟩)), fun _ => rfl⟩
  | denied hout hgrows hfull hclosed =>
      refine ⟨nofun, fun hfits => ?_⟩
      obtain hin | hneg | hmem | ⟨hopen, hdisk⟩ := hfits
      · rw [hout] at hin
        exact hin
      · omega
      · omega
      · obtain hlocked | hdisk' := hclosed
        · rw [hopen] at hlocked
          cases hlocked
        · omega

/-- A scan of the waiting list is due, or none of the requests on it, but for
those in `cur`, fits when there is so much more memory and disk. -/
def NoneFits (mem disk : Int) (cur : List ι) (s : ZBlobSystem ι) : Prop :=
  .memFreed ∈ s.reqQueue ∨ ∀ w ∈ s.waitingList, w ∉ cur →
    ¬Fits (toUInt64 (s.memMax - s.memUsed + mem)) (toUInt64 (s.diskMax - s.diskUsed + disk)) (s.blob w)

theorem Fits.mono {mem mem' disk disk' : Nat} {blob : SystemBlob} (h : Fits mem disk blob)
    (hmem : mem ≤ mem') (hdisk : disk ≤ disk') : Fits mem' disk' blob := by
  obtain hin | hneg | hfits | ⟨hopen, hfits⟩ := h
  · exact .inl hin
  · exact .inr (.inl hneg)
  · exact .inr (.inr (.inl (Nat.le_trans hfits hmem)))
  · exact .inr (.inr (.inr ⟨hopen, Nat.le_trans hfits hdisk⟩))

/-- Whether a request is granted by a move to the disk. -/
def MovesOut (s : ZBlobSystem ι) (b : ι) (allocReq : Int) : Prop :=
  (s.blob b).isInFile = false ∧ 0 ≤ allocReq ∧ memAvailable s < toUInt64 allocReq ∧
    (s.blob b).storageLocked = false ∧ toUInt64 ((s.blob b).allocSize + allocReq) ≤ diskAvailable s

omit [DecidableEq ι] in
/-- What waits under both states waits on where nothing more is available. -/
theorem NoneFits.congr {mem disk mem' disk' : Int} {cur cur' : List ι} {s t : ZBlobSystem ι}
    (h : NoneFits mem disk cur s) (hqueue : .memFreed ∈ s.reqQueue → .memFreed ∈ t.reqQueue)
    (hmem : toUInt64 (t.memMax - t.memUsed + mem') ≤ toUInt64 (s.memMax - s.memUsed + mem))
    (hdisk : toUInt64 (t.diskMax - t.diskUsed + disk') ≤ toUInt64 (s.diskMax - s.diskUsed + disk))
    (hwait : ∀ w ∈ t.waitingList, w ∉ cur' → w ∈ s.waitingList ∧ w ∉ cur ∧ t.blob w = s.blob w) :
    NoneFits mem' disk' cur' t := by
  obtain hdue | hnone := h
  · exact .inl (hqueue hdue)
  · right
    intro w hw hcur hfits
    obtain ⟨hs, hcur, hblob⟩ := hwait w hw hcur
    rw [hblob] at hfits
    exact hnone w hs hcur (hfits.mono hmem hdisk)

theorem toUInt64_sub_le {x r : Int} (h : toUInt64 r ≤ toUInt64 x) : toUInt64 (x - r) ≤ toUInt64 x := by
  unfold toUInt64 at h ⊢
  omega

theorem toUInt64_sub (x y z : Int) : toUInt64 (x - toUInt64 y + z) = toUInt64 (x - y + z) := by
  unfold toUInt64
  omega

omit [DecidableEq ι] in
theorem announce_due {r : Int} (hr : r < 0) (s : ZBlobSystem ι) : .memFreed ∈ (announce r s).reqQueue := by
  rw [announce, if_pos hr]
  exact List.mem_append_right _ List.mem_cons_self

/-- A check leaves all other requests waiting, where those wait on that a move
or a growth in the file does not help. -/
theorem Checked.noneFits {b : ι} {s t : ZBlobSystem ι} {success : Bool} {es : List (Event ι)}
    (h : Checked b s success es t) {cur cur' : List ι} (hleft : NoneFits 0 0 cur s)
    (hfile : (s.blob b).isInFile = true → 0 ≤ (s.blob b).allocReq → NoneFits 0 (-(s.blob b).allocReq) cur s)
    (hmoved : MovesOut s b (s.blob b).allocReq →
      NoneFits (s.blob b).allocSize (-((s.blob b).allocSize + (s.blob b).allocReq)) cur s)
    (hcur : ∀ w ∈ s.waitingList, w ∉ cur' → w ∉ cur ∧ w ≠ b) : NoneFits 0 0 cur' t := by
  have hframe := h.frame
  have hwait : ∀ w ∈ t.waitingList, w ∉ cur' → w ∈ s.waitingList ∧ w ∉ cur ∧ t.blob w = s.blob w := by
    intro w hw hnot
    rw [hframe.waitingList] at hw
    obtain ⟨hkept, hne⟩ := hcur w hw hnot
    exact ⟨hw, hkept, hframe.other w hne⟩
  have hqueue : .memFreed ∈ s.reqQueue → .memFreed ∈ t.reqQueue := by
    intro hdue
    obtain ⟨n, hn⟩ := hframe.reqQueue
    rw [hn]
    exact List.mem_append_left _ hdue
  have hdiskMax := hframe.diskMax
  have hmemMax := hframe.memMax
  cases h with
  | inFile hin =>
      by_cases hneg : (s.blob b).allocReq < 0
      · exact .inl (announce_due hneg _)
      · refine (hfile hin (Int.not_lt.mp hneg)).congr hqueue ?_ ?_ hwait
        · rw [hmemMax, announce_memUsed]
          exact Nat.le_refl _
        · rw [hdiskMax, announce_diskUsed, addDisk_diskUsed]
          have heq : (s.diskMax : Int) - (s.diskUsed + (s.blob b).allocReq) + 0 =
              s.diskMax - s.diskUsed + -(s.blob b).allocReq := by omega
          exact Nat.le_of_eq (congrArg toUInt64 heq)
  | inMemory hout hfits =>
      by_cases hneg : (s.blob b).allocReq < 0
      · exact .inl (announce_due hneg _)
      · refine hleft.congr hqueue ?_ ?_ hwait
        · have hle : toUInt64 (s.blob b).allocReq ≤ toUInt64 (s.memMax - s.memUsed + 0) := by
            rw [Int.add_zero]
            exact hfits.resolve_left hneg
          have hsub := toUInt64_sub_le hle
          rw [hmemMax, announce_memUsed, addMem_memUsed, toUInt64_sub]
          have heq : (s.memMax : Int) - (s.memUsed + (s.blob b).allocReq) + 0 =
              s.memMax - s.memUsed + 0 - (s.blob b).allocReq := by omega
          rw [heq]
          exact hsub
        · rw [hdiskMax, announce_diskUsed]
          exact Nat.le_refl _
  | moved now file hout hgrows hfull hopen hfits =>
      refine (hmoved ⟨hout, hgrows, hfull, hopen, hfits⟩).congr hqueue ?_ ?_ hwait
      · have hused : (addDisk (s.blob b).allocReq (swappedOut now file b s)).memUsed =
            toUInt64 (s.memUsed + -(s.blob b).allocSize) := rfl
        rw [hmemMax, hused, toUInt64_sub]
        have heq : (s.memMax : Int) - (s.memUsed + -(s.blob b).allocSize) + 0 =
            s.memMax - s.memUsed + (s.blob b).allocSize := by omega
        exact Nat.le_of_eq (congrArg toUInt64 heq)
      · have hused : (addDisk (s.blob b).allocReq (swappedOut now file b s)).diskUsed =
            s.diskUsed + (s.blob b).allocSize + (s.blob b).allocReq := rfl
        rw [hdiskMax, hused]
        have heq : (s.diskMax : Int) - (s.diskUsed + (s.blob b).allocSize + (s.blob b).allocReq) + 0 =
            s.diskMax - s.diskUsed + -((s.blob b).allocSize + (s.blob b).allocReq) := by omega
        exact Nat.le_of_eq (congrArg toUInt64 heq)
  | denied => exact hleft.congr hqueue (Nat.le_refl _) (Nat.le_refl _) hwait

/-- What frees space without a message for the waiting list frees too little
for every request on it: a growth in a file, beyond the end of the disk, and
the moves between memory and disk. -/
def HelpsNone : Action ι → State ι → Prop
  | .ask _ size b, s =>
      ((s.system.blob b).isInFile = true → (s.system.blob b).allocSize ≤ size →
        NoneFits 0 (-(size - (s.system.blob b).allocSize)) (scans s.manager) s.system) ∧
      (MovesOut s.system b (size - (s.system.blob b).allocSize) →
        NoneFits (s.system.blob b).allocSize (-size) (scans s.manager) s.system)
  | .getFile _ b, s => (s.system.blob b).isInFile = false → (s.system.blob b).storageLocked = false →
      NoneFits (s.system.blob b).allocSize (-(s.system.blob b).allocSize) (scans s.manager) s.system
  | .process _ b, s | .scan _ b, s => MovesOut s.system b (s.system.blob b).allocReq →
      NoneFits (s.system.blob b).allocSize (-((s.system.blob b).allocSize + (s.system.blob b).allocReq))
        (scans s.manager) s.system
  | .fetch _ b, s => Fetched s.system b →
      NoneFits (-(s.system.blob b).allocSize) (s.system.blob b).allocSize (scans s.manager) s.system
  | _, _ => True

omit [DecidableEq ι] in
/-- Where the counters and the list stay, and the blobs on it. -/
theorem NoneFits.keeps {mem disk : Int} {cur : List ι} {s t : ZBlobSystem ι}
    (h : NoneFits mem disk cur s) (hqueue : .memFreed ∈ s.reqQueue → .memFreed ∈ t.reqQueue)
    (hmem : t.memMax = s.memMax ∧ t.memUsed = s.memUsed)
    (hdisk : t.diskMax = s.diskMax ∧ t.diskUsed = s.diskUsed) (hlist : t.waitingList = s.waitingList)
    (hblob : ∀ w ∈ s.waitingList, t.blob w = s.blob w) : NoneFits mem disk cur t := by
  refine h.congr hqueue ?_ ?_ ?_
  · exact Nat.le_of_eq (by rw [hmem.1, hmem.2])
  · exact Nat.le_of_eq (by rw [hdisk.1, hdisk.2])
  · intro w hw hcur
    rw [hlist] at hw
    exact ⟨hw, hcur, hblob w hw⟩

/-- Where one blob that does not wait is another one behind the step. -/
theorem NoneFits.beside {mem disk : Int} {cur : List ι} {s t : ZBlobSystem ι} {b : ι} {blob : SystemBlob}
    (h : NoneFits mem disk cur s) (hne : ∀ w ∈ s.waitingList, w ≠ b)
    (hqueue : .memFreed ∈ s.reqQueue → .memFreed ∈ t.reqQueue)
    (hmem : t.memMax = s.memMax ∧ t.memUsed = s.memUsed)
    (hdisk : t.diskMax = s.diskMax ∧ t.diskUsed = s.diskUsed) (hlist : t.waitingList = s.waitingList)
    (hblob : t.blob = Function.update s.blob b blob) : NoneFits mem disk cur t := by
  refine h.keeps hqueue hmem hdisk hlist ?_
  intro w hw
  rw [hblob]
  exact Function.update_of_ne (hne w hw) _ _

theorem Sound.waits_ne {s : State ι} (h : Sound s) {b : ι}
    (hun : unanswered (s.phase b) (s.system.blob b) = false) : ∀ w ∈ s.system.waitingList, w ≠ b := by
  intro w hw heq
  have hzero := (h.unlisted hun).2
  rw [← heq] at hzero
  exact Nat.ne_of_gt (List.count_pos_iff.mpr hw) hzero

/-- The same with a check that answers a listed request: it leaves the list, or
it is denied. -/
theorem answer_noneFits {s : State ι} (hs : Sound s) {b : ι} {success : Bool} {charges : List (Event ι)}
    {popped mid : ZBlobSystem ι} {cur cur' l : List ι}
    (hlisted : 0 < s.system.reqQueue.count (.request b) + s.system.waitingList.count b)
    (hblob : popped.blob = s.system.blob) (hcheck : Checked b popped success charges mid)
    (hleft : NoneFits 0 0 cur popped)
    (hmoved : MovesOut popped b (popped.blob b).allocReq →
      NoneFits (popped.blob b).allocSize (-((popped.blob b).allocSize + (popped.blob b).allocReq)) cur popped)
    (hcur : ∀ w, w ∉ cur' → w ≠ b → w ∉ cur)
    (hl : ∀ w ∈ l, (w = b → success = false) ∧ (w ≠ b → w ∈ popped.waitingList)) :
    NoneFits 0 0 cur' { answered success b mid with waitingList := l } := by
  obtain ⟨size, -, -, hpending⟩ := hs.pending hlisted
  rw [← hblob] at hpending
  have hrest : NoneFits 0 0 (b :: cur') mid := by
    refine Checked.noneFits hcheck hleft ?_ hmoved ?_
    · intro hin
      exact absurd (hin.symm.trans hpending.isInFile) (by decide)
    · intro w _ hw
      rw [List.mem_cons, not_or] at hw
      exact ⟨hcur w hw.2 hw.1, hw.1⟩
  obtain hdue | hnone := hrest
  · exact .inl hdue
  · right
    intro w hw hnot
    obtain ⟨hself, hother⟩ := hl w hw
    by_cases hb : w = b
    · subst hb
      have hdenied : ¬Grantable popped w := by
        rw [← checked_grantable hcheck, hself rfl]
        exact nofun
      rw [hself rfl] at hcheck
      cases hcheck with
      | denied =>
          intro hfits
          apply hdenied
          simpa [answered, Grantable, Fits, memAvailable, diskAvailable] using hfits
    · have hwaits : w ∈ mid.waitingList := hcheck.frame.waitingList ▸ hother hb
      have hfits := hnone w hwaits (by rw [List.mem_cons, not_or]; exact ⟨hb, hnot⟩)
      simpa [answered, Function.update_of_ne hb] using hfits

omit [DecidableEq ι] in
/-- A move between memory and disk makes as much room in one as it takes in
the other. -/
theorem noneFits_moved {s t : ZBlobSystem ι} {b : ι} {cur : List ι} {x : Int} (hframe : Frame b s t)
    (hmem : t.memUsed = toUInt64 (s.memUsed - x)) (hdisk : t.diskUsed = s.diskUsed + x)
    (h : NoneFits x (-x) cur s) (hne : ∀ w ∈ s.waitingList, w ≠ b) : NoneFits 0 0 cur t := by
  refine h.congr ?_ ?_ ?_ ?_
  · intro hdue
    obtain ⟨n, hn⟩ := hframe.reqQueue
    rw [hn]
    exact List.mem_append_left _ hdue
  · have heq : (s.memMax : Int) - (s.memUsed - x) + 0 = s.memMax - s.memUsed + x := by omega
    exact Nat.le_of_eq (by rw [hframe.memMax, hmem, toUInt64_sub, heq])
  · have heq : (s.diskMax : Int) - (s.diskUsed + x) + 0 = s.diskMax - s.diskUsed + -x := by omega
    exact Nat.le_of_eq (by rw [hframe.diskMax, hdisk, heq])
  · intro w hw hcur
    rw [hframe.waitingList] at hw
    exact ⟨hw, hcur, hframe.other w (hne w hw)⟩

theorem noneFits_swappedOut {s : ZBlobSystem ι} {b : ι} {cur : List ι}
    (h : NoneFits (s.blob b).allocSize (-(s.blob b).allocSize) cur s) (hne : ∀ w ∈ s.waitingList, w ≠ b)
    (now : Int) (file : List UInt8) : NoneFits 0 0 cur (swappedOut now file b s) :=
  noneFits_moved (frame_swappedOut now file b s) rfl rfl h hne

theorem noneFits_fetchedIn {s : ZBlobSystem ι} {b : ι} {cur : List ι}
    (h : NoneFits (-(s.blob b).allocSize) (s.blob b).allocSize cur s) (hne : ∀ w ∈ s.waitingList, w ≠ b)
    (now : Int) (data : List UInt8) : NoneFits 0 0 cur (fetchedIn now data b s) := by
  refine noneFits_moved (frame_fetchedIn now data b s) ?_ rfl ?_ hne
  · rw [Int.sub_neg]
    rfl
  · rwa [Int.neg_neg]

theorem askAlloc_noneFits {s : State ι} (hs : Sound s) {env : Env} {b : ι} {size : Nat} {success : Bool}
    {events : List (Event ι)} {system : ZBlobSystem ι} (hphase : s.phase b = .starting ∨ s.phase b = .holding)
    (hask : askAlloc env size b s.system = .ok (success, events, system)) (hhelps : HelpsNone (.ask env size b) s)
    (h : NoneFits 0 0 (scans s.manager) s.system) : NoneFits 0 0 (scans s.manager) system := by
  obtain ⟨charges, hcheck, -⟩ := askAlloc_checked hask
  have hne := Sound.waits_ne hs (b := b) (by obtain hp | hp := hphase <;> rw [hp] <;> rfl)
  have hasking : ∀ mem disk, NoneFits mem disk (scans s.manager) s.system →
      NoneFits mem disk (scans s.manager) (asking size b s.system) := by
    intro mem disk hnone
    exact hnone.beside hne id ⟨rfl, rfl⟩ ⟨rfl, rfl⟩ rfl rfl
  refine Checked.noneFits hcheck (hasking 0 0 h) ?_ ?_ ?_
  · simp only [asking, setBlob_blob, Function.update_self]
    intro hin hgrows
    exact hasking _ _ (hhelps.1 hin (by omega))
  · simp only [asking, setBlob_blob, Function.update_self]
    intro hout
    have heq : -(((s.system.blob b).allocSize : Int) + (size - (s.system.blob b).allocSize)) = -size := by
      omega
    rw [heq]
    apply hasking
    apply hhelps.2
    simpa [MovesOut, asking, memAvailable, diskAvailable] using hout
  · intro w hw hcur
    exact ⟨hcur, hne w hw⟩

/-- A blob that is freed asks for no more. -/
theorem unref_noneFits {s : State ι} (hs : Sound s) {env : Env} {b : ι} {events : List (Event ι)}
    {system : ZBlobSystem ι} (hphase : s.phase b = .idle ∨ s.phase b = .filed)
    (hunref : unref env b s.system = .ok (events, system)) (h : NoneFits 0 0 (scans s.manager) s.system) :
    NoneFits 0 0 (scans s.manager) system := by
  obtain ⟨success, charges, hcheck, -⟩ := unref_checked hunref
  have hne := Sound.waits_ne hs (b := b) (by obtain hp | hp := hphase <;> rw [hp] <;> rfl)
  have hleaving : NoneFits 0 0 (scans s.manager) (leaving b s.system) :=
    h.beside hne id ⟨rfl, rfl⟩ ⟨rfl, rfl⟩ rfl rfl
  have hzero : 0 ≤ ((leaving b s.system).blob b).allocReq → ((leaving b s.system).blob b).allocReq = 0 := by
    simp only [leaving, setBlob_blob, Function.update_self]
    omega
  refine Checked.noneFits hcheck hleaving ?_ ?_ ?_
  · intro _ hgrows
    rw [hzero hgrows]
    exact hleaving
  · rintro ⟨-, hgrows, hfull, -⟩
    rw [hzero hgrows] at hfull
    exact absurd hfull (Nat.not_lt_zero _)
  · intro w hw hcur
    exact ⟨hcur, hne w hw⟩

theorem processRequest_noneFits {s : State ι} (hs : Sound s) {env : Env} {b : ι} {rest : List (Message ι)}
    {events : List (Event ι)} {system : ZBlobSystem ι} (hfree : s.manager = .idle)
    (hqueue : s.system.reqQueue = .request b :: rest)
    (hprocess : processRequest env b { s.system with reqQueue := rest } = .ok (events, system))
    (hhelps : HelpsNone (.process env b) s) (h : NoneFits 0 0 (scans s.manager) s.system) :
    NoneFits 0 0 [] system := by
  obtain ⟨success, charges, mid, hcheck, -, rfl⟩ := processRequest_checked hprocess
  have hlisted : 0 < s.system.reqQueue.count (.request b) + s.system.waitingList.count b := by
    rw [hqueue, List.count_cons_self]
    omega
  have hwaits : s.system.waitingList.count b = 0 := by
    have hle := hs.listed_le b
    rw [hqueue, List.count_cons_self] at hle
    omega
  have hpopped : ∀ mem disk, NoneFits mem disk (scans s.manager) s.system →
      NoneFits mem disk [] { s.system with reqQueue := rest } := by
    intro mem disk hnone
    rw [hfree] at hnone
    refine hnone.keeps ?_ ⟨rfl, rfl⟩ ⟨rfl, rfl⟩ rfl (fun _ _ => rfl)
    rw [hqueue]
    intro hdue
    obtain hdue | hdue := List.mem_cons.mp hdue
    · cases hdue
    · exact hdue
  refine answer_noneFits hs hlisted ?_ hcheck (hpopped 0 0 h) (fun hout => hpopped _ _ (hhelps hout))
    (fun w hw _ => hw) ?_
  · rfl
  intro w hw
  rw [hcheck.frame.waitingList] at hw
  have hnot : w = b → w ∉ s.system.waitingList := by
    rintro rfl
    exact List.count_eq_zero.mp hwaits
  cases success with
  | true => exact ⟨fun heq => absurd hw (hnot heq), fun _ => hw⟩
  | false =>
      refine ⟨fun _ => rfl, fun hne => ?_⟩
      obtain hw | hw := List.mem_append.mp hw
      · exact hw
      · exact absurd (List.mem_singleton.mp hw) hne

theorem scanRequest_noneFits {s : State ι} (hs : Sound s) {env : Env} {b : ι} {cur : List ι}
    {events : List (Event ι)} {system : ZBlobSystem ι} (hscan : s.manager = .scanning (b :: cur))
    (hscanned : scanRequest env b s.system = .ok (events, system)) (hhelps : HelpsNone (.scan env b) s)
    (h : NoneFits 0 0 (scans s.manager) s.system) : NoneFits 0 0 cur system := by
  obtain ⟨success, charges, mid, hcheck, -, rfl⟩ := scanRequest_checked hscanned
  have hwaits := hs.scanned_count hscan
  have hscans : scans s.manager = b :: cur := by rw [hscan]; rfl
  refine answer_noneFits hs (Nat.add_pos_right _ hwaits) rfl hcheck h hhelps ?_ ?_
  · intro w hw hne
    rw [hscans, List.mem_cons, not_or]
    exact ⟨hne, hw⟩
  · intro w hw
    rw [hcheck.frame.waitingList] at hw
    cases success with
    | false => exact ⟨fun _ => rfl, fun _ => hw⟩
    | true =>
        refine ⟨?_, fun _ => List.mem_of_mem_erase hw⟩
        rintro rfl
        have hcount := List.count_pos_iff.mpr hw
        have hle := hs.listed_le w
        rw [if_pos rfl, List.count_erase_self] at hcount
        omega

theorem step_noneFits {a : Action ι} {s t : State ι} {new : List (Event ι)} (hs : Sound s)
    (hstep : Step a s new t) (hhelps : HelpsNone a s) (h : NoneFits 0 0 (scans s.manager) s.system) :
    NoneFits 0 0 (scans t.manager) t.system := by
  cases hstep with
  | own a b p blob hown =>
      have hne := Sound.waits_ne hs (ownStep_unanswered hown).1
      exact h.beside hne id ⟨rfl, rfl⟩ ⟨rfl, rfl⟩ rfl rfl
  | create b now hphase =>
      have hne := Sound.waits_ne hs (b := b) (by rw [hphase]; rfl)
      exact h.beside hne id ⟨rfl, rfl⟩ ⟨rfl, rfl⟩ rfl rfl
  | ask env b reqSize size success events system hphase hfree hreq hsize hchanges hask =>
      exact askAlloc_noneFits hs hphase hask hhelps h
  | post b size hphase =>
      have hne := Sound.waits_ne hs (b := b) (by rw [hphase]; rfl)
      exact h.beside hne (List.mem_append_left _) ⟨rfl, rfl⟩ ⟨rfl, rfl⟩ rfl rfl
  | getFile env b success resolved events system hphase hlock hfree hget =>
      have hne := Sound.waits_ne hs (b := b) (by rw [hphase]; rfl)
      have hmoved : NoneFits 0 0 (scans s.manager) system := by
        obtain ⟨rfl, -, -⟩ | ⟨hout, hopen, -, file, rfl⟩ := getFile_cases hget
        · exact h
        · exact noneFits_swappedOut (hhelps hout hopen) hne env.now file
      rw [← (getFile_frame hget).waitingList] at hne
      exact hmoved.beside hne id ⟨rfl, rfl⟩ ⟨rfl, rfl⟩ rfl rfl
  | unref env b events system hphase hfree hunref => exact unref_noneFits hs hphase hunref h
  | process env b rest events system hfree hqueue hprocess =>
      exact processRequest_noneFits hs hfree hqueue hprocess hhelps h
  | rescan rest hfree hqueue => exact .inr (fun w hw hnot => absurd hw hnot)
  | scan env b cur events system hscan hscanned => exact scanRequest_noneFits hs hscan hscanned hhelps h
  | scanned hscan =>
      rw [hscan] at h
      simp only [scans] at h
      split <;> exact h
  | search now tried hsearch =>
      rw [hsearch] at h
      cases bestBlob now tried s.system <;> exact h
  | fetch env b events system hfetch hin =>
      have hscans : scans s.manager = [] := by rw [hfetch]; rfl
      rw [hscans] at h
      obtain ⟨rfl, -⟩ | ⟨hf, -, data, rfl⟩ := fetchStep_cases hin
      · exact h
      · have hnone := hhelps hf
        rw [hscans] at hnone
        refine noneFits_fetchedIn hnone ?_ env.now data
        rintro w hw rfl
        obtain ⟨size, -, -, hpending⟩ := hs.pending (Nat.add_pos_right _ (List.count_pos_iff.mpr hw))
        exact absurd (hpending.isInFile.symm.trans hf.2.2.1) (by decide)

/-! Runs -/

theorem run_follows {dmax mmax low hiw : Nat} {es : List (Event ι)} {t : State ι}
    (h : Run (start dmax mmax low hiw) es t) :
    Sound t ∧ Ledger es t.system ∧ ∀ b, history b es = some (lifeOf (t.phase b) (t.system.blob b)) := by
  apply Steps.invariant h fun es t =>
    Sound t ∧ Ledger es t.system ∧ ∀ b, history b es = some (lifeOf (t.phase b) (t.system.blob b))
  · exact ⟨sound_start dmax mmax low hiw, ledger_start dmax mmax low hiw, fun _ => rfl⟩
  · intro a es s new t hs _ hstep
    obtain ⟨hsound, hledger, hlife⟩ := hs
    exact ⟨hsound.step hstep, hledger.step hstep, fun b => history_step hsound hstep (hlife b)⟩

theorem run_noneFits {dmax mmax low hiw : Nat} {es : List (Event ι)} {t : State ι}
    (h : Steps Step HelpsNone (start dmax mmax low hiw) es t) :
    Sound t ∧ NoneFits 0 0 (scans t.manager) t.system := by
  apply h.invariant fun _ t => Sound t ∧ NoneFits 0 0 (scans t.manager) t.system
  · exact ⟨sound_start dmax mmax low hiw, .inr nofun⟩
  · intro a es s new t hs hhelps hstep
    exact ⟨hs.1.step hstep, step_noneFits hs.1 hstep hhelps hs.2⟩

/-- In every run each request is charged once and answered once, and the
counters are what the charges and the moves have made of them. Where no space
comes free without a message that would do for a waiting request, none of them
could be granted once the queue is empty, but for those that the scan under way
has still to look at. -/
theorem requests_answered {dmax mmax low hiw : Nat} {es : List (Event ι)} {t : State ι}
    (h : Run (start dmax mmax low hiw) es t) :
    (∀ b, history b es = some (lifeOf (t.phase b) (t.system.blob b))) ∧ Ledger es t.system ∧
      (Steps Step HelpsNone (start dmax mmax low hiw) es t → t.system.reqQueue = [] →
        ∀ w ∈ t.system.waitingList, w ∉ scans t.manager → ¬Grantable t.system w) := by
  obtain ⟨-, hledger, hlife⟩ := run_follows h
  refine ⟨hlife, hledger, ?_⟩
  intro hhelps hempty w hw hcur
  obtain hdue | hnone := (run_noneFits hhelps).2
  · rw [hempty] at hdue
    cases hdue
  · have hfits := hnone w hw hcur
    rwa [Int.add_zero, Int.add_zero] at hfits

/-- One request for more than there is waits. -/
theorem requests_answered_waiting :
    ∃ t : State Unit, () ∈ t.system.waitingList ∧ ¬Grantable t.system () := by
  have hrun : Steps Step HelpsNone (start 10 10 1 2 : State Unit) [] _ := .nil _
  have hrun := hrun.snoc (.create () 0 rfl rfl) trivial
  have hrun := hrun.snoc (.ask {} () 100 100 false _ _ (.inl rfl) rfl (by decide) rfl (by decide) rfl)
    ⟨fun _ _ => .inr nofun, fun _ => .inr nofun⟩
  have hrun := hrun.snoc (.post () 100 rfl) trivial
  have hrun := hrun.snoc (.process {} () [] _ _ rfl rfl rfl) (fun _ => .inr nofun)
  have hanswered := requests_answered (hrun.mono fun _ _ _ => trivial)
  exact ⟨_, List.mem_cons_self, hanswered.2.2 hrun rfl () List.mem_cons_self nofun⟩

/-- A blob waits for more memory than is left. Another one is put into a file,
which frees the memory that it has, and nothing is in the queue. -/
theorem requests_answered_forgotten :
    ¬∀ (es : List (Event Bool)) (t : State Bool), Run (start 50 100 10 20) es t → t.system.reqQueue = [] →
      ∀ w ∈ t.system.waitingList, w ∉ scans t.manager → ¬Grantable t.system w := by
  intro hnone
  have hrun := (Run.nil (start 50 100 10 20)).snoc (.create true 0 rfl rfl)
  have hrun := hrun.snoc (.ask {} true 40 40 true _ _ (.inl rfl) rfl (by decide) rfl (by decide) rfl)
  have hrun := hrun.snoc (.own .finish true _ _ (.finish 0 40))
  have hrun := hrun.snoc (.create false 0 rfl rfl)
  have hrun := hrun.snoc (.ask {} false 70 70 false _ _ (.inl rfl) rfl (by decide) rfl (by decide) rfl)
  have hrun := hrun.snoc (.post false 70 rfl)
  have hrun := hrun.snoc (.process {} false [] _ _ rfl rfl rfl)
  have hrun := hrun.snoc (.getFile {} true true true _ _ rfl rfl (.inl rfl) rfl)
  refine hnone _ _ hrun rfl false List.mem_cons_self nofun ?_
  exact .inr (.inr (.inl (by decide)))

end Libzorpll.BlobWait
