import Mathlib.Data.List.Nodup
import Libzorpll.BlobLedger

/-! What holds of every blob in every state of a run: where its owner is, what
its request asks for, and in which of the two lists it stands. -/

namespace Libzorpll.BlobState

open Blob (Halt Transfer)
open BlobSystem BlobRun BlobLedger

theorem reqAllocSize_lt {reqSize size : Nat} {blob : Blob.Blob} (hreq : reqSize < 2 ^ 63)
    (h : Blob.reqAllocSize reqSize blob = .ok size) : size < 2 ^ 63 := by
  have hshrink : ∀ rounds x r, Blob.shrinkLoop reqSize rounds x = .ok r → r ≤ reqSize := by
    intro rounds
    induction rounds with
    | zero => intro x r h; cases h
    | succ rounds ih =>
        intro x r h
        rw [Blob.shrinkLoop] at h
        split at h
        · exact ih _ _ h
        · rename_i hle
          cases h
          exact Nat.le_of_not_lt hle
  have hgrow : ∀ rounds x r, x < 2 ^ 63 → Blob.growLoop reqSize rounds x = .ok r → r < 2 ^ 63 := by
    intro rounds
    induction rounds with
    | zero => intro x r _ h; cases h
    | succ rounds ih =>
        intro x r hx h
        rw [Blob.growLoop] at h
        split at h
        · split at h
          · cases h
          · rename_i hdouble
            exact ih _ _ (Nat.lt_of_not_le hdouble) h
        · cases h
          exact hx
  unfold Blob.reqAllocSize at h
  split at h
  · cases h
    exact hreq
  · split at h
    · rename_i x hx
      exact hgrow 64 x size (Nat.lt_of_le_of_lt (hshrink _ _ _ hx) hreq) h
    · cases h

/-- A write inside of the allocated size leaves it, and the blob where it is. -/
theorem addCopy_keeps {now : Int} {io : List Transfer} {pos written : Nat} {data : List UInt8}
    {blob moved : Blob.Blob} (hinside : pos + data.length ≤ blob.allocSize)
    (h : Blob.addCopy now none io pos data blob = .ok (written, moved)) :
    moved.allocSize = blob.allocSize ∧ moved.isInFile = blob.isInFile := by
  unfold Blob.addCopy at h
  rw [if_neg (Nat.not_lt.mpr hinside)] at h
  split at h
  · cases h
  · by_cases hin : blob.isInFile = true
    · simp only [hin, if_true] at h
      split at h
      · cases h
      · rename_i hwrite
        obtain ⟨⟨n, file⟩, -, hresult⟩ := Run.map_ok hwrite
        cases hresult
        cases h
        exact ⟨rfl, hin.symm⟩
    · simp only [if_neg hin] at h
      split at h
      · cases h
      · rename_i hwrite
        split at hwrite
        · cases hwrite
        · cases hwrite
          cases h
          exact ⟨rfl, rfl⟩

/-! One blob and its owner -/

/-- Whether the owner waits for an answer that has not come. -/
def unanswered : Phase → SystemBlob → Bool
  | .waiting _, blob => !blob.replied
  | _, _ => false

/-- What a request asks for that the check has denied. -/
structure Pending (size : Nat) (blob : SystemBlob) : Prop where
  isInFile : blob.isInFile = false
  allocReq : blob.allocReq = size - blob.allocSize
  grows : blob.allocSize ≤ size
  bounded : size < 2 ^ 63

def Placed : Phase → SystemBlob → Prop
  | .holding, blob => blob.locked = true
  | .filed, blob => blob.locked = true ∧ blob.isInFile = true
  | .denied size, blob => Pending size blob
  | .waiting size, blob =>
      (blob.replied = true → blob.approved = true) ∧ (blob.replied = false → Pending size blob)
  | _, _ => True

theorem ownStep_absent {a : OwnAction} {p p' : Phase} {blob blob' : SystemBlob}
    (h : OwnStep a p blob p' blob') : p ≠ .absent ∧ p' ≠ .absent := by
  cases h with
  | finish now size => refine ⟨nofun, ?_⟩; split <;> exact nofun
  | storageLock st hp => obtain rfl | rfl | rfl := hp <;> exact ⟨nofun, nofun⟩
  | enter | lock | unlock | wake | write | edit | release | forget => exact ⟨nofun, nofun⟩

theorem ownStep_unanswered {a : OwnAction} {p p' : Phase} {blob blob' : SystemBlob}
    (h : OwnStep a p blob p' blob') : unanswered p blob = false ∧ unanswered p' blob' = false := by
  cases h with
  | wake size hreplied => exact ⟨by simp [unanswered, hreplied], rfl⟩
  | finish now size => refine ⟨rfl, ?_⟩; split <;> rfl
  | storageLock st hp => obtain rfl | rfl | rfl := hp <;> exact ⟨rfl, rfl⟩
  | enter | lock | unlock | write | edit | release | forget => exact ⟨rfl, rfl⟩

theorem ownStep_placed {a : OwnAction} {p p' : Phase} {blob blob' : SystemBlob}
    (h : OwnStep a p blob p' blob') (hp : Placed p blob) : Placed p' blob' := by
  cases h with
  | lock => rfl
  | finish now size =>
      split
      · rename_i hlocked
        exact hlocked
      · trivial
  | write | edit => exact hp
  | storageLock st hidle => obtain rfl | rfl | rfl := hidle <;> exact hp
  | enter | unlock | wake | release | forget => trivial

/-! All blobs -/

variable {ι : Type} [DecidableEq ι]

/-- What a state has of one blob. -/
structure View where
  present : Bool
  phase : Phase
  blob : SystemBlob
  requests : Nat
  waits : Nat

def view (s : ZBlobSystem ι) (phase : ι → Phase) (b : ι) : View where
  present := decide (b ∈ s.blobs)
  phase := phase b
  blob := s.blob b
  requests := s.reqQueue.count (.request b)
  waits := s.waitingList.count b

structure View.Sound (v : View) : Prop where
  present : v.present = true ↔ v.phase ≠ .absent
  placed : Placed v.phase v.blob
  listed : v.requests + v.waits = (unanswered v.phase v.blob).toNat

def scans : Manager ι → List ι
  | .scanning cur => cur
  | _ => []

structure Sound (s : State ι) : Prop where
  nodup : s.system.blobs.Nodup
  view : ∀ b, (view s.system s.phase b).Sound
  scans : (scans s.manager).Sublist s.system.waitingList
  fetches : ∀ b, s.manager = .fetching b → b ∈ s.system.blobs

/-- The blob that an action is about. -/
def subject : Action ι → Option ι
  | .own _ b | .create b | .ask _ _ b | .post b | .getFile _ b | .unref _ b => some b
  | .process _ b | .scan _ b | .fetch _ b => some b
  | .rescan | .scanned | .search => none

theorem Frame.requests {b : ι} {s t : ZBlobSystem ι} (h : Frame b s t) (c : ι) :
    t.reqQueue.count (.request c) = s.reqQueue.count (.request c) := by
  obtain ⟨n, hn⟩ := h.reqQueue
  rw [hn, List.count_append, List.count_replicate]
  simp

theorem frame_view {b : ι} {s t : ZBlobSystem ι} (h : Frame b s t) {phase phase' : ι → Phase}
    {c : ι} (hc : c ≠ b) (hphase : phase' c = phase c) : view t phase' c = view s phase c := by
  simp only [view, h.blobs, h.other c hc, h.waitingList, Frame.requests h c, hphase]

/-- A step leaves all other blobs as they are. -/
theorem step_other {a : Action ι} {s t : State ι} {es : List (Event ι)} (h : Step a s es t) {c : ι}
    (hc : subject a ≠ some c) : view t.system t.phase c = view s.system s.phase c := by
  have hother : ∀ b, subject a = some b → c ≠ b := by
    intro b hb heq
    exact hc (heq ▸ hb)
  cases h with
  | own a b p blob hown =>
      have hne := hother b rfl
      simp [view, Function.update_of_ne hne]
  | create b now =>
      have hne := hother b rfl
      simp [view, register, hne]
  | ask env b reqSize size success events system hphase hfree hreq hsize hne hask =>
      have hne := hother b rfl
      obtain ⟨charges, hcheck, -⟩ := askAlloc_checked hask
      rw [frame_view hcheck.frame hne (Function.update_of_ne hne _ _)]
      simp [view, asking, Function.update_of_ne hne]
  | post b size =>
      have hne := hother b rfl
      simp [view, postRequest, Function.update_of_ne hne, hne.symm, List.count_append]
  | getFile env b success resolved events system hphase hlock hfree hget =>
      have hne := hother b rfl
      rw [← frame_view (getFile_frame hget) hne rfl]
      simp [view, Function.update_of_ne hne]
  | unref env b events system hphase hfree hunref =>
      have hne := hother b rfl
      obtain ⟨success, charges, hcheck, -⟩ := unref_checked hunref
      rw [frame_view hcheck.frame hne (Function.update_of_ne hne _ _)]
      simp [view, leaving, Function.update_of_ne hne, List.mem_erase_of_ne hne]
  | process env b rest events system hfree hqueue hprocess =>
      have hne := hother b rfl
      obtain ⟨success, charges, mid, hcheck, -, rfl⟩ := processRequest_checked hprocess
      have hpopped : view { s.system with reqQueue := rest } s.phase c = view s.system s.phase c := by
        simp [view, hqueue, hne.symm]
      rw [← hpopped, ← frame_view hcheck.frame hne rfl]
      cases success <;> simp [view, answered, Function.update_of_ne hne, hne.symm]
  | rescan rest hfree hqueue => simp [view, hqueue]
  | scan env b cur events system hscan hscanned =>
      have hne := hother b rfl
      obtain ⟨success, charges, mid, hcheck, -, rfl⟩ := scanRequest_checked hscanned
      rw [← frame_view hcheck.frame hne rfl]
      cases success <;> simp [view, answered, Function.update_of_ne hne, List.count_erase_of_ne hne]
  | scanned | search => rfl
  | fetch env b events system hfetch hin =>
      have hne := hother b rfl
      exact frame_view (fetchStep_frame hin) hne rfl

theorem exists_of_unanswered {p : Phase} {blob : SystemBlob} (h : unanswered p blob = true) :
    ∃ size, p = .waiting size ∧ blob.replied = false := by
  cases p with
  | waiting size => exact ⟨size, rfl, by simpa [unanswered] using h⟩
  | absent | starting | idle | holding | denied | granted | filed => cases h

theorem Sound.of_subject {a : Action ι} {s t : State ι} {es : List (Event ι)} (h : Sound s)
    (hstep : Step a s es t) (hnodup : t.system.blobs.Nodup)
    (hview : ∀ b, subject a = some b → (BlobState.view t.system t.phase b).Sound)
    (hscans : (BlobState.scans t.manager).Sublist t.system.waitingList)
    (hfetches : ∀ b, t.manager = .fetching b → b ∈ t.system.blobs) : Sound t := by
  refine ⟨hnodup, ?_, hscans, hfetches⟩
  intro c
  by_cases hc : subject a = some c
  · exact hview c hc
  · rw [step_other hstep hc]
    exact h.view c

/-- A blob that stands in one of the two lists has an unanswered request. -/
theorem Sound.pending {s : State ι} (h : Sound s) {b : ι}
    (hlisted : 0 < s.system.reqQueue.count (.request b) + s.system.waitingList.count b) :
    ∃ size, s.phase b = .waiting size ∧ (s.system.blob b).replied = false ∧ Pending size (s.system.blob b) := by
  have hcount := (h.view b).listed
  have hun : unanswered (s.phase b) (s.system.blob b) = true := by
    simp only [BlobState.view] at hcount
    cases hun : unanswered (s.phase b) (s.system.blob b) with
    | false => rw [hun] at hcount; exact absurd hcount (Nat.pos_iff_ne_zero.mp hlisted)
    | true => rfl
  obtain ⟨size, hphase, hreplied⟩ := exists_of_unanswered hun
  have hplaced := (h.view b).placed
  simp only [BlobState.view, hphase, Placed] at hplaced
  exact ⟨size, hphase, hreplied, hplaced.2 hreplied⟩

theorem Sound.unlisted {s : State ι} (h : Sound s) {b : ι}
    (hun : unanswered (s.phase b) (s.system.blob b) = false) :
    s.system.reqQueue.count (.request b) = 0 ∧ s.system.waitingList.count b = 0 := by
  have hcount := (h.view b).listed
  simp only [BlobState.view, hun, Bool.toNat_false, Nat.add_eq_zero_iff] at hcount
  exact hcount

theorem Sound.listed_le {s : State ι} (h : Sound s) (b : ι) :
    s.system.reqQueue.count (.request b) + s.system.waitingList.count b ≤ 1 := by
  have hcount := (h.view b).listed
  simp only [BlobState.view] at hcount
  rw [hcount]
  exact Bool.toNat_le _

theorem Sound.scanned_count {s : State ι} (h : Sound s) {b : ι} {cur : List ι}
    (hscan : s.manager = .scanning (b :: cur)) : 0 < s.system.waitingList.count b := by
  have hsub := h.scans
  rw [hscan] at hsub
  exact List.count_pos_iff.mpr (hsub.subset List.mem_cons_self)

theorem Sound.own {s : State ι} (h : Sound s) {a : OwnAction} {b : ι} {p : Phase} {blob : SystemBlob}
    (hown : OwnStep a (s.phase b) (s.system.blob b) p blob) :
    (BlobState.view (setBlob b blob s.system) (Function.update s.phase b p) b).Sound := by
  obtain ⟨habsent, habsent'⟩ := ownStep_absent hown
  obtain ⟨hun, hun'⟩ := ownStep_unanswered hown
  have hpresent := (h.view b).present.mpr habsent
  obtain ⟨hrequests, hwaits⟩ := h.unlisted hun
  constructor
  · simpa [BlobState.view, habsent'] using hpresent
  · simpa [BlobState.view] using ownStep_placed hown (h.view b).placed
  · simp [BlobState.view, hun', hrequests, hwaits]

theorem Sound.ask {s : State ι} (h : Sound s) {b : ι} {reqSize size : Nat} {success : Bool}
    {charges : List (Event ι)} {t : ZBlobSystem ι}
    (hphase : s.phase b = .starting ∨ s.phase b = .holding) (hreq : reqSize < 2 ^ 63)
    (hsize : Blob.reqAllocSize reqSize (s.system.blob b).toBlob = .ok size)
    (hcheck : Checked b (asking size b s.system) success charges t) :
    (BlobState.view t (Function.update s.phase b (if success then .granted size else .denied size)) b).Sound := by
  have hun : unanswered (s.phase b) (s.system.blob b) = false := by
    obtain hp | hp := hphase <;> rw [hp] <;> rfl
  have hpresent : b ∈ s.system.blobs := by
    have hpresent := (h.view b).present.mpr (by obtain hp | hp := hphase <;> simp [BlobState.view, hp])
    simpa [BlobState.view] using hpresent
  obtain ⟨hrequests, hwaits⟩ := h.unlisted hun
  constructor
  · simp only [BlobState.view, Function.update_self, hcheck.frame.blobs]
    simp only [asking, setBlob_blobs, hpresent, decide_true, true_iff]
    cases success <;> exact nofun
  · simp only [BlobState.view, Function.update_self]
    cases hcheck with
    | inFile | inMemory | moved => trivial
    | denied hout hgrows =>
        simp only [asking, setBlob_blob, Function.update_self] at hout hgrows
        have hle : (s.system.blob b).allocSize ≤ size := by omega
        exact ⟨by simpa [asking] using hout, by simp [asking], by simpa [asking] using hle,
          reqAllocSize_lt hreq hsize⟩
  · simp only [BlobState.view, Function.update_self, Frame.requests hcheck.frame, hcheck.frame.waitingList]
    simp only [asking, setBlob_reqQueue, setBlob_waitingList, hrequests, hwaits]
    cases success <;> rfl

theorem Sound.post {s : State ι} (h : Sound s) {b : ι} {size : Nat} (hphase : s.phase b = .denied size) :
    (BlobState.view (postRequest b s.system).2 (Function.update s.phase b (.waiting size)) b).Sound := by
  have hun : unanswered (s.phase b) (s.system.blob b) = false := by rw [hphase]; rfl
  have hpresent := (h.view b).present.mpr (by simp [BlobState.view, hphase])
  obtain ⟨hrequests, hwaits⟩ := h.unlisted hun
  have hplaced := (h.view b).placed
  simp only [BlobState.view, hphase, Placed] at hplaced
  constructor
  · simpa [BlobState.view, postRequest] using hpresent
  · simp only [BlobState.view, postRequest, Function.update_self, push_blob, setBlob_blob, Placed]
    exact ⟨nofun, fun _ => ⟨hplaced.isInFile, hplaced.allocReq, hplaced.grows, hplaced.bounded⟩⟩
  · simp [BlobState.view, postRequest, unanswered, hrequests, hwaits]

theorem Sound.getFile {s : State ι} (h : Sound s) {env : Env} {b : ι} {success resolved : Bool}
    {es : List (Event ι)} {t : ZBlobSystem ι} (hphase : s.phase b = .idle)
    (hget : getFile env b s.system = .ok (success, es, t)) :
    (BlobState.view (setBlob b { t.blob b with locked := success && resolved } t)
      (Function.update s.phase b (if success && resolved then .filed else .idle)) b).Sound := by
  have hun : unanswered (s.phase b) (s.system.blob b) = false := by rw [hphase]; rfl
  have hpresent := (h.view b).present.mpr (by simp [BlobState.view, hphase])
  obtain ⟨hrequests, hwaits⟩ := h.unlisted hun
  have hframe := getFile_frame hget
  have hin : success = true → (t.blob b).isInFile = true := by
    obtain ⟨rfl, -, hin⟩ | ⟨-, -, -, file, rfl⟩ := getFile_cases hget
    · exact hin
    · exact fun _ => by simp [swappedOut, toFile]
  constructor
  · simp only [BlobState.view, setBlob_blobs, Function.update_self, hframe.blobs]
    simp only [BlobState.view] at hpresent
    cases success <;> cases resolved <;> simpa using hpresent
  · simp only [BlobState.view, setBlob_blob, Function.update_self]
    cases success with
    | false => trivial
    | true =>
        cases resolved with
        | false => trivial
        | true => exact ⟨rfl, hin rfl⟩
  · simp only [BlobState.view, setBlob_reqQueue, setBlob_waitingList, Function.update_self,
      Frame.requests hframe, hframe.waitingList, hrequests, hwaits]
    cases success <;> cases resolved <;> rfl

theorem Sound.unref {s : State ι} (h : Sound s) {b : ι} {success : Bool} {charges : List (Event ι)}
    {t : ZBlobSystem ι} (hphase : s.phase b = .idle ∨ s.phase b = .filed)
    (hcheck : Checked b (leaving b s.system) success charges t) :
    (BlobState.view t (Function.update s.phase b .absent) b).Sound := by
  have hun : unanswered (s.phase b) (s.system.blob b) = false := by
    obtain hp | hp := hphase <;> rw [hp] <;> rfl
  obtain ⟨hrequests, hwaits⟩ := h.unlisted hun
  constructor
  · simp [BlobState.view, hcheck.frame.blobs, leaving, h.nodup.not_mem_erase]
  · simp only [BlobState.view, Function.update_self, Placed]
  · simp only [BlobState.view, Function.update_self, Frame.requests hcheck.frame, hcheck.frame.waitingList]
    simp only [leaving, setBlob_reqQueue, setBlob_waitingList, hrequests, hwaits]
    rfl

/-- A request with an answer is in none of the lists any more. -/
theorem Sound.answer {s : State ι} (h : Sound s) {b : ι} {success : Bool} {charges : List (Event ι)}
    {popped mid : ZBlobSystem ι} {waitingList : List ι}
    (hlisted : 0 < s.system.reqQueue.count (.request b) + s.system.waitingList.count b)
    (hblobs : popped.blobs = s.system.blobs) (hblob : popped.blob b = s.system.blob b)
    (hcheck : Checked b popped success charges mid)
    (hcount : popped.reqQueue.count (.request b) + waitingList.count b = (!success).toNat) :
    (BlobState.view { answered success b mid with waitingList := waitingList } s.phase b).Sound := by
  obtain ⟨size, hphase, hreplied, hpending⟩ := h.pending hlisted
  have hpresent := (h.view b).present.mpr (by simp [BlobState.view, hphase])
  have hframe := hcheck.frame
  have hmid : (mid.blob b).replied = false := by rw [hframe.replied, hblob, hreplied]
  constructor
  · simp only [BlobState.view, answered, setBlob_blobs, hframe.blobs, hblobs]
    exact ⟨fun _ => by simp [hphase], fun _ => hpresent⟩
  · simp only [BlobState.view, answered, setBlob_blob, Function.update_self, hphase, Placed, hmid]
    cases hcheck with
    | inFile | inMemory | moved => exact ⟨fun _ => rfl, by rintro ⟨⟩⟩
    | denied hout hgrows =>
        refine ⟨by rintro ⟨⟩, fun _ => ?_⟩
        rw [hblob]
        exact ⟨hpending.isInFile, hpending.allocReq, hpending.grows, hpending.bounded⟩
  · simp only [BlobState.view, answered, setBlob_blob, setBlob_reqQueue, Function.update_self,
      Frame.requests hframe, hcount, hphase, unanswered, hmid, Bool.or_false]

theorem Sound.fetch {s : State ι} (h : Sound s) {env : Env} {b : ι} {es : List (Event ι)}
    {t : ZBlobSystem ι} (hin : fetchStep env b s.system = .ok (es, t)) :
    (BlobState.view t s.phase b).Sound := by
  obtain ⟨rfl, -⟩ | ⟨⟨hlock, -, hfile, -⟩, -, data, rfl⟩ := fetchStep_cases hin
  · exact h.view b
  · have hframe := frame_fetchedIn env.now data b s.system
    have hv := h.view b
    have hplaced := hv.placed
    constructor
    · simpa only [BlobState.view, hframe.blobs] using hv.present
    · simp only [BlobState.view] at hplaced ⊢
      cases hphase : s.phase b with
      | absent | starting | idle | granted => trivial
      | holding => simp only [hphase, Placed, hlock] at hplaced; cases hplaced
      | filed => simp only [hphase, Placed, hlock] at hplaced; cases hplaced.1
      | denied size =>
          rw [hphase] at hplaced
          have hout := hplaced.isInFile
          rw [hfile] at hout
          cases hout
      | waiting size =>
          rw [hphase] at hplaced
          refine ⟨?_, ?_⟩
          · rw [hframe.replied, hframe.approved]
            exact hplaced.1
          · intro hreplied
            rw [hframe.replied] at hreplied
            have hout := (hplaced.2 hreplied).isInFile
            rw [hfile] at hout
            cases hout
    · have hlisted := hv.listed
      simp only [BlobState.view] at hlisted ⊢
      rw [Frame.requests hframe, hframe.waitingList, hlisted]
      cases hphase : s.phase b with
      | waiting size => simp only [unanswered, hframe.replied]
      | absent | starting | idle | holding | filed | denied | granted => rfl

omit [DecidableEq ι] in
theorem bestLoop_mem {now : Int} {tried : ι → Bool} {self : ZBlobSystem ι} {cur : List ι} {best : Int}
    {candidate : Option ι} {b : ι} (h : bestLoop now tried self cur best candidate = some b) :
    b ∈ cur ∨ candidate = some b := by
  induction cur generalizing best candidate with
  | nil => exact .inr h
  | cons c cur ih =>
      rw [bestLoop] at h
      split at h
      · obtain hmem | hc := ih h
        · exact .inl (List.mem_cons_of_mem c hmem)
        · cases hc
          exact .inl List.mem_cons_self
      · obtain hmem | hc := ih h
        · exact .inl (List.mem_cons_of_mem c hmem)
        · exact .inr hc

theorem Sound.step_nodup {a : Action ι} {s t : State ι} {es : List (Event ι)} (h : Sound s)
    (hstep : Step a s es t) : t.system.blobs.Nodup := by
  cases hstep with
  | create b now hphase =>
      have habsent : b ∉ s.system.blobs := by
        have hpresent := (h.view b).present
        simpa [BlobState.view, hphase] using hpresent
      exact List.nodup_append_comm.mp (List.nodup_cons.mpr ⟨habsent, h.nodup⟩)
  | ask env b reqSize size success events system hphase hfree hreq hsize hne hask =>
      obtain ⟨charges, hcheck, -⟩ := askAlloc_checked hask
      exact hcheck.frame.blobs ▸ h.nodup
  | getFile env b success resolved events system hphase hlock hfree hget =>
      exact (getFile_frame hget).blobs ▸ h.nodup
  | unref env b events system hphase hfree hunref =>
      obtain ⟨success, charges, hcheck, -⟩ := unref_checked hunref
      exact hcheck.frame.blobs ▸ h.nodup.erase b
  | process env b rest events system hfree hqueue hprocess =>
      obtain ⟨success, charges, mid, hcheck, -, rfl⟩ := processRequest_checked hprocess
      exact hcheck.frame.blobs ▸ h.nodup
  | scan env b cur events system hscan hscanned =>
      obtain ⟨success, charges, mid, hcheck, -, rfl⟩ := scanRequest_checked hscanned
      exact hcheck.frame.blobs ▸ h.nodup
  | fetch env b events system hfetch hin => exact (fetchStep_frame hin).blobs ▸ h.nodup
  | own | post | rescan | scanned | search => exact h.nodup

theorem Sound.step_subject {a : Action ι} {s t : State ι} {es : List (Event ι)} (h : Sound s)
    (hstep : Step a s es t) : ∀ b, subject a = some b → (BlobState.view t.system t.phase b).Sound := by
  intro c hc
  cases hstep with
  | own a b p blob hown => cases hc; exact h.own hown
  | create b now hphase =>
      cases hc
      obtain ⟨hrequests, hwaits⟩ := h.unlisted (b := c) (by rw [hphase]; rfl)
      refine ⟨?_, ?_, ?_⟩
      · simp [BlobState.view, register]
      · simp only [BlobState.view, Function.update_self, Placed]
      · simp [BlobState.view, register, unanswered, hrequests, hwaits]
  | ask env b reqSize size success events system hphase hfree hreq hsize hne hask =>
      cases hc
      obtain ⟨charges, hcheck, -⟩ := askAlloc_checked hask
      exact h.ask hphase hreq hsize hcheck
  | post b size hphase => cases hc; exact h.post hphase
  | getFile env b success resolved events system hphase hlock hfree hget =>
      cases hc
      exact h.getFile hphase hget
  | unref env b events system hphase hfree hunref =>
      cases hc
      obtain ⟨success, charges, hcheck, -⟩ := unref_checked hunref
      exact h.unref hphase hcheck
  | process env b rest events system hfree hqueue hprocess =>
      cases hc
      obtain ⟨success, charges, mid, hcheck, -, rfl⟩ := processRequest_checked hprocess
      have hle := h.listed_le c
      have hrest : s.system.reqQueue.count (.request c) = rest.count (.request c) + 1 := by
        rw [hqueue, List.count_cons_self]
      refine h.answer (by omega) ?_ ?_ hcheck ?_
      · rfl
      · rfl
      · rw [hcheck.frame.waitingList]
        cases success with
        | true => show _ = 0; simp only [if_true]; omega
        | false =>
            show _ = 1
            simp only [Bool.false_eq_true, if_false, List.count_append, List.count_cons_self, List.count_nil]
            omega
  | scan env b cur events system hscan hscanned =>
      cases hc
      obtain ⟨success, charges, mid, hcheck, -, rfl⟩ := scanRequest_checked hscanned
      have hle := h.listed_le c
      have hwaits := h.scanned_count hscan
      refine h.answer (by omega) rfl rfl hcheck ?_
      rw [hcheck.frame.waitingList]
      cases success with
      | true => show _ = 0; simp only [if_true, List.count_erase_self]; omega
      | false => show _ = 1; simp only [Bool.false_eq_true, if_false]; omega
  | fetch env b events system hfetch hin => cases hc; exact h.fetch hin
  | rescan | scanned | search => cases hc

theorem Sound.step_scans {a : Action ι} {s t : State ι} {es : List (Event ι)} (h : Sound s)
    (hstep : Step a s es t) : (BlobState.scans t.manager).Sublist t.system.waitingList := by
  cases hstep with
  | own | post => exact h.scans
  | create b now hphase hfree => rw [hfree]; exact List.nil_sublist _
  | ask env b reqSize size success events system hphase hfree => rw [hfree]; exact List.nil_sublist _
  | getFile env b success resolved events system hphase hlock hfree hget =>
      exact (getFile_frame hget).waitingList ▸ h.scans
  | unref env b events system hphase hfree => rw [hfree]; exact List.nil_sublist _
  | process => exact List.nil_sublist _
  | search now tried =>
      cases bestBlob now tried s.system with
      | none => exact List.nil_sublist _
      | some b => exact List.nil_sublist _
  | rescan => exact List.Sublist.refl _
  | scan env b cur events system hscan hscanned =>
      have hsub := h.scans
      rw [hscan] at hsub
      obtain ⟨success, charges, mid, hcheck, -, rfl⟩ := scanRequest_checked hscanned
      rw [hcheck.frame.waitingList]
      cases success with
      | false => exact (List.sublist_cons_self b cur).trans hsub
      | true => simpa [BlobState.scans] using hsub.erase b
  | scanned =>
      show (BlobState.scans (if swapInStarts s.system then .searching else .idle)).Sublist _
      split <;> exact List.nil_sublist _
  | fetch => exact List.nil_sublist _

theorem Sound.step_fetches {a : Action ι} {s t : State ι} {es : List (Event ι)} (h : Sound s)
    (hstep : Step a s es t) : ∀ b, t.manager = .fetching b → b ∈ t.system.blobs := by
  intro c hc
  cases hstep with
  | own | post => exact h.fetches c hc
  | create b now hphase hfree => cases hfree.symm.trans hc
  | ask env b reqSize size success events system hphase hfree => cases hfree.symm.trans hc
  | getFile env b success resolved events system hphase hlock hfree hget =>
      exact (getFile_frame hget).blobs ▸ h.fetches c hc
  | unref env b events system hphase hfree => cases hfree.symm.trans hc
  | scanned =>
      simp only at hc
      split at hc <;> cases hc
  | search now tried =>
      simp only at hc
      cases hbest : bestBlob now tried s.system with
      | none => rw [hbest] at hc; cases hc
      | some b =>
          rw [hbest] at hc
          cases hc
          obtain hmem | hnone := bestLoop_mem hbest
          · exact hmem
          · cases hnone
  | process | rescan | scan | fetch => cases hc

theorem Sound.step {a : Action ι} {s t : State ι} {es : List (Event ι)} (h : Sound s)
    (hstep : Step a s es t) : Sound t :=
  h.of_subject hstep (h.step_nodup hstep) (h.step_subject hstep) (h.step_scans hstep) (h.step_fetches hstep)

theorem sound_start (dmax mmax low hiw : Nat) : Sound (start dmax mmax low hiw : State ι) := by
  refine ⟨List.nodup_nil, ?_, List.nil_sublist _, nofun⟩
  intro b
  exact ⟨by simp [BlobState.view, start, systemNew], trivial, rfl⟩

end Libzorpll.BlobState
