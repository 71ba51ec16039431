import Libzorpll.BlobLedger
import Libzorpll.BlobTransfer

/-! A whole call of z_blob_system_swap_in, with locks that nobody takes or
leaves during it. -/

namespace Libzorpll.BlobSwapIn

open Blob (Halt Transfer)
open BlobSystem BlobLedger BlobTransfer

/-- The answers of a round: the time at its start, and those for the fetch. -/
structure Turn where
  now : Int
  env : Env

variable {ι : Type}

/-- The search of a round. The two counters of a factor are gints, and their
sum is one. -/
def search (now : Int) (self : ZBlobSystem ι) : List ι → Int → Option ι → Except Halt (Option ι)
  | [], _, best => .ok best
  | b :: cur, decFactorBest, best =>
      if (self.blob b).locked = false ∧ swapInFits self b then
        if 0 < now - (self.blob b).lastAccessed ∧ 2 ^ 31 ≤ (self.blob b).reqRd + (self.blob b).reqWr then
          .error .overflow
        else if decFactorBest < decFactor now (self.blob b) then
          search now self cur (decFactor now (self.blob b)) (some b)
        else search now self cur decFactorBest best
      else search now self cur decFactorBest best

/-- A blob that is to be fetched: nobody has its lock, and below the mark there
is the memory for it. -/
def Eligible (self : ZBlobSystem ι) (b : ι) : Prop :=
  (self.blob b).locked = false ∧ ¬(self.blob b).storageLocked ∧ (self.blob b).isInFile = true ∧
    self.memUsed + (self.blob b).allocSize ≤ self.hiwat

/-- The sum of the counters is a gint, and the space that is available a
gint64. -/
def Countable (self : ZBlobSystem ι) (b : ι) : Prop :=
  self.hiwat < self.memUsed + 2 ^ 63 ∧ (self.blob b).reqRd + (self.blob b).reqWr < 2 ^ 31

/-! The space -/

theorem spaceAvailable_eq {self : ZBlobSystem ι} (hmem : self.memUsed ≤ self.hiwat)
    (hlimit : self.hiwat < self.memUsed + 2 ^ 63) : spaceAvailable self = self.hiwat - self.memUsed := by
  unfold spaceAvailable toInt64 toUInt64
  omega

theorem spaceAvailable_neg {self : ZBlobSystem ι} (hhiwat : self.hiwat < 2 ^ 64)
    (hlimit : self.memUsed + 2 ^ 63 ≤ self.hiwat) : spaceAvailable self < 0 := by
  unfold spaceAvailable toInt64 toUInt64
  omega

/-- A negative space is enough for nothing. -/
theorem not_fits_of_neg {self : ZBlobSystem ι} (hhiwat : self.hiwat < 2 ^ 64)
    (hlimit : self.memUsed + 2 ^ 63 ≤ self.hiwat) (b : ι) : ¬swapInFits self b := by
  intro hfits
  have hneg := spaceAvailable_neg hhiwat hlimit
  have hroom := hfits.2.2
  omega

theorem fits_of_eligible {self : ZBlobSystem ι} {b : ι} (hmem : self.memUsed ≤ self.hiwat)
    (hlimit : self.hiwat < self.memUsed + 2 ^ 63) (h : Eligible self b) : swapInFits self b := by
  refine ⟨h.2.1, h.2.2.1, ?_⟩
  have hroom := h.2.2.2
  rw [spaceAvailable_eq hmem hlimit]
  omega

theorem eligible_of_fits {self : ZBlobSystem ι} {b : ι} (hmem : self.memUsed ≤ self.hiwat)
    (hhiwat : self.hiwat < 2 ^ 64) (hunlocked : (self.blob b).locked = false) (h : swapInFits self b) :
    Eligible self b := by
  refine ⟨hunlocked, h.1, h.2.1, ?_⟩
  have hroom := h.2.2
  by_cases hlimit : self.hiwat < self.memUsed + 2 ^ 63
  · rw [spaceAvailable_eq hmem hlimit] at hroom
    omega
  · exact absurd h (not_fits_of_neg hhiwat (Nat.le_of_not_lt hlimit) b)

/-! The search -/

theorem decFactor_nonneg (now : Int) (blob : SystemBlob) : 0 ≤ decFactor now blob := by
  simp only [decFactor]
  split
  · rename_i helapsed
    exact Int.ediv_nonneg (by omega) (Int.le_of_lt helapsed)
  · exact Int.le_refl 0

theorem search_eq {now : Int} {self : ZBlobSystem ι} {cur : List ι}
    (h : ∀ b ∈ cur, (self.blob b).locked = false ∧ swapInFits self b →
      (self.blob b).reqRd + (self.blob b).reqWr < 2 ^ 31) (factor : Int) (best : Option ι) :
    search now self cur factor best =
      .ok (bestLoop now (fun b => !(self.blob b).locked) self cur factor best) := by
  induction cur generalizing factor best with
  | nil => rfl
  | cons b cur ih =>
      have hrest := ih fun c hc => h c (List.mem_cons_of_mem b hc)
      rw [search, bestLoop]
      by_cases hfits : (self.blob b).locked = false ∧ swapInFits self b
      · have hsum : ¬(0 < now - (self.blob b).lastAccessed ∧
            2 ^ 31 ≤ (self.blob b).reqRd + (self.blob b).reqWr) := by
          rintro ⟨-, hover⟩
          exact absurd (h b List.mem_cons_self hfits) (Nat.not_lt.mpr hover)
        rw [if_pos hfits, if_neg hsum, hrest, hrest]
        by_cases hbetter : factor < decFactor now (self.blob b)
        · rw [if_pos hbetter, if_pos ⟨by rw [hfits.1]; rfl, hfits.2, hbetter⟩]
        · rw [if_neg hbetter, if_neg (fun hall => hbetter hall.2.2)]
      · rw [if_neg hfits, hrest, if_neg]
        rintro ⟨htried, hfit, -⟩
        exact hfits ⟨by simpa using htried, hfit⟩

theorem search_nothing {now : Int} {self : ZBlobSystem ι} (h : ∀ b, ¬swapInFits self b) (cur : List ι) (factor : Int)
    (best : Option ι) : search now self cur factor best = .ok best := by
  induction cur with
  | nil => rfl
  | cons b cur ih =>
      rw [search, if_neg (fun hfits => h b hfits.2)]
      exact ih

theorem search_overflows {now : Int} {self : ZBlobSystem ι} {cur : List ι} {b : ι} (hmem : b ∈ cur)
    (hfits : (self.blob b).locked = false ∧ swapInFits self b) (helapsed : 0 < now - (self.blob b).lastAccessed)
    (hsum : 2 ^ 31 ≤ (self.blob b).reqRd + (self.blob b).reqWr) (factor : Int) (best : Option ι) :
    search now self cur factor best = .error .overflow := by
  induction cur generalizing factor best with
  | nil => cases hmem
  | cons c cur ih =>
      rw [search]
      by_cases heq : b = c
      · subst heq
        rw [if_pos hfits, if_pos ⟨helapsed, hsum⟩]
      · have hrest := ih ((List.mem_cons.mp hmem).resolve_left heq)
        rw [hrest, hrest]
        split
        · split
          · rfl
          · split <;> rfl
        · rfl

theorem bestLoop_some (now : Int) (tried : ι → Bool) (self : ZBlobSystem ι) (cur : List ι) (factor : Int) (c : ι) :
    ∃ b, bestLoop now tried self cur factor (some c) = some b := by
  induction cur generalizing factor c with
  | nil => exact ⟨c, rfl⟩
  | cons d cur ih =>
      rw [bestLoop]
      split
      · exact ih _ d
      · exact ih _ c

/-- A search that finds nothing has met nothing that fits: no factor is less
than zero. -/
theorem bestLoop_none {now : Int} {tried : ι → Bool} {self : ZBlobSystem ι} {cur : List ι}
    (h : bestLoop now tried self cur (-1) none = none) : ∀ b ∈ cur, ¬(tried b = true ∧ swapInFits self b) := by
  induction cur with
  | nil => exact fun b hb => absurd hb List.not_mem_nil
  | cons c cur ih =>
      rw [bestLoop] at h
      split at h
      · obtain ⟨b, hb⟩ := bestLoop_some now tried self cur (decFactor now (self.blob c)) c
        cases hb.symm.trans h
      · rename_i hskipped
        intro b hb
        rcases List.mem_cons.mp hb with rfl | hmem
        · have hfactor := decFactor_nonneg now (self.blob b)
          exact fun hfits => hskipped ⟨hfits.1, hfits.2, by omega⟩
        · exact ih h b hmem

theorem bestLoop_fits {now : Int} {tried : ι → Bool} {self : ZBlobSystem ι} {cur : List ι} {factor : Int}
    {candidate : Option ι} {b : ι} (h : bestLoop now tried self cur factor candidate = some b) :
    (b ∈ cur ∧ tried b = true ∧ swapInFits self b) ∨ candidate = some b := by
  induction cur generalizing factor candidate with
  | nil => exact .inr h
  | cons c cur ih =>
      rw [bestLoop] at h
      split at h
      · rename_i hbetter
        rcases ih h with ⟨hmem, hfits⟩ | hc
        · exact .inl ⟨List.mem_cons_of_mem c hmem, hfits⟩
        · cases hc
          exact .inl ⟨List.mem_cons_self, hbetter.1, hbetter.2.1⟩
      · exact (ih h).imp_left fun hfound => ⟨List.mem_cons_of_mem c hfound.1, hfound.2⟩

/-! The loop -/

variable [DecidableEq ι]

/-- The rounds, with the states that they leave. -/
def swapInLoop (turn : Nat → Turn) :
    Nat → ZBlobSystem ι → Except Halt (List (ZBlobSystem ι) × ZBlobSystem ι)
  | 0, _ => .error .endless
  | rounds + 1, self =>
      match search (turn rounds).now self self.blobs (-1) none with
      | .error halt => .error halt
      | .ok none => .ok ([], self)
      | .ok (some best) =>
          match fetchBest (turn rounds).env best self with
          | .error halt => .error halt
          | .ok (_, self) =>
              (swapInLoop turn rounds self).map fun (states, last) => (self :: states, last)

/-- z_blob_system_swap_in; a round more than there are blobs is enough. -/
def systemSwapIn (turn : Nat → Turn) (self : ZBlobSystem ι) :
    Except Halt (List (ZBlobSystem ι) × ZBlobSystem ι) :=
  if swapInStarts self then swapInLoop turn (self.blobs.length + 1) self else .ok ([], self)

/-- The call comes back, with mem_used never above the mark and nothing lost
from the two counters, and leaves nothing that is to be fetched. -/
def SwapsIn (turn : Nat → Turn) (self : ZBlobSystem ι) : Prop :=
  ∃ states last, systemSwapIn turn self = .ok (states, last) ∧
    (last.hiwat = self.hiwat ∧ last.blobs = self.blobs) ∧
    (∀ m ∈ last :: states, m.memUsed ≤ self.hiwat ∧ 0 ≤ m.diskUsed ∧
      m.memUsed + m.diskUsed = self.memUsed + self.diskUsed) ∧
    ∀ b ∈ last.blobs, ¬Eligible last b

theorem fetchBest_fetched {env : Env} (hio : Allowed env.io) {self : ZBlobSystem ι} {b : ι}
    (hfits : swapInFits self b) (hsize : (self.blob b).size ≤ (self.blob b).allocSize) :
    ∃ data, fetchBest env b self =
      .ok ([.moved b (self.blob b).allocSize false], fetchedIn env.now data b self) := by
  have hbuf : ¬(List.replicate (self.blob b).allocSize (0 : UInt8)).length < (self.blob b).size := by
    rw [List.length_replicate]
    exact Nat.not_lt.mpr hsize
  obtain ⟨⟨rd, data⟩, hread⟩ := readLoop_returns (self.blob b).file hio (self.blob b).size 0 0
    (List.replicate (self.blob b).allocSize 0)
  refine ⟨data, ?_⟩
  simp only [fetchBest, hfits, ↓reduceIte, Blob.swapIn, Blob.readFile, hbuf, hread]
  rfl

/-- A fetch charges the memory with what fits there. -/
theorem fetchedIn_counters {self : ZBlobSystem ι} {b : ι} (hhiwat : self.hiwat < 2 ^ 64) (h : Eligible self b)
    (now : Int) (data : List UInt8) :
    (fetchedIn now data b self).memUsed = self.memUsed + (self.blob b).allocSize ∧
      (fetchedIn now data b self).diskUsed = self.diskUsed - (self.blob b).allocSize := by
  have hroom := h.2.2.2
  have hexact := toUInt64_of_lt (by omega : (0 : Int) ≤ self.memUsed + (self.blob b).allocSize) (by omega)
  refine ⟨?_, ?_⟩
  · simp only [fetchedIn, addMem_memUsed, addDisk_memUsed, setBlob_memUsed]
    omega
  · simp only [fetchedIn, addMem_diskUsed, addDisk_diskUsed, setBlob_diskUsed]
    omega

theorem fetchedIn_best (now : Int) (data : List UInt8) (b : ι) (self : ZBlobSystem ι) :
    (fetchedIn now data b self).blob b = toMemory now data (self.blob b) := by
  simp only [fetchedIn, addMem_blob, addDisk_blob, setBlob_blob, Function.update_self]

theorem fetchedIn_other (now : Int) (data : List UInt8) {b c : ι} (h : c ≠ b) (self : ZBlobSystem ι) :
    (fetchedIn now data b self).blob c = self.blob c :=
  (frame_fetchedIn now data b self).other c h

/-- What is to be fetched after a fetch was to be before it. -/
theorem eligible_fetchedIn {self : ZBlobSystem ι} {b c : ι} (hhiwat : self.hiwat < 2 ^ 64) (h : Eligible self b)
    {now : Int} {data : List UInt8} (hc : Eligible (fetchedIn now data b self) c) : c ≠ b ∧ Eligible self c := by
  have hframe := frame_fetchedIn now data b self
  obtain ⟨hmem, -⟩ := fetchedIn_counters hhiwat h now data
  obtain ⟨hunlocked, hopen, hfile, hroom⟩ := hc
  have hne : c ≠ b := by
    rintro rfl
    rw [fetchedIn_best] at hfile
    cases hfile
  rw [fetchedIn_other now data hne] at hunlocked hopen hfile hroom
  rw [hframe.hiwat, hmem] at hroom
  exact ⟨hne, hunlocked, hopen, hfile, by omega⟩

/-- The blobs of the list that are in a file. -/
def onDisk (self : ZBlobSystem ι) : Nat := self.blobs.countP fun b => (self.blob b).isInFile

omit [DecidableEq ι] in
theorem countP_lt {p q : ι → Bool} {l : List ι} (h : ∀ x ∈ l, p x = true → q x = true) {a : ι} (ha : a ∈ l)
    (hp : p a = false) (hq : q a = true) : l.countP p < l.countP q := by
  induction l with
  | nil => cases ha
  | cons x l ih =>
      have hrest : ∀ y ∈ l, p y = true → q y = true := fun y hy => h y (List.mem_cons_of_mem x hy)
      have hle := List.countP_mono_left hrest
      rcases List.mem_cons.mp ha with rfl | hmem
      · rw [List.countP_cons_of_neg (by simp [hp]), List.countP_cons_of_pos hq]
        omega
      · have hlt := ih hrest hmem
        rw [List.countP_cons, List.countP_cons]
        have hx := h x List.mem_cons_self
        by_cases hpx : p x = true
        · rw [if_pos hpx, if_pos (hx hpx)]
          omega
        · rw [if_neg hpx]
          omega

theorem onDisk_fetchedIn {self : ZBlobSystem ι} {b : ι} (hmem : b ∈ self.blobs)
    (hfile : (self.blob b).isInFile = true) (now : Int) (data : List UInt8) :
    onDisk (fetchedIn now data b self) < onDisk self := by
  have hblobs : (fetchedIn now data b self).blobs = self.blobs := (frame_fetchedIn now data b self).blobs
  rw [onDisk, onDisk, hblobs]
  refine countP_lt ?_ hmem ?_ hfile
  · intro c _ hc
    by_cases heq : c = b
    · rw [heq]
      exact hfile
    · rw [fetchedIn_other now data heq] at hc
      exact hc
  · rw [fetchedIn_best]
    rfl

/-- What holds before every round. -/
structure Ready (s : ZBlobSystem ι) : Prop where
  below : s.memUsed ≤ s.hiwat
  hiwat : s.hiwat < 2 ^ 64
  size : ∀ b ∈ s.blobs, (s.blob b).isInFile = true → (s.blob b).size ≤ (s.blob b).allocSize
  count : ∀ b ∈ s.blobs, Eligible s b → Countable s b

theorem Ready.fetchedIn {self : ZBlobSystem ι} {b : ι} (h : Ready self) (heligible : Eligible self b) (now : Int)
    (data : List UInt8) : Ready (fetchedIn now data b self) := by
  have hframe := frame_fetchedIn now data b self
  obtain ⟨hmem, -⟩ := fetchedIn_counters h.hiwat heligible now data
  constructor
  · rw [hmem, hframe.hiwat]
    exact heligible.2.2.2
  · rw [hframe.hiwat]
    exact h.hiwat
  · intro c hc hfile
    have hne : c ≠ b := by
      rintro rfl
      rw [fetchedIn_best] at hfile
      cases hfile
    rw [hframe.blobs] at hc
    rw [fetchedIn_other now data hne] at hfile ⊢
    exact h.size c hc hfile
  · intro c hc hlater
    rw [hframe.blobs] at hc
    obtain ⟨hne, hbefore⟩ := eligible_fetchedIn h.hiwat heligible hlater
    obtain ⟨hspace, hsum⟩ := h.count c hc hbefore
    rw [Countable, hmem, hframe.hiwat, fetchedIn_other now data hne]
    exact ⟨by omega, hsum⟩

/-- With a round for each blob in a file and one more, the loop comes to its
end. -/
theorem swapInLoop_stops {turn : Nat → Turn} (hio : ∀ k, Allowed (turn k).env.io) {rounds : Nat}
    {self : ZBlobSystem ι} (h : Ready self) (hrounds : onDisk self < rounds) :
    ∃ states last, swapInLoop turn rounds self = .ok (states, last) ∧
      (last.hiwat = self.hiwat ∧ last.blobs = self.blobs) ∧
      (∀ m ∈ last :: states, m.memUsed ≤ self.hiwat ∧
        m.memUsed + m.diskUsed = self.memUsed + self.diskUsed) ∧
      ∀ b ∈ last.blobs, ¬Eligible last b := by
  induction rounds generalizing self with
  | zero => exact absurd hrounds (Nat.not_lt_zero _)
  | succ rounds ih =>
      have hsearch : search (turn rounds).now self self.blobs (-1) none = .ok _ :=
        search_eq (fun b hb hfits => (h.count b hb (eligible_of_fits h.below h.hiwat hfits.1 hfits.2)).2) (-1) none
      rw [swapInLoop, hsearch]
      cases hbest : bestLoop (turn rounds).now (fun b => !(self.blob b).locked) self self.blobs (-1) none with
      | none =>
          refine ⟨[], self, rfl, ⟨rfl, rfl⟩, ?_, ?_⟩
          · intro m hm
            obtain rfl := List.mem_singleton.mp hm
            exact ⟨h.below, rfl⟩
          · intro b hb heligible
            have hfits := fits_of_eligible h.below (h.count b hb heligible).1 heligible
            exact bestLoop_none hbest b hb ⟨by rw [heligible.1]; rfl, hfits⟩
      | some best =>
          obtain ⟨hmember, htried, hfits⟩ := (bestLoop_fits hbest).resolve_right nofun
          have heligible := eligible_of_fits h.below h.hiwat (by simpa using htried) hfits
          obtain ⟨data, hfetch⟩ := fetchBest_fetched (hio rounds) hfits (h.size best hmember hfits.2.1)
          obtain ⟨hmem, hdisk⟩ := fetchedIn_counters h.hiwat heligible (turn rounds).env.now data
          have hframe := frame_fetchedIn (turn rounds).env.now data best self
          have hless := onDisk_fetchedIn hmember hfits.2.1 (turn rounds).env.now data
          have hnext := h.fetchedIn heligible (turn rounds).env.now data
          obtain ⟨states, last, hloop, ⟨hhiwat, hblobs⟩, hstates, hdone⟩ := ih hnext (by omega)
          have hbelow := hnext.below
          rw [hframe.hiwat] at hhiwat hstates hbelow
          refine ⟨fetchedIn (turn rounds).env.now data best self :: states, last, ?_, ⟨hhiwat, hblobs.trans hframe.blobs⟩, ?_, hdone⟩
          · simp only [hfetch, hloop, Except.map]
          · intro m hm
            have hcases : m = fetchedIn (turn rounds).env.now data best self ∨ m ∈ last :: states := by
              simp only [List.mem_cons] at hm ⊢
              tauto
            rcases hcases with rfl | hlater
            · exact ⟨hbelow, by omega⟩
            · obtain ⟨hm, hsum⟩ := hstates m hlater
              exact ⟨hm, by omega⟩

/-- Where neither a space nor a sum is too large, the call fetches what fits
and stops below the mark, whatever it is answered; and only there. -/
theorem swap_in_stops_iff (self : ZBlobSystem ι) (hlowat : self.memUsed < self.lowat) (hmarks : self.lowat ≤ self.hiwat)
    (hhiwat : self.hiwat < 2 ^ 64) (hdisk : self.hiwat ≤ self.diskUsed) (hlimit : self.diskUsed < 2 ^ 64)
    (hsize : ∀ b ∈ self.blobs, (self.blob b).isInFile = true → (self.blob b).size ≤ (self.blob b).allocSize) :
    (∀ turn : Nat → Turn, (∀ k, Allowed (turn k).env.io) → SwapsIn turn self) ↔
      ∀ b ∈ self.blobs, Eligible self b → Countable self b := by
  have hbelow : self.memUsed ≤ self.hiwat := by omega
  have hstarts : swapInStarts self := by
    have hexact := toUInt64_of_lt (by omega : 0 ≤ self.diskUsed) hlimit
    unfold swapInStarts
    omega
  constructor
  · intro hall b hb heligible
    by_cases hspace : self.hiwat < self.memUsed + 2 ^ 63
    · refine ⟨hspace, ?_⟩
      by_contra hsum
      -- a second after the last access the sum is built
      obtain ⟨states, last, hcall, -⟩ := hall
        (fun _ => { now := (self.blob b).lastAccessed + 1, env := {} }) (fun _ answer hanswer => nomatch hanswer)
      have hfits := fits_of_eligible hbelow hspace heligible
      have helapsed : 0 < (self.blob b).lastAccessed + 1 - (self.blob b).lastAccessed := by omega
      rw [systemSwapIn, if_pos hstarts, swapInLoop,
        search_overflows hb ⟨heligible.1, hfits⟩ helapsed (Nat.le_of_not_lt hsum)] at hcall
      cases hcall
    · obtain ⟨states, last, hcall, -, -, hdone⟩ := hall
        (fun _ => { now := 0, env := {} }) (fun _ answer hanswer => nomatch hanswer)
      rw [systemSwapIn, if_pos hstarts, swapInLoop,
        search_nothing (not_fits_of_neg hhiwat (Nat.le_of_not_lt hspace))] at hcall
      cases hcall
      exact absurd heligible (hdone b hb)
  · intro hcount turn hio
    obtain ⟨states, last, hloop, hsame, hstates, hdone⟩ :=
      swapInLoop_stops hio ⟨hbelow, hhiwat, hsize, hcount⟩ (Nat.lt_succ_of_le List.countP_le_length)
    refine ⟨states, last, ?_, hsame, ?_, hdone⟩
    · rw [systemSwapIn, if_pos hstarts]
      exact hloop
    · intro m hm
      obtain ⟨hmem, hsum⟩ := hstates m hm
      exact ⟨hmem, by omega, hsum⟩

/-- Two blobs of which only one fits, a second after their last access. -/
theorem swap_in_stops_iff_one :
    SwapsIn (fun _ => { now := 1, env := {} })
      { diskMax := 20, diskUsed := 11, memMax := 20, memUsed := 2, lowat := 4, hiwat := 10, blobs := [0, 1],
        blob := fun b : Nat => { size := 2, allocSize := 5 + b, isInFile := true, file := [1, 2], reqWr := b } } := by
  refine (swap_in_stops_iff _ (by decide) (by decide) (by decide) (by decide) (by decide) ?_).mpr ?_
    (fun _ => { now := 1, env := {} }) (fun _ answer hanswer => nomatch hanswer)
  · intro b _ _
    show 2 ≤ 5 + b
    omega
  · intro b hb _
    refine ⟨by decide, ?_⟩
    show 0 + b < 2 ^ 31
    simp only [List.mem_cons, List.not_mem_nil, or_false] at hb
    omega

/-- A byte on disk that has been read and written 2³⁰ times each; and one for
which there are 2⁶³ bytes of memory, so that nothing is done. -/
theorem swap_in_not_stops :
    (¬∀ (self : ZBlobSystem Nat) (turn : Nat → Turn), self.memUsed < self.lowat → self.lowat ≤ self.hiwat →
      self.hiwat < 2 ^ 64 → self.hiwat ≤ self.diskUsed → self.diskUsed < 2 ^ 64 →
      (∀ b ∈ self.blobs, (self.blob b).isInFile = true → (self.blob b).size ≤ (self.blob b).allocSize) →
      (∀ k, Allowed (turn k).env.io) → SwapsIn turn self) ∧
    ¬SwapsIn (fun _ => { now := 0, env := {} })
      { diskMax := 2 ^ 63, diskUsed := 2 ^ 63, memMax := 2 ^ 64 - 1, lowat := 1, hiwat := 2 ^ 63, blobs := [0],
        blob := fun _ : Nat => { allocSize := 1, isInFile := true } } := by
  constructor
  · intro hall
    obtain ⟨states, last, hcall, -⟩ := hall
      { diskMax := 1, diskUsed := 1, memMax := 2, lowat := 1, hiwat := 1, blobs := [0],
        blob := fun _ : Nat => { allocSize := 1, isInFile := true, reqRd := 2 ^ 30, reqWr := 2 ^ 30 } }
      (fun _ => { now := 1, env := {} }) (by decide) (by decide) (by decide) (by decide) (by decide)
      (fun _ _ _ => Nat.zero_le 1) (fun _ answer hanswer => nomatch hanswer)
    cases hcall
  · rintro ⟨states, last, hcall, -, -, hdone⟩
    cases hcall
    exact hdone 0 List.mem_cons_self ⟨rfl, by decide, rfl, by decide⟩

end Libzorpll.BlobSwapIn
