import Libzorpll.BlobTransfer

namespace Libzorpll.BlobTruncate

open Blob BlobContents BlobTransfer
open ZeroArray (get overwrite resize)

/-- The blob holds the bytes of an array, and has nothing in its file while it
is in memory. -/
structure Stores (b : Blob.Blob) (content : List UInt8) : Prop extends Keeps b content where
  emptied : b.isInFile = false → b.file = []

variable {b : Blob.Blob} {content : List UInt8}

theorem stores_of_holds (h : Holds b content) : Stores b content where
  size := h.size
  inside := h.inside
  memory := fun hmemory => ⟨(h.memory hmemory).1, (h.memory hmemory).2.2⟩
  disk := fun hfile => (h.disk hfile).2
  emptied := fun hmemory => (h.memory hmemory).2.1

theorem Stores.holds (h : Stores b content) (hlong : b.isInFile = true → b.size ≤ b.file.length) :
    Holds b content where
  size := h.size
  inside := h.inside
  memory := fun hmemory => ⟨(h.memory hmemory).1, h.emptied hmemory, (h.memory hmemory).2⟩
  disk := fun hfile => ⟨hlong hfile, h.disk hfile⟩

/-- Of a blob in its file there is no more to say. -/
theorem stores_inFile (h : Keeps b content) (hfile : b.isInFile = true) : Stores b content :=
  ⟨h, fun hmemory => absurd hmemory (ne_false_of_eq_true hfile)⟩

/-! The size that is allocated -/

/-- A number shifted to the right, its last bit perhaps cleared. -/
def Shift (a pos : Nat) : Prop := ∃ k, pos = a / 2 ^ k ∨ pos = 2 * (a / 2 ^ (k + 1))

theorem div_succ (a k : Nat) : a / 2 ^ (k + 1) = a / 2 ^ k / 2 := by
  rw [Nat.pow_succ, Nat.div_div_eq_div_mul]

theorem div_anti (a : Nat) {j k : Nat} (h : j ≤ k) : a / 2 ^ k ≤ a / 2 ^ j :=
  Nat.div_le_div_left (Nat.pow_le_pow_right Nat.two_pos h) (Nat.two_pow_pos j)

theorem shrinkLoop_stops (rounds : Nat) {pos a : Nat} (h : a ≤ pos) :
    shrinkLoop pos (rounds + 1) a = .ok (a / 2 ^ 0) ∧ a / 2 ^ 0 ≤ pos := by
  rw [shrinkLoop, if_neg (Nat.not_lt.mpr h), Nat.pow_zero, Nat.div_one]
  exact ⟨rfl, h⟩

theorem shrinkLoop_shifts (pos rounds : Nat) {a : Nat} (h : a < 2 ^ rounds) :
    ∃ k, shrinkLoop pos (rounds + 1) a = .ok (a / 2 ^ k) ∧ a / 2 ^ k ≤ pos ∧
      ∀ j, j < k → pos < a / 2 ^ j := by
  induction rounds generalizing a with
  | zero =>
      obtain ⟨hloop, hle⟩ := shrinkLoop_stops 0 (by omega : a ≤ pos)
      exact ⟨0, hloop, hle, fun j hj => absurd hj (Nat.not_lt_zero j)⟩
  | succ rounds ih =>
      by_cases hless : pos < a
      · have hhalf : a / 2 < 2 ^ rounds := by
          rw [Nat.pow_succ] at h
          omega
        have hdiv : ∀ k, a / 2 / 2 ^ k = a / 2 ^ (k + 1) := by
          intro k
          rw [Nat.div_div_eq_div_mul, Nat.pow_succ, Nat.mul_comm]
        obtain ⟨k, hk, hle, hbefore⟩ := ih hhalf
        refine ⟨k + 1, ?_, hdiv k ▸ hle, ?_⟩
        · rw [shrinkLoop, if_pos hless, hk, hdiv]
        · intro j hj
          cases j with
          | zero =>
              rw [Nat.pow_zero, Nat.div_one]
              exact hless
          | succ j => exact hdiv j ▸ hbefore j (Nat.lt_of_succ_lt_succ hj)
      · obtain ⟨hloop, hle⟩ := shrinkLoop_stops (rounds + 1) (Nat.le_of_not_lt hless)
        exact ⟨0, hloop, hle, fun j hj => absurd hj (Nat.not_lt_zero j)⟩

/-- Below the allocated size the next size is exact just for its shifts. -/
theorem reqAllocSize_shrinks {pos : Nat} (hmemory : b.isInFile = false) (hlimit : b.allocSize < 2 ^ 63)
    (hless : pos < b.allocSize) :
    ∃ r, reqAllocSize pos b = .ok r ∧ pos ≤ r ∧ (r = pos ↔ Shift b.allocSize pos) := by
  have hdirect : ¬(b.allocSize = 0 ∨ b.isInFile = true) := by
    rw [hmemory]
    simp only [Bool.false_eq_true, or_false]
    omega
  obtain ⟨k, hk, hle, hbefore⟩ := shrinkLoop_shifts pos 63 hlimit
  obtain ⟨j, rfl⟩ : ∃ j, k = j + 1 := by
    cases k with
    | zero =>
        rw [Nat.pow_zero, Nat.div_one] at hle
        omega
    | succ j => exact ⟨j, rfl⟩
  have hlast := hbefore j (Nat.lt_succ_self j)
  have hhalf := div_succ b.allocSize j
  have hsmaller : b.allocSize / 2 ^ j ≤ b.allocSize := Nat.div_le_self _ _
  by_cases hexact : b.allocSize / 2 ^ (j + 1) = pos
  · refine ⟨pos, ?_, Nat.le_refl _, iff_of_true rfl ⟨j + 1, .inl hexact.symm⟩⟩
    rw [reqAllocSize, if_neg hdirect, hk]
    simp only [hexact, growLoop, Nat.lt_irrefl, ↓reduceIte]
  · have hshort : b.allocSize / 2 ^ (j + 1) < pos := by omega
    have hroom : pos ≤ 2 * (b.allocSize / 2 ^ (j + 1)) := by omega
    have hfits : ¬2 ^ 63 ≤ 2 * (b.allocSize / 2 ^ (j + 1)) := by omega
    refine ⟨2 * (b.allocSize / 2 ^ (j + 1)), ?_, hroom, ?_⟩
    · rw [reqAllocSize, if_neg hdirect, hk]
      simp only [growLoop, hshort, hfits, Nat.not_lt.mpr hroom, ↓reduceIte]
    · refine ⟨fun h => ⟨j, .inr h.symm⟩, ?_⟩
      rintro ⟨i, hi | hi⟩
      · -- a shift that is pos would have ended the loop
        by_cases hij : i < j + 1
        · exact absurd hi (Nat.ne_of_lt (hbefore i hij))
        · have hanti := div_anti b.allocSize (Nat.le_of_not_lt hij)
          omega
      · have hdouble := div_succ b.allocSize i
        by_cases hij : i + 1 < j + 1
        · have hnext := hbefore (i + 1) hij
          omega
        · by_cases heq : i = j
          · rw [← heq]
            exact hi.symm
          · have hanti := div_anti b.allocSize (by omega : j + 1 ≤ i)
            omega

theorem growLoop_overflows {pos : Nat} (k rounds : Nat) {a : Nat} (hk : k < rounds)
    (hless : 2 ^ k * a < pos) (hlimit : 2 ^ 63 ≤ 2 ^ (k + 1) * a) :
    growLoop pos rounds a = .error .overflow := by
  induction k generalizing rounds a with
  | zero =>
      rw [Nat.pow_zero, Nat.one_mul] at hless
      rw [Nat.pow_one] at hlimit
      obtain ⟨left, rfl⟩ : ∃ left, rounds = left + 1 := ⟨rounds - 1, by omega⟩
      rw [growLoop, if_pos hless, if_pos hlimit]
  | succ k ih =>
      obtain ⟨left, rfl⟩ : ∃ left, rounds = left + 1 := ⟨rounds - 1, by omega⟩
      have hmul : ∀ j, 2 ^ j * (2 * a) = 2 ^ (j + 1) * a := by
        intro j
        rw [Nat.pow_succ, Nat.mul_assoc]
      have hsmaller : a ≤ 2 ^ (k + 1) * a := Nat.le_mul_of_pos_left a (Nat.two_pow_pos _)
      rw [growLoop, if_pos (Nat.lt_of_le_of_lt hsmaller hless)]
      by_cases hfits : 2 ^ 63 ≤ 2 * a
      · rw [if_pos hfits]
      · rw [if_neg hfits]
        exact ih left (by omega) (by rw [hmul]; exact hless) (by rw [hmul]; exact hlimit)

/-- The doublings of the size of a blob in memory are numbers of a gint64. -/
def Doubles (b : Blob.Blob) (pos : Nat) : Prop :=
  b.isInFile = false → 0 < b.allocSize → Grows b.allocSize pos

theorem reqAllocSize_overflows {pos : Nat} (hpos : pos < 2 ^ 63) (h : ¬Doubles b pos) :
    reqAllocSize pos b = .error .overflow := by
  simp only [Doubles, Grows, Classical.not_forall, Nat.not_lt] at h
  obtain ⟨hmemory, hsome, k, hless, hlimit⟩ := h
  have hdirect : ¬(b.allocSize = 0 ∨ b.isInFile = true) := by
    rw [hmemory]
    simp only [Bool.false_eq_true, or_false]
    omega
  have hsmaller : b.allocSize ≤ 2 ^ k * b.allocSize := Nat.le_mul_of_pos_left _ (Nat.two_pow_pos k)
  obtain ⟨hshrink, -⟩ := shrinkLoop_stops 63 (by omega : b.allocSize ≤ pos)
  rw [Nat.pow_zero, Nat.div_one] at hshrink
  have hk : k < 64 := by
    have hpow : 2 ^ k ≤ 2 ^ k * b.allocSize := Nat.le_mul_of_pos_right _ hsome
    have hlt := (Nat.pow_lt_pow_iff_right (by decide : 1 < 2)).mp
      (Nat.lt_of_le_of_lt hpow (Nat.lt_trans hless hpos))
    omega
  rw [reqAllocSize, if_neg hdirect, hshrink]
  exact growLoop_overflows k 64 hk hless hlimit

/-- What is allocated is enough, and just what is asked for in a file, for a
larger size or for a shift of the size there was. -/
theorem reqAllocSize_spec {pos : Nat} (hpos : pos < 2 ^ 63) (hlimit : b.allocSize < 2 ^ 63)
    (h : Doubles b pos) :
    ∃ r, reqAllocSize pos b = .ok r ∧ pos ≤ r ∧
      (pos < b.allocSize → (r = pos ↔ b.isInFile = true ∨ Shift b.allocSize pos)) := by
  by_cases hfile : b.isInFile = true
  · exact ⟨pos, by rw [reqAllocSize, if_pos (.inr hfile)], Nat.le_refl _,
      fun _ => iff_of_true rfl (.inl hfile)⟩
  · have hmemory := Bool.eq_false_iff.mpr hfile
    by_cases hless : pos < b.allocSize
    · obtain ⟨r, hr, hle, hexact⟩ := reqAllocSize_shrinks hmemory hlimit hless
      exact ⟨r, hr, hle, fun _ => hexact.trans (or_iff_right hfile).symm⟩
    · by_cases hsame : b.allocSize = pos
      · refine ⟨pos, ?_, Nat.le_refl _, fun hlt => absurd hlt hless⟩
        by_cases hzero : b.allocSize = 0
        · rw [reqAllocSize, if_pos (.inl hzero)]
        · have hdirect : ¬(b.allocSize = 0 ∨ b.isInFile = true) := fun hd => hd.elim hzero hfile
          rw [reqAllocSize, if_neg hdirect, hsame]
          simp only [shrinkLoop, growLoop, Nat.lt_irrefl, ↓reduceIte]
      · obtain ⟨r, hr, hle⟩ := reqAllocSize_fits ⟨hpos, h⟩ (by omega : b.allocSize < pos)
        exact ⟨r, hr, hle, fun hlt => absurd hlt hless⟩

/-! What an allocation leaves -/

theorem swapOut_stores (h : Stores b content) (now : Int) :
    ∃ m, swapOut now [] b = .ok m ∧ Stores m content ∧ m.allocSize = b.allocSize := by
  by_cases hfile : b.isInFile = true
  · exact ⟨b, by rw [swapOut, if_neg (fun hmoves => hmoves.2 hfile)], h, rfl⟩
  · obtain ⟨m, hm, hholds, hsize⟩ :=
      swapOut_holds (h.holds (fun hin => absurd hin hfile)) now
    exact ⟨m, hm, stores_of_holds hholds, hsize⟩

/-- The array is cut at the size that is allocated, and a file has this length
then. -/
theorem allocGranted_stores (h : Stores b content) (now : Int) (r : Nat) :
    Stores (allocGranted now r b) (content.take r) ∧
      ((allocGranted now r b).isInFile = true →
        (allocGranted now r b).size ≤ (allocGranted now r b).file.length) := by
  have hsize : min b.size r = (content.take r).length := by
    rw [h.size, List.length_take, Nat.min_comm]
  by_cases hfile : b.isInFile = true
  · have hgranted : allocGranted now r b = { b with
        file := resize r b.file
        allocSize := r
        size := min b.size r
        lastAccessed := now } := by
      simp only [allocGranted, hfile, ↓reduceIte]
    rw [hgranted]
    refine ⟨⟨⟨hsize, Nat.min_le_right _ _, ?_, ?_⟩, ?_⟩, ?_⟩
    · exact fun hmemory => absurd hmemory (ne_false_of_eq_true hfile)
    · intro _ i
      rw [ZeroArray.get_resize, ZeroArray.get_take, h.disk hfile]
    · exact fun hmemory => absurd hmemory (ne_false_of_eq_true hfile)
    · intro _
      rw [ZeroArray.length_resize]
      exact Nat.min_le_right _ _
  · have hmemory := Bool.eq_false_iff.mpr hfile
    have hgranted : allocGranted now r b = { b with
        data := resize r b.data
        allocSize := r
        size := min b.size r
        lastAccessed := now } := by
      simp only [allocGranted, hfile, Bool.false_eq_true, ↓reduceIte]
    rw [hgranted]
    refine ⟨⟨⟨hsize, Nat.min_le_right _ _, ?_, fun hin => absurd hin hfile⟩, h.emptied⟩,
      fun hin => absurd hin hfile⟩
    intro _
    refine ⟨ZeroArray.length_resize _ _, fun i => ?_⟩
    rw [ZeroArray.get_resize, ZeroArray.get_take, (h.memory hmemory).2]

/-- With the writes of a swap-out done as they should be. -/
theorem alloc_stores (h : Stores b content) (now : Int) {moved : Option (List Transfer)} {pos r : Nat}
    (hr : reqAllocSize pos b = .ok r)
    (hmoved : ∀ io, moved = some io → swapOut now io b = swapOut now [] b) :
    ∃ b', alloc now moved pos b = .ok b' ∧ Stores b' (content.take r) ∧
      ((b.isInFile = true → b.size ≤ b.file.length) → b'.isInFile = true → b'.size ≤ b'.file.length) := by
  by_cases hsame : r = b.allocSize
  · have hall : content.take r = content := by
      apply List.take_of_length_le
      rw [hsame, ← h.size]
      exact h.inside
    rw [hall]
    exact ⟨b, by simp only [alloc, hr, hsame, ↓reduceIte], h, fun hlong => hlong⟩
  · cases moved with
    | none =>
        obtain ⟨hstores, hlong⟩ := allocGranted_stores h now r
        exact ⟨_, by simp only [alloc, hr, hsame, ↓reduceIte, Option.elim], hstores, fun _ => hlong⟩
    | some io =>
        obtain ⟨m, hm, hmstores, -⟩ := swapOut_stores h now
        obtain ⟨hstores, hlong⟩ := allocGranted_stores hmstores now r
        refine ⟨allocGranted now r m, ?_, hstores, fun _ => hlong⟩
        simp only [alloc, hr, hsame, ↓reduceIte, Option.elim, hmoved io rfl, hm]

theorem writeLoop_length (buf : List UInt8) (io : List Transfer) {remain off written n : Nat}
    {file file' : List UInt8} (hbuf : remain ≤ buf.length) (hfile : file.length = off)
    (h : writeLoop buf io remain off written file = .ok (n, file')) : file'.length = off + remain := by
  induction io generalizing remain off written file with
  | nil =>
      rw [writeLoop] at h
      split at h
      · rename_i hzero
        cases h
        omega
      · cases h
        rw [ZeroArray.length_overwrite, List.length_take]
        omega
  | cons answer io ih =>
      by_cases hzero : remain = 0
      · rw [hzero, writeLoop_done] at h
        cases h
        omega
      · cases answer with
        | fail =>
            rw [writeLoop, if_neg hzero] at h
            cases h
        | intr =>
            rw [writeLoop, if_neg hzero] at h
            exact ih hbuf hfile h
        | count k =>
            rw [writeLoop, if_neg hzero] at h
            have hlen : (overwrite off (buf.take (min k remain)) file).length = off + min k remain := by
              rw [ZeroArray.length_overwrite, List.length_take]
              omega
            have hrest := ih (by omega) hlen h
            omega

/-- A swap-out after which the file has the right bytes is one with whole
writes. -/
theorem swapOut_whole (h : Stores b content) (now : Int) {io : List Transfer} {m : Blob.Blob}
    (hm : swapOut now io b = .ok m)
    (hget : m.isInFile = true → ∀ i, i < b.size → get m.file i = get content i) :
    swapOut now io b = swapOut now [] b := by
  by_cases hmoves : ¬b.storageLocked = true ∧ ¬b.isInFile = true
  · have hmemory := Bool.eq_false_iff.mpr hmoves.2
    obtain ⟨hdata, hsame⟩ := h.memory hmemory
    have hempty := h.emptied hmemory
    have hcount : b.size ≤ b.data.length := hdata ▸ h.inside
    rw [swapOut, if_pos hmoves] at hm ⊢
    rw [swapOut, if_pos hmoves, writeFile_whole b.data hcount, hempty]
    rw [writeFile, if_neg (Nat.not_lt.mpr hcount)] at hm ⊢
    rw [hempty] at hm
    cases hloop : writeLoop b.data io b.size 0 0 [] with
    | error halt =>
        rw [hloop] at hm
        cases hm
    | ok out =>
        obtain ⟨n, file⟩ := out
        rw [hloop] at hm
        cases hm
        have hlen := writeLoop_length b.data io hcount List.length_nil hloop
        have hfile : file = if b.size = 0 then [] else overwrite 0 (b.data.take b.size) [] := by
          by_cases hzero : b.size = 0
          · rw [if_pos hzero]
            exact List.eq_nil_of_length_eq_zero (by omega)
          · rw [if_neg hzero]
            apply ZeroArray.ext
            · rw [hlen, ZeroArray.length_overwrite, List.length_take, List.length_nil]
              omega
            · intro i
              rw [ZeroArray.get_overwrite, List.length_take, Nat.min_eq_left hcount, Nat.zero_add,
                Nat.sub_zero, ZeroArray.get_take, hsame]
              by_cases hi : i < b.size
              · rw [if_pos ⟨Nat.zero_le i, hi⟩, if_pos hi]
                exact hget rfl i hi
              · have hnil : get ([] : List UInt8) i = 0 := ZeroArray.get_of_length_le (Nat.zero_le i)
                rw [if_neg (fun hboth => hi hboth.2), hnil]
                exact ZeroArray.get_of_length_le (by omega)
        simp only [Except.map, hfile]
  · rw [swapOut, swapOut, if_neg hmoves, if_neg hmoves]

/-! Truncation -/

/-- The blob has the bytes of the array before `pos`, and zeros behind them. -/
def Truncates (now : Int) (moved : Option (List Transfer)) (pos : Nat) (b : Blob.Blob)
    (content : List UInt8) : Prop :=
  ∃ b', truncate now moved pos b = .ok b' ∧ b'.size = min b.size pos ∧ Stores b' (content.take pos)

/-- The size asked for is the one that is allocated, or the array ends before
it. -/
def Exact (b : Blob.Blob) (pos : Nat) : Prop :=
  (b.isInFile = true ∨ b.size ≤ pos ∨ Shift b.allocSize pos) ∧ Doubles b pos

theorem take_eq_of_exact (h : Stores b content) {pos r : Nat}
    (hr : pos < b.allocSize → (r = pos ↔ b.isInFile = true ∨ Shift b.allocSize pos)) (hle : pos ≤ r)
    (hexact : Exact b pos) : content.take r = content.take pos := by
  have hsize := h.size
  have hinside := h.inside
  by_cases hshort : b.size ≤ pos
  · rw [List.take_of_length_le (by omega : content.length ≤ r),
      List.take_of_length_le (by omega : content.length ≤ pos)]
  · obtain ⟨hfile | hle | hshift, -⟩ := hexact
    · rw [(hr (by omega)).mpr (.inl hfile)]
    · exact absurd hle hshort
    · rw [(hr (by omega)).mpr (.inr hshift)]

theorem truncates_of_exact (h : Stores b content) (hlimit : b.allocSize < 2 ^ 63) (now : Int)
    {moved : Option (List Transfer)} {pos : Nat} (hpos : pos < 2 ^ 63) (hexact : Exact b pos)
    (hmoved : ∀ io, moved = some io → swapOut now io b = swapOut now [] b) :
    ∃ b', truncate now moved pos b = .ok b' ∧ Stores b' (content.take pos) ∧
      ((b.isInFile = true → b.size ≤ b.file.length) → b'.isInFile = true → b'.size ≤ b'.file.length) := by
  obtain ⟨r, hr, hle, hiff⟩ := reqAllocSize_spec hpos hlimit hexact.2
  obtain ⟨b', halloc, hstores, hlong⟩ := alloc_stores h now hr hmoved
  rw [take_eq_of_exact h hiff hle hexact] at hstores
  exact ⟨b', halloc, hstores, hlong⟩

/-- A blob is swapped out only by a request that lets it grow. -/
theorem truncates_iff (h : Stores b content) (hlimit : b.allocSize < 2 ^ 63) (now : Int)
    {moved : Option (List Transfer)} {pos : Nat} (hpos : pos < 2 ^ 63)
    (hgrows : ∀ io, moved = some io → b.allocSize < pos) :
    Truncates now moved pos b content ↔
      Exact b pos ∧ ∀ io, moved = some io → swapOut now io b = swapOut now [] b := by
  have hsize := h.size
  have hinside := h.inside
  constructor
  · rintro ⟨b', htruncate, hshort, hstores⟩
    have hdoubles : Doubles b pos := by
      by_contra hno
      rw [truncate, alloc, reqAllocSize_overflows hpos hno] at htruncate
      cases htruncate
    obtain ⟨r, hr, hle, hiff⟩ := reqAllocSize_spec hpos hlimit hdoubles
    have hmoved : ∀ io, moved = some io → swapOut now io b = swapOut now [] b := by
      rintro io rfl
      have hless := hgrows io rfl
      have hother : ¬r = b.allocSize := by omega
      simp only [truncate, alloc, hr, hother, ↓reduceIte, Option.elim] at htruncate
      cases hswap : swapOut now io b with
      | error halt =>
          rw [hswap] at htruncate
          cases htruncate
      | ok m =>
          rw [hswap] at htruncate
          cases htruncate
          rw [← hswap]
          refine swapOut_whole h now hswap ?_
          intro hfile i hi
          have hwhole : content.take pos = content := List.take_of_length_le (by omega)
          rw [hwhole] at hstores
          have hget := hstores.disk (by simp only [allocGranted, hfile, ↓reduceIte]) i
          have hin : i < r := by omega
          simp only [allocGranted, hfile, ↓reduceIte, ZeroArray.get_resize, hin] at hget
          exact hget
    refine ⟨⟨?_, hdoubles⟩, hmoved⟩
    obtain ⟨b'', halloc, hstores', -⟩ := alloc_stores h now hr hmoved
    obtain rfl : b'' = b' := Except.ok.inj (halloc.symm.trans htruncate)
    have hcut := hstores'.size
    rw [List.length_take] at hcut
    by_cases hlong : b.size ≤ pos
    · exact .inr (.inl hlong)
    · have hexact := (hiff (by omega)).mp (by omega)
      exact hexact.imp_right .inr
  · rintro ⟨hexact, hmoved⟩
    obtain ⟨b', htruncate, hstores, -⟩ := truncates_of_exact h hlimit now hpos hexact hmoved
    refine ⟨b', htruncate, ?_, hstores⟩
    rw [hstores.size, List.length_take, hsize, Nat.min_comm]

/-- Truncations among the other operations. -/
inductive Op
  | content (op : ContentOp)
  | truncate (now : Int) (moved : Bool) (pos : Nat)

/-- A truncation answers with the size that is left. -/
def step (op : Op) (b : Blob.Blob) : Except Halt ((Nat × List UInt8) × Blob.Blob) :=
  match op with
  | .content op => contentStep op b
  | .truncate now moved pos =>
      (truncate now (if moved then some [] else none) pos b).map fun b => ((b.size, []), b)

def plainStep (op : Op) (content : List UInt8) : (Nat × List UInt8) × List UInt8 :=
  match op with
  | .content op => arrayStep op content
  | .truncate _ _ pos => ((min content.length pos, []), content.take pos)

def plainRun : List Op → List UInt8 → List (Nat × List UInt8) × List UInt8
  | [], content => ([], content)
  | op :: ops, content =>
      let (r, content) := plainStep op content
      let (rs, content) := plainRun ops content
      (r :: rs, content)

/-- The sizes are numbers of a gint64, and a truncation is exact. -/
def Proper : Op → Blob.Blob → Prop
  | .content op, b => Sized op b
  | .truncate _ _ pos, b => pos < 2 ^ 63 ∧ b.allocSize < 2 ^ 63 ∧ Exact b pos

theorem step_holds (op : Op) (h : Holds b content) (hproper : Proper op b) :
    ∃ b', step op b = .ok ((plainStep op content).1, b') ∧ Holds b' (plainStep op content).2 := by
  cases op with
  | content op => exact contentStep_holds op h hproper
  | truncate now moved pos =>
      obtain ⟨hpos, hlimit, hexact⟩ := hproper
      have hmoved : ∀ io, (if moved then some [] else none) = some io →
          swapOut now io b = swapOut now [] b := by
        intro io hio
        cases moved with
        | false => cases hio
        | true =>
            cases hio
            rfl
      obtain ⟨b', htruncate, hstores, hlong⟩ :=
        truncates_of_exact (stores_of_holds h) hlimit now hpos hexact hmoved
      have hsize := hstores.size
      rw [List.length_take, Nat.min_comm] at hsize
      refine ⟨b', ?_, hstores.holds (hlong fun hfile => (h.disk hfile).1)⟩
      simp only [step, htruncate, Except.map, plainStep, hsize]

theorem plainRun_holds (ops : List Op) (h : Holds b content) (hproper : Run.Meets step Proper ops b) :
    ∃ b', Run.run step ops b = .ok ((plainRun ops content).1, b') ∧ Holds b' (plainRun ops content).2 := by
  induction ops generalizing b content with
  | nil => exact ⟨b, rfl, h⟩
  | cons op ops ih =>
      obtain ⟨c, hstep, hc⟩ := step_holds op h hproper.1
      obtain ⟨b', hrun, hb'⟩ := ih hc (hproper.2 _ _ hstep)
      exact ⟨b', by simp only [Run.run, hstep, hrun, Except.map, plainRun], hb'⟩

/-- In memory a truncation is exact only where the allocation is; a run with
exact ones gives the sizes and bytes of an array, wherever the blob is. -/
theorem truncate_exact (b : Blob.Blob) (content : List UInt8) :
    (Stores b content → b.allocSize < 2 ^ 63 →
      ∀ (now : Int) (moved : Option (List Transfer)) (pos : Nat), pos < 2 ^ 63 →
        (∀ io, moved = some io → b.allocSize < pos) →
        (Truncates now moved pos b content ↔
          Exact b pos ∧ ∀ io, moved = some io → swapOut now io b = swapOut now [] b)) ∧
    (Holds b content → ∀ ops, Run.Meets step Proper ops b →
      ∃ b', Run.run step ops b = .ok ((plainRun ops content).1, b') ∧
        Holds b' (plainRun ops content).2) :=
  ⟨fun h hlimit now _ _ hpos hgrows => truncates_iff h hlimit now hpos hgrows,
    fun h ops hproper => plainRun_holds ops h hproper⟩

/-- Three bytes in eight, cut to two, and once more in the file. -/
theorem truncate_exact_shift :
    Truncates 0 none 2 { size := 3, allocSize := 8, data := [1, 2, 3, 0, 0, 0, 0, 0] } [1, 2, 3] ∧
      ∃ b', Run.run step [.truncate 0 false 2, .content (.swapOut 1), .truncate 2 false 1]
          { size := 3, allocSize := 8, data := [1, 2, 3, 0, 0, 0, 0, 0] } =
            .ok ([(2, []), (0, []), (1, [])], b') ∧ Holds b' [1] := by
  have hholds : Holds { size := 3, allocSize := 8, data := [1, 2, 3, 0, 0, 0, 0, 0] } [1, 2, 3] := by
    refine ⟨rfl, by decide, fun _ => ⟨rfl, rfl, ?_⟩, fun h => Bool.noConfusion h⟩
    intro i
    match i with
    | 0 | 1 | 2 | 3 | 4 | 5 | 6 | 7 => rfl
    | i + 8 => exact (ZeroArray.get_of_length_le (by simp)).trans (ZeroArray.get_of_length_le (by simp)).symm
  have hgrows : ∀ (k : Nat), 2 ^ k * 8 < 2 → 2 ^ (k + 1) * 8 < 2 ^ 63 := by
    intro k hk
    have hpow := Nat.two_pow_pos k
    omega
  have hexact : Exact { size := 3, allocSize := 8, data := [1, 2, 3, 0, 0, 0, 0, 0] } 2 :=
    ⟨.inr (.inr ⟨2, .inl rfl⟩), fun _ _ => hgrows⟩
  refine ⟨?_, ?_⟩
  · exact ((truncate_exact _ [1, 2, 3]).1 (stores_of_holds hholds) (by decide) 0 none 2 (by decide)
      (fun io hio => nomatch hio)).mpr ⟨hexact, fun io hio => nomatch hio⟩
  · exact (truncate_exact _ [1, 2, 3]).2 hholds [.truncate 0 false 2, .content (.swapOut 1), .truncate 2 false 1]
      (Run.meets_cons ⟨by decide, by decide, hexact⟩ rfl (Run.meets_cons trivial rfl
        (Run.meets_cons ⟨by decide, by decide, .inl rfl, fun h => Bool.noConfusion h⟩ rfl trivial)))

/-- A full blob of eight bytes in memory cannot be cut to five. -/
theorem truncate_not_exact :
    ¬Truncates 0 none 5 { size := 8, allocSize := 8, data := [1, 2, 3, 4, 5, 6, 7, 8] }
        [1, 2, 3, 4, 5, 6, 7, 8] ∧
      (truncate 0 none 5 { size := 8, allocSize := 8, data := [1, 2, 3, 4, 5, 6, 7, 8] }).map (·.size) =
        .ok 8 ∧
      (truncate 0 none 5 { size := 8, allocSize := 8, isInFile := true, file := [1, 2, 3, 4, 5, 6, 7, 8] }).map
        (·.size) = .ok 5 := by
  refine ⟨?_, rfl, rfl⟩
  rintro ⟨b', htruncate, hsize, -⟩
  cases htruncate
  exact absurd hsize (by decide)

end Libzorpll.BlobTruncate
