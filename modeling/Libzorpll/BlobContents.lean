import Libzorpll.Blob
import Libzorpll.Run

namespace Libzorpll.BlobContents

open Blob
open ZeroArray (get overwrite resize)

/-- The blob holds the bytes of an array: those it has allocated behind them
are zeros, in memory as well as in the file. -/
structure Holds (b : Blob.Blob) (content : List UInt8) : Prop where
  size : b.size = content.length
  inside : b.size ≤ b.allocSize
  memory : b.isInFile = false →
    b.data.length = b.allocSize ∧ b.file = [] ∧ ∀ i, get b.data i = get content i
  disk : b.isInFile = true → b.size ≤ b.file.length ∧ ∀ i, get b.file i = get content i

variable {b : Blob.Blob} {content : List UInt8}

/-- A write of which all is transferred. -/
theorem writeFile_whole (buf : List UInt8) {count : Nat} (hcount : count ≤ buf.length) (off : Nat)
    (file : List UInt8) :
    writeFile [] buf count off file =
      .ok (count, if count = 0 then file else overwrite off (buf.take count) file) := by
  have hmemory : ¬buf.length < count := Nat.not_lt.mpr hcount
  rw [writeFile, if_neg hmemory, writeLoop]
  by_cases hzero : count = 0
  · rw [if_pos hzero, if_pos hzero, hzero]
  · rw [if_neg hzero, if_neg hzero]

theorem readFile_whole (stops : Bool) {file buf : List UInt8} {count off : Nat}
    (hcount : count ≤ buf.length) (hfile : off + count ≤ file.length) :
    readFile stops [] file count off buf =
      .ok (count, overwrite 0 ((file.drop off).take count) buf) := by
  have hmemory : ¬buf.length < count := Nat.not_lt.mpr hcount
  rw [readFile, if_neg hmemory, readLoop]
  by_cases hzero : count = 0
  · rw [if_pos hzero, hzero, List.take_zero, ZeroArray.overwrite_nil]
  · have hgot : ((file.drop off).take count).length = count := by
      rw [List.length_take, List.length_drop]
      omega
    rw [if_neg hzero, if_pos hgot]

theorem swapOut_holds (h : Holds b content) (now : Int) :
    ∃ b', swapOut now [] b = .ok b' ∧ Holds b' content ∧ b'.allocSize = b.allocSize := by
  by_cases hmoves : ¬b.storageLocked = true ∧ ¬b.isInFile = true
  · obtain ⟨hdata, hfile, hget⟩ := h.memory (Bool.eq_false_iff.mpr hmoves.2)
    have hinside := h.inside
    have hsize := h.size
    have hcount : b.size ≤ b.data.length := hdata ▸ hinside
    have hwrite := writeFile_whole b.data hcount 0 b.file
    refine ⟨{ b with
      isInFile := true
      file := if b.size = 0 then b.file else overwrite 0 (b.data.take b.size) b.file
      data := []
      lastAccessed := now }, ?_, ⟨hsize, hinside, fun hout => Bool.noConfusion hout, fun _ => ?_⟩, rfl⟩
    · rw [swapOut, if_pos hmoves, hwrite]
      rfl
    · by_cases hzero : b.size = 0
      · have hempty : content = [] := List.eq_nil_of_length_eq_zero (hsize.symm.trans hzero)
        simp only [hzero, ↓reduceIte, hfile, hempty]
        exact ⟨Nat.zero_le _, fun _ => trivial⟩
      · have hlen : (b.data.take b.size).length = b.size := by
          rw [List.length_take]
          omega
        simp only [hzero, ↓reduceIte, ZeroArray.length_overwrite, hlen, hfile]
        refine ⟨by omega, ?_⟩
        intro i
        rw [ZeroArray.get_overwrite, hlen, ZeroArray.get_take, Nat.zero_add, Nat.sub_zero]
        by_cases hi : i < b.size
        · rw [if_pos ⟨Nat.zero_le i, hi⟩, if_pos hi, hget]
        · rw [if_neg (fun hboth => hi hboth.2), ZeroArray.get_of_length_le (Nat.zero_le i),
            ZeroArray.get_of_length_le (by omega)]
  · exact ⟨b, by rw [swapOut, if_neg hmoves], h, rfl⟩

theorem swapIn_holds (h : Holds b content) (hfile : b.isInFile = true) (now : Int) :
    ∃ b', swapIn now [] b = .ok b' ∧ Holds b' content ∧ b'.allocSize = b.allocSize := by
  obtain ⟨hlength, hget⟩ := h.disk hfile
  have hsize := h.size
  have hinside := h.inside
  have hbuf : b.size ≤ (List.replicate b.allocSize (0 : UInt8)).length := by
    rw [List.length_replicate]
    exact hinside
  have hread := readFile_whole true hbuf (by rw [Nat.zero_add]; exact hlength)
  rw [List.drop_zero] at hread
  have hlen : (b.file.take b.size).length = b.size := by
    rw [List.length_take]
    omega
  refine ⟨{ b with
    isInFile := false
    file := []
    data := overwrite 0 (b.file.take b.size) (List.replicate b.allocSize 0)
    lastAccessed := now }, ?_, ⟨hsize, hinside, fun _ => ⟨?_, rfl, ?_⟩, fun hin => Bool.noConfusion hin⟩, rfl⟩
  · rw [swapIn, hread]
    rfl
  · simp only [ZeroArray.length_overwrite, List.length_replicate, hlen]
    omega
  · intro i
    rw [ZeroArray.get_overwrite, hlen, ZeroArray.get_take, Nat.zero_add, Nat.sub_zero,
      ZeroArray.get_replicate]
    by_cases hi : i < b.size
    · rw [if_pos ⟨Nat.zero_le i, hi⟩, if_pos hi, hget]
    · rw [if_neg (fun hboth => hi hboth.2), ZeroArray.get_of_length_le (by omega)]

/-- The doublings of the allocated size up to what is needed are numbers of a
gint64. -/
def Grows (allocSize reqSize : Nat) : Prop := ∀ k, 2 ^ k * allocSize < reqSize → 2 ^ (k + 1) * allocSize < 2 ^ 63

theorem growLoop_grows {reqSize : Nat} (rounds : Nat) {size : Nat} (hpos : 0 < size)
    (hgrows : Grows size reqSize) (hrounds : reqSize ≤ 2 ^ (rounds - 1) * size) (hsome : 0 < rounds) :
    ∃ r, growLoop reqSize rounds size = .ok r ∧ reqSize ≤ r := by
  induction rounds generalizing size with
  | zero => omega
  | succ rounds ih =>
      by_cases hless : size < reqSize
      · have hfirst := hgrows 0 (by omega)
        have hfits : ¬2 ^ 63 ≤ 2 * size := by omega
        obtain ⟨n, rfl⟩ : ∃ n, rounds = n + 1 := by
          cases rounds with
          | zero => simp at hrounds; omega
          | succ n => exact ⟨n, rfl⟩
        have hnext : Grows (2 * size) reqSize := by
          intro k hk
          have hmul : ∀ j, 2 ^ (j + 1) * size = 2 ^ j * (2 * size) := by
            intro j
            rw [Nat.pow_succ, Nat.mul_assoc]
          rw [← hmul]
          apply hgrows
          rw [hmul]
          exact hk
        have hmul : 2 ^ (n + 1 - 1) * (2 * size) = 2 ^ (n + 1 + 1 - 1) * size := by
          simp only [Nat.add_sub_cancel]
          rw [Nat.pow_succ, Nat.mul_assoc]
        obtain ⟨r, hr, hle⟩ := ih (Nat.mul_pos Nat.two_pos hpos) hnext (hmul ▸ hrounds) (Nat.succ_pos n)
        refine ⟨r, ?_, hle⟩
        rw [growLoop, if_pos hless, if_neg hfits, hr]
      · exact ⟨size, by rw [growLoop, if_neg hless], Nat.le_of_not_lt hless⟩

/-- A blob in a file, or without memory, is given just what is asked for, and
one in memory the next doubling. -/
def Fits (reqSize : Nat) (b : Blob.Blob) : Prop :=
  reqSize < 2 ^ 63 ∧ (b.isInFile = false → 0 < b.allocSize → Grows b.allocSize reqSize)

theorem reqAllocSize_fits {reqSize : Nat} (hfits : Fits reqSize b) (hgrows : b.allocSize < reqSize) :
    ∃ r, reqAllocSize reqSize b = .ok r ∧ reqSize ≤ r := by
  obtain ⟨hlimit, hdoubles⟩ := hfits
  by_cases hdirect : b.allocSize = 0 ∨ b.isInFile = true
  · exact ⟨reqSize, by rw [reqAllocSize, if_pos hdirect], Nat.le_refl _⟩
  · have hpos : 0 < b.allocSize := by
      apply Nat.pos_of_ne_zero
      exact fun hzero => hdirect (.inl hzero)
    have hmemory : b.isInFile = false := Bool.eq_false_iff.mpr (fun hin => hdirect (.inr hin))
    have hshrink : shrinkLoop reqSize 64 b.allocSize = .ok b.allocSize := by
      rw [shrinkLoop, if_neg (Nat.lt_asymm hgrows)]
    obtain ⟨r, hr, hle⟩ := growLoop_grows 64 hpos (hdoubles hmemory hpos) (by omega) (by omega)
    exact ⟨r, by rw [reqAllocSize, if_neg hdirect, hshrink]; exact hr, hle⟩

theorem allocGranted_holds (h : Holds b content) (now : Int) (size : Nat) (hsize : b.size ≤ size) :
    Holds (allocGranted now size b) content ∧ (allocGranted now size b).allocSize = size := by
  have hlength := h.size
  by_cases hfile : b.isInFile = true
  · obtain ⟨hlong, hget⟩ := h.disk hfile
    have hgranted : allocGranted now size b = { b with
        file := resize size b.file
        allocSize := size
        size := min b.size size
        lastAccessed := now } := by
      simp only [allocGranted, hfile, ↓reduceIte]
    rw [hgranted]
    refine ⟨⟨?_, ?_, ?_, ?_⟩, rfl⟩
    · exact (Nat.min_eq_left hsize).trans hlength
    · exact Nat.min_le_right _ _
    · intro hmemory
      exact absurd hmemory (ne_false_of_eq_true hfile)
    · intro _
      refine ⟨?_, ?_⟩
      · rw [ZeroArray.length_resize]
        exact Nat.min_le_right _ _
      · intro i
        rw [ZeroArray.get_resize]
        split
        · exact hget i
        · rename_i hi
          rw [ZeroArray.get_of_length_le]
          omega
  · obtain ⟨hdata, hempty, hget⟩ := h.memory (Bool.eq_false_iff.mpr hfile)
    have hgranted : allocGranted now size b = { b with
        data := resize size b.data
        allocSize := size
        size := min b.size size
        lastAccessed := now } := by
      simp only [allocGranted, hfile, Bool.false_eq_true, ↓reduceIte]
    rw [hgranted]
    refine ⟨⟨?_, ?_, ?_, ?_⟩, rfl⟩
    · exact (Nat.min_eq_left hsize).trans hlength
    · exact Nat.min_le_right _ _
    · intro _
      refine ⟨ZeroArray.length_resize _ _, hempty, ?_⟩
      intro i
      rw [ZeroArray.get_resize]
      split
      · exact hget i
      · rename_i hi
        rw [ZeroArray.get_of_length_le]
        omega
    · intro hin
      exact absurd hin hfile

/-- A grant may move the blob to its file, but not change what it holds. -/
theorem alloc_holds (h : Holds b content) (now : Int) (moved : Bool) {reqSize : Nat}
    (hfits : Fits reqSize b) (hgrows : b.allocSize < reqSize) :
    ∃ b', alloc now (if moved then some [] else none) reqSize b = .ok b' ∧ Holds b' content ∧
      reqSize ≤ b'.allocSize := by
  obtain ⟨r, hr, hle⟩ := reqAllocSize_fits hfits hgrows
  have hchanges : ¬r = b.allocSize := by omega
  have hinside := h.inside
  cases moved with
  | false =>
      obtain ⟨hholds, hsize⟩ := allocGranted_holds h now r (by omega)
      refine ⟨allocGranted now r b, ?_, hholds, hsize ▸ hle⟩
      simp only [alloc, hr, hchanges, ↓reduceIte, Bool.false_eq_true, Option.elim]
  | true =>
      obtain ⟨m, hswap, hmholds, hmsize⟩ := swapOut_holds h now
      have hminside := hmholds.inside
      obtain ⟨hholds, hsize⟩ := allocGranted_holds hmholds now r (by omega)
      refine ⟨allocGranted now r m, ?_, hholds, hsize ▸ hle⟩
      simp only [alloc, hr, hchanges, ↓reduceIte, Option.elim, hswap]

/-- The write itself, with the space for it allocated. -/
theorem addCopy_allocated (h : Holds b content) (now : Int) (moved : Option (List Transfer)) {pos : Nat}
    {data : List UInt8} (hdata : 1 ≤ data.length) (hlimit : pos + data.length < 2 ^ 63)
    (hallocated : pos + data.length ≤ b.allocSize) :
    ∃ b', addCopy now moved [] pos data b = .ok (data.length, b') ∧
      Holds b' (overwrite pos data content) := by
  have hsize := h.size
  have hover : ¬2 ^ 63 ≤ pos + data.length := Nat.not_le.mpr hlimit
  have hno : ¬b.allocSize < pos + data.length := Nat.not_lt.mpr hallocated
  have hnewsize : max b.size (pos + data.length) = (overwrite pos data content).length := by
    rw [ZeroArray.length_overwrite, hsize]
  have hnewinside : max b.size (pos + data.length) ≤ b.allocSize := Nat.max_le.mpr ⟨h.inside, hallocated⟩
  by_cases hfile : b.isInFile = true
  · obtain ⟨hlong, hget⟩ := h.disk hfile
    have hzero : ¬data.length = 0 := by omega
    have hwrite := writeFile_whole data (Nat.le_refl _) pos b.file
    rw [if_neg hzero, List.take_length] at hwrite
    refine ⟨{ b with
      file := overwrite pos data b.file
      size := max b.size (pos + data.length)
      reqWr := b.reqWr + 1
      lastAccessed := now }, ?_, ⟨hnewsize, hnewinside, ?_, ?_⟩⟩
    · simp only [addCopy, hover, hno, ↓reduceIte, hfile, hwrite, Except.map]
    · intro hmemory
      exact absurd hmemory (ne_false_of_eq_true hfile)
    · intro _
      refine ⟨?_, ?_⟩
      · rw [ZeroArray.length_overwrite]
        exact Nat.max_le.mpr ⟨Nat.le_trans hlong (Nat.le_max_left _ _), Nat.le_max_right _ _⟩
      · intro i
        rw [ZeroArray.get_overwrite, ZeroArray.get_overwrite, hget]
  · obtain ⟨hmemory, hempty, hget⟩ := h.memory (Bool.eq_false_iff.mpr hfile)
    have hroom : ¬b.data.length < pos + data.length := by omega
    refine ⟨{ b with
      data := overwrite pos data b.data
      size := max b.size (pos + data.length)
      reqWr := b.reqWr + 1
      lastAccessed := now }, ?_, ⟨hnewsize, hnewinside, ?_, ?_⟩⟩
    · simp only [addCopy, hover, hno, ↓reduceIte, hfile, Bool.false_eq_true, hroom]
    · intro _
      refine ⟨?_, hempty, ?_⟩
      · rw [ZeroArray.length_overwrite]
        exact (Nat.max_eq_left (by omega)).trans hmemory
      · intro i
        rw [ZeroArray.get_overwrite, ZeroArray.get_overwrite, hget]
    · intro hin
      exact absurd hin hfile

theorem addCopy_holds (h : Holds b content) (now : Int) (moved : Bool) {pos : Nat} {data : List UInt8}
    (hdata : 1 ≤ data.length) (hfits : Fits (pos + data.length) b) :
    ∃ b', addCopy now (if moved then some [] else none) [] pos data b = .ok (data.length, b') ∧
      Holds b' (overwrite pos data content) := by
  by_cases hgrows : b.allocSize < pos + data.length
  · obtain ⟨m, halloc, hm, hroom⟩ := alloc_holds h now moved hfits hgrows
    have hsame : addCopy now (if moved then some [] else none) [] pos data b =
        addCopy now (if moved then some [] else none) [] pos data m := by
      simp only [addCopy, hgrows, ↓reduceIte, halloc, Nat.not_lt.mpr hroom]
    rw [hsame]
    exact addCopy_allocated hm now _ hdata hfits.1 hroom
  · exact addCopy_allocated h now _ hdata hfits.1 (Nat.le_of_not_lt hgrows)

theorem getCopy_holds (h : Holds b content) (now : Int) (pos : Nat) (data : List UInt8) :
    ∃ b', getCopy now [] pos data b = .ok (min data.length (content.length - pos),
        overwrite 0 ((content.drop pos).take (min data.length (content.length - pos))) data, b') ∧
      Holds b' content := by
  have hsize := h.size
  by_cases hinside : pos < b.size
  · have hread : Holds { b with reqRd := b.reqRd + 1, lastAccessed := now } content :=
      ⟨h.size, h.inside, h.memory, h.disk⟩
    refine ⟨{ b with reqRd := b.reqRd + 1, lastAccessed := now }, ?_, hread⟩
    rw [← hsize]
    by_cases hfile : b.isInFile = true
    · obtain ⟨hlong, hget⟩ := h.disk hfile
      have hfits : pos + min data.length (b.size - pos) ≤ b.file.length := by omega
      have hwindow := ZeroArray.window_ext hfits (m := content) (by omega) hget
      simp only [getCopy, hinside, ↓reduceIte, hfile, readFile_whole false (Nat.min_le_left _ _) hfits,
        hwindow]
    · obtain ⟨hmemory, -, hget⟩ := h.memory (Bool.eq_false_iff.mpr hfile)
      have halloc := h.inside
      have hfits : pos + min data.length (b.size - pos) ≤ b.data.length := by omega
      have hwindow := ZeroArray.window_ext hfits (m := content) (by omega) hget
      simp only [getCopy, hinside, ↓reduceIte, hfile, Bool.false_eq_true, Nat.not_lt.mpr hfits, hwindow]
  · refine ⟨b, ?_, h⟩
    have hnone : min data.length (content.length - pos) = 0 := by omega
    rw [getCopy, if_neg hinside, hnone, List.take_zero, ZeroArray.overwrite_nil]

/-- What is done with a blob; a write says whether its request is granted by
swapping the blob out. -/
inductive ContentOp
  | addCopy (now : Int) (moved : Bool) (pos : Nat) (data : List UInt8)
  | getCopy (now : Int) (pos : Nat) (data : List UInt8)
  | swapOut (now : Int)
  | swapIn (now : Int)

/-- The count that a call returns, and the buffer of a read. Reads and writes
of the file transfer all they are asked for. -/
def contentStep (op : ContentOp) (b : Blob.Blob) : Except Halt ((Nat × List UInt8) × Blob.Blob) :=
  match op with
  | .addCopy now moved pos data =>
      (addCopy now (if moved then some [] else none) [] pos data b).map fun (written, b) => ((written, []), b)
  | .getCopy now pos data => (getCopy now [] pos data b).map fun (rd, data, b) => ((rd, data), b)
  | .swapOut now => (swapOut now [] b).map fun b => ((0, []), b)
  | .swapIn now =>
      if ¬b.storageLocked ∧ b.isInFile then (swapIn now [] b).map fun b => ((0, []), b)
      else .ok ((0, []), b)

/-- The same with a plain array. -/
def arrayStep (op : ContentOp) (content : List UInt8) : (Nat × List UInt8) × List UInt8 :=
  match op with
  | .addCopy _ _ pos data => ((data.length, []), overwrite pos data content)
  | .getCopy _ pos data =>
      let count := min data.length (content.length - pos)
      ((count, overwrite 0 ((content.drop pos).take count) data), content)
  | .swapOut _ => ((0, []), content)
  | .swapIn _ => ((0, []), content)

def arrayRun : List ContentOp → List UInt8 → List (Nat × List UInt8) × List UInt8
  | [], content => ([], content)
  | op :: ops, content =>
      let (r, content) := arrayStep op content
      let (rs, content) := arrayRun ops content
      (r :: rs, content)

/-- A write has something to write, and its sizes are numbers of a gint64. -/
def Sized : ContentOp → Blob.Blob → Prop
  | .addCopy _ _ pos data, b => 1 ≤ data.length ∧ Fits (pos + data.length) b
  | _, _ => True

/-- No size of a write that ends below 2^62 is too large. -/
theorem fits_of_le {reqSize : Nat} (h : reqSize ≤ 2 ^ 62) (b : Blob.Blob) : Fits reqSize b := by
  refine ⟨by omega, fun _ _ => ?_⟩
  intro k hk
  rw [Nat.pow_succ, Nat.mul_right_comm]
  omega

theorem contentStep_holds (op : ContentOp) (h : Holds b content) (hsized : Sized op b) :
    ∃ b', contentStep op b = .ok ((arrayStep op content).1, b') ∧ Holds b' (arrayStep op content).2 := by
  cases op with
  | addCopy now moved pos data =>
      obtain ⟨b', hadd, hholds⟩ := addCopy_holds h now moved hsized.1 hsized.2
      exact ⟨b', by rw [contentStep, hadd]; rfl, hholds⟩
  | getCopy now pos data =>
      obtain ⟨b', hget, hholds⟩ := getCopy_holds h now pos data
      exact ⟨b', by rw [contentStep, hget]; rfl, hholds⟩
  | swapOut now =>
      obtain ⟨b', hswap, hholds, -⟩ := swapOut_holds h now
      exact ⟨b', by rw [contentStep, hswap]; rfl, hholds⟩
  | swapIn now =>
      by_cases hmoves : ¬b.storageLocked = true ∧ b.isInFile = true
      · obtain ⟨b', hswap, hholds, -⟩ := swapIn_holds h hmoves.2 now
        exact ⟨b', by rw [contentStep, if_pos hmoves, hswap]; rfl, hholds⟩
      · exact ⟨b, by rw [contentStep, if_neg hmoves]; rfl, h⟩

theorem run_holds (ops : List ContentOp) (h : Holds b content)
    (hsized : Run.Meets contentStep Sized ops b) :
    ∃ b', Run.run contentStep ops b = .ok ((arrayRun ops content).1, b') ∧
      Holds b' (arrayRun ops content).2 := by
  induction ops generalizing b content with
  | nil => exact ⟨b, rfl, h⟩
  | cons op ops ih =>
      obtain ⟨c, hstep, hc⟩ := contentStep_holds op h hsized.1
      obtain ⟨b', hrun, hb'⟩ := ih hc (hsized.2 _ _ hstep)
      exact ⟨b', by simp only [Run.run, hstep, hrun, Except.map, arrayRun], hb'⟩

theorem blobNew_holds {now : Int} {moved : Bool} {initialSize : Nat}
    (hnew : blobNew now (if moved then some [] else none) initialSize = .ok b) : Holds b [] := by
  have hfresh : Holds { lastAccessed := now } [] :=
    ⟨rfl, Nat.le_refl 0, fun _ => ⟨rfl, rfl, fun _ => rfl⟩, fun hin => Bool.noConfusion hin⟩
  rw [blobNew] at hnew
  split at hnew
  · cases hnew
    exact hfresh
  · split at hnew
    · cases hnew
    · rename_i hsome hlimit
      have hfits : Fits initialSize { lastAccessed := now } :=
        ⟨Nat.lt_of_not_le hlimit, fun _ hpos => absurd hpos (Nat.lt_irrefl 0)⟩
      obtain ⟨b', halloc, hholds, -⟩ := alloc_holds hfresh now moved hfits (Nat.pos_of_ne_zero hsome)
      rw [halloc] at hnew
      cases hnew
      exact hholds

/-- As long as its sizes are numbers of a gint64, a blob answers as an array
does, wherever it is stored. -/
theorem contents_independent (now : Int) (moved : Bool) (initialSize : Nat) (b : Blob.Blob)
    (hnew : blobNew now (if moved then some [] else none) initialSize = .ok b) (ops : List ContentOp)
    (hsized : Run.Meets contentStep Sized ops b) :
    ∃ b', Run.run contentStep ops b = .ok ((arrayRun ops []).1, b') ∧
      b'.size = (arrayRun ops []).2.length := by
  obtain ⟨b', hrun, hholds⟩ := run_holds ops (blobNew_holds hnew) hsized
  exact ⟨b', hrun, hholds.size⟩

/-- A write behind the end for which the blob goes to its file, its return to
memory, and a read. -/
theorem contents_independent_moves :
    ∃ b', Run.run contentStep [.addCopy 1 true 3 [9], .swapIn 2, .getCopy 3 1 [7, 7, 7, 7]]
        { allocSize := 2, data := [0, 0] } =
          .ok ((arrayRun [.addCopy 1 true 3 [9], .swapIn 2, .getCopy 3 1 [7, 7, 7, 7]] []).1, b') ∧
      b'.size = (arrayRun [.addCopy 1 true 3 [9], .swapIn 2, .getCopy 3 1 [7, 7, 7, 7]] []).2.length := by
  refine contents_independent 0 false 2 { allocSize := 2, data := [0, 0] } rfl
    [.addCopy 1 true 3 [9], .swapIn 2, .getCopy 3 1 [7, 7, 7, 7]] ?_
  exact Run.meets_cons ⟨by decide, fits_of_le (by decide) _⟩ rfl
    (Run.meets_cons trivial rfl (Run.meets_cons trivial rfl trivial))

/-- The end of a write at the last position of a gint64 is not one. -/
theorem contents_overflow :
    ¬∀ (b : Blob.Blob) (_ : blobNew 0 none 0 = .ok b) (ops : List ContentOp)
      (_ : ∀ op ∈ ops, ∀ now moved pos data, op = .addCopy now moved pos data →
        pos < 2 ^ 63 ∧ 1 ≤ data.length),
      ∃ b', Run.run contentStep ops b = .ok ((arrayRun ops []).1, b') ∧
        b'.size = (arrayRun ops []).2.length := by
  intro h
  obtain ⟨b', hrun, -⟩ := h {} rfl [.addCopy 0 false (2 ^ 63 - 1) [1]] (by
    intro op hop now moved pos data hadd
    obtain rfl := List.mem_singleton.mp hop
    cases hadd
    decide)
  cases hrun

end Libzorpll.BlobContents
