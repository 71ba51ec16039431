import Libzorpll.BlobContents

/-! What short transfers make of a blob. -/

namespace Libzorpll.BlobTransfer

open Blob BlobContents
open ZeroArray (get overwrite resize)

/-- What read and write may answer apart from errors. -/
def Allowed (io : List Transfer) : Prop :=
  ∀ answer ∈ io, match answer with
    | .count n => 1 ≤ n
    | .intr => True
    | .fail => False

/-- The first call that is not interrupted transfers all. -/
def Whole (asked : Nat) : List Transfer → Prop
  | [] => True
  | .count n :: _ => asked ≤ n
  | .intr :: io => Whole asked io
  | .fail :: _ => False

theorem allowed_cons {answer : Transfer} {io : List Transfer} (h : Allowed (answer :: io)) :
    Allowed io := fun a ha => h a (List.mem_cons_of_mem _ ha)

theorem whole_zero {io : List Transfer} (h : Allowed io) : Whole 0 io := by
  induction io with
  | nil => trivial
  | cons answer io ih =>
      cases answer with
      | count n => exact Nat.zero_le n
      | intr => exact ih (allowed_cons h)
      | fail => exact h .fail List.mem_cons_self

theorem writeLoop_done (buf : List UInt8) (io : List Transfer) (off written : Nat) (file : List UInt8) :
    writeLoop buf io 0 off written file = .ok (written, file) := by
  cases io with
  | nil => rfl
  | cons answer io => rfl

theorem readLoop_done (stops : Bool) (file : List UInt8) (io : List Transfer) (off rd : Nat)
    (buf : List UInt8) : readLoop stops file io 0 off rd buf = .ok (rd, buf) := by
  cases io with
  | nil => rfl
  | cons answer io => rfl

theorem written_chunk {buf : List UInt8} {n : Nat} (hn : 0 < n) (hbuf : n ≤ buf.length) (off : Nat)
    (file : List UInt8) :
    (overwrite off (buf.take n) file).length = max file.length (off + n) ∧
      get (overwrite off (buf.take n) file) off = get buf 0 ∧
      ∀ j, j < off → get (overwrite off (buf.take n) file) j = get file j := by
  have hlen : (buf.take n).length = n := by
    rw [List.length_take]
    omega
  refine ⟨?_, ?_, ?_⟩
  · rw [ZeroArray.length_overwrite, hlen]
  · rw [ZeroArray.get_overwrite, hlen, if_pos ⟨Nat.le_refl _, by omega⟩, Nat.sub_self,
      ZeroArray.get_take, if_pos hn]
  · intro j hj
    rw [ZeroArray.get_overwrite, if_neg (fun h => Nat.not_le_of_lt hj h.1)]

theorem read_chunk {file buf : List UInt8} {off n : Nat} (hfile : off + n ≤ file.length)
    (hbuf : n ≤ buf.length) :
    ((file.drop off).take n).length = n ∧
      (overwrite 0 ((file.drop off).take n) buf).length = buf.length ∧
      ∀ j, n ≤ j → get (overwrite 0 ((file.drop off).take n) buf) j = get buf j := by
  have hlen : ((file.drop off).take n).length = n := by
    rw [List.length_take, List.length_drop]
    omega
  refine ⟨hlen, ?_, fun j hj => ?_⟩
  · rw [ZeroArray.length_overwrite, hlen]
    omega
  · rw [ZeroArray.get_overwrite, hlen, if_neg (fun h => Nat.not_lt_of_le hj (by omega))]

/-- A short write is followed by one of the same bytes, from the first on. -/
theorem writeLoop_spec {io : List Transfer} (h : Allowed io) {buf : List UInt8} {remain : Nat}
    (hpos : 0 < remain) (hbuf : remain ≤ buf.length) (off written : Nat) (file : List UInt8) :
    ∃ n file', writeLoop buf io remain off written file = .ok (n, file') ∧
      (n = remain ∧ file' = overwrite off (buf.take remain) file ∧ Whole remain io ∨
        n < remain ∧ ¬Whole remain io ∧ ∃ i, 0 < i ∧ i < remain ∧ get file' (off + i) = get buf 0) ∧
      file'.length = max file.length (off + remain) ∧ get file' off = get buf 0 ∧
      ∀ j, j < off → get file' j = get file j := by
  have hsome : ¬remain = 0 := by omega
  induction io generalizing remain off written file with
  | nil =>
      obtain ⟨hlen, hfirst, hbefore⟩ := written_chunk hpos hbuf off file
      refine ⟨remain, _, by rw [writeLoop, if_neg hsome], .inl ⟨rfl, rfl, trivial⟩, hlen, hfirst, hbefore⟩
  | cons answer io ih =>
      cases answer with
      | fail => exact (h .fail List.mem_cons_self).elim
      | intr =>
          rw [writeLoop, if_neg hsome]
          exact ih (allowed_cons h) hpos hbuf off written file hsome
      | count n =>
          have hn : 1 ≤ n := h (.count n) List.mem_cons_self
          rw [writeLoop, if_neg hsome]
          by_cases hall : remain ≤ n
          · obtain ⟨hlen, hfirst, hbefore⟩ := written_chunk hpos hbuf off file
            simp only [Nat.min_eq_right hall, Nat.sub_self, writeLoop_done]
            exact ⟨remain, _, rfl, .inl ⟨rfl, rfl, hall⟩, hlen, hfirst, hbefore⟩
          · obtain ⟨hlen, hfirst, hbefore⟩ := written_chunk hn (by omega : n ≤ buf.length) off file
            have hmin : min n remain = n := by omega
            simp only [hmin]
            obtain ⟨m, file', hm, hcases, hlen', hfirst', hbefore'⟩ :=
              ih (allowed_cons h) (by omega : 0 < remain - n) (by omega) (off + n) n
                (overwrite off (buf.take n) file) (by omega)
            refine ⟨m, file', hm, .inr ⟨?_, hall, n, hn, by omega, hfirst'⟩, ?_, ?_, ?_⟩
            · rcases hcases with hcases | hcases <;> omega
            · have hend : off + n + (remain - n) = off + remain := by omega
              rw [hlen', hlen, hend, Nat.max_assoc, Nat.max_eq_right (by omega : off + n ≤ off + remain)]
            · rw [hbefore' off (by omega), hfirst]
            · intro j hj
              rw [hbefore' j (by omega), hbefore j hj]

/-- A short read is followed by one that puts its bytes over those before. -/
theorem readLoop_spec (stops : Bool) {file : List UInt8} {io : List Transfer} (h : Allowed io) {remain off : Nat}
    (hpos : 0 < remain) (hfile : off + remain ≤ file.length) (rd : Nat) {buf : List UInt8}
    (hbuf : remain ≤ buf.length) :
    ∃ n buf', readLoop stops file io remain off rd buf = .ok (n, buf') ∧
      (n = remain ∧ buf' = overwrite 0 ((file.drop off).take remain) buf ∧ Whole remain io ∨
        n < remain ∧ ¬Whole remain io ∧ get buf' (remain - 1) = get buf (remain - 1)) ∧
      buf'.length = buf.length ∧ ∀ j, remain ≤ j → get buf' j = get buf j := by
  have hsome : ¬remain = 0 := by omega
  induction io generalizing remain off rd buf with
  | nil =>
      obtain ⟨hgot, hlen, hbehind⟩ := read_chunk hfile hbuf
      refine ⟨remain, _, ?_, .inl ⟨rfl, rfl, trivial⟩, hlen, hbehind⟩
      rw [readLoop, if_neg hsome, if_pos hgot]
  | cons answer io ih =>
      cases answer with
      | fail => exact (h .fail List.mem_cons_self).elim
      | intr =>
          rw [readLoop, if_neg hsome]
          exact ih (allowed_cons h) hpos hfile rd hbuf hsome
      | count n =>
          have hn : 1 ≤ n := h (.count n) List.mem_cons_self
          rw [readLoop, if_neg hsome]
          obtain ⟨hlength, -, -⟩ := @read_chunk file buf off (min n remain) (by omega) (by omega)
          have hnonempty : ¬((file.drop off).take (min n remain) = [] ∧ stops = true) := by
            rintro ⟨hempty, -⟩
            rw [hempty, List.length_nil] at hlength
            omega
          simp only [hnonempty, ↓reduceIte, hlength]
          by_cases hall : remain ≤ n
          · obtain ⟨-, hlen, hbehind⟩ := read_chunk hfile hbuf
            simp only [Nat.min_eq_right hall, Nat.sub_self, readLoop_done]
            exact ⟨remain, _, rfl, .inl ⟨rfl, rfl, hall⟩, hlen, hbehind⟩
          · have hmin : min n remain = n := by omega
            obtain ⟨-, hlen, hbehind⟩ := @read_chunk file buf off n (by omega) (by omega)
            simp only [hmin]
            have hnext : (off + n) + (remain - n) ≤ file.length := by omega
            obtain ⟨m, buf', hm, hcases, hlen', hbehind'⟩ :=
              ih (allowed_cons h) (by omega) hnext n
                (by omega : remain - n ≤ (overwrite 0 ((file.drop off).take n) buf).length) (by omega)
            refine ⟨m, buf', hm, .inr ⟨?_, hall, ?_⟩, hlen'.trans hlen, ?_⟩
            · rcases hcases with hcases | hcases <;> omega
            · rw [hbehind' (remain - 1) (by omega), hbehind (remain - 1) (by omega)]
            · intro j hj
              rw [hbehind' j (by omega), hbehind j (by omega)]

/-- Without the whole of what is asked for in the file, a loop that does not
stop at the end of it has no end. -/
theorem readLoop_endless {file : List UInt8} {io : List Transfer} (h : Allowed io) {remain off : Nat}
    (hpos : 0 < remain) (hfile : file.length < off + remain) (rd : Nat) (buf : List UInt8) :
    readLoop false file io remain off rd buf = .error .endless := by
  have hsome : ¬remain = 0 := by omega
  induction io generalizing remain off rd buf with
  | nil =>
      have hgot : ¬((file.drop off).take remain).length = remain := by
        rw [List.length_take, List.length_drop]
        omega
      simp only [readLoop, hsome, hgot, ↓reduceIte, Bool.false_eq_true]
  | cons answer io ih =>
      cases answer with
      | fail => exact (h .fail List.mem_cons_self).elim
      | intr =>
          rw [readLoop, if_neg hsome]
          exact ih (allowed_cons h) hpos hfile rd buf hsome
      | count n =>
          have hgot : ((file.drop off).take (min n remain)).length ≤ file.length - off := by
            rw [List.length_take, List.length_drop]
            omega
          simp only [readLoop, hsome, ↓reduceIte, Bool.false_eq_true, and_false]
          exact ih (allowed_cons h) (by omega) (by omega) _ _ (by omega)

theorem readLoop_returns (file : List UInt8) {io : List Transfer} (h : Allowed io)
    (remain off rd : Nat) (buf : List UInt8) :
    ∃ r, readLoop true file io remain off rd buf = .ok r := by
  induction io generalizing remain off rd buf with
  | nil =>
      simp only [readLoop, ↓reduceIte]
      split
      · exact ⟨_, rfl⟩
      · split
        · exact ⟨_, rfl⟩
        · exact ⟨_, rfl⟩
  | cons answer io ih =>
      simp only [readLoop]
      split
      · exact ⟨_, rfl⟩
      · cases answer with
        | fail => exact (h .fail List.mem_cons_self).elim
        | intr => exact ih (allowed_cons h) remain off rd buf
        | count n =>
            simp only []
            split
            · exact ⟨_, rfl⟩
            · exact ih (allowed_cons h) _ _ _ _

/-! What the schedule makes of one request -/

theorem writeFile_spec {io : List Transfer} (h : Allowed io) {buf : List UInt8} {count : Nat}
    (hcount : count ≤ buf.length) (off : Nat) (file : List UInt8) :
    ∃ n file', writeFile io buf count off file = .ok (n, file') ∧
      (writeFile [] buf count off file = .ok (n, file') ∧ Whole count io ∨
        n < count ∧ ¬Whole count io ∧ ∃ i, 0 < i ∧ i < count ∧ get file' (off + i) = get buf 0) ∧
      (0 < count → file'.length = max file.length (off + count)) := by
  have hmemory : ¬buf.length < count := Nat.not_lt.mpr hcount
  rw [BlobContents.writeFile_whole buf hcount, writeFile, if_neg hmemory]
  by_cases hzero : count = 0
  · rw [hzero, writeLoop_done, if_pos rfl]
    exact ⟨0, file, rfl, .inl ⟨rfl, whole_zero h⟩, fun hpos => absurd hpos (Nat.lt_irrefl 0)⟩
  · obtain ⟨n, file', hloop, hcases, hlen, -, -⟩ :=
      writeLoop_spec h (Nat.pos_of_ne_zero hzero) hcount off 0 file
    rw [if_neg hzero]
    refine ⟨n, file', hloop, ?_, fun _ => hlen⟩
    rcases hcases with ⟨hall, hfile, hwhole⟩ | hshort
    · exact .inl ⟨by rw [hall, hfile], hwhole⟩
    · exact .inr hshort

theorem readFile_spec (stops : Bool) {file : List UInt8} {io : List Transfer} (h : Allowed io)
    {count off : Nat} {buf : List UInt8} (hcount : count ≤ buf.length)
    (hfile : off + count ≤ file.length) :
    ∃ n buf', readFile stops io file count off buf = .ok (n, buf') ∧
      (readFile stops [] file count off buf = .ok (n, buf') ∧ Whole count io ∨
        n < count ∧ ¬Whole count io ∧ get buf' (count - 1) = get buf (count - 1)) ∧
      buf'.length = buf.length := by
  have hmemory : ¬buf.length < count := Nat.not_lt.mpr hcount
  rw [BlobContents.readFile_whole stops hcount hfile, readFile, if_neg hmemory]
  by_cases hzero : count = 0
  · rw [hzero, readLoop_done, List.take_zero, ZeroArray.overwrite_nil]
    exact ⟨0, buf, rfl, .inl ⟨rfl, whole_zero h⟩, rfl⟩
  · obtain ⟨n, buf', hloop, hcases, hlen, -⟩ :=
      readLoop_spec stops h (Nat.pos_of_ne_zero hzero) hfile 0 hcount
    refine ⟨n, buf', hloop, ?_, hlen⟩
    rcases hcases with ⟨hall, hbuf, hwhole⟩ | hshort
    · exact .inl ⟨by rw [hall, hbuf], hwhole⟩
    · exact .inr hshort

/-! Out of memory and back into it -/

variable {b : Blob.Blob} {content : List UInt8}

/-- The blob goes to its file and comes back as it was. -/
def Restores (now : Int) (out into : List Transfer) (b : Blob.Blob) (content : List UInt8) : Prop :=
  ∃ m c, swapOut now out b = .ok m ∧ swapIn now into m = .ok c ∧
    c.size = content.length ∧ c.data.take c.size = content

theorem holds_restored {c : Blob.Blob} (h : Holds c content) (hmemory : c.isInFile = false) :
    c.data.take c.size = content := by
  obtain ⟨hdata, -, hget⟩ := h.memory hmemory
  have hsize := h.size
  have hinside := h.inside
  apply ZeroArray.ext
  · rw [List.length_take]
    omega
  · intro i
    rw [ZeroArray.get_take, hget]
    split
    · rfl
    · rw [ZeroArray.get_of_length_le (by omega)]

/-- Bytes are lost at the end by a short read, and by a short write the first
one is there once more. -/
theorem swap_spec (h : Holds b content) (hmemory : b.isInFile = false) (hlocked : b.storageLocked = false)
    {out into : List Transfer} (hout : Allowed out) (hinto : Allowed into) (now : Int) :
    ∃ m c, swapOut now out b = .ok m ∧ swapIn now into m = .ok c ∧
      (Whole b.size out ∧ Whole b.size into ∧ Holds c content ∧ c.isInFile = false ∨
        ¬Whole b.size into ∧ 0 < b.size ∧ get c.data (b.size - 1) = 0 ∨
        ¬Whole b.size out ∧ ∃ i, 0 < i ∧ i < b.size ∧ get c.data i = get content 0) := by
  obtain ⟨hdata, hempty, hget⟩ := h.memory hmemory
  have hinside := h.inside
  have hmoves : ¬b.storageLocked = true ∧ ¬b.isInFile = true := by
    rw [hlocked, hmemory]
    decide
  obtain ⟨written, file, hwrite, hwritten, hlen⟩ :=
    writeFile_spec hout (by omega : b.size ≤ b.data.length) 0 b.file
  have hlong : 0 + b.size ≤ file.length := by omega
  have hbuf : b.size ≤ (List.replicate b.allocSize (0 : UInt8)).length := by
    rw [List.length_replicate]
    exact hinside
  obtain ⟨rd, buf, hread, hgot, -⟩ := readFile_spec true hinto hbuf hlong
  let m : Blob.Blob := { b with isInFile := true, file := file, data := [], lastAccessed := now }
  let c : Blob.Blob := { m with isInFile := false, file := [], data := buf, lastAccessed := now }
  have hm : swapOut now out b = .ok m := by
    rw [swapOut, if_pos hmoves, hwrite]
    rfl
  have hc : swapIn now into m = .ok c := by
    rw [swapIn, hread]
    rfl
  refine ⟨m, c, hm, hc, ?_⟩
  rcases hgot with ⟨hgot, hinto⟩ | ⟨-, hshort, hlost⟩
  · rcases hwritten with ⟨hwritten, hout⟩ | ⟨-, hshort, i, hi, hlast, hagain⟩
    · left
      obtain ⟨m', hm', hmholds, -⟩ := swapOut_holds h now
      have hsame : m' = m := by
        rw [swapOut, if_pos hmoves, hwritten] at hm'
        exact (Except.ok.inj hm').symm
      obtain ⟨c', hc', hcholds, -⟩ := swapIn_holds (hsame ▸ hmholds) rfl now
      have hback : c' = c := by
        rw [swapIn, hgot] at hc'
        exact (Except.ok.inj hc').symm
      exact ⟨hout, hinto, hback ▸ hcholds, rfl⟩
    · right; right
      rw [readFile_whole true hbuf hlong] at hgot
      have hbufEq : overwrite 0 ((file.drop 0).take b.size) (List.replicate b.allocSize 0) = buf :=
        congrArg Prod.snd (Except.ok.inj hgot)
      have htaken : ((file.drop 0).take b.size).length = b.size := by
        rw [List.length_take, List.length_drop]
        omega
      refine ⟨hshort, i, hi, hlast, ?_⟩
      show get buf i = get content 0
      rw [← hbufEq, ZeroArray.get_overwrite, htaken, if_pos ⟨Nat.zero_le i, by omega⟩, ZeroArray.get_take,
        if_pos (by omega), ZeroArray.get_drop, ← hget, ← hagain, Nat.sub_zero]
  · right; left
    have hpos : 0 < b.size := by
      apply Nat.pos_of_ne_zero
      intro hzero
      exact hshort (hzero ▸ whole_zero hinto)
    exact ⟨hshort, hpos, hlost.trans (ZeroArray.get_replicate _ _)⟩

/-- All blobs of a size come back as they were just if both requests are
answered in one go. -/
theorem restores_iff {out into : List Transfer} (hout : Allowed out) (hinto : Allowed into) (now : Int)
    (n : Nat) :
    (∀ (b : Blob.Blob) (content : List UInt8), content.length = n → Holds b content →
        b.isInFile = false → b.storageLocked = false → Restores now out into b content) ↔
      Whole n out ∧ Whole n into := by
  constructor
  · intro hall
    cases n with
    | zero => exact ⟨whole_zero hout, whole_zero hinto⟩
    | succ n =>
        -- the first byte is like no other, and no byte is zero
        let content : List UInt8 := 1 :: List.replicate n 2
        have hlen : content.length = n + 1 := by simp [content]
        have hholds : Holds { size := n + 1, allocSize := n + 1, data := content } content :=
          ⟨hlen.symm, Nat.le_refl _, fun _ => ⟨hlen, rfl, fun _ => rfl⟩, fun hin => Bool.noConfusion hin⟩
        have hfirst : get content 0 = 1 := rfl
        have hother : ∀ i, 0 < i → i < n + 1 → get content i = 2 := by
          intro i hi hlast
          obtain ⟨j, rfl⟩ : ∃ j, i = j + 1 := ⟨i - 1, by omega⟩
          rw [ZeroArray.get_eq, List.getElem?_cons_succ, List.getElem?_replicate, if_pos (by omega)]
          rfl
        obtain ⟨m, c, hm, hc, hsize, htake⟩ := hall _ content hlen hholds rfl rfl
        have hget : ∀ i, i < n + 1 → get c.data i = get content i := by
          intro i hi
          rw [← htake, ZeroArray.get_take, if_pos (by omega)]
        obtain ⟨m', c', hm', hc', hcases⟩ := swap_spec hholds rfl rfl hout hinto now
        obtain rfl : m = m' := Except.ok.inj (hm.symm.trans hm')
        obtain rfl : c = c' := Except.ok.inj (hc.symm.trans hc')
        rcases hcases with ⟨hwholeOut, hwholeInto, -⟩ | ⟨-, -, hlost⟩ | ⟨-, i, hi, hlast, hagain⟩
        · exact ⟨hwholeOut, hwholeInto⟩
        · have hlast : get content n = 0 := (hget n (Nat.lt_succ_self n)).symm.trans hlost
          cases n with
          | zero => exact absurd (hfirst.symm.trans hlast) (by decide)
          | succ n =>
              rw [hother _ (by omega) (by omega)] at hlast
              exact absurd hlast (by decide)
        · rw [hget i hlast, hother i hi hlast, hfirst] at hagain
          exact absurd hagain (by decide)
  · rintro ⟨hwholeOut, hwholeInto⟩ b content rfl h hmemory hlocked
    obtain ⟨m, c, hm, hc, hcases⟩ := swap_spec h hmemory hlocked hout hinto now
    rw [← h.size] at hwholeOut hwholeInto
    rcases hcases with ⟨-, -, hholds, hback⟩ | ⟨hshort, -⟩ | ⟨hshort, -⟩
    · exact ⟨m, c, hm, hc, hholds.size, holds_restored hholds hback⟩
    · exact absurd hwholeInto hshort
    · exact absurd hwholeOut hshort

/-! Writes to the file -/

/-- As `Holds`, but the file may end before the content does: a write of
nothing behind its end leaves it as it is. -/
structure Keeps (b : Blob.Blob) (content : List UInt8) : Prop where
  size : b.size = content.length
  inside : b.size ≤ b.allocSize
  memory : b.isInFile = false → b.data.length = b.allocSize ∧ ∀ i, get b.data i = get content i
  disk : b.isInFile = true → ∀ i, get b.file i = get content i

/-- A blob in its file stays there, with just the size that is asked for. -/
theorem alloc_inFile (h : Keeps b content) (hfile : b.isInFile = true) (now : Int)
    (moved : Option (List Transfer)) {reqSize : Nat} (hroom : b.size ≤ reqSize) :
    ∃ m, alloc now moved reqSize b = .ok m ∧ Keeps m content ∧ m.isInFile = true ∧ m.allocSize = reqSize := by
  have hsize := h.size
  have hreq : reqAllocSize reqSize b = .ok reqSize := by rw [reqAllocSize, if_pos (.inr hfile)]
  have hmoved : moved.elim (.ok b) (swapOut now · b) = .ok b := by
    cases moved with
    | none => rfl
    | some io => exact if_neg (fun hmoves => hmoves.2 hfile)
  by_cases hsame : reqSize = b.allocSize
  · refine ⟨b, ?_, h, hfile, hsame.symm⟩
    rw [alloc, hreq]
    exact if_pos hsame
  · have hgranted : allocGranted now reqSize b = { b with
        file := resize reqSize b.file
        allocSize := reqSize
        size := min b.size reqSize
        lastAccessed := now } := by
      simp only [allocGranted, hfile, ↓reduceIte]
    have halloc : alloc now moved reqSize b = .ok (allocGranted now reqSize b) := by
      simp only [alloc, hreq, hsame, ↓reduceIte, hmoved]
    rw [hgranted] at halloc
    refine ⟨_, halloc, ⟨(Nat.min_eq_left hroom).trans hsize, Nat.min_le_right _ _, ?_, fun _ i => ?_⟩, hfile, rfl⟩
    · exact fun hmemory => absurd hmemory (ne_false_of_eq_true hfile)
    · rw [ZeroArray.get_resize]
      split
      · exact h.disk hfile i
      · rw [ZeroArray.get_of_length_le (by omega)]

/-- What is left of a write to a blob in its file is the loop. -/
theorem addCopy_inFile (h : Keeps b content) (hfile : b.isInFile = true) (now : Int)
    (moved : Option (List Transfer)) (io : List Transfer) {pos : Nat} {data : List UInt8}
    (hlimit : pos + data.length < 2 ^ 63) :
    ∃ m, Keeps m content ∧ m.isInFile = true ∧ pos + data.length ≤ m.allocSize ∧
      addCopy now moved io pos data b =
        (writeFile io data data.length pos m.file).map fun (written, file) => (written, { m with
          file := file
          size := max m.size (pos + written)
          reqWr := m.reqWr + 1
          lastAccessed := now }) := by
  have hover : ¬2 ^ 63 ≤ pos + data.length := Nat.not_le.mpr hlimit
  have hinside := h.inside
  by_cases hgrows : b.allocSize < pos + data.length
  · obtain ⟨m, halloc, hm, hmfile, hroom⟩ := alloc_inFile h hfile now moved (by omega : b.size ≤ pos + data.length)
    refine ⟨m, hm, hmfile, Nat.le_of_eq hroom.symm, ?_⟩
    simp only [addCopy, hover, hgrows, ↓reduceIte, halloc, hmfile]
    cases writeFile io data data.length pos m.file with
    | error halt => rfl
    | ok r => rfl
  · refine ⟨b, h, hfile, Nat.le_of_not_lt hgrows, ?_⟩
    simp only [addCopy, hover, hgrows, ↓reduceIte, hfile]
    cases writeFile io data data.length pos b.file with
    | error halt => rfl
    | ok r => rfl

/-- The bytes of a write are where they belong, and all are counted, just if
the request is answered in one go. -/
theorem addCopy_iff (h : Keeps b content) (hfile : b.isInFile = true) (now : Int)
    (moved : Option (List Transfer)) {io : List Transfer} (hio : Allowed io) {pos : Nat} {data : List UInt8}
    (hlimit : pos + data.length < 2 ^ 63) :
    (∃ written c, addCopy now moved io pos data b = .ok (written, c)) ∧
      ((∃ c, addCopy now moved io pos data b = .ok (data.length, c) ∧ Keeps c (overwrite pos data content)) ↔
        Whole data.length io) := by
  obtain ⟨m, hm, hmfile, hroom, hadd⟩ := addCopy_inFile h hfile now moved io hlimit
  obtain ⟨written, file, hwrite, hcases, -⟩ := writeFile_spec hio (Nat.le_refl data.length) pos m.file
  rw [hadd, hwrite]
  refine ⟨⟨_, _, rfl⟩, ?_⟩
  rcases hcases with ⟨hwhole, hio⟩ | ⟨hshort, hio, -⟩
  · refine ⟨fun _ => hio, fun _ => ?_⟩
    rw [writeFile_whole data (Nat.le_refl _), List.take_length] at hwhole
    obtain ⟨rfl, rfl⟩ := Prod.mk.inj (Except.ok.inj hwhole)
    have hsize := hm.size
    have hinside := hm.inside
    refine ⟨_, rfl, ⟨?_, ?_, fun hmemory => absurd hmemory (ne_false_of_eq_true hmfile), fun _ i => ?_⟩⟩
    · rw [ZeroArray.length_overwrite, ← hsize]
    · exact Nat.max_le.mpr ⟨hinside, hroom⟩
    · rw [ZeroArray.get_overwrite]
      split
      · rename_i hzero
        rw [if_neg (by omega)]
        exact hm.disk hmfile i
      · rw [ZeroArray.get_overwrite, hm.disk hmfile i]
  · refine ⟨?_, fun hwhole => absurd hwhole hio⟩
    rintro ⟨c, hc, -⟩
    have hcount : written = data.length := congrArg Prod.fst (Except.ok.inj hc)
    exact absurd hcount (Nat.ne_of_lt hshort)

/-! Reads from the file -/

theorem overwrite_all {bytes l : List UInt8} (h : bytes.length = l.length) : overwrite 0 bytes l = bytes := by
  rw [overwrite, List.take_zero, List.nil_append, Nat.zero_add, h, List.drop_length, List.append_nil]

theorem getCopy_nothing (h : Keeps b content) (now : Int) (io : List Transfer) (pos : Nat) :
    ∃ c, getCopy now io pos [] b = .ok (0, [], c) := by
  by_cases hsome : pos < b.size
  · cases hfile : b.isInFile with
    | true =>
        refine ⟨{ b with reqRd := b.reqRd + 1, lastAccessed := now }, ?_⟩
        simp only [getCopy, hsome, hfile, readFile, readLoop_done, List.length_nil, Nat.zero_min,
          Nat.lt_irrefl, ↓reduceIte]
    | false =>
        have hinside := h.inside
        obtain ⟨hdata, -⟩ := h.memory hfile
        have hroom : ¬b.data.length < pos := by omega
        refine ⟨{ b with reqRd := b.reqRd + 1, lastAccessed := now }, ?_⟩
        simp only [getCopy, hsome, hfile, hroom, List.length_nil, Nat.zero_min, Nat.add_zero, ↓reduceIte,
          Bool.false_eq_true, List.take_zero, ZeroArray.overwrite_nil]
  · exact ⟨b, by rw [getCopy, if_neg hsome]⟩

theorem getCopy_memory (hmemory : b.isInFile = false) (now : Int) (io : List Transfer) {pos : Nat}
    {data : List UInt8} (hsome : pos < b.size) (hall : min data.length (b.size - pos) = data.length)
    (hfits : pos + data.length ≤ b.data.length) :
    getCopy now io pos data b = .ok (data.length, (b.data.drop pos).take data.length,
      { b with reqRd := b.reqRd + 1, lastAccessed := now }) := by
  have hlen : ((b.data.drop pos).take data.length).length = data.length := by
    rw [List.length_take, List.length_drop]
    omega
  simp only [getCopy, hsome, hall, hmemory, Nat.not_lt.mpr hfits, ↓reduceIte, Bool.false_eq_true,
    overwrite_all hlen]

/-- A read inside of the blob fills the buffer just if the request is answered
in one go, and comes back just if the file has what is asked for. -/
theorem getCopy_iff (h : Keeps b content) (now : Int) {io : List Transfer} (hio : Allowed io) {pos : Nat}
    {data : List UInt8} (hinside : pos + data.length ≤ content.length) :
    ((∃ r, getCopy now io pos data b = .ok r) ↔
        b.isInFile = false ∨ data.length = 0 ∨ pos + data.length ≤ b.file.length) ∧
      ((∃ c, getCopy now io pos data b = .ok (data.length, (content.drop pos).take data.length, c)) ↔
        b.isInFile = false ∨ data.length = 0 ∨
          pos + data.length ≤ b.file.length ∧ Whole data.length io) := by
  have hsize := h.size
  have halloc := h.inside
  by_cases hempty : data.length = 0
  · obtain rfl := List.eq_nil_of_length_eq_zero hempty
    obtain ⟨c, hc⟩ := getCopy_nothing h now io pos
    refine ⟨⟨fun _ => .inr (.inl rfl), fun _ => ⟨_, hc⟩⟩, ⟨fun _ => .inr (.inl rfl), fun _ => ⟨c, ?_⟩⟩⟩
    rw [hc, List.length_nil, List.take_zero]
  · have hsome : pos < b.size := by omega
    have hall : min data.length (b.size - pos) = data.length := by omega
    cases hfile : b.isInFile with
    | false =>
        obtain ⟨hdata, hget⟩ := h.memory hfile
        have hfits : pos + data.length ≤ b.data.length := by omega
        have hread := getCopy_memory hfile now io hsome hall hfits
        rw [ZeroArray.window_ext hfits hinside hget] at hread
        exact ⟨⟨fun _ => .inl rfl, fun _ => ⟨_, hread⟩⟩, ⟨fun _ => .inl rfl, fun _ => ⟨_, hread⟩⟩⟩
    | true =>
        have hread : getCopy now io pos data b =
            (readFile false io b.file data.length pos data).map fun (rd, data) =>
              (rd, data, { b with reqRd := b.reqRd + 1, lastAccessed := now }) := by
          simp only [getCopy, hsome, hall, hfile, ↓reduceIte]
          cases readFile false io b.file data.length pos data with
          | error halt => rfl
          | ok r => rfl
        rw [hread]
        by_cases hfits : pos + data.length ≤ b.file.length
        · obtain ⟨rd, buf, hloop, hcases, -⟩ := readFile_spec false hio (Nat.le_refl data.length) hfits
          rw [hloop]
          refine ⟨⟨fun _ => .inr (.inr hfits), fun _ => ⟨_, rfl⟩⟩, ?_⟩
          rcases hcases with ⟨hwhole, hio⟩ | ⟨hshort, hio, -⟩
          · rw [readFile_whole false (Nat.le_refl _) hfits] at hwhole
            obtain ⟨rfl, rfl⟩ := Prod.mk.inj (Except.ok.inj hwhole)
            have hlen : ((b.file.drop pos).take data.length).length = data.length := by
              rw [List.length_take, List.length_drop]
              omega
            refine ⟨fun _ => .inr (.inr ⟨hfits, hio⟩), fun _ =>
              ⟨{ b with reqRd := b.reqRd + 1, lastAccessed := now }, ?_⟩⟩
            rw [overwrite_all hlen, ZeroArray.window_ext hfits hinside (h.disk hfile)]
            rfl
          · constructor
            · rintro ⟨c, hc⟩
              have hcount : rd = data.length := congrArg Prod.fst (Except.ok.inj hc)
              exact absurd hcount (Nat.ne_of_lt hshort)
            · rintro (hmemory | hzero | hwhole)
              · cases hmemory
              · exact absurd hzero hempty
              · exact absurd hwhole.2 hio
        · have hmemory : ¬data.length < data.length := Nat.lt_irrefl _
          have hpos : 0 < data.length := Nat.pos_of_ne_zero hempty
          have hnever : ¬(true = false ∨ data.length = 0 ∨ pos + data.length ≤ b.file.length) := by
            rintro (hmemory | hzero | hlong)
            · cases hmemory
            · exact hempty hzero
            · exact hfits hlong
          rw [readFile, if_neg hmemory, readLoop_endless hio hpos (Nat.lt_of_not_le hfits)]
          refine ⟨⟨?_, fun hcond => absurd hcond hnever⟩, ⟨?_, fun hcond => absurd ?_ hnever⟩⟩
          · rintro ⟨r, hr⟩
            cases hr
          · rintro ⟨c, hc⟩
            cases hc
          · exact hcond.imp id (Or.imp id And.left)

theorem swapOut_returns (h : Keeps b content) (now : Int) {io : List Transfer} (hio : Allowed io) :
    ∃ m, swapOut now io b = .ok m := by
  by_cases hmoves : ¬b.storageLocked = true ∧ ¬b.isInFile = true
  · obtain ⟨hdata, -⟩ := h.memory (Bool.eq_false_iff.mpr hmoves.2)
    have hcount : b.size ≤ b.data.length := hdata ▸ h.inside
    obtain ⟨written, file, hwrite, -⟩ := writeFile_spec hio hcount 0 b.file
    exact ⟨_, by rw [swapOut, if_pos hmoves, hwrite]; rfl⟩
  · exact ⟨b, by rw [swapOut, if_neg hmoves]⟩

theorem swapIn_returns (h : Keeps b content) (now : Int) {io : List Transfer} (hio : Allowed io) :
    ∃ c, swapIn now io b = .ok c := by
  have hmemory : ¬(List.replicate b.allocSize (0 : UInt8)).length < b.size := by
    rw [List.length_replicate]
    exact Nat.not_lt.mpr h.inside
  obtain ⟨r, hr⟩ := readLoop_returns b.file hio b.size 0 0 (List.replicate b.allocSize 0)
  exact ⟨_, by rw [swapIn, readFile, if_neg hmemory, hr]; rfl⟩

/-- The pointer to the buffer stays where it is, and the count is the last
one: nothing is lost just if each request is answered in one go, apart from
interruptions. The loops come to their ends, but for that of a read from a
file that ends before the blob. -/
theorem short_transfers {out into io : List Transfer} (hout : Allowed out) (hinto : Allowed into)
    (hio : Allowed io) (now : Int) :
    (∀ n, (∀ (b : Blob.Blob) (content : List UInt8), content.length = n → Holds b content →
        b.isInFile = false → b.storageLocked = false → Restores now out into b content) ↔
      Whole n out ∧ Whole n into) ∧
    (∀ (b : Blob.Blob) (content : List UInt8) (moved : Option (List Transfer)) (pos : Nat)
        (data : List UInt8), Keeps b content → b.isInFile = true → pos + data.length < 2 ^ 63 →
      ((∃ c, addCopy now moved io pos data b = .ok (data.length, c) ∧
        Keeps c (overwrite pos data content)) ↔ Whole data.length io)) ∧
    (∀ (b : Blob.Blob) (content : List UInt8) (pos : Nat) (data : List UInt8), Keeps b content →
        pos + data.length ≤ content.length →
      ((∃ c, getCopy now io pos data b = .ok (data.length, (content.drop pos).take data.length, c)) ↔
        b.isInFile = false ∨ data.length = 0 ∨
          pos + data.length ≤ b.file.length ∧ Whole data.length io)) ∧
    (∀ (b : Blob.Blob) (content : List UInt8), Keeps b content →
      (∃ m, swapOut now out b = .ok m) ∧
      (∃ c, swapIn now into b = .ok c) ∧
      (b.isInFile = true → ∀ (moved : Option (List Transfer)) (pos : Nat) (data : List UInt8),
        pos + data.length < 2 ^ 63 → ∃ r, addCopy now moved io pos data b = .ok r) ∧
      (∀ (pos : Nat) (data : List UInt8), pos + data.length ≤ content.length →
        ((∃ r, getCopy now io pos data b = .ok r) ↔
          b.isInFile = false ∨ data.length = 0 ∨ pos + data.length ≤ b.file.length))) := by
  refine ⟨restores_iff hout hinto now, ?_, ?_, ?_⟩
  · intro b content moved pos data h hfile hlimit
    exact (addCopy_iff h hfile now moved hio hlimit).2
  · intro b content pos data h hinside
    exact (getCopy_iff h now hio hinside).2
  · intro b content h
    refine ⟨swapOut_returns h now hout, swapIn_returns h now hinto, ?_, ?_⟩
    · intro hfile moved pos data hlimit
      obtain ⟨⟨written, c, hc⟩, -⟩ := addCopy_iff h hfile now moved hio hlimit
      exact ⟨_, hc⟩
    · intro pos data hinside
      exact (getCopy_iff h now hio hinside).1

/-- A write and a read that are interrupted, the write also cut to more than
what is asked for. -/
theorem short_transfers_interrupted :
    Restores 5 [.intr, .count 7] [.intr] { size := 2, allocSize := 4, data := [1, 2, 0, 0] } [1, 2] := by
  have hout : Allowed [.intr, .count 7] := by simp [Allowed]
  have hinto : Allowed [.intr] := by simp [Allowed]
  have hholds : Holds { size := 2, allocSize := 4, data := [1, 2, 0, 0] } [1, 2] := by
    refine ⟨rfl, by decide, fun _ => ⟨rfl, rfl, fun i => ?_⟩, fun hin => Bool.noConfusion hin⟩
    rcases i with _ | _ | _ | _ | i <;> rfl
  have hwhole : Whole 2 [.intr, .count 7] ∧ Whole 2 [.intr] := ⟨(by decide : 2 ≤ 7), trivial⟩
  exact ((short_transfers hout hinto hinto 5).1 2).2 hwhole _ [1, 2] rfl hholds rfl rfl

/-- One byte of two is written first, and then again in the place of the
other. A write of nothing leaves the file as it is, and a read from there does
not come back. -/
theorem short_transfers_corrupt :
    (¬∀ (out into : List Transfer) (now : Int) (b : Blob.Blob) (content : List UInt8), Allowed out →
      Allowed into → Holds b content → b.isInFile = false → b.storageLocked = false →
        Restores now out into b content) ∧
    ∃ b m c, blobNew 0 none 4 = .ok b ∧ swapOut 0 [] b = .ok m ∧ addCopy 0 none [] 2 [] m = .ok (0, c) ∧
      c.size = 2 ∧ getCopy 0 [] 0 [7, 7] c = .error .endless := by
  constructor
  · intro h
    have hholds : Holds { size := 2, allocSize := 2, data := [1, 2] } [1, 2] :=
      ⟨rfl, Nat.le_refl 2, fun _ => ⟨rfl, rfl, fun _ => rfl⟩, fun hin => Bool.noConfusion hin⟩
    obtain ⟨m, c, hm, hc, -, htake⟩ :=
      h [.count 1] [] 0 _ [1, 2] (by simp [Allowed]) (by simp [Allowed]) hholds rfl rfl
    cases hm
    cases hc
    exact absurd htake (by decide)
  · exact ⟨_, _, _, rfl, rfl, rfl, rfl, rfl⟩

end Libzorpll.BlobTransfer
