import Libzorpll.BlobTruncate
import Libzorpll.ChildStream

/-! Copying from a stream into a blob. -/

namespace Libzorpll.BlobStream

open Blob BlobContents BlobTransfer BlobTruncate ChildStream
open ZeroArray (get overwrite resize)

inductive GIOStatus
  | error
  | normal
  | eof
  | again
  deriving DecidableEq

def zBlobCopyBufsize : Nat := 8192

/-- What is answered from outside: the time, how a request for a size is
granted, and the writes of the bytes at a position. -/
structure Outside where
  now : Int
  moved : Nat → Option (List Transfer)
  io : Nat → List Transfer

/-- What z_stream_read answers when it has no bytes. -/
def readStatus : ReadResult → GIOStatus
  | .normal _ => .normal
  | .again => .again
  | .eof => .eof
  | .error => .error

/-- The check in front of each read, with the size that is asked for. -/
def makeRoom (env : Outside) (needed reqSize : Nat) (self : Blob) : Except Halt Blob :=
  if 2 ^ 63 ≤ needed then .error .overflow
  else if self.allocSize < needed then
    if 2 ^ 63 ≤ reqSize then .error .overflow else alloc env.now (env.moved reqSize) reqSize self
  else .ok self

/-- The rest of a round: the bytes that were read to copybuf are written. -/
def putFile (env : Outside) (pos : Nat) (data : List UInt8) (self : Blob) : Except Halt Blob :=
  (writeFile (env.io pos) data data.length pos self.file).map fun (_, file) =>
    { self with file := file, size := max self.size (pos + data.length) }

/-- The bytes have been read to their place in memory. -/
def putMemory (pos : Nat) (data : List UInt8) (self : Blob) : Except Halt Blob :=
  let self := { self with size := max self.size (pos + data.length) }
  if data = [] then .ok self
  else if self.data.length < pos + data.length then .error .memory
  else .ok { self with data := overwrite pos data self.data }

/-- The two loops differ in what they ask for and where they put the bytes. A
round uses up an answer of the stream, so that the rounds suffice. -/
def copyLoop (room : Nat → Nat → Blob → Except Halt Blob)
    (put : Nat → List UInt8 → Blob → Except Halt Blob) :
    Nat → Nat → Nat → Blob → Child → Except Halt (GIOStatus × Blob × Child)
  | 0, _, _, _, _ => .error .endless
  | rounds + 1, left, pos, self, child =>
      if left = 0 then .ok (.normal, self, child)
      else
        let bytes := min left zBlobCopyBufsize
        match room pos bytes self with
        | .error halt => .error halt
        | .ok self =>
            match childRead bytes child with
            | (.normal data, child) =>
                match put pos data self with
                | .error halt => .error halt
                | .ok self => copyLoop room put rounds (left - data.length) (pos + data.length) self child
            | (answer, child) => .ok (readStatus answer, self, child)

def fileLoop (env : Outside) :=
  copyLoop (fun pos bytes => makeRoom env (pos + bytes) (pos + bytes)) (putFile env)

/-- Here the size asked for is the position with the whole count. -/
def memoryLoop (env : Outside) (count : Nat) :=
  copyLoop (fun pos bytes => makeRoom env (pos + bytes) (pos + count)) putMemory

/-- Behind the label exit_stats. -/
def exitStats (env : Outside) (self : Blob) : Blob :=
  { self with reqWr := self.reqWr + 1, lastAccessed := env.now }

/-- z_blob_read_from_stream, when it has got the lock. -/
def readFromStream (env : Outside) (pos count : Nat) (self : Blob) (child : Child) :
    Except Halt (GIOStatus × Blob × Child) :=
  (if self.isInFile then
    match if self.size < pos then alloc env.now (env.moved pos) pos self else .ok self with
    | .error halt => .error halt
    | .ok self => fileLoop env (childSize child + 1) count pos self child
  else memoryLoop env count (childSize child + 1) count pos self child).map
    fun (status, self, child) => (status, exitStats env self, child)

/-! The pieces in which the bytes come -/

/-- The reads of a call for which the stream delivers all bytes. -/
def pieces : Nat → Nat → Child → Option (List (List UInt8))
  | 0, _, _ => none
  | rounds + 1, left, child =>
      if left = 0 then some []
      else
        match childRead (min left zBlobCopyBufsize) child with
        | (.normal data, child) => (pieces rounds (left - data.length) child).map (data :: ·)
        | _ => none

theorem pieces_bytes {rounds left : Nat} {child : Child} {ps : List (List UInt8)}
    (h : pieces rounds left child = some ps) :
    ps.flatten.length = left ∧ ps.flatten <+: childBytes child := by
  induction rounds generalizing left child ps with
  | zero => cases h
  | succ rounds ih =>
      rw [pieces] at h
      split at h
      · rename_i hzero
        cases h
        exact ⟨hzero.symm, List.nil_prefix⟩
      · split at h
        · rename_i data after hread
          obtain ⟨rest, hrest, rfl⟩ := Option.map_eq_some_iff.mp h
          obtain ⟨hlen, hprefix⟩ := ih hrest
          have hbytes := childRead_bytes (min left zBlobCopyBufsize) child
          have hle := childRead_length (min left zBlobCopyBufsize) child
          rw [hread] at hbytes hle
          simp only [answerBytes] at hbytes hle
          rw [List.flatten_cons, List.length_append, hlen, ← hbytes]
          exact ⟨by omega, (List.prefix_append_right_inj data).mpr hprefix⟩
        · cases h

variable {room : Nat → Nat → Blob.Blob → Except Halt Blob.Blob}
  {put : Nat → List UInt8 → Blob.Blob → Except Halt Blob.Blob}

/-! One round -/

theorem copyLoop_halt {rounds left pos : Nat} {b : Blob.Blob} (child : Child) {halt : Halt} (hsome : 0 < left)
    (hroom : room pos (min left zBlobCopyBufsize) b = .error halt) :
    copyLoop room put (rounds + 1) left pos b child = .error halt := by
  simp only [copyLoop, Nat.ne_of_gt hsome, ↓reduceIte, hroom]

/-- A round of the loop goes on from the blob that has the room. -/
theorem copyLoop_room {rounds left pos : Nat} {b m : Blob.Blob} (child : Child) (hsome : 0 < left)
    (hroom : room pos (min left zBlobCopyBufsize) b = .ok m)
    (henough : room pos (min left zBlobCopyBufsize) m = .ok m) :
    copyLoop room put (rounds + 1) left pos b child = copyLoop room put (rounds + 1) left pos m child := by
  simp only [copyLoop, Nat.ne_of_gt hsome, ↓reduceIte, hroom, henough]

theorem copyLoop_round {rounds left pos : Nat} {b m n : Blob.Blob} {child after : Child} {data : List UInt8}
    (hsome : 0 < left) (hroom : room pos (min left zBlobCopyBufsize) b = .ok m)
    (hread : childRead (min left zBlobCopyBufsize) child = (.normal data, after)) (hput : put pos data m = .ok n) :
    copyLoop room put (rounds + 1) left pos b child =
      copyLoop room put rounds (left - data.length) (pos + data.length) n after := by
  simp only [copyLoop, Nat.ne_of_gt hsome, ↓reduceIte, hroom, hread, hput]

theorem pieces_round {rounds left : Nat} {child : Child} {ps : List (List UInt8)} (hsome : 0 < left)
    (h : pieces (rounds + 1) left child = some ps) :
    ∃ data after rest, childRead (min left zBlobCopyBufsize) child = (.normal data, after) ∧
      data.length ≤ min left zBlobCopyBufsize ∧ pieces rounds (left - data.length) after = some rest ∧
      ps = data :: rest := by
  have hle := childRead_length (min left zBlobCopyBufsize) child
  rw [pieces, if_neg (Nat.ne_of_gt hsome)] at h
  split at h
  · rename_i data after hread
    obtain ⟨rest, hrest, rfl⟩ := Option.map_eq_some_iff.mp h
    rw [hread] at hle
    exact ⟨data, after, rest, hread, hle, hrest, rfl⟩
  · cases h

/-- A loop returns NORMAL only if the stream delivers all bytes. -/
theorem copyLoop_normal {rounds left pos : Nat} {b b' : Blob.Blob} {child child' : Child}
    (h : copyLoop room put rounds left pos b child = .ok (.normal, b', child')) :
    ∃ ps, pieces rounds left child = some ps := by
  induction rounds generalizing left pos b child with
  | zero => cases h
  | succ rounds ih =>
      rw [pieces]
      by_cases hzero : left = 0
      · exact ⟨[], if_pos hzero⟩
      · simp only [copyLoop, hzero, ↓reduceIte] at h ⊢
        cases hroom : room pos (min left zBlobCopyBufsize) b with
        | error halt =>
            rw [hroom] at h
            cases h
        | ok m =>
            rw [hroom] at h
            rcases hread : childRead (min left zBlobCopyBufsize) child with ⟨answer, after⟩
            rw [hread] at h
            cases answer with
            | normal data =>
                cases hput : put pos data m with
                | error halt =>
                    simp only [hput] at h
                    cases h
                | ok n =>
                    simp only [hput] at h
                    obtain ⟨ps, hps⟩ := ih h
                    exact ⟨data :: ps, by simp only [hps, Option.map_some]⟩
            | again | eof | error => cases h

/-! What the writes leave in the file -/

/-- The bytes that are written for `data`: each write has them from the first
on. -/
def sent (data : List UInt8) : List Transfer → Nat → List UInt8
  | [], remain => data.take remain
  | .count n :: io, remain => data.take (min n remain) ++ sent data io (remain - min n remain)
  | .intr :: io, remain => sent data io remain
  | .fail :: _, _ => []

/-- The bytes that are written for the pieces. -/
def arrived (env : Outside) : Nat → List (List UInt8) → List UInt8
  | _, [] => []
  | pos, data :: ps => sent data (env.io pos) data.length ++ arrived env (pos + data.length) ps

theorem sent_zero (data : List UInt8) (io : List Transfer) : sent data io 0 = [] := by
  induction io with
  | nil => exact List.take_zero
  | cons answer io ih =>
      cases answer with
      | count n => simpa only [sent, Nat.min_zero, Nat.sub_zero, List.take_zero, List.nil_append] using ih
      | intr => exact ih
      | fail => rfl

theorem sent_length {data : List UInt8} {io : List Transfer} (h : Allowed io) {remain : Nat}
    (hdata : remain ≤ data.length) : (sent data io remain).length = remain := by
  induction io generalizing remain with
  | nil =>
      rw [sent, List.length_take]
      omega
  | cons answer io ih =>
      cases answer with
      | count n =>
          rw [sent, List.length_append, List.length_take, ih (allowed_cons h) (by omega)]
          omega
      | intr => exact ih (allowed_cons h) hdata
      | fail => exact (h .fail List.mem_cons_self).elim

/-- Nothing is sent again where a request is answered in one go. -/
theorem sent_whole (data : List UInt8) {io : List Transfer} {remain : Nat} (h : Whole remain io) :
    sent data io remain = data.take remain := by
  induction io with
  | nil => rfl
  | cons answer io ih =>
      cases answer with
      | count n =>
          have hall : min n remain = remain := Nat.min_eq_right h
          rw [sent, hall, Nat.sub_self, sent_zero, List.append_nil]
      | intr => exact ih h
      | fail => exact h.elim

theorem writeLoop_sent {data : List UInt8} {io : List Transfer} (h : Allowed io) {remain : Nat}
    (hsome : 0 < remain) (hdata : remain ≤ data.length) (off written : Nat) (file : List UInt8) :
    ∃ n, writeLoop data io remain off written file = .ok (n, overwrite off (sent data io remain) file) := by
  induction io generalizing remain off written file with
  | nil => exact ⟨remain, by rw [writeLoop, if_neg (Nat.ne_of_gt hsome), sent]⟩
  | cons answer io ih =>
      cases answer with
      | count n =>
          have hlen : (data.take (min n remain)).length = min n remain := by
            rw [List.length_take]
            omega
          have happend := ZeroArray.overwrite_append off (data.take (min n remain))
            (sent data io (remain - min n remain)) file
          rw [hlen] at happend
          rw [writeLoop, if_neg (Nat.ne_of_gt hsome), sent, ← happend]
          by_cases hall : remain ≤ n
          · have hnothing : remain - min n remain = 0 := by omega
            simp only [hnothing, writeLoop_done, sent_zero]
            refine ⟨min n remain, ?_⟩
            rw [ZeroArray.overwrite_none]
            rw [ZeroArray.length_overwrite, hlen]
            exact Nat.le_max_right _ _
          · exact ih (allowed_cons h) (by omega) (by omega) _ _ _
      | intr =>
          rw [writeLoop, if_neg (Nat.ne_of_gt hsome)]
          exact ih (allowed_cons h) hsome hdata off written file
      | fail => exact (h .fail List.mem_cons_self).elim

variable {env : Outside} {b : Blob.Blob} {content : List UInt8}

/-- The bytes of one read, as they are written, are put in the array. -/
theorem putFile_stores (h : Stores b content) (hfile : b.isInFile = true) (hio : ∀ p, Allowed (env.io p))
    {pos : Nat} {data : List UInt8} (hroom : pos + data.length ≤ b.allocSize) :
    ∃ m, putFile env pos data b = .ok m ∧
      Stores m (overwrite pos (sent data (env.io pos) data.length) content) ∧ m.isInFile = true := by
  have hsize := h.size
  have hinside := h.inside
  have hlen := sent_length (hio pos) (Nat.le_refl data.length)
  obtain ⟨n, file, hwrite, hget⟩ : ∃ n file,
      writeFile (env.io pos) data data.length pos b.file = .ok (n, file) ∧
        ∀ i, get file i = get (overwrite pos (sent data (env.io pos) data.length) b.file) i := by
    rw [writeFile, if_neg (Nat.lt_irrefl _)]
    by_cases hzero : data.length = 0
    · refine ⟨0, b.file, by rw [hzero, writeLoop_done], fun i => ?_⟩
      rw [ZeroArray.get_overwrite, hlen, if_neg (by omega)]
    · obtain ⟨n, hloop⟩ := writeLoop_sent (hio pos) (Nat.pos_of_ne_zero hzero) (Nat.le_refl _) pos 0 b.file
      exact ⟨n, _, hloop, fun i => rfl⟩
  refine ⟨{ b with file := file, size := max b.size (pos + data.length) }, ?_, ?_, hfile⟩
  · rw [putFile, hwrite]
    rfl
  · refine stores_inFile ⟨?_, Nat.max_le.mpr ⟨hinside, hroom⟩, ?_, ?_⟩ hfile
    · rw [ZeroArray.length_overwrite, hlen, ← hsize]
    · exact fun hmemory => absurd hmemory (ne_false_of_eq_true hfile)
    · intro _ i
      rw [hget, ZeroArray.get_overwrite, ZeroArray.get_overwrite, h.disk hfile]

theorem makeRoom_file (env : Outside) (h : Stores b content) (hfile : b.isInFile = true) {needed : Nat}
    (hlimit : needed < 2 ^ 63) :
    ∃ m, makeRoom env needed needed b = .ok m ∧ Stores m content ∧ m.isInFile = true ∧
      needed ≤ m.allocSize := by
  have hinside := h.inside
  by_cases hgrows : b.allocSize < needed
  · obtain ⟨m, halloc, hm, hmfile, hsize⟩ :=
      alloc_inFile h.toKeeps hfile env.now (env.moved needed) (by omega : b.size ≤ needed)
    refine ⟨m, ?_, stores_inFile hm hmfile, hmfile, Nat.le_of_eq hsize.symm⟩
    simp only [makeRoom, Nat.not_le.mpr hlimit, hgrows, ↓reduceIte, halloc]
  · refine ⟨b, ?_, h, hfile, Nat.le_of_not_lt hgrows⟩
    simp only [makeRoom, Nat.not_le.mpr hlimit, hgrows, ↓reduceIte]

theorem fileLoop_round (h : Stores b content) (hfile : b.isInFile = true) (hio : ∀ p, Allowed (env.io p))
    {rounds left pos : Nat} {child after : Child} {data : List UInt8} (hsome : 0 < left)
    (hlimit : pos + min left zBlobCopyBufsize < 2 ^ 63)
    (hread : childRead (min left zBlobCopyBufsize) child = (.normal data, after))
    (hle : data.length ≤ min left zBlobCopyBufsize) :
    ∃ m, fileLoop env (rounds + 1) left pos b child =
        fileLoop env rounds (left - data.length) (pos + data.length) m after ∧
      Stores m (overwrite pos (sent data (env.io pos) data.length) content) ∧ m.isInFile = true := by
  obtain ⟨m, hroom, hm, hmfile, henough⟩ := makeRoom_file env h hfile hlimit
  obtain ⟨n, hput, hn, hnfile⟩ := putFile_stores hm hmfile hio (by omega : pos + data.length ≤ m.allocSize)
  exact ⟨n, copyLoop_round hsome hroom hread hput, hn, hnfile⟩

/-- The loop of a blob in its file puts the bytes in the array as they are
written. -/
theorem fileLoop_stores (h : Stores b content) (hfile : b.isInFile = true) (hio : ∀ p, Allowed (env.io p))
    {rounds left pos : Nat} {child : Child} {ps : List (List UInt8)} (hgap : 0 < left ∨ pos ≤ content.length)
    (hlimit : pos + left < 2 ^ 63) (hpieces : pieces rounds left child = some ps) :
    ∃ b' child', fileLoop env rounds left pos b child = .ok (.normal, b', child') ∧
      Stores b' (overwrite pos (arrived env pos ps) content) := by
  induction rounds generalizing left pos b content child ps with
  | zero => cases hpieces
  | succ rounds ih =>
      by_cases hzero : left = 0
      · rw [pieces, if_pos hzero] at hpieces
        cases hpieces
        refine ⟨b, child, by rw [fileLoop, copyLoop, if_pos hzero], ?_⟩
        rw [arrived, ZeroArray.overwrite_none (hgap.resolve_left (by omega))]
        exact h
      · have hsome := Nat.pos_of_ne_zero hzero
        obtain ⟨data, after, rest, hread, hle, hrest, rfl⟩ := pieces_round hsome hpieces
        have hfits : pos + min left zBlobCopyBufsize < 2 ^ 63 := by omega
        obtain ⟨m, hround, hm, hmfile⟩ := fileLoop_round h hfile hio hsome hfits hread hle
        have hlen := sent_length (hio pos) (Nat.le_refl data.length)
        have hnext : pos + data.length ≤
            (overwrite pos (sent data (env.io pos) data.length) content).length := by
          rw [ZeroArray.length_overwrite, hlen]
          exact Nat.le_max_right _ _
        have hrestfits : pos + data.length + (left - data.length) < 2 ^ 63 := by omega
        obtain ⟨b', child', hloop, hb'⟩ := ih hm hmfile (.inr hnext) hrestfits hrest
        have happend := ZeroArray.overwrite_append pos (sent data (env.io pos) data.length)
          (arrived env (pos + data.length) rest) content
        rw [hlen] at happend
        rw [happend] at hb'
        exact ⟨b', child', hround.trans hloop, hb'⟩

theorem fileLoop_overflows (h : Stores b content) (hfile : b.isInFile = true) (hio : ∀ p, Allowed (env.io p))
    {rounds left pos : Nat} {child : Child} {ps : List (List UInt8)} (hsome : 0 < left)
    (hlimit : 2 ^ 63 ≤ pos + left) (hpieces : pieces rounds left child = some ps) :
    fileLoop env rounds left pos b child = .error .overflow := by
  induction rounds generalizing left pos b content child ps with
  | zero => cases hpieces
  | succ rounds ih =>
      by_cases hover : 2 ^ 63 ≤ pos + min left zBlobCopyBufsize
      · exact copyLoop_halt child hsome (by rw [makeRoom, if_pos hover])
      · obtain ⟨data, after, rest, hread, hle, hrest, rfl⟩ := pieces_round hsome hpieces
        have hfits : pos + min left zBlobCopyBufsize < 2 ^ 63 := Nat.lt_of_not_le hover
        obtain ⟨m, hround, hm, hmfile⟩ := fileLoop_round h hfile hio hsome hfits hread hle
        rw [hround]
        exact ih hm hmfile (by omega) (by omega) hrest

/-! The loop of a blob in memory -/

/-- Where the position is when the loop first asks for more room. -/
def growAt (allocSize : Nat) : Nat → Nat → Nat → Child → Option Nat
  | 0, _, _, _ => none
  | rounds + 1, left, pos, child =>
      if left = 0 then none
      else if allocSize < pos + min left zBlobCopyBufsize then some pos
      else
        match childRead (min left zBlobCopyBufsize) child with
        | (.normal data, child) => growAt allocSize rounds (left - data.length) (pos + data.length) child
        | _ => none

theorem growAt_round {allocSize rounds left pos : Nat} {child after : Child} {data : List UInt8}
    (hsome : 0 < left) (henough : pos + min left zBlobCopyBufsize ≤ allocSize)
    (hread : childRead (min left zBlobCopyBufsize) child = (.normal data, after)) :
    growAt allocSize (rounds + 1) left pos child =
      growAt allocSize rounds (left - data.length) (pos + data.length) after := by
  simp only [growAt, Nat.ne_of_gt hsome, Nat.not_lt.mpr henough, ↓reduceIte, hread]

theorem growAt_none {allocSize rounds left pos : Nat} (h : pos + left ≤ allocSize) (child : Child) :
    growAt allocSize rounds left pos child = none := by
  induction rounds generalizing left pos child with
  | zero => rfl
  | succ rounds ih =>
      have henough : ¬allocSize < pos + min left zBlobCopyBufsize := by omega
      have hle := childRead_length (min left zBlobCopyBufsize) child
      by_cases hzero : left = 0
      · rw [growAt, if_pos hzero]
      · rw [growAt, if_neg hzero, if_neg henough]
        split
        · rename_i data after hread
          rw [hread] at hle
          simp only [answerBytes] at hle
          exact ih (by omega) after
        · rfl

theorem makeRoom_enough (env : Outside) {needed : Nat} (reqSize : Nat) (hlimit : needed < 2 ^ 63) (henough : needed ≤ b.allocSize) :
    makeRoom env needed reqSize b = .ok b := by
  rw [makeRoom, if_neg (Nat.not_le.mpr hlimit), if_neg (Nat.not_lt.mpr henough)]

theorem putMemory_stores (h : Stores b content) (hmemory : b.isInFile = false) {pos : Nat} {data : List UInt8}
    (hroom : pos + data.length ≤ b.allocSize) :
    ∃ m, putMemory pos data b = .ok m ∧ Stores m (overwrite pos data content) ∧ m.isInFile = false ∧
      m.allocSize = b.allocSize ∧ m.storageLocked = b.storageLocked := by
  have hsize := h.size
  obtain ⟨hdata, hget⟩ := h.memory hmemory
  obtain ⟨image, hput, hlength, himage⟩ : ∃ image,
      putMemory pos data b = .ok { b with size := max b.size (pos + data.length), data := image } ∧
        image.length = b.allocSize ∧ ∀ i, get image i = get (overwrite pos data b.data) i := by
    by_cases hempty : data = []
    · refine ⟨b.data, by simp only [putMemory, hempty, ↓reduceIte], hdata, fun i => ?_⟩
      rw [ZeroArray.get_overwrite, hempty, List.length_nil, if_neg (by omega)]
    · have hinside : ¬b.data.length < pos + data.length := by omega
      refine ⟨overwrite pos data b.data, by simp only [putMemory, hempty, hinside, ↓reduceIte], ?_, fun i => rfl⟩
      rw [ZeroArray.length_overwrite, hdata, Nat.max_eq_left hroom]
  refine ⟨_, hput, ⟨⟨?_, Nat.max_le.mpr ⟨h.inside, hroom⟩, fun _ => ⟨hlength, fun i => ?_⟩, ?_⟩, h.emptied⟩,
    hmemory, rfl, rfl⟩
  · rw [ZeroArray.length_overwrite, ← hsize]
  · rw [himage, ZeroArray.get_overwrite, ZeroArray.get_overwrite, hget]
  · exact fun hfile => absurd hfile (ne_true_of_eq_false hmemory)

theorem memoryLoop_round (env : Outside) (h : Stores b content) (hmemory : b.isInFile = false) {rounds left pos : Nat} (count : Nat)
    {child after : Child} {data : List UInt8} (hsome : 0 < left)
    (hlimit : pos + min left zBlobCopyBufsize < 2 ^ 63)
    (henough : pos + min left zBlobCopyBufsize ≤ b.allocSize)
    (hread : childRead (min left zBlobCopyBufsize) child = (.normal data, after))
    (hle : data.length ≤ min left zBlobCopyBufsize) :
    ∃ m, memoryLoop env count (rounds + 1) left pos b child =
        memoryLoop env count rounds (left - data.length) (pos + data.length) m after ∧
      Stores m (overwrite pos data content) ∧ m.isInFile = false ∧ m.allocSize = b.allocSize ∧
      m.storageLocked = b.storageLocked := by
  obtain ⟨m, hput, hm⟩ := putMemory_stores h hmemory (by omega : pos + data.length ≤ b.allocSize)
  exact ⟨m, copyLoop_round hsome (makeRoom_enough env (pos + count) hlimit henough) hread hput, hm⟩

/-- With room for all that comes, all of it is stored. -/
theorem memoryLoop_stores (h : Stores b content) (hmemory : b.isInFile = false) {rounds left pos : Nat}
    (count : Nat) {child : Child} {ps : List (List UInt8)} (hgap : 0 < left ∨ pos ≤ content.length)
    (hlimit : min b.allocSize (pos + left) < 2 ^ 63) (hgrow : growAt b.allocSize rounds left pos child = none)
    (hpieces : pieces rounds left child = some ps) :
    ∃ b' child', memoryLoop env count rounds left pos b child = .ok (.normal, b', child') ∧
      Stores b' (overwrite pos ps.flatten content) := by
  induction rounds generalizing left pos b content child ps with
  | zero => cases hpieces
  | succ rounds ih =>
      by_cases hzero : left = 0
      · rw [pieces, if_pos hzero] at hpieces
        cases hpieces
        refine ⟨b, child, by rw [memoryLoop, copyLoop, if_pos hzero], ?_⟩
        rw [List.flatten_nil, ZeroArray.overwrite_none (hgap.resolve_left (by omega))]
        exact h
      · have hsome := Nat.pos_of_ne_zero hzero
        have henough : pos + min left zBlobCopyBufsize ≤ b.allocSize := by
          by_contra hless
          rw [growAt, if_neg hzero, if_pos (Nat.lt_of_not_le hless)] at hgrow
          cases hgrow
        have hfits : pos + min left zBlobCopyBufsize < 2 ^ 63 := by omega
        obtain ⟨data, after, rest, hread, hle, hrest, rfl⟩ := pieces_round hsome hpieces
        obtain ⟨m, hround, hm, hmmemory, hmalloc, -⟩ :=
          memoryLoop_round env h hmemory count hsome hfits henough hread hle
        rw [growAt_round hsome henough hread, ← hmalloc] at hgrow
        have hnext : pos + data.length ≤ (overwrite pos data content).length := by
          rw [ZeroArray.length_overwrite]
          exact Nat.le_max_right _ _
        have hrestfits : min m.allocSize (pos + data.length + (left - data.length)) < 2 ^ 63 := by omega
        obtain ⟨b', child', hloop, hb'⟩ := ih hm hmmemory (.inr hnext) hrestfits hgrow hrest
        rw [ZeroArray.overwrite_append] at hb'
        exact ⟨b', child', hround.trans hloop, hb'⟩

/-- The loop comes to the round that asks for more room, with all that came
before it stored. -/
theorem memoryLoop_reaches (env : Outside) (h : Stores b content) (hmemory : b.isInFile = false) (halloc : b.allocSize < 2 ^ 63)
    {rounds left pos p : Nat} (count : Nat) {child : Child} {ps : List (List UInt8)}
    (hgrow : growAt b.allocSize rounds left pos child = some p) (hpieces : pieces rounds left child = some ps) :
    ∃ m c rounds' left' child' rest,
      memoryLoop env count rounds left pos b child = memoryLoop env count (rounds' + 1) left' p m child' ∧
        (Stores m c ∧ m.isInFile = false ∧ m.allocSize = b.allocSize ∧ m.storageLocked = b.storageLocked) ∧
        0 < left' ∧ left' ≤ left ∧ b.allocSize < p + min left' zBlobCopyBufsize ∧
        pieces (rounds' + 1) left' child' = some rest ∧
        overwrite p rest.flatten c = overwrite pos ps.flatten content := by
  induction rounds generalizing left pos b content child ps with
  | zero => cases hpieces
  | succ rounds ih =>
      by_cases hzero : left = 0
      · rw [growAt, if_pos hzero] at hgrow
        cases hgrow
      · have hsome := Nat.pos_of_ne_zero hzero
        by_cases hless : b.allocSize < pos + min left zBlobCopyBufsize
        · rw [growAt, if_neg hzero, if_pos hless] at hgrow
          cases hgrow
          exact ⟨b, content, rounds, left, child, ps, rfl, ⟨h, hmemory, rfl, rfl⟩, hsome, Nat.le_refl _, hless,
            hpieces, rfl⟩
        · have henough := Nat.le_of_not_lt hless
          obtain ⟨data, after, rest, hread, hle, hrest, rfl⟩ := pieces_round hsome hpieces
          obtain ⟨m, hround, hm, hmmemory, hmalloc, hmlocked⟩ :=
            memoryLoop_round env h hmemory count hsome (Nat.lt_of_le_of_lt henough halloc) henough hread hle
          rw [growAt_round hsome henough hread, ← hmalloc] at hgrow
          obtain ⟨m', c, rounds', left', child', rest', hloop, ⟨hm', hmem', halloc', hlocked'⟩, hsome', hleft',
            hless', hpieces', hcontent⟩ := ih hm hmmemory (hmalloc ▸ halloc) hgrow hrest
          refine ⟨m', c, rounds', left', child', rest', hround.trans hloop,
            ⟨hm', hmem', halloc'.trans hmalloc, hlocked'.trans hmlocked⟩, hsome', by omega, hmalloc ▸ hless',
            hpieces', ?_⟩
          rw [hcontent, ZeroArray.overwrite_append, List.flatten_cons]

/-- Once the blob has left the memory, the next byte is put nowhere. -/
theorem memoryLoop_lost {rounds left pos : Nat} (count : Nat) {child : Child} {ps : List (List UInt8)}
    (hdata : b.data = []) (hroom : pos + left ≤ b.allocSize) (hlimit : pos + left < 2 ^ 63) (hsome : 0 < left)
    (hpieces : pieces rounds left child = some ps) :
    memoryLoop env count rounds left pos b child = .error .memory := by
  induction rounds generalizing left pos b child ps with
  | zero => cases hpieces
  | succ rounds ih =>
      have hneeded : pos + min left zBlobCopyBufsize ≤ pos + left := by omega
      have henough := makeRoom_enough env (pos + count) (Nat.lt_of_le_of_lt hneeded hlimit)
        (Nat.le_trans hneeded hroom)
      obtain ⟨data, after, rest, hread, hle, hrest, rfl⟩ := pieces_round hsome hpieces
      by_cases hempty : data = []
      · have hput : putMemory pos data b = .ok { b with size := max b.size (pos + data.length) } := by
          simp only [putMemory, hempty, ↓reduceIte]
        rw [memoryLoop, copyLoop_round hsome henough hread hput]
        rw [hempty, List.length_nil, Nat.sub_zero] at hrest ⊢
        exact ih hdata hroom hlimit hsome hrest
      · have hlong : 0 < data.length := List.length_pos_of_ne_nil hempty
        have hnull : b.data.length < pos + data.length := by
          rw [hdata, List.length_nil]
          omega
        simp only [memoryLoop, copyLoop, Nat.ne_of_gt hsome, henough, hread, putMemory, hempty, hnull, ↓reduceIte]

/-! The round that asks for more room -/

theorem memoryLoop_overflows {rounds left pos count : Nat} (child : Child) (hsome : 0 < left)
    (hless : b.allocSize < pos + min left zBlobCopyBufsize)
    (hover : ¬(pos + count < 2 ^ 63 ∧ Doubles b (pos + count))) :
    memoryLoop env count (rounds + 1) left pos b child = .error .overflow := by
  apply copyLoop_halt child hsome
  by_cases hneeded : 2 ^ 63 ≤ pos + min left zBlobCopyBufsize
  · rw [makeRoom, if_pos hneeded]
  · by_cases hpos : 2 ^ 63 ≤ pos + count
    · rw [makeRoom, if_neg hneeded, if_pos hless, if_pos hpos]
    · have hfits := Nat.lt_of_not_le hpos
      have hreq := reqAllocSize_overflows hfits (fun hdoubles => hover ⟨hfits, hdoubles⟩)
      rw [makeRoom, if_neg hneeded, if_pos hless, if_neg hpos, alloc, hreq]

/-- What is granted is enough for all that comes. -/
theorem makeRoom_grows (env : Outside) {left pos count : Nat} (halloc : b.allocSize < 2 ^ 63)
    (hleft : left ≤ count) (hless : b.allocSize < pos + min left zBlobCopyBufsize) (hpos : pos + count < 2 ^ 63)
    (hdoubles : Doubles b (pos + count)) :
    ∃ r, pos + count ≤ r ∧ b.allocSize ≤ r ∧
      ∀ m, (env.moved (pos + count)).elim (.ok b) (swapOut env.now · b) = .ok m →
        makeRoom env (pos + min left zBlobCopyBufsize) (pos + count) b = .ok (allocGranted env.now r m) := by
  obtain ⟨r, hr, hle, -⟩ := reqAllocSize_spec hpos halloc hdoubles
  have hneeded : ¬2 ^ 63 ≤ pos + min left zBlobCopyBufsize := by omega
  have hother : ¬r = b.allocSize := by omega
  refine ⟨r, hle, by omega, fun m hm => ?_⟩
  rw [makeRoom, if_neg hneeded, if_pos hless, if_neg (Nat.not_le.mpr hpos), alloc, hr]
  simp only [hother, ↓reduceIte, hm]

theorem memoryLoop_stays (h : Stores b content) (hmemory : b.isInFile = false) (halloc : b.allocSize < 2 ^ 63)
    {rounds left pos count : Nat} {child : Child} {ps : List (List UInt8)} (hsome : 0 < left) (hleft : left ≤ count)
    (hless : b.allocSize < pos + min left zBlobCopyBufsize) (hpos : pos + count < 2 ^ 63)
    (hdoubles : Doubles b (pos + count)) (hstays : env.moved (pos + count) = none ∨ b.storageLocked = true)
    (hpieces : pieces (rounds + 1) left child = some ps) :
    ∃ b' child', memoryLoop env count (rounds + 1) left pos b child = .ok (.normal, b', child') ∧
      Stores b' (overwrite pos ps.flatten content) := by
  obtain ⟨r, hroom, hlonger, hgrant⟩ := makeRoom_grows env halloc hleft hless hpos hdoubles
  have hhere : (env.moved (pos + count)).elim (.ok b) (swapOut env.now · b) = .ok b := by
    rcases hstays with hnone | hlocked
    · rw [hnone]
      rfl
    · cases env.moved (pos + count) with
      | none => rfl
      | some io => exact if_neg (fun hmoves => hmoves.1 hlocked)
  obtain ⟨hstores, -⟩ := allocGranted_stores h env.now r
  have hinside := h.inside
  rw [List.take_of_length_le (by rw [← h.size]; omega)] at hstores
  have hgranted : (allocGranted env.now r b).isInFile = false := by
    simp only [allocGranted, hmemory, Bool.false_eq_true, ↓reduceIte]
  have hsize : (allocGranted env.now r b).allocSize = r := rfl
  have henough := makeRoom_enough env (pos + count) (by omega : pos + min left zBlobCopyBufsize < 2 ^ 63)
    (by omega : _ ≤ (allocGranted env.now r b).allocSize)
  rw [memoryLoop, copyLoop_room child hsome (hgrant b hhere) henough]
  exact memoryLoop_stores hstores hgranted count (.inl hsome) (by omega) (growAt_none (by omega) child) hpieces

theorem memoryLoop_leaves (h : Stores b content) (hmemory : b.isInFile = false) (halloc : b.allocSize < 2 ^ 63)
    {rounds left pos count : Nat} {child : Child} {ps : List (List UInt8)} (hsome : 0 < left) (hleft : left ≤ count)
    (hless : b.allocSize < pos + min left zBlobCopyBufsize) (hpos : pos + count < 2 ^ 63)
    (hdoubles : Doubles b (pos + count)) {io : List Transfer} (hmoved : env.moved (pos + count) = some io)
    (hio : Allowed io) (hunlocked : ¬b.storageLocked = true)
    (hpieces : pieces (rounds + 1) left child = some ps) :
    memoryLoop env count (rounds + 1) left pos b child = .error .memory := by
  obtain ⟨r, hroom, -, hgrant⟩ := makeRoom_grows env halloc hleft hless hpos hdoubles
  have hcount : b.size ≤ b.data.length := (h.memory hmemory).1 ▸ h.inside
  obtain ⟨n, file, hwrite, -⟩ := writeFile_spec hio hcount 0 b.file
  have hout : (env.moved (pos + count)).elim (.ok b) (swapOut env.now · b) =
      .ok { b with isInFile := true, file := file, data := [], lastAccessed := env.now } := by
    rw [hmoved, Option.elim, swapOut, if_pos ⟨hunlocked, Bool.eq_false_iff.mp hmemory⟩, hwrite]
    rfl
  have hdata : (allocGranted env.now r
      { b with isInFile := true, file := file, data := [], lastAccessed := env.now }).data = [] := rfl
  have hsize : (allocGranted env.now r
      { b with isInFile := true, file := file, data := [], lastAccessed := env.now }).allocSize = r := rfl
  have henough := makeRoom_enough env (pos + count) (by omega : pos + min left zBlobCopyBufsize < 2 ^ 63)
    (by omega : _ ≤ (allocGranted env.now r
      { b with isInFile := true, file := file, data := [], lastAccessed := env.now }).allocSize)
  rw [memoryLoop, copyLoop_room child hsome (hgrant _ hout) henough]
  exact memoryLoop_lost count hdata (by omega) (by omega) hsome hpieces

/-! A whole call -/

/-- A call for which the stream delivers all bytes stays inside of the memory,
and one that returns NORMAL leaves the array with them. -/
def StoresBytes (env : Outside) (pos count : Nat) (b : Blob.Blob) (content : List UInt8) (child : Child) : Prop :=
  ((pieces (childSize child + 1) count child).isSome = true →
      readFromStream env pos count b child ≠ .error .memory) ∧
    ∀ b' child', readFromStream env pos count b child = .ok (.normal, b', child') →
      count ≤ (childBytes child).length ∧ Stores b' (overwrite pos ((childBytes child).take count) content)

/-- No gap is to be left by nothing, what is sent to the file is what came, and
the blob stays in memory when it has to grow there. -/
def Kept (env : Outside) (pos count : Nat) (b : Blob.Blob) (child : Child) : Prop :=
  (0 < count ∨ pos ≤ b.size) ∧
    ∀ ps, pieces (childSize child + 1) count child = some ps →
      if b.isInFile then pos + count < 2 ^ 63 → arrived env pos ps = ps.flatten
      else ∀ p, growAt b.allocSize (childSize child + 1) count pos child = some p →
        p + count < 2 ^ 63 → Doubles b (p + count) → env.moved (p + count) = none ∨ b.storageLocked = true

theorem stores_unique {c : List UInt8} (h : Stores b content) (hc : Stores b c) : content = c := by
  apply ZeroArray.ext (h.size.symm.trans hc.size)
  intro i
  cases hfile : b.isInFile with
  | true => rw [← h.disk hfile, hc.disk hfile]
  | false => rw [← (h.memory hfile).2, (hc.memory hfile).2]

theorem overwrite_inj {pos : Nat} {xs ys l : List UInt8} (hlen : xs.length = ys.length)
    (h : overwrite pos xs l = overwrite pos ys l) : xs = ys := by
  apply ZeroArray.ext hlen
  intro i
  by_cases hi : i < xs.length
  · have hget := congrArg (get · (pos + i)) h
    simp only [ZeroArray.get_overwrite] at hget
    rw [if_pos ⟨Nat.le_add_right pos i, by omega⟩, if_pos ⟨Nat.le_add_right pos i, by omega⟩,
      Nat.add_sub_cancel_left] at hget
    exact hget
  · rw [ZeroArray.get_of_length_le (by omega), ZeroArray.get_of_length_le (by omega)]

theorem arrived_length (hio : ∀ p, Allowed (env.io p)) (pos : Nat) (ps : List (List UInt8)) :
    (arrived env pos ps).length = ps.flatten.length := by
  induction ps generalizing pos with
  | nil => rfl
  | cons data ps ih =>
      rw [arrived, List.length_append, sent_length (hio pos) (Nat.le_refl _), ih, List.flatten_cons,
        List.length_append]

theorem exitStats_stores : Stores (exitStats env b) content ↔ Stores b content :=
  ⟨fun h => ⟨⟨h.size, h.inside, h.memory, h.disk⟩, h.emptied⟩,
    fun h => ⟨⟨h.size, h.inside, h.memory, h.disk⟩, h.emptied⟩⟩

theorem pieces_take {rounds count : Nat} {child : Child} {ps : List (List UInt8)}
    (h : pieces rounds count child = some ps) :
    count ≤ (childBytes child).length ∧ (childBytes child).take count = ps.flatten := by
  obtain ⟨hlen, hprefix⟩ := pieces_bytes h
  exact ⟨hlen ▸ hprefix.length_le, hlen ▸ (List.prefix_iff_eq_take.mp hprefix).symm⟩

variable {pos count : Nat} {child : Child} {ps : List (List UInt8)}

theorem storesBytes_ok {m : Blob.Blob} {child' : Child} (hpieces : pieces (childSize child + 1) count child = some ps)
    (h : readFromStream env pos count b child = .ok (.normal, exitStats env m, child')) :
    StoresBytes env pos count b content child ↔ Stores m (overwrite pos ps.flatten content) := by
  obtain ⟨hcount, htake⟩ := pieces_take hpieces
  rw [StoresBytes, h, htake]
  constructor
  · intro hall
    exact exitStats_stores.mp (hall.2 _ _ rfl).2
  · intro hm
    refine ⟨fun _ => nofun, fun b' c hb' => ?_⟩
    cases hb'
    exact ⟨hcount, exitStats_stores.mpr hm⟩

theorem storesBytes_error {halt : Halt} (hpieces : pieces (childSize child + 1) count child = some ps)
    (h : readFromStream env pos count b child = .error halt) :
    StoresBytes env pos count b content child ↔ halt ≠ .memory := by
  rw [StoresBytes, h, hpieces]
  refine ⟨fun hall heq => hall.1 rfl (heq ▸ rfl), fun hother => ⟨fun _ hmem => hother ?_, fun b' c hb' => nomatch hb'⟩⟩
  cases hmem
  rfl

/-- A blob in its file has the position in what is allocated when the loop
begins. -/
theorem readFromStream_file (env : Outside) (h : Stores b content) (hfile : b.isInFile = true) (pos count : Nat)
    (child : Child) :
    ∃ m, Stores m content ∧ m.isInFile = true ∧
      readFromStream env pos count b child =
        (fileLoop env (childSize child + 1) count pos m child).map
          fun (status, self, child) => (status, exitStats env self, child) := by
  by_cases hgap : b.size < pos
  · obtain ⟨m, halloc, hm, hmfile, -⟩ := alloc_inFile h.toKeeps hfile env.now (env.moved pos) (Nat.le_of_lt hgap)
    exact ⟨m, stores_inFile hm hmfile, hmfile, by simp only [readFromStream, hfile, hgap, ↓reduceIte, halloc]⟩
  · exact ⟨b, h, hfile, by simp only [readFromStream, hfile, hgap, ↓reduceIte]⟩

theorem readFromStream_memory (env : Outside) (hmemory : b.isInFile = false) (pos count : Nat) (child : Child) :
    readFromStream env pos count b child =
      (memoryLoop env count (childSize child + 1) count pos b child).map
        fun (status, self, child) => (status, exitStats env self, child) := by
  simp only [readFromStream, hmemory, Bool.false_eq_true, ↓reduceIte]

theorem readFromStream_normal {b' : Blob.Blob} {child' : Child} (h : Stores b content)
    (hread : readFromStream env pos count b child = .ok (.normal, b', child')) :
    ∃ ps, pieces (childSize child + 1) count child = some ps := by
  cases hfile : b.isInFile with
  | true =>
      obtain ⟨m, -, -, hloop⟩ := readFromStream_file env h hfile pos count child
      rw [hloop] at hread
      cases hout : fileLoop env (childSize child + 1) count pos m child with
      | error halt =>
          rw [hout] at hread
          cases hread
      | ok out =>
          obtain ⟨status, n, after⟩ := out
          rw [hout] at hread
          cases hread
          exact copyLoop_normal hout
  | false =>
      rw [readFromStream_memory env hfile] at hread
      cases hout : memoryLoop env count (childSize child + 1) count pos b child with
      | error halt =>
          rw [hout] at hread
          cases hread
      | ok out =>
          obtain ⟨status, n, after⟩ := out
          rw [hout] at hread
          cases hread
          exact copyLoop_normal hout

/-- A read of nothing leaves the array as it is. -/
theorem readFromStream_nothing (env : Outside) (h : Stores b content) (pos : Nat) (child : Child) :
    ∃ m, readFromStream env pos 0 b child = .ok (.normal, exitStats env m, child) ∧ Stores m content := by
  cases hfile : b.isInFile with
  | true =>
      obtain ⟨m, hm, -, hloop⟩ := readFromStream_file env h hfile pos 0 child
      exact ⟨m, hloop, hm⟩
  | false => exact ⟨b, readFromStream_memory env hfile pos 0 child, h⟩

theorem storesBytes_file (h : Stores b content) (hfile : b.isInFile = true) (hio : ∀ p, Allowed (env.io p))
    (hsome : 0 < count) (hpieces : pieces (childSize child + 1) count child = some ps) :
    StoresBytes env pos count b content child ↔ (pos + count < 2 ^ 63 → arrived env pos ps = ps.flatten) := by
  obtain ⟨m, hm, hmfile, hread⟩ := readFromStream_file env h hfile pos count child
  by_cases hlimit : pos + count < 2 ^ 63
  · obtain ⟨b', child', hloop, hb'⟩ := fileLoop_stores hm hmfile hio (.inl hsome) hlimit hpieces
    rw [hloop] at hread
    rw [storesBytes_ok hpieces hread]
    constructor
    · intro hall _
      exact overwrite_inj (arrived_length hio pos ps) (stores_unique hb' hall)
    · intro hsame
      rw [← hsame hlimit]
      exact hb'
  · rw [fileLoop_overflows hm hmfile hio hsome (Nat.le_of_not_lt hlimit) hpieces] at hread
    rw [storesBytes_error hpieces hread]
    exact iff_of_true (by decide) (fun hfits => absurd hfits hlimit)

/-- A read of nothing leaves a gap that nothing fills. -/
theorem storesBytes_nothing (h : Stores b content) (pos : Nat) (child : Child) :
    StoresBytes env pos 0 b content child ↔ pos ≤ b.size := by
  obtain ⟨m, hread, hm⟩ := readFromStream_nothing env h pos child
  rw [storesBytes_ok (by rw [pieces, if_pos rfl]) hread, List.flatten_nil]
  constructor
  · intro hall
    have hlen := congrArg List.length (stores_unique hm hall)
    rw [ZeroArray.length_overwrite, List.length_nil, ← h.size] at hlen
    omega
  · intro hinside
    rw [ZeroArray.overwrite_none (h.size ▸ hinside)]
    exact hm

theorem storesBytes_memory (h : Stores b content) (hmemory : b.isInFile = false) (halloc : b.allocSize < 2 ^ 63)
    (hmoved : ∀ n io, env.moved n = some io → Allowed io) (hsome : 0 < count)
    (hpieces : pieces (childSize child + 1) count child = some ps) :
    StoresBytes env pos count b content child ↔
      ∀ p, growAt b.allocSize (childSize child + 1) count pos child = some p → p + count < 2 ^ 63 →
        Doubles b (p + count) → env.moved (p + count) = none ∨ b.storageLocked = true := by
  have hread := readFromStream_memory env hmemory pos count child
  cases hgrow : growAt b.allocSize (childSize child + 1) count pos child with
  | none =>
      obtain ⟨b', child', hloop, hb'⟩ :=
        memoryLoop_stores h hmemory count (.inl hsome) (by omega) hgrow hpieces
      rw [hloop] at hread
      rw [storesBytes_ok hpieces hread]
      exact iff_of_true hb' (fun p hp => nomatch hp)
  | some p =>
      obtain ⟨m, c, rounds, left, child', rest, hreach, ⟨hm, hmmemory, hmalloc, hmlocked⟩, hleft, hle, hless, hrest,
        hcontent⟩ := memoryLoop_reaches env h hmemory halloc count hgrow hpieces
      have hdoubles : Doubles m (p + count) ↔ Doubles b (p + count) := by
        rw [Doubles, Doubles, hmalloc, hmmemory, hmemory]
      rw [hreach] at hread
      rw [← hmalloc] at hless halloc
      simp only [Option.some.injEq, forall_eq', ← hmlocked, ← hdoubles]
      by_cases hgrows : p + count < 2 ^ 63 ∧ Doubles m (p + count)
      · obtain ⟨hfits, hdouble⟩ := hgrows
        by_cases hstays : env.moved (p + count) = none ∨ m.storageLocked = true
        · obtain ⟨b', after, hloop, hb'⟩ :=
            memoryLoop_stays hm hmmemory halloc hleft hle hless hfits hdouble hstays hrest
          rw [hloop] at hread
          rw [storesBytes_ok hpieces hread, ← hcontent]
          exact iff_of_true hb' (fun _ _ => hstays)
        · obtain ⟨hmoves, hunlocked⟩ := not_or.mp hstays
          obtain ⟨io, hio⟩ := Option.ne_none_iff_exists'.mp hmoves
          rw [memoryLoop_leaves hm hmmemory halloc hleft hle hless hfits hdouble hio (hmoved _ _ hio) hunlocked
            hrest] at hread
          rw [storesBytes_error hpieces hread]
          exact iff_of_false (fun hother => hother rfl) (fun hcond => hstays (hcond hfits hdouble))
      · rw [memoryLoop_overflows child' hleft hless hgrows] at hread
        rw [storesBytes_error hpieces hread]
        exact iff_of_true (by decide) (fun hfits hdouble => absurd ⟨hfits, hdouble⟩ hgrows)

/-- The bytes of the stream are stored just if no gap is left by a read of
nothing, the short writes to the file send the right bytes again, and a blob
in memory that has to grow stays there. -/
theorem read_stores_iff (env : Outside) (pos count : Nat) (b : Blob.Blob) (content : List UInt8) (child : Child)
    (h : Stores b content) (halloc : b.allocSize < 2 ^ 63) (hio : ∀ p, Allowed (env.io p))
    (hmoved : ∀ n io, env.moved n = some io → Allowed io) :
    StoresBytes env pos count b content child ↔ Kept env pos count b child := by
  cases hpieces : pieces (childSize child + 1) count child with
  | none =>
      have hsome : 0 < count := by
        by_contra hzero
        obtain rfl : count = 0 := by omega
        rw [pieces, if_pos rfl] at hpieces
        cases hpieces
      refine iff_of_true ⟨fun hsome => ?_, fun b' child' hread => ?_⟩ ⟨.inl hsome, fun ps hps => ?_⟩
      · rw [hpieces] at hsome
        cases hsome
      · obtain ⟨ps, hps⟩ := readFromStream_normal h hread
        cases hpieces.symm.trans hps
      · cases hpieces.symm.trans hps
  | some ps =>
      have hkept : Kept env pos count b child ↔ (0 < count ∨ pos ≤ b.size) ∧
          if b.isInFile then pos + count < 2 ^ 63 → arrived env pos ps = ps.flatten
          else ∀ p, growAt b.allocSize (childSize child + 1) count pos child = some p →
            p + count < 2 ^ 63 → Doubles b (p + count) →
              env.moved (p + count) = none ∨ b.storageLocked = true := by
        simp only [Kept, hpieces, Option.some.injEq, forall_eq']
      rw [hkept]
      by_cases hzero : count = 0
      · subst hzero
        rw [pieces, if_pos rfl] at hpieces
        cases hpieces
        rw [storesBytes_nothing h]
        constructor
        · intro hinside
          refine ⟨.inr hinside, ?_⟩
          split
          · exact fun _ => rfl
          · intro p hgrow
            rw [growAt, if_pos rfl] at hgrow
            cases hgrow
        · rintro ⟨hgap, -⟩
          exact hgap.resolve_left (Nat.lt_irrefl 0)
      · have hsome := Nat.pos_of_ne_zero hzero
        cases hfile : b.isInFile with
        | true =>
            simp only [hsome, true_or, true_and, ↓reduceIte]
            exact storesBytes_file h hfile hio hsome hpieces
        | false =>
            simp only [hsome, true_or, true_and, Bool.false_eq_true, ↓reduceIte]
            exact storesBytes_memory h hfile halloc hmoved hsome hpieces

theorem stores_empty (isInFile : Bool) : Stores { isInFile := isInFile } [] :=
  ⟨⟨rfl, Nat.le_refl 0, fun _ => ⟨rfl, fun _ => rfl⟩, fun _ _ => rfl⟩, fun _ => rfl⟩

/-- Three bytes behind a gap, for which the blob grows in memory. -/
theorem read_stores_iff_grown :
    StoresBytes { now := 0, moved := fun _ => none, io := fun _ => [] } 3 3
      { size := 2, allocSize := 4, data := [1, 2, 0, 0] } [1, 2] [.normal [4], .normal [], .normal [5, 6, 7]] := by
  have hstores : Stores { size := 2, allocSize := 4, data := [1, 2, 0, 0] } [1, 2] := by
    refine ⟨⟨rfl, by decide, fun _ => ⟨rfl, fun i => ?_⟩, fun hfile => Bool.noConfusion hfile⟩, fun _ => rfl⟩
    rcases i with _ | _ | _ | _ | i <;> rfl
  have hio : ∀ p : Nat, Allowed [] := fun _ answer hanswer => absurd hanswer List.not_mem_nil
  have hmoved : ∀ (n : Nat) (io : List Transfer), none = some io → Allowed io := fun n io hio => nomatch hio
  refine (read_stores_iff _ 3 3 _ [1, 2] _ hstores (by decide) hio hmoved).mpr ?_
  refine ⟨.inl (by decide), fun ps _ => ?_⟩
  rw [if_neg (by decide)]
  exact fun p _ _ _ => .inl rfl

/-- An empty blob that goes to its file when it grows for one byte; the same
blob, of which nothing is put at the place three; and two bytes of which only
the first is written at once. -/
theorem read_not_stores :
    (¬∀ (env : Outside) (pos count : Nat) (b : Blob.Blob) (content : List UInt8) (child : Child), Stores b content →
      b.allocSize < 2 ^ 63 → (∀ p, Allowed (env.io p)) → (∀ n io, env.moved n = some io → Allowed io) →
        StoresBytes env pos count b content child) ∧
    readFromStream { now := 0, moved := fun _ => some [], io := fun _ => [] } 0 1 {} [.normal [7]] =
      .error .memory ∧
    ¬StoresBytes { now := 0, moved := fun _ => none, io := fun _ => [] } 3 0 {} [] [] ∧
    (addCopy 0 none [] 3 [] {}).map (·.2.size) = .ok 3 ∧
    ¬StoresBytes { now := 0, moved := fun _ => none, io := fun _ => [.count 1] } 0 2 { isInFile := true } []
      [.normal [1, 2]] := by
  refine ⟨?_, rfl, ?_, rfl, ?_⟩
  · intro hall
    have hnothing : Allowed [] := fun answer hanswer => absurd hanswer List.not_mem_nil
    have h := hall { now := 0, moved := fun _ => some [], io := fun _ => [] } 0 1 {} [] [.normal [7]]
      (stores_empty false) (by decide) (fun _ => hnothing) (fun n io hio => Option.some.inj hio ▸ hnothing)
    exact h.1 rfl rfl
  · intro h
    have hstores := (h.2 _ _ rfl).2
    exact absurd hstores.size (by decide)
  · intro h
    have hstores := (h.2 _ _ rfl).2
    exact absurd (hstores.disk rfl 1) (by decide)

end Libzorpll.BlobStream
