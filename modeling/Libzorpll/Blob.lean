import Mathlib.Data.UInt
import Libzorpll.ZeroArray

namespace Libzorpll.Blob

open ZeroArray (overwrite resize)

/-- Why a call does not come back: an assertion that fails, a gint64 that
overflows, an access outside of allocated memory, or a loop without an end. -/
inductive Halt
  | assertion
  | overflow
  | memory
  | endless
  deriving DecidableEq

/-- What one read or write on the swap file answers: a count, which is cut to
what is possible, EINTR, or another error. -/
inductive Transfer
  | count (n : Nat)
  | intr
  | fail

/-- `file` are the bytes of the swap file, and `data` those of the memory
image, none where it is NULL. The gint64 fields are never negative. -/
structure Blob where
  size : Nat := 0
  allocSize : Nat := 0
  isInFile : Bool := false
  file : List UInt8 := []
  data : List UInt8 := []
  storageLocked : Bool := false
  reqRd : Nat := 0
  reqWr : Nat := 0
  lastAccessed : Int := 0

/-! The loops over read and write. Where no answers are left, all that is
asked for is transferred. -/

/-- The pointer to the buffer is the same in every round. -/
def writeLoop (buf : List UInt8) :
    List Transfer → Nat → Nat → Nat → List UInt8 → Except Halt (Nat × List UInt8)
  | [], remain, off, written, file =>
      if remain = 0 then .ok (written, file) else .ok (remain, overwrite off (buf.take remain) file)
  | answer :: io, remain, off, written, file =>
      if remain = 0 then .ok (written, file)
      else
        match answer with
        | .count n =>
            let n := min n remain
            writeLoop buf io (remain - n) (off + n) n (overwrite off (buf.take n) file)
        | .intr => writeLoop buf io remain off written file
        | .fail => .error .assertion

/-- What the last write answered, and the file. -/
def writeFile (io : List Transfer) (buf : List UInt8) (remain off : Nat) (file : List UInt8) :
    Except Halt (Nat × List UInt8) :=
  if buf.length < remain then .error .memory else writeLoop buf io remain off 0 file

/-- A read at the end of the file ends the loop or goes round again. -/
def readLoop (stops : Bool) (file : List UInt8) :
    List Transfer → Nat → Nat → Nat → List UInt8 → Except Halt (Nat × List UInt8)
  | [], remain, off, rd, buf =>
      if remain = 0 then .ok (rd, buf)
      else
        let got := (file.drop off).take remain
        if got.length = remain then .ok (remain, overwrite 0 got buf)
        else if stops then .ok (0, overwrite 0 got buf)
        else .error .endless
  | answer :: io, remain, off, rd, buf =>
      if remain = 0 then .ok (rd, buf)
      else
        match answer with
        | .count n =>
            let got := (file.drop off).take (min n remain)
            if got = [] ∧ stops then .ok (0, buf)
            else readLoop stops file io (remain - got.length) (off + got.length) got.length
              (overwrite 0 got buf)
        | .intr => readLoop stops file io remain off rd buf
        | .fail => .error .assertion

/-- What the last read answered, and the buffer. -/
def readFile (stops : Bool) (io : List Transfer) (file : List UInt8) (remain off : Nat)
    (buf : List UInt8) : Except Halt (Nat × List UInt8) :=
  if buf.length < remain then .error .memory else readLoop stops file io remain off 0 buf

/-! Moving between memory and file; `now` is the answer of time. -/

def swapOut (now : Int) (io : List Transfer) (self : Blob) : Except Halt Blob :=
  if ¬self.storageLocked ∧ ¬self.isInFile then
    (writeFile io self.data self.size 0 self.file).map fun (_, file) =>
      { self with isInFile := true, file := file, data := [], lastAccessed := now }
  else .ok self

/-- The part of z_blob_system_swap_in that fetches the best blob. -/
def swapIn (now : Int) (io : List Transfer) (self : Blob) : Except Halt Blob :=
  (readFile true io self.file self.size 0 (List.replicate self.allocSize 0)).map fun (_, data) =>
    { self with isInFile := false, file := [], data := data, lastAccessed := now }

/-! Allocation -/

def shrinkLoop (reqSize : Nat) : Nat → Nat → Except Halt Nat
  | 0, _ => .error .endless
  | rounds + 1, reqAllocSize =>
      if reqSize < reqAllocSize then shrinkLoop reqSize rounds (reqAllocSize / 2) else .ok reqAllocSize

def growLoop (reqSize : Nat) : Nat → Nat → Except Halt Nat
  | 0, _ => .error .endless
  | rounds + 1, reqAllocSize =>
      if reqAllocSize < reqSize then
        if 2 ^ 63 ≤ 2 * reqAllocSize then .error .overflow
        else growLoop reqSize rounds (2 * reqAllocSize)
      else .ok reqAllocSize

/-- The allocation size that z_blob_alloc determines; a gint64 has 63 bits to
shift through. -/
def reqAllocSize (reqSize : Nat) (self : Blob) : Except Halt Nat :=
  if self.allocSize = 0 ∨ self.isInFile then .ok reqSize
  else
    match shrinkLoop reqSize 64 self.allocSize with
    | .ok size => growLoop reqSize 64 size
    | .error halt => .error halt

/-- The part of z_blob_alloc behind the grant. -/
def allocGranted (now : Int) (reqAllocSize : Nat) (self : Blob) : Blob :=
  let self :=
    if self.isInFile then { self with file := resize reqAllocSize self.file }
    else { self with data := resize reqAllocSize self.data }
  { self with allocSize := reqAllocSize, size := min self.size reqAllocSize, lastAccessed := now }

/-- z_blob_alloc with a request that is granted, in the course of which the
blob may be swapped out. -/
def alloc (now : Int) (moved : Option (List Transfer)) (reqSize : Nat) (self : Blob) :
    Except Halt Blob :=
  match reqAllocSize reqSize self with
  | .error halt => .error halt
  | .ok size =>
      if size = self.allocSize then .ok self
      else
        match moved.elim (.ok self) (swapOut now · self) with
        | .error halt => .error halt
        | .ok self => .ok (allocGranted now size self)

/-- z_blob_truncate, when it has got the lock. -/
def truncate (now : Int) (moved : Option (List Transfer)) (pos : Nat) (self : Blob) : Except Halt Blob :=
  alloc now moved pos self

def blobNew (now : Int) (moved : Option (List Transfer)) (initialSize : Nat) : Except Halt Blob :=
  if initialSize = 0 then .ok { lastAccessed := now }
  else if 2 ^ 63 ≤ initialSize then .error .assertion
  else alloc now moved initialSize { lastAccessed := now }

/-! Reading and writing -/

def addCopy (now : Int) (moved : Option (List Transfer)) (io : List Transfer) (pos : Nat)
    (data : List UInt8) (self : Blob) : Except Halt (Nat × Blob) :=
  if 2 ^ 63 ≤ pos + data.length then .error .overflow
  else
    match
      if self.allocSize < pos + data.length then alloc now moved (pos + data.length) self
      else .ok self with
    | .error halt => .error halt
    | .ok self =>
        match
          if self.isInFile then
            (writeFile io data data.length pos self.file).map fun (written, file) =>
              (written, { self with file := file })
          else if self.data.length < pos + data.length then .error .memory
          else .ok (data.length, { self with data := overwrite pos data self.data }) with
        | .error halt => .error halt
        | .ok (written, self) =>
            .ok (written, { self with
              size := max self.size (pos + written)
              reqWr := self.reqWr + 1
              lastAccessed := now })

/-- The bytes asked for are as many as the buffer `data` has. -/
def getCopy (now : Int) (io : List Transfer) (pos : Nat) (data : List UInt8) (self : Blob) :
    Except Halt (Nat × List UInt8 × Blob) :=
  if pos < self.size then
    let reqDatalen := min data.length (self.size - pos)
    match
      if self.isInFile then readFile false io self.file reqDatalen pos data
      else if self.data.length < pos + reqDatalen then .error .memory
      else .ok (reqDatalen, overwrite 0 ((self.data.drop pos).take reqDatalen) data) with
    | .error halt => .error halt
    | .ok (rd, data) => .ok (rd, data, { self with reqRd := self.reqRd + 1, lastAccessed := now })
  else .ok (0, data, self)

end Libzorpll.Blob
