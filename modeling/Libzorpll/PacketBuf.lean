import Libzorpll.Region
import Libzorpll.Word

/-! ZPktBuf: a block of memory with a length and a position. -/

namespace Libzorpll.PacketBuf

open Region Word

/-- What a call cannot come back from: an access outside the memory or a loop
without an end, the assertion of a borrowed buffer, a signed overflow. -/
inductive Halt
  | memory (a : Region.Abort)
  | assertion
  | overflow
  deriving DecidableEq

/-- The sizes are gsize. The block has as many bytes as there are, whatever
`allocated` says. -/
structure ZPktBuf where
  allocated : Nat := 0
  length : Nat := 0
  pos : Nat := 0
  borrowed : Bool := false
  data : List UInt8 := []
  deriving DecidableEq

/-- The bytes that a buffer has to say something about. -/
def contents (s : ZPktBuf) : List UInt8 := window s.data 0 s.length

def gsize (n : Nat) : Nat := n % 2 ^ 64

/-- A difference of two gsize. -/
def gsub (a b : Nat) : Nat := (a + 2 ^ 64 - b) % 2 ^ 64

def gssize (n : Int) : Int := n.bmod (2 ^ 64)

def access {α : Type} : Except Region.Abort α → Except Halt α
  | .ok a => .ok a
  | .error e => .error (.memory e)

def available (s : ZPktBuf) : Nat := gsub s.length s.pos

/-- g_realloc: what a longer block has at its end is not known. -/
def realloc (fresh : Nat → UInt8) (data : List UInt8) (size : Nat) : List UInt8 :=
  data.take size ++ (List.range (size - data.length)).map fresh

section Operations

variable (fresh : Nat → UInt8)

def resize (s : ZPktBuf) (size : Nat) : Except Halt ZPktBuf := do
  let s ←
    if s.allocated < size then
      if s.borrowed then .error .assertion
      else .ok { s with data := realloc fresh s.data size, allocated := size }
    else .ok s
  let s := if size < s.length then { s with length := size } else s
  let s := if size < s.pos then { s with pos := size } else s
  .ok s

def setAvailable (s : ZPktBuf) (size : Nat) : Except Halt (Bool × ZPktBuf) :=
  if gsize (s.pos + size) ≤ s.length then .ok (true, s)
  else do
    let s := { s with length := gsize (s.pos + size) }
    let s ← resize fresh s (gsize (s.pos + size))
    .ok (true, s)

def copy (s : ZPktBuf) (bytes : List UInt8) : Except Halt (Bool × ZPktBuf) := do
  let s ← resize fresh s bytes.length
  let s := if bytes.length < s.pos then { s with pos := bytes.length } else s
  let s := { s with length := bytes.length }
  let data ← access (write s.data 0 bytes)
  .ok (true, { s with data := data })

/-- The buffer takes over a block of memory. -/
def relocate (s : ZPktBuf) (block : List UInt8) (isBorrowed : Bool) : ZPktBuf :=
  let s := if block.length < s.pos then { s with pos := block.length } else s
  { s with
    data := block
    length := block.length
    allocated := block.length
    borrowed := isBorrowed }

def append (s : ZPktBuf) (bytes : List UInt8) : Except Halt (Bool × ZPktBuf) := do
  let s ← resize fresh s (gsize (s.length + bytes.length))
  let data ← access (write s.data s.length bytes)
  .ok (true, { s with data := data, length := gsize (s.length + bytes.length) })

def insert (s : ZPktBuf) (pos : Nat) (bytes : List UInt8) : Except Halt (Bool × ZPktBuf) := do
  let s ← resize fresh s (gsize (s.length + bytes.length))
  let data ← access (move s.data (pos + bytes.length) pos (gsub s.length pos))
  let data ← access (write data pos bytes)
  .ok (true, { s with data := data, length := gsize (s.length + bytes.length) })

end Operations

inductive Whence
  | seekCur
  | seekSet
  | seekEnd

/-- The offset is a gssize. Sums with a gsize are unsigned, the others signed. -/
def seek (whence : Whence) (s : ZPktBuf) (offset : Int) : Except Halt (Bool × ZPktBuf) :=
  match whence with
  | .seekCur =>
      let target := ((s.pos + offset) % 2 ^ 64).toNat
      let signed := gssize s.pos + offset
      if s.length < target then .ok (false, s)
      else if gssize signed ≠ signed then .error .overflow
      else if signed < 0 then .ok (false, s)
      else .ok (true, { s with pos := target })
  | .seekSet =>
      if gssize s.length < offset ∨ offset < 0 then .ok (false, s)
      else .ok (true, { s with pos := offset.toNat })
  | .seekEnd =>
      if 0 < offset then .ok (false, s)
      else if gssize (-offset) ≠ -offset then .error .overflow
      else if gssize s.length < -offset then .ok (false, s)
      else .ok (true, { s with pos := ((s.length + offset) % 2 ^ 64).toNat })

/-- For n bytes the loop that copies words the other way round. Its index is a
guint, and a loop that comes back does so within n rounds. -/
def swapLoop (host : ByteOrder) (w n : Nat) (src : List UInt8) (a b : Nat) :
    Nat → Nat → List UInt8 → Except Halt (List UInt8)
  | fuel, i, dst =>
      if n ≤ i then .ok dst
      else
        match fuel with
        | 0 => .error (.memory .diverges)
        | fuel + 1 => do
            let bytes ← access (read src (a + i) w)
            let dst ← access (write dst (b + i) (encode host w (swap w (decode host bytes))))
            swapLoop host w n src a b fuel ((i + w) % 2 ^ 32) dst

def copyWords (host e : ByteOrder) (w n : Nat) (src : List UInt8) (a : Nat) (dst : List UInt8)
    (b : Nat) : Except Halt (List UInt8) :=
  if e = host then do
    let bytes ← access (read src a n)
    access (write dst b bytes)
  else swapLoop host w n src a b n 0 dst

section Words

/-- What `res` points to, if it is not NULL, is a word or the memory of an
array. -/
def getWord (host e : ByteOrder) (w : Nat) (s : ZPktBuf) (res : Option Nat) :
    Except Halt (Bool × Option Nat × ZPktBuf) :=
  if available s < w then .ok (false, res, s)
  else do
    let res ←
      match res with
      | none => .ok none
      | some _ => do
          let bytes ← access (read s.data s.pos w)
          .ok (some (if e = host then decode host bytes else swap w (decode host bytes)))
    .ok (true, res, { s with pos := gsize (s.pos + w) })

def putWord (host e : ByteOrder) (w : Nat) (fresh : Nat → UInt8) (s : ZPktBuf) (d : Nat) :
    Except Halt (Bool × ZPktBuf) := do
  let (_, s) ← setAvailable fresh s w
  let data ← access (write s.data s.pos (encode host w (if e = host then d else swap w d)))
  .ok (true, { s with data := data, pos := gsize (s.pos + w) })

def getWords (host e : ByteOrder) (w n : Nat) (s : ZPktBuf) (res : Option (List UInt8)) :
    Except Halt (Bool × Option (List UInt8) × ZPktBuf) :=
  let n := gsize (n * w)
  if available s < n then .ok (false, res, s)
  else do
    let res ←
      match res with
      | none => .ok none
      | some memory => (copyWords host e w n s.data s.pos memory 0).map some
    .ok (true, res, { s with pos := gsize (s.pos + n) })

def putWords (host e : ByteOrder) (w n : Nat) (fresh : Nat → UInt8) (s : ZPktBuf)
    (res : Option (List UInt8)) : Except Halt (Bool × ZPktBuf) := do
  let n := gsize (n * w)
  let (_, s) ← setAvailable fresh s n
  let data ←
    match res with
    | none => .ok s.data
    | some memory => copyWords host e w n memory 0 s.data s.pos
  .ok (true, { s with data := data, pos := gsize (s.pos + n) })

/-- A gboolean that is read from a word in the order of the host. -/
def getFlag (host : ByteOrder) (w : Nat) (s : ZPktBuf) (res : Option Bool) :
    Except Halt (Bool × Option Bool × ZPktBuf) :=
  if available s < w then .ok (false, res, s)
  else do
    let res ←
      match res with
      | none => .ok none
      | some _ => do
          let bytes ← access (read s.data s.pos w)
          .ok (some (decide (decode host bytes ≠ 0)))
    .ok (true, res, { s with pos := gsize (s.pos + w) })

variable (host : ByteOrder)

def getU8 := getWord host host 1

def getU16 (e : ByteOrder) := getWord host e 2

def getU32 (e : ByteOrder) := getWord host e 4

def getU64 (e : ByteOrder) := getWord host e 8

def putU8 := putWord host host 1

def putU16 (e : ByteOrder) := putWord host e 2

def putU32 (e : ByteOrder) := putWord host e 4

def putU64 (e : ByteOrder) := putWord host e 8

def getU8s := getWords host host 1

def getU16s (e : ByteOrder) := getWords host e 2

def getU32s (e : ByteOrder) := getWords host e 4

def getU64s (e : ByteOrder) := getWords host e 8

def putU8s := putWords host host 1

def putU16s (e : ByteOrder) := putWords host e 2

def putU32s (e : ByteOrder) := putWords host e 4

def putU64s (e : ByteOrder) := putWords host e 8

def getBoolean := getFlag host 1

def getBoolean16 := getFlag host 2

def putBoolean (fresh : Nat → UInt8) (s : ZPktBuf) (res : Bool) : Except Halt (Bool × ZPktBuf) := do
  let (enough, s) ← setAvailable fresh s 1
  if enough then
    let data ← access (write s.data s.pos [if res then 1 else 0])
    .ok (true, { s with data := data, pos := gsize (s.pos + 1) })
  else .ok (false, s)

end Words

end Libzorpll.PacketBuf
