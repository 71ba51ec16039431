import Mathlib.Data.UInt
import Libzorpll.Region
import Libzorpll.Run
import Libzorpll.ChildStream

namespace Libzorpll.StreamLine

open Region ChildStream

/-- The public ZRL_ flags of a line stream. -/
structure LineFlags where
  eolNl : Bool := false
  eolCrlf : Bool := false
  eolNul : Bool := false
  eolFatal : Bool := false
  nulNonfatal : Bool := false
  truncate : Bool := false
  split : Bool := false
  singleRead : Bool := false
  pollPartial : Bool := false
  returnEol : Bool := false
  deriving DecidableEq

/-- The fields of ZStreamLine and the fields of its ZStream that it reads.
The flags the stream sets itself are separate from those of its user. -/
structure ZStreamLine where
  flags : LineFlags
  ignoreTillEol : Bool := false
  lineAvailSet : Bool := false
  lineAvail : Bool := false
  error : Bool := false
  eof : Bool := false
  buffer : List UInt8
  bufsize : Nat
  pos : Nat := 0
  endPos : Nat := 0
  oldpos : Nat := 0
  childIn : Bool := false
  childPri : Bool := false
  wantRead : Bool := false
  wantPri : Bool := false
  wantWrite : Bool := false

/-- The errors a line fetch reports, with the bytes their messages quote. -/
inductive LineError
  | previouslyStored
  | embeddedNul (buffer : List UInt8)
  | badCrlf (buffer : List UInt8)
  | tooLong (buffer : List UInt8) (maxLineLength : Nat)
  | bufferTooSmall (buffer : List UInt8)
  | child
  deriving DecidableEq

def quoted (bytes : List UInt8) : String :=
  String.ofList ((bytes.takeWhile (· ≠ 0)).map (fun b => Char.ofNat b.toNat))

def LineError.message : LineError → String
  | .previouslyStored => "Previously stored error condition"
  | .embeddedNul buffer =>
      "Invalid line, embedded NUL character found, buffer=[" ++ quoted buffer ++ "]"
  | .badCrlf buffer => "Invalid line, bad CRLF sequence, buffer=[" ++ quoted buffer ++ "]"
  | .tooLong buffer n =>
      "Line too long, buffer=[" ++ quoted buffer ++ "], max_line_length=[" ++ toString n ++ "]"
  | .bufferTooSmall buffer => "Line buffer too small, buffer=[" ++ quoted buffer ++ "]"
  | .child => "unknown"

/-- A GIOStatus with the out parameters that go with it. An AGAIN that comes
with data is the hack of the splitting mode. -/
inductive LineResult (β : Type)
  | normal (line : β)
  | again (line : Option β)
  | eof
  | error (e : LineError)
  deriving DecidableEq

/-- A pointer into the buffer and a length. -/
structure Slice where
  line : Nat
  length : Nat
  deriving DecidableEq

/-- Subtraction and addition of gsize values. -/
def gsizeSub (a b : Nat) : Nat := if b ≤ a then a - b else 2 ^ 64 + a - b

def gsizeAdd (a b : Nat) : Nat := (a + b) % 2 ^ 64

@[simp] theorem gsizeSub_le {a b : Nat} (h : b ≤ a) : gsizeSub a b = a - b := if_pos h

def eolByte (f : LineFlags) : UInt8 := if f.eolNul then 0 else 10

def haveLine (self : ZStreamLine) : Except Abort (Bool × ZStreamLine) :=
  if self.lineAvailSet then .ok (self.lineAvail, self)
  else do
    let eol ← find self.buffer self.pos (gsizeSub self.endPos self.pos) (eolByte self.flags)
    return (eol.isSome, { self with lineAvailSet := true, lineAvail := eol.isSome })

def bufEmpty (self : ZStreamLine) : Bool := self.pos == self.endPos

/-- Whether a line is refused for a NUL in it. -/
def nulRefused (self : ZStreamLine) (line length : Nat) : Except Abort Bool :=
  if self.flags.eolNul then .ok false
  else (find self.buffer line length 0).map (fun nul => nul.isSome && !self.flags.nulNonfatal)

/-- Whether the byte before the end of line is a carriage return; `stop` is
one past the end of line. -/
def precededByCr (self : ZStreamLine) (stop : Nat) : Except Abort Bool :=
  if 2 ≤ stop then (read self.buffer (stop - 2) 1).map (· == [13]) else .ok false

/-- The length a line is delivered with, from its length with the end of
line; none stands for a bad CRLF sequence. -/
def lineLength (f : LineFlags) (cr : Bool) (length : Nat) : Option Nat :=
  if f.eolNl || f.eolNul then
    let length := gsizeSub length 1
    some (if f.returnEol then gsizeAdd length 1 else length)
  else if f.eolCrlf then
    let length := gsizeSub length 1
    if cr then
      let length := gsizeSub length 1
      some (if f.returnEol then gsizeAdd length 2 else length)
    else if f.eolFatal then none
    else some (if f.returnEol then gsizeAdd length 1 else length)
  else some length

/-- The line that ends before `stop`, which is one past the byte the code
keeps in `eol`. -/
def takeLine (self : ZStreamLine) (stop : Nat) :
    Except Abort (LineResult Slice × ZStreamLine) := do
  let length := gsizeSub stop self.pos
  let line := self.pos
  let self := { self with oldpos := self.pos, pos := self.pos + length }
  let nul ← nulRefused self line length
  if nul then
    let bytes ← read self.buffer line length
    return (.error (.embeddedNul bytes), self)
  else if self.eof then
    return (.normal ⟨line, length⟩, self)
  else
    let cr ← precededByCr self stop
    match lineLength self.flags cr length with
    | some length => return (.normal ⟨line, length⟩, self)
    | none =>
        let bytes ← read self.buffer line (length - 1)
        return (.error (.badCrlf bytes), self)

def getFromBuf (self : ZStreamLine) : Except Abort (LineResult Slice × ZStreamLine) := do
  let avail := gsizeSub self.endPos self.pos
  let eol ← find self.buffer self.pos avail (eolByte self.flags)
  -- at end of file all of the buffer is a line
  let stop := if self.eof then some self.endPos else eol.map (· + 1)
  match stop with
  | some stop => takeLine self stop
  | none =>
      if self.pos ≠ 0 then
        let buffer ← move self.buffer 0 self.pos avail
        return (.again none, { self with buffer := buffer, endPos := avail, pos := 0, oldpos := 0 })
      else return (.again none, self)

/-- There is no space left in the buffer, and no end of line in it. -/
def bufferFull (self : ZStreamLine) : Except Abort (Option (LineResult Slice) × ZStreamLine) :=
  let reset := { self with pos := 0, endPos := 0, oldpos := 0 }
  if self.ignoreTillEol then .ok (none, reset)
  else if self.flags.truncate then
    .ok (some (.normal ⟨0, self.bufsize⟩), { reset with ignoreTillEol := true })
  else if self.flags.split then .ok (some (.again (some ⟨0, self.bufsize⟩)), reset)
  else do
    let bytes ← read self.buffer 0 self.bufsize
    return (some (.error (.tooLong bytes self.bufsize)), { self with error := true })

/-- The rest of a line that was cut is dropped, and the next one looked at. -/
def maybeAnotherLine (self : ZStreamLine) : Except Abort (LineResult Slice × ZStreamLine) := do
  let (rc, self) ← getFromBuf self
  match rc with
  | .normal line =>
      if self.ignoreTillEol then getFromBuf { self with ignoreTillEol := false }
      else return (.normal line, self)
  | rc => return (rc, self)

/-- What follows a read that brought data or the end of file. An error of the
line found here is returned without ZRL_ERROR being set. -/
def afterRead (self : ZStreamLine) : Except Abort (Option (LineResult Slice) × ZStreamLine) := do
  let (rc, self) ← maybeAnotherLine self
  match rc with
  | .again _ => return (if self.flags.singleRead then some (.again none) else none, self)
  | rc => return (some rc, self)

/-- A read of the child into the free part of the buffer. -/
def fillBuffer (self : ZStreamLine) (child : Child) :
    Except Abort (Option (LineResult Slice) × ZStreamLine × Child) :=
  let (answer, child) := childRead (gsizeSub self.bufsize self.endPos) child
  match answer with
  | .eof =>
      if self.eof || self.pos == self.endPos then .ok (some .eof, self, child)
      else do
        let (rc, self) ← afterRead { self with eof := true }
        return (rc, self, child)
  | .normal data => do
      let buffer ← write self.buffer self.endPos data
      let (rc, self) ← afterRead { self with buffer := buffer, endPos := self.endPos + data.length }
      return (rc, self, child)
  | .again => .ok (some (.again none), self, child)
  | .error => .ok (some (.error .child), { self with error := true }, child)

/-- One round of the loop of z_stream_line_get_internal. -/
def readRound (s : ZStreamLine × Child) :
    Except Abort (Option (LineResult Slice) × ZStreamLine × Child) :=
  let (self, child) := s
  if gsizeSub self.bufsize self.endPos = 0 then do
    let (rc, self) ← bufferFull self
    match rc with
    | some rc => return (some rc, self, child)
    | none => fillBuffer self child
  else fillBuffer self child

/-- Every round that goes on takes something from the child, so its size
bounds the rounds. -/
def readLoop (self : ZStreamLine) (child : Child) :
    Except Abort (LineResult Slice × ZStreamLine × Child) :=
  Run.loop readRound .diverges (childSize child + 1) (self, child)

def getInternal (self : ZStreamLine) (child : Child) :
    Except Abort (LineResult Slice × ZStreamLine × Child) :=
  if self.error then .ok (.error .previouslyStored, self, child)
  else if self.eof then .ok (.eof, self, child)
  else
    let self := { self with childIn := false, childPri := false, lineAvailSet := false }
    if self.endPos ≠ self.pos then do
      let (rc, self) ← getFromBuf self
      match rc with
      | .normal line => return (.normal line, self, child)
      | .error e => return (.error e, { self with error := true }, child)
      | _ => readLoop self child
    else readLoop { self with pos := 0, endPos := 0, oldpos := 0 } child

/-- The bytes a result points at, as the caller finds them. -/
def LineResult.contents (buffer : List UInt8) :
    LineResult Slice → Except Abort (LineResult (List UInt8))
  | .normal s => (read buffer s.line s.length).map .normal
  | .again (some s) => (read buffer s.line s.length).map (fun bytes => .again (some bytes))
  | .again none => .ok (.again none)
  | .eof => .ok .eof
  | .error e => .ok (.error e)

/-- z_stream_line_get, with the line read through the pointer it returns. -/
def lineGet (s : ZStreamLine × Child) :
    Except Abort (LineResult (List UInt8) × ZStreamLine × Child) := do
  let (rc, self, child) ← getInternal s.1 s.2
  let rc ← rc.contents self.buffer
  return (rc, self, child)

/-- The destination is too small for the line: its start is copied and the
rest stays in the buffer. -/
def rewind (self : ZStreamLine) (s : Slice) (length : Nat) : ZStreamLine :=
  if self.endPos = 0 then { self with pos := length, endPos := s.length }
  else { self with pos := self.oldpos + length }

def lineGetCopy (length : Nat) (s : ZStreamLine × Child) :
    Except Abort (LineResult (List UInt8) × ZStreamLine × Child) :=
  if length = 0 then .ok (.again none, s)
  else do
    let (rc, self, child) ← getInternal s.1 s.2
    let found := match rc with
      | .normal s => some s
      | .again (some s) => if 0 < s.length then some s else none
      | _ => none
    match found with
    | some s =>
        if length < s.length then
          if self.flags.split then
            let bytes ← read self.buffer s.line length
            return (.again (some bytes), rewind self s length, child)
          else
            let bytes ← read self.buffer s.line s.length
            return (.error (.bufferTooSmall bytes), self, child)
        else
          let rc ← rc.contents self.buffer
          return (rc, self, child)
    | none =>
        let rc ← rc.contents self.buffer
        return (rc, self, child)

def readMethod (count : Nat) (s : ZStreamLine × Child) :
    Except Abort (ReadResult × ZStreamLine × Child) :=
  let (self, child) := s
  let avail := gsizeSub self.endPos self.pos
  if avail ≠ 0 then do
    let bytes ← read self.buffer self.pos (min count avail)
    let pos := self.pos + min count avail
    let self := { self with oldpos := self.pos, lineAvailSet := false }
    return (.normal bytes,
      if pos = self.endPos then { self with pos := 0, endPos := 0 } else { self with pos := pos },
      child)
  else
    let (answer, child) := childRead count child
    .ok (answer, { self with childIn := false, childPri := false }, child)

def ungetPacketMethod (packet : List UInt8) (self : ZStreamLine) :
    Except Abort (Bool × ZStreamLine) :=
  let availBefore := self.pos
  let availAfter := gsizeSub self.bufsize self.endPos
  if packet.length < availBefore + availAfter then
    if packet.length < availBefore then do
      let buffer ← write self.buffer (self.pos - packet.length) packet
      return (true, { self with buffer := buffer, pos := self.pos - packet.length })
    else do
      let buffer ← move self.buffer packet.length self.pos (gsizeSub self.endPos self.pos)
      let buffer ← write buffer 0 packet
      return (true, { self with
        buffer := buffer
        endPos := gsizeSub self.endPos self.pos + packet.length
        pos := 0 })
  else .ok (false, self)

def readCallback (self : ZStreamLine) : ZStreamLine := { self with childIn := true }

def priCallback (self : ZStreamLine) : ZStreamLine := { self with childPri := true }

/-- Whether a read would find something, by the poll mode. -/
def readable (self : ZStreamLine) : Except Abort (Bool × ZStreamLine) :=
  if self.flags.pollPartial then .ok (!bufEmpty self || self.childIn, self)
  else do
    let (line, self) ← haveLine self
    return (line || self.childIn, self)

/-- The answer of watch_prepare and the conditions it asks the child for. -/
structure Prepared where
  ready : Bool
  timeout : Int
  childInCond : Bool
  childOutCond : Bool
  deriving DecidableEq

def watchPrepare (self : ZStreamLine) : Except Abort (Prepared × ZStreamLine) := do
  let (ready, self) ← if self.wantRead then readable self else .ok (false, self)
  return (⟨ready || self.wantPri && self.childPri, -1, self.wantRead && !ready, self.wantWrite⟩, self)

def watchCheck (self : ZStreamLine) : Except Abort (Bool × ZStreamLine) := do
  let (ready, self) ← if self.wantRead then readable self else .ok (false, self)
  return (ready || self.wantPri && self.childPri, self)

/-- A line stream over what g_new left in its memory. -/
def lineNew (bufsize : UInt64) (flags : LineFlags) (memory : Nat → UInt8) : ZStreamLine where
  flags := flags
  buffer := (List.range bufsize.toNat).map memory
  bufsize := bufsize.toNat

end Libzorpll.StreamLine
