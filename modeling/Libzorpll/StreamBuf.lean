import Mathlib.Data.List.Basic

namespace Libzorpll.StreamBuf

/-- What a z_stream_write of the child answers, with the number of bytes that
a NORMAL one takes and the GError of the others, which may be NULL. -/
inductive WriteAnswer
  | normal (count : Nat)
  | again
  | eof (err : Option String)
  | error (err : Option String)
  deriving DecidableEq

inductive ShutdownMode
  | rd
  | wr
  | rdwr
  deriving DecidableEq

/-- What the child sees of the stream above it, in order. -/
inductive ChildEvent
  | wrote (bytes : List UInt8)
  | nonblock (value : Bool)
  | shutdown (how : ShutdownMode)
  deriving DecidableEq

/-- A child stream, by its answer to each of its writes. -/
structure WriteChild where
  answers : Nat → WriteAnswer
  writes : Nat := 0
  timeout : Int := -2
  events : List ChildEvent := []

/-- A write takes no more than it is offered. -/
def childWrite (bytes : List UInt8) (child : WriteChild) : WriteAnswer × WriteChild :=
  let answer := child.answers child.writes
  let child := { child with writes := child.writes + 1 }
  match answer with
  | .normal count =>
      (.normal (min count bytes.length),
        { child with events := child.events ++ [.wrote (bytes.take count)] })
  | answer => (answer, child)

def setNonblock (value : Bool) (child : WriteChild) : WriteChild :=
  { child with events := child.events ++ [.nonblock value] }

/-- The fields of ZStreamBuf; a packet is its bytes. -/
structure ZStreamBuf where
  immedFlush : Bool
  bufThreshold : Nat
  timeout : Int := -2
  pendingPos : Nat := 0
  flushError : Option String := none
  currentSize : Nat := 0
  buffers : List (List UInt8) := []

def maxBufLen : Nat := 262144

def bufNew (child : WriteChild) (bufThreshold : Nat) (immedFlush : Bool) :
    Option (ZStreamBuf × WriteChild) :=
  if bufThreshold ≤ maxBufLen then
    some ({ immedFlush := immedFlush, bufThreshold := bufThreshold, timeout := child.timeout },
      setNonblock true child)
  else none

/-- z_stream_buf_space_avail_internal -/
def spaceAvail (self : ZStreamBuf) : Bool := decide (self.currentSize < self.bufThreshold)

/-- z_stream_buf_space_avail on the topmost ZStreamBuf of a stack. -/
def bufSpaceAvail (self : ZStreamBuf) : Bool := self.flushError.isSome || spaceAvail self

/-- A round of z_stream_buf_flush_internal, and whether it lets the loop go
on. -/
def flushRound (s : ZStreamBuf × WriteChild) : Bool × ZStreamBuf × WriteChild :=
  let (self, child) := s
  match self.buffers with
  | [] => (false, self, child)
  | packet :: buffers =>
      match childWrite (packet.drop self.pendingPos) child with
      | (.normal writeLen, child) =>
          let pos := self.pendingPos + writeLen
          if packet.length ≤ pos then
            (true, { self with
              currentSize := self.currentSize - packet.length
              pendingPos := 0
              buffers := buffers }, child)
          else (true, { self with pendingPos := pos }, child)
      | (.again, child) => (false, self, child)
      | (.eof err, child) | (.error err, child) => (false, { self with flushError := err }, child)

def flushLoop : Nat → ZStreamBuf × WriteChild → ZStreamBuf × WriteChild
  | 0, s => s
  | i + 1, s =>
      match flushRound s with
      | (true, s) => flushLoop i s
      | (false, s) => s

def flushInternal (s : ZStreamBuf × WriteChild) : ZStreamBuf × WriteChild := flushLoop 10 s

inductive WriteResult
  | normal (count : Nat)
  | error (err : String)
  deriving DecidableEq

/-- z_stream_write_packet_internal. A packet that is too much for the buffer
is only logged. -/
def writePacketInternal (packet : List UInt8) (s : ZStreamBuf × WriteChild) :
    WriteResult × ZStreamBuf × WriteChild :=
  let (self, child) := s
  match self.flushError with
  | some err => (.error err, self, child)
  | none =>
      let self := { self with
        buffers := self.buffers ++ [packet], currentSize := self.currentSize + packet.length }
      (.normal packet.length, if self.immedFlush then flushInternal (self, child) else (self, child))

def writeMethod (buf : List UInt8) (s : ZStreamBuf × WriteChild) :
    WriteResult × ZStreamBuf × WriteChild :=
  let (self, child) := s
  writePacketInternal buf (self, { child with timeout := self.timeout })

def writePacket (packet : List UInt8) (s : ZStreamBuf × WriteChild) :
    WriteResult × ZStreamBuf × WriteChild :=
  writePacketInternal packet s

/-- A packet has the bytes of the buffer, whether they were copied or the
buffer itself was taken. -/
def writeBuf (buf : List UInt8) (_copyBuf : Bool) (s : ZStreamBuf × WriteChild) :
    WriteResult × ZStreamBuf × WriteChild :=
  writePacketInternal buf s

def shutdownMethod (how : ShutdownMode) (s : ZStreamBuf × WriteChild) : ZStreamBuf × WriteChild :=
  let (self, child) := s
  let (self, child) :=
    if how = .wr ∨ how = .rdwr then
      flushInternal (self, setNonblock false { child with timeout := self.timeout })
    else (self, child)
  (self, { child with events := child.events ++ [.shutdown how] })

inductive BufOp
  | write (buf : List UInt8)
  | writePacket (packet : List UInt8)
  | writeBuf (buf : List UInt8) (copyBuf : Bool)
  | flush
  deriving DecidableEq

/-- An operation, with the result of the writing ones. No operation fails to
come back. -/
def bufStep (op : BufOp) (s : ZStreamBuf × WriteChild) :
    Except Empty (Option WriteResult × ZStreamBuf × WriteChild) :=
  match op with
  | .write buf => let (r, s) := writeMethod buf s; .ok (some r, s)
  | .writePacket packet => let (r, s) := writePacket packet s; .ok (some r, s)
  | .writeBuf buf copyBuf => let (r, s) := writeBuf buf copyBuf s; .ok (some r, s)
  | .flush => .ok (none, flushInternal s)

end Libzorpll.StreamBuf
