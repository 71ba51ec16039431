import Mathlib.Data.UInt
import Mathlib.Logic.Function.Iterate
import Libzorpll.StreamChunk

namespace Libzorpll.StreamGzip

open ChildStream StreamChunk
open StreamBuf (ShutdownMode)

inductive Flush
  | noFlush
  | syncFlush
  | finish
  deriving DecidableEq

/-- The values that deflate and inflate return. -/
inductive ZRet
  | ok
  | streamEnd
  | bufError
  | error
  deriving DecidableEq

/-- What a call of deflate or inflate does: the input that it uses up, and
the bytes that it puts at next_out. -/
structure ZCall (ζ : Type) where
  ret : ZRet
  consumed : Nat
  output : List UInt8
  state : ζ

/-- The two coders of zlib. A call has the bytes from next_in and the space
at next_out. -/
structure Zlib (ζ χ : Type) where
  deflate : Flush → List UInt8 → Nat → ζ → ZCall ζ
  deflateEnd : ζ → ZRet
  inflate : List UInt8 → Nat → χ → ZCall χ
  inflateEnd : χ → ZRet
  deflate_consumed : ∀ flush input space z, (deflate flush input space z).consumed ≤ input.length
  deflate_output : ∀ flush input space z, (deflate flush input space z).output.length ≤ space
  inflate_consumed : ∀ input space z, (inflate input space z).consumed ≤ input.length
  inflate_output : ∀ input space z, (inflate input space z).output.length ≤ space

/-- The fields of a gzip header; a string is without its NUL. -/
structure GzipHeader where
  timestamp : Int := 0
  extraLen : Nat := 0
  extra : Option (List UInt8) := none
  origname : Option (List UInt8) := none
  comment : Option (List UInt8) := none
  deriving DecidableEq

/-- encodeOut are the bytes from buffer_encode_out to next_out, encodeOutP
the place of buffer_encode_out_p in them, and decodeIn the avail_in bytes at
next_in. -/
structure ZStreamGzip (ζ χ : Type) where
  syncFlush : Bool
  gzipHeader : Bool
  writeEmptyHeader : Bool
  bufferLength : Nat
  encode : ζ
  encodeOut : List UInt8 := []
  encodeOutP : Nat := 0
  decode : χ
  decodeIn : List UInt8 := []
  eofReceived : Bool := false
  compressFinished : Bool := false
  headerRead : Bool := false
  headerWritten : Bool := false
  readError : Bool := false
  writeError : Bool := false
  shutdownIn : Bool := false
  shutdownOut : Bool := false
  childCondIn : Bool := false
  childCondOut : Bool := false
  encodeCrc : UInt32 := 0
  encodeIn : UInt32 := 0
  header : GzipHeader := {}

inductive GIOStatus
  | error
  | normal
  | eof
  | again
  deriving DecidableEq

def zGzOsCode : UInt8 := 3

def maxGzipHeaderString : Nat := 4096

/-! The header -/

/-- Memory into which bytes are stored. -/
def store (off : Nat) (bytes : List UInt8) (buf : Nat → UInt8) : Nat → UInt8 :=
  fun i => if off ≤ i ∧ i < off + bytes.length then bytes.getD (i - off) 0 else buf i

/-- The loop of z_stream_gzip_read_gzip_string: whether the last read was
NORMAL, rdlen and buf. -/
def readStringLoop : Nat → Nat → (Nat → UInt8) → Child → Bool × Nat × (Nat → UInt8) × Child
  | 0, rdlen, buf, child => (false, rdlen, buf, child)
  | rounds + 1, rdlen, buf, child =>
      if rdlen < maxGzipHeaderString - 1 then
        match childRead 1 child with
        | (.normal data, child) =>
            let buf := store rdlen data buf
            if buf rdlen ≠ 0 then readStringLoop rounds (rdlen + data.length) buf child
            else (true, rdlen, buf, child)
        | (_, child) => (false, rdlen, buf, child)
      else (true, rdlen, buf, child)

/-- The loop that skips the rest of a string that is too long. -/
def skipStringLoop : Nat → UInt8 → Child → Bool × Child
  | 0, _, child => (false, child)
  | rounds + 1, ch, child =>
      match childRead 1 child with
      | (.normal data, child) =>
          let ch := data.headD ch
          if ch ≠ 0 then skipStringLoop rounds ch child else (true, child)
      | (_, child) => (false, child)

/-- `stack` is what the memory of buf, and behind it that of ch, held before. -/
def readGzipString (stack : Nat → UInt8) (child : Child) : Option (List UInt8) × Child :=
  let (ok, rdlen, buf, child) := readStringLoop (childSize child + 1) 0 stack child
  let (ok, child) :=
    if buf rdlen ≠ 0 then
      skipStringLoop (childSize child + 1) (stack maxGzipHeaderString) child
    else (ok, child)
  if ok then (some (((List.range rdlen).map buf).takeWhile (· ≠ 0)), child) else (none, child)

def resetGzipHeader (header : GzipHeader) : GzipHeader := { timestamp := header.timestamp }

/-- Where z_stream_gzip_read_gzip_header is. -/
structure HeaderRead where
  buf : Nat → UInt8
  header : GzipHeader
  child : Child

/-- A part of it, which answers FALSE where it goes to its error label. -/
abbrev HeaderStep := HeaderRead → Except Halt (Bool × HeaderRead)

def andThen (first next : HeaderStep) : HeaderStep := fun s =>
  match first s with
  | .ok (true, s) => next s
  | answer => answer

/-- A z_stream_read_chunk of `len` bytes that must come whole. -/
def readExact (off len : Nat) : HeaderStep := fun s =>
  (readChunk len s.child).map fun (status, got, child) =>
    (decide (status = .normal ∧ got.length = len),
      { s with buf := store off got s.buf, child := child })

def gzipIsGzipMagic (buf : Nat → UInt8) : Bool :=
  buf 0 == 0x1f && buf 1 == 0x8b && buf 2 == 8 && buf 3 &&& 0xe0 == 0

def readMagic : HeaderStep := fun s => .ok (gzipIsGzipMagic s.buf, s)

def readTimestamp : HeaderStep := fun s =>
  .ok (true, { s with header := { s.header with
    timestamp := (s.buf 4).toNat + 2 ^ 8 * (s.buf 5).toNat + 2 ^ 16 * (s.buf 6).toNat +
      2 ^ 24 * (s.buf 7).toNat } })

/-- The memory of the extra field is cleared when it is made, and there is
none for a length of 0. -/
def readExtraBytes : HeaderStep := fun s =>
  let len := (s.buf 0).toNat + 2 ^ 8 * (s.buf 1).toNat
  (readChunk len s.child).map fun (status, got, child) =>
    (decide (status = .normal ∧ got.length = len),
      { s with
        header := { s.header with
          extraLen := len
          extra := if len = 0 then none else some (got ++ List.replicate (len - got.length) 0) }
        child := child })

def readExtra : HeaderStep := fun s =>
  if s.buf 3 &&& 0x04 = 0 then .ok (true, s) else andThen (readExact 0 2) readExtraBytes s

def readString (flag : UInt8) (set : List UInt8 → GzipHeader → GzipHeader) (stack : Nat → UInt8) :
    HeaderStep := fun s =>
  if s.buf 3 &&& flag = 0 then .ok (true, s)
  else
    match readGzipString stack s.child with
    | (some dest, child) => .ok (true, { s with header := set dest s.header, child := child })
    | (none, child) => .ok (false, { s with child := child })

def readOrigname (stack : Nat → UInt8) : HeaderStep :=
  readString 0x08 (fun dest header => { header with origname := some dest }) stack

def readComment (stack : Nat → UInt8) : HeaderStep :=
  readString 0x10 (fun dest header => { header with comment := some dest }) stack

def readHeadCrc : HeaderStep := fun s =>
  if s.buf 3 &&& 0x02 = 0 then .ok (true, s) else readExact 0 2 s

/-- `stack` is what the memory of its three buffers held before. -/
def readHeaderSteps (stack : Nat → Nat → UInt8) : HeaderStep :=
  andThen (readExact 0 4) (andThen readMagic (andThen (readExact 4 6) (andThen readTimestamp
    (andThen readExtra (andThen (readOrigname (stack 1)) (andThen (readComment (stack 2))
      readHeadCrc))))))

variable {ζ χ : Type}

def readGzipHeader (stack : Nat → Nat → UInt8) (self : ZStreamGzip ζ χ) (child : Child) :
    Except Halt (Bool × ZStreamGzip ζ χ × Child) :=
  if self.gzipHeader ∧ ¬self.headerRead then
    (readHeaderSteps stack ⟨stack 0, resetGzipHeader self.header, child⟩).map fun (ok, s) =>
      (ok, { self with headerRead := true, header := s.header }, s.child)
  else .ok (true, self, child)

def timestampByte (timestamp : Int) (i : Nat) : UInt8 :=
  UInt8.ofNat (timestamp / 2 ^ (8 * i) % 256).toNat

def headerFlags (header : GzipHeader) : UInt8 :=
  (if header.origname.isSome then 0x08 else 0) ||| (if header.comment.isSome then 0x10 else 0) |||
    (if header.extra.isSome then 0x04 else 0)

def headerFixed (header : GzipHeader) : List UInt8 :=
  [0x1f, 0x8b, 8, headerFlags header, timestampByte header.timestamp 0,
    timestampByte header.timestamp 1, timestampByte header.timestamp 2,
    timestampByte header.timestamp 3, 0, zGzOsCode]

def extraChunks (header : GzipHeader) : List (List UInt8) :=
  match header.extra with
  | some extra =>
      [[UInt8.ofNat header.extraLen, UInt8.ofNat (header.extraLen / 2 ^ 8)],
        extra.take header.extraLen]
  | none => []

def stringChunks : Option (List UInt8) → List (List UInt8)
  | some string => [string ++ [0]]
  | none => []

/-- What z_stream_gzip_write_gzip_header writes, chunk by chunk. -/
def headerChunks (header : GzipHeader) : List (List UInt8) :=
  [headerFixed header] ++ extraChunks header ++ stringChunks header.origname ++
    stringChunks header.comment

def writeChunks : List (List UInt8) → Sink → Except Halt (Bool × Sink)
  | [], sink => .ok (true, sink)
  | chunk :: chunks, sink =>
      match writeChunk chunk sink with
      | .ok (.normal, sink) => writeChunks chunks sink
      | .ok (_, sink) => .ok (false, sink)
      | .error halt => .error halt

def writeGzipHeader (self : ZStreamGzip ζ χ) (sink : Sink) :
    Except Halt (Bool × ZStreamGzip ζ χ × Sink) :=
  if self.gzipHeader ∧ ¬self.headerWritten then
    (writeChunks (headerChunks self.header) sink).map fun (ok, sink) =>
      (ok, { self with headerWritten := true }, sink)
  else .ok (true, self, sink)

def littleEndian (x : UInt32) : List UInt8 :=
  [x.toUInt8, (x >>> 8).toUInt8, (x >>> 16).toUInt8, (x >>> 24).toUInt8]

def writeGzipTrailer (self : ZStreamGzip ζ χ) (sink : Sink) : Except Halt (Bool × Sink) :=
  if self.gzipHeader ∧ self.headerWritten then
    (writeChunk (littleEndian self.encodeCrc ++ littleEndian self.encodeIn) sink).map
      fun (status, sink) => (decide (status = .normal), sink)
  else .ok (true, sink)

def strdup (string : Option (List UInt8)) : Option (List UInt8) :=
  string.map (List.takeWhile (· ≠ 0))

/-- A memcpy to the memory of a pointer, which may be NULL. -/
def memcpy (dest : Option (List UInt8)) (bytes : List UInt8) : Except Halt (List UInt8) :=
  match dest with
  | some memory =>
      if bytes.length ≤ memory.length then .ok (bytes ++ memory.drop bytes.length)
      else .error .memory
  | none => .error .memory

/-- `now` is the answer of time. -/
def setHeaderFields (now timestamp : Int) (origname comment : Option (List UInt8)) (extraLen : Int)
    (extra : List UInt8) (self : ZStreamGzip ζ χ) : Except Halt (ZStreamGzip ζ χ) :=
  let header := { resetGzipHeader self.header with
    timestamp := if timestamp ≠ 0 then timestamp else now
    origname := strdup origname
    comment := strdup comment }
  if 0 < extraLen then
    (memcpy header.extra (extra.take extraLen.toNat)).map fun dest =>
      { self with header := { header with extraLen := extraLen.toNat, extra := some dest } }
  else .ok { self with header := header }

def getHeaderFields (self : ZStreamGzip ζ χ) : GzipHeader := self.header

/-! Writing -/

def crcBit (crc : UInt32) : UInt32 :=
  if crc &&& 1 = 1 then (0xedb88320 : UInt32) ^^^ (crc >>> 1) else crc >>> 1

def crcByte (crc : UInt32) (b : UInt8) : UInt32 := Nat.iterate crcBit 8 (crc ^^^ b.toUInt32)

def crc32 (crc : UInt32) (bytes : List UInt8) : UInt32 := ~~~(bytes.foldl crcByte (~~~crc))

def availOut (self : ZStreamGzip ζ χ) : Nat := self.bufferLength - self.encodeOut.length

/-- The bytes from buffer_encode_out_p to next_out. -/
def pendingOut (self : ZStreamGzip ζ χ) : List UInt8 := self.encodeOut.drop self.encodeOutP

def writeFlush (self : ZStreamGzip ζ χ) : Flush := if self.syncFlush then .syncFlush else .noFlush

inductive WriteResult
  | normal (count : Nat)
  | again
  | error
  deriving DecidableEq

/-- The length is a gint, and a negative one reaches out of the buffer, as it
does when buffer_encode_out_p is behind next_out. -/
def writeCallback (self : ZStreamGzip ζ χ) (sink : Sink) : Except Halt (ZStreamGzip ζ χ × Sink) :=
  if availOut self < self.bufferLength then
    if self.encodeOut.length < self.encodeOutP ∨ 2 ^ 31 ≤ (pendingOut self).length then
      .error .memory
    else
      match sinkWrite (pendingOut self) sink with
      | (.again, sink) => .ok (self, sink)
      | (.normal count, sink) =>
          let self := { self with encodeOutP := self.encodeOutP + count }
          if self.encodeOutP ≠ self.encodeOut.length then .ok (self, sink)
          else .ok ({ self with childCondOut := true }, sink)
      | (_, sink) => .ok ({ self with writeError := true }, sink)
  else .ok ({ self with childCondOut := true }, sink)

def readCallback (self : ZStreamGzip ζ χ) : ZStreamGzip ζ χ := { self with childCondIn := true }

/-- What is left from the last call is written, and the call goes on when all
of it is taken. -/
def writeRest (self : ZStreamGzip ζ χ) (sink : Sink) :
    Except Halt (Option WriteResult × ZStreamGzip ζ χ × Sink) :=
  if availOut self < self.bufferLength then
    if self.encodeOut.length < self.encodeOutP then .error .memory
    else
      match sinkWrite (pendingOut self) sink with
      | (.again, sink) => .ok (some .again, self, sink)
      | (.normal count, sink) =>
          let self := { self with encodeOutP := self.encodeOutP + count }
          if self.encodeOutP ≠ self.encodeOut.length then .ok (some .again, self, sink)
          else .ok (none, self, sink)
      | (_, sink) => .ok (some .error, { self with writeError := true }, sink)
  else .ok (none, self, sink)

inductive Round
  | goes
  | stops
  | fails
  deriving DecidableEq

def deflateRound (zlib : Zlib ζ χ) (input : List UInt8) (self : ZStreamGzip ζ χ) :
    Bool × List UInt8 × ZStreamGzip ζ χ :=
  if 0 < availOut self then
    let call := zlib.deflate (writeFlush self) input (availOut self) self.encode
    (decide (call.ret = .ok), input.drop call.consumed,
      { self with encode := call.state, encodeOut := self.encodeOut ++ call.output })
  else (true, input, self)

/-- The whole buffer is offered, from buffer_encode_out on. -/
def offerRound (self : ZStreamGzip ζ χ) (sink : Sink) : Round × ZStreamGzip ζ χ × Sink :=
  match sinkWrite self.encodeOut sink with
  | (.normal count, sink) =>
      let p := self.encodeOutP + count
      if p = self.encodeOut.length then (.goes, { self with encodeOut := [], encodeOutP := 0 }, sink)
      else (.goes, { self with encodeOutP := p }, sink)
  | (.again, sink) => (.stops, self, sink)
  | (_, sink) => (.fails, { self with writeError := true }, sink)

def writeRound (zlib : Zlib ζ χ) (input : List UInt8) (self : ZStreamGzip ζ χ) (sink : Sink) :
    Round × List UInt8 × ZStreamGzip ζ χ × Sink :=
  match deflateRound zlib input self with
  | (false, input, self) => (.fails, input, { self with readError := true }, sink)
  | (true, input, self) =>
      let (round, self, sink) := offerRound self sink
      (round, input, self, sink)

/-- The loop of z_stream_gzip_write_method, with the input it leaves. -/
def writeLoop (zlib : Zlib ζ χ) :
    Nat → List UInt8 → ZStreamGzip ζ χ → Sink →
      Except Halt (Bool × List UInt8 × ZStreamGzip ζ χ × Sink)
  | 0, _, _, _ => .error .endless
  | rounds + 1, input, self, sink =>
      if input = [] then .ok (true, [], self, sink)
      else
        match writeRound zlib input self sink with
        | (.goes, input, self, sink) => writeLoop zlib rounds input self sink
        | (.stops, input, self, sink) => .ok (true, input, self, sink)
        | (.fails, input, self, sink) => .ok (false, input, self, sink)

/-- The last part of the method; `left` are the bytes not used up. -/
def writeDone (buf left : List UInt8) (self : ZStreamGzip ζ χ) : WriteResult × ZStreamGzip ζ χ :=
  let written := buf.length - left.length
  if written = 0 then (.again, self)
  else if self.gzipHeader then
    (.normal written, { self with
      -- the length of crc32 is an uInt
      encodeCrc := crc32 self.encodeCrc (buf.take (written % 2 ^ 32))
      encodeIn := self.encodeIn + UInt32.ofNat written })
  else (.normal written, self)

def writeMethod (zlib : Zlib ζ χ) (rounds : Nat) (buf : List UInt8) (self : ZStreamGzip ζ χ)
    (sink : Sink) : Except Halt (WriteResult × ZStreamGzip ζ χ × Sink) :=
  let self := { self with childCondOut := false }
  if self.shutdownOut ∨ self.writeError then .ok (.error, self, sink)
  else
    match writeGzipHeader self sink with
    | .error halt => .error halt
    | .ok (false, self, sink) => .ok (.error, self, sink)
    | .ok (true, self, sink) =>
        match writeRest self sink with
        | .error halt => .error halt
        | .ok (some result, self, sink) => .ok (result, self, sink)
        | .ok (none, self, sink) =>
            -- avail_in is an uInt
            match writeLoop zlib rounds (buf.take (buf.length % 2 ^ 32))
              { self with encodeOut := [], encodeOutP := 0 } sink with
            | .error halt => .error halt
            | .ok (false, _, self, sink) => .ok (.error, self, sink)
            | .ok (true, left, self, sink) =>
                let (result, self) := writeDone buf left self
                .ok (result, self, sink)

/-! Shutting down -/

/-- The loops of z_stream_gzip_shutdown_method. -/
def flushLoop : Nat → ZStreamGzip ζ χ → Sink → Except Halt (GIOStatus × ZStreamGzip ζ χ × Sink)
  | 0, _, _ => .error .endless
  | rounds + 1, self, sink =>
      if self.encodeOutP = self.encodeOut.length then .ok (.normal, self, sink)
      else if self.encodeOut.length < self.encodeOutP then .error .memory
      else
        match sinkWrite (pendingOut self) sink with
        | (.normal count, sink) =>
            flushLoop rounds { self with encodeOutP := self.encodeOutP + count } sink
        | (.again, sink) => .ok (.again, self, sink)
        | (.eof _, sink) => .ok (.eof, self, sink)
        | (.error _, sink) => .ok (.error, self, sink)

def flushOut (self : ZStreamGzip ζ χ) (sink : Sink) : Except Halt (GIOStatus × ZStreamGzip ζ χ × Sink) :=
  flushLoop (sink.answers.length + 2) self sink

/-- What is done when deflate has finished: the last data, a late header and
the trailer, with `res` and `ret`. -/
def finishOut (res : GIOStatus) (self : ZStreamGzip ζ χ) (sink : Sink) :
    Except Halt (GIOStatus × GIOStatus × ZStreamGzip ζ χ × Sink) :=
  match if availOut self < self.bufferLength then flushOut self sink else .ok (.normal, self, sink) with
  | .error halt => .error halt
  | .ok (ret, self, sink) =>
      match if self.writeEmptyHeader then writeGzipHeader self sink else .ok (true, self, sink) with
      | .error halt => .error halt
      | .ok (ok, self, sink) =>
          let res := if ok then res else .error
          if res = .normal then
            (writeGzipTrailer self sink).map fun (ok, sink) =>
              (if ok then res else .error, ret, self, sink)
          else .ok (res, ret, self, sink)

def deflateFinish (zlib : Zlib ζ χ) (res : GIOStatus) (self : ZStreamGzip ζ χ) (sink : Sink) :
    Except Halt (GIOStatus × GIOStatus × ZStreamGzip ζ χ × Sink) :=
  let call := zlib.deflate .finish [] self.bufferLength self.encode
  let self := { self with encode := call.state, encodeOut := call.output, encodeOutP := 0 }
  if call.ret = .streamEnd then finishOut res self sink else .ok (res, .normal, self, sink)

/-- The write direction; `nonblock` is the mode the child had before. -/
def shutdownOut (zlib : Zlib ζ χ) (nonblock : Bool) (res : GIOStatus) (self : ZStreamGzip ζ χ)
    (sink : Sink) : Except Halt (GIOStatus × ZStreamGzip ζ χ × Sink) :=
  match flushOut self (sinkEvent (.nonblock false) sink) with
  | .error halt => .error halt
  | .ok (ret, self, sink) =>
      match if ret = .normal then deflateFinish zlib res self sink else .ok (res, ret, self, sink) with
      | .error halt => .error halt
      | .ok (res, ret, self, sink) =>
          let res := if ret = .normal ∧ zlib.deflateEnd self.encode = .ok then .normal else res
          .ok (res, { self with shutdownOut := true }, sinkEvent (.nonblock nonblock) sink)

def shutdownIn (zlib : Zlib ζ χ) (self : ZStreamGzip ζ χ) : GIOStatus × ZStreamGzip ζ χ :=
  (if zlib.inflateEnd self.decode = .ok then .normal else .error, { self with shutdownIn := true })

/-- `childStatus` is the answer of the child's own shutdown. -/
def shutdownMethod (zlib : Zlib ζ χ) (how : ShutdownMode) (nonblock : Bool) (childStatus : GIOStatus)
    (self : ZStreamGzip ζ χ) (sink : Sink) : Except Halt (GIOStatus × ZStreamGzip ζ χ × Sink) :=
  let (res, self) :=
    if (how = .rd ∨ how = .rdwr) ∧ ¬self.shutdownIn then shutdownIn zlib self else (.error, self)
  match
    if (how = .wr ∨ how = .rdwr) ∧ ¬self.shutdownOut then shutdownOut zlib nonblock res self sink
    else .ok (res, self, sink) with
  | .error halt => .error halt
  | .ok (res, self, sink) =>
      .ok (if childStatus ≠ .normal then childStatus else res, self, sinkEvent (.shutdown how) sink)

/-! Reading -/

/-- The bytes for inflate, or the answer that the call gives at once. A read
that is not NORMAL may leave the length as it was, and `unset` are the bytes
that avail_in then stands for. -/
def readFill (unset : List UInt8) (self : ZStreamGzip ζ χ) (child : Child) :
    Option ReadResult × ZStreamGzip ζ χ × Child :=
  if self.decodeIn = [] ∧ ¬self.eofReceived then
    match childRead self.bufferLength child with
    | (.normal data, child) => (none, { self with decodeIn := data }, child)
    | (.again, child) => (some .again, { self with decodeIn := unset }, child)
    | (.eof, child) => (none, { self with decodeIn := unset, eofReceived := true }, child)
    | (.error, child) => (some .error, { self with decodeIn := unset, readError := true }, child)
  else (none, self, child)

/-- A NORMAL result has the bytes that inflate wrote; a count beyond an uInt
is reported with memory that it did not write. -/
def readInflate (zlib : Zlib ζ χ) (count : Nat) (self : ZStreamGzip ζ χ) :
    ReadResult × ZStreamGzip ζ χ :=
  let availOut := count % 2 ^ 32
  let call := zlib.inflate self.decodeIn availOut self.decode
  let self := { self with decode := call.state, decodeIn := self.decodeIn.drop call.consumed }
  if call.ret ≠ .ok ∧ call.ret ≠ .streamEnd then (.error, { self with readError := true })
  else
    (.normal (call.output ++ List.replicate (count - availOut) 0),
      if call.ret = .streamEnd then { self with compressFinished := true } else self)

def readMethod (zlib : Zlib ζ χ) (stack : Nat → Nat → UInt8) (unset : List UInt8) (count : Nat)
    (self : ZStreamGzip ζ χ) (child : Child) : Except Halt (ReadResult × ZStreamGzip ζ χ × Child) :=
  let self := { self with childCondIn := false }
  if self.shutdownIn then .ok (.error, self, child)
  else if self.compressFinished then .ok (.eof, self, child)
  else if self.readError then .ok (.error, self, child)
  else
    match readGzipHeader stack self child with
    | .error halt => .error halt
    | .ok (false, self, child) => .ok (.error, self, child)
    | .ok (true, self, child) =>
        match readFill unset self child with
        | (some result, self, child) => .ok (result, self, child)
        | (none, self, child) =>
            let (result, self) := readInflate zlib count self
            .ok (result, self, child)

def fetchHeader (stack : Nat → Nat → UInt8) (self : ZStreamGzip ζ χ) (child : Child) :
    Except Halt (Bool × ZStreamGzip ζ χ × Child) :=
  readGzipHeader stack self child

/-- The parameter of deflateInit and inflateInit is in the states `encode`
and `decode`. A gzip header is only written to a blocking child. -/
def gzipNew (encode : ζ) (decode : χ) (syncFlush gzipHeader writeEmptyHeader nonblock : Bool)
    (bufferLength : Nat) : Except Halt (ZStreamGzip ζ χ) :=
  if gzipHeader ∧ nonblock then .error .assertion
  else
    .ok {
      syncFlush := syncFlush
      gzipHeader := gzipHeader
      writeEmptyHeader := writeEmptyHeader
      bufferLength := bufferLength
      encode := encode
      decode := decode }

end Libzorpll.StreamGzip
