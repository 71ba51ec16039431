import Libzorpll.Code

namespace Libzorpll.CodeBase64

open Code

structure ZCodeBase64Encode where
  super : ZCode
  phase : Nat := 0
  linepos : Nat := 0
  linelen : Nat

structure ZCodeBase64Decode where
  super : ZCode
  phase : Nat := 0
  errorTolerant : Bool

def encodeXlat : List Char :=
  [ 'A', 'B', 'C', 'D',  'E', 'F', 'G', 'H',  'I', 'J', 'K', 'L',  'M', 'N', 'O', 'P',
    'Q', 'R', 'S', 'T',  'U', 'V', 'W', 'X',  'Y', 'Z', 'a', 'b',  'c', 'd', 'e', 'f',
    'g', 'h', 'i', 'j',  'k', 'l', 'm', 'n',  'o', 'p', 'q', 'r',  's', 't', 'u', 'v',
    'w', 'x', 'y', 'z',  '0', '1', '2', '3',  '4', '5', '6', '7',  '8', '9', '+', '/' ]

def encodeChar (v : UInt8) : UInt8 := ((encodeXlat.getD v.toNat 'A').toNat).toUInt8

/-- -3 is an error, -2 the end of stream, -1 a character to ignore. -/
def decodeXlat : List Int :=
  [ -3, -3, -3, -3,  -3, -3, -3, -3,  -3, -1, -1, -3,  -3, -1, -3, -3,
    -3, -3, -3, -3,  -3, -3, -3, -3,  -3, -3, -3, -3,  -3, -3, -3, -3,
    -1, -3, -3, -3,  -3, -3, -3, -3,  -3, -3, -3, 0x3e,  -3, -3, -3, 0x3f,
    0x34, 0x35, 0x36, 0x37,  0x38, 0x39, 0x3a, 0x3b,  0x3c, 0x3d, -3, -3,  -3, -2, -3, -3,
    -3, 0x00, 0x01, 0x02,  0x03, 0x04, 0x05, 0x06,  0x07, 0x08, 0x09, 0x0a,  0x0b, 0x0c, 0x0d, 0x0e,
    0x0f, 0x10, 0x11, 0x12,  0x13, 0x14, 0x15, 0x16,  0x17, 0x18, 0x19, -3,  -3, -3, -3, -3,
    -3, 0x1a, 0x1b, 0x1c,  0x1d, 0x1e, 0x1f, 0x20,  0x21, 0x22, 0x23, 0x24,  0x25, 0x26, 0x27, 0x28,
    0x29, 0x2a, 0x2b, 0x2c,  0x2d, 0x2e, 0x2f, 0x30,  0x31, 0x32, 0x33, -3,  -3, -3, -3, -3,
    -3, -3, -3, -3,  -3, -3, -3, -3,  -3, -3, -3, -3,  -3, -3, -3, -3,
    -3, -3, -3, -3,  -3, -3, -3, -3,  -3, -3, -3, -3,  -3, -3, -3, -3,
    -3, -3, -3, -3,  -3, -3, -3, -3,  -3, -3, -3, -3,  -3, -3, -3, -3,
    -3, -3, -3, -3,  -3, -3, -3, -3,  -3, -3, -3, -3,  -3, -3, -3, -3,
    -3, -3, -3, -3,  -3, -3, -3, -3,  -3, -3, -3, -3,  -3, -3, -3, -3,
    -3, -3, -3, -3,  -3, -3, -3, -3,  -3, -3, -3, -3,  -3, -3, -3, -3,
    -3, -3, -3, -3,  -3, -3, -3, -3,  -3, -3, -3, -3,  -3, -3, -3, -3,
    -3, -3, -3, -3,  -3, -3, -3, -3,  -3, -3, -3, -3,  -3, -3, -3, -3 ]

def decodeValue (c : UInt8) : Int := decodeXlat.getD c.toNat (-3)

def putCrlf (c : ZCode) : ZCode := ((c.put 13).advance.put 10).advance

def encodeFix (closure : Bool) (self : ZCodeBase64Encode) : ZCodeBase64Encode :=
  let c := if closure then 61 else encodeChar (self.super.partialByte &&& 0x3f)
  let self := { self with super := (self.super.put c).advance }
  if self.linelen ≠ 0 then
    if self.linelen ≤ self.linepos then { self with super := putCrlf self.super, linepos := 0 }
    else { self with linepos := self.linepos + 1 }
  else self

def calculateGrowing (oldSize origSize lineLength : Nat) : Nat :=
  let newSize := oldSize + (origSize * 4 + 2) / 3
  if lineLength ≠ 0 then newSize + 2 * (newSize + lineLength - 1) / lineLength else newSize

def encodePut (b : UInt8) (self : ZCodeBase64Encode) : ZCodeBase64Encode :=
  { self with super := self.super.put b }

def encodeByte (self : ZCodeBase64Encode) (b : UInt8) : ZCodeBase64Encode :=
  let old := self.super.partialByte
  let self := match self.phase with
    | 0 => encodePut ((b &&& 0x03) <<< 4) (encodeFix false (encodePut (b >>> 2) self))
    | 1 => encodePut ((b &&& 0x0f) <<< 2) (encodeFix false (encodePut (old ||| b >>> 4) self))
    | 2 =>
        encodeFix false
          (encodePut (b &&& 0x3f) (encodeFix false (encodePut (old ||| b >>> 6) self)))
    | _ => self
  { self with phase := (self.phase + 1) % 3 }

variable (grow : Nat → Nat → Nat)

def encodeTransform (bytes : List UInt8) (self : ZCodeBase64Encode) : Bool × ZCodeBase64Encode :=
  let reqlen := calculateGrowing self.super.bufUsed bytes.length self.linelen
  let self := { self with super := codeGrow grow reqlen self.super }
  (true, bytes.foldl encodeByte self)

def encodeFinish (self : ZCodeBase64Encode) : Bool × ZCodeBase64Encode :=
  let old := self.super.partialByte
  let self := match self.phase with
    | 1 => encodeFix true (encodeFix true (encodeFix false (encodePut (old &&& 0x30) self)))
    | 2 => encodeFix true (encodeFix false (encodePut (old &&& 0x3c) self))
    | _ => self
  let self := if self.linepos ≠ 0 then { self with super := putCrlf self.super } else self
  (true, { self with linepos := 0, phase := 0 })

def encodeNew (bufsize : Int) (linelen : Nat) : ZCodeBase64Encode :=
  { super := codeInit bufsize, linelen := linelen }

def decodeError (self : ZCodeBase64Decode) : ZCodeBase64Decode :=
  { self with super := { self.super with errorCounter := self.super.errorCounter + 1 } }

def decodePut (b : UInt8) (self : ZCodeBase64Decode) : ZCodeBase64Decode :=
  { self with super := self.super.put b }

/-- The partial byte is completed, and another one begun. -/
def decodeStore (b next : UInt8) (self : ZCodeBase64Decode) : ZCodeBase64Decode :=
  { self with super := ((self.super.put b).advance.put next) }

/-- The second half of the loop of the decoder, for a character with a value. -/
def decodeData (value : UInt8) (self : ZCodeBase64Decode) : ZCodeBase64Decode :=
  let old := self.super.partialByte
  let self := match self.phase with
    | 0 => decodePut (value <<< 2) self
    | 1 => decodeStore (old ||| value >>> 4) (value <<< 4) self
    | 2 => decodeStore (old ||| value >>> 2) (value <<< 6) self
    | 3 => { self with super := (self.super.put (old ||| value)).advance }
    | _ => self
  { self with phase := (self.phase + 1) % 4 }

/-- One round of the loop; the answer is FALSE where the function returns it. -/
def decodeByte (b : UInt8) (self : ZCodeBase64Decode) : Bool × ZCodeBase64Decode :=
  let value := decodeValue b
  if value = -1 then (true, self)
  else if value = -2 then
    match self.phase with
    | 0 | 1 => if self.errorTolerant then (true, self) else (false, decodeError self)
    | 2 => (true, { self with phase := 4 })
    | _ => (true, { self with phase := 0 })
  else if value < 0 ∨ 0x3f < value then
    if self.errorTolerant then (true, self) else (false, decodeError self)
  else if self.phase = 4 then
    if self.errorTolerant then (true, decodeData value.toNat.toUInt8 { self with phase := 0 })
    else (false, decodeError self)
  else (true, decodeData value.toNat.toUInt8 self)

def decodeLoop : List UInt8 → ZCodeBase64Decode → Bool × ZCodeBase64Decode
  | [], self => (true, self)
  | b :: bytes, self =>
      match decodeByte b self with
      | (false, self) => (false, self)
      | (true, self) => decodeLoop bytes self

def decodeTransform (bytes : List UInt8) (self : ZCodeBase64Decode) : Bool × ZCodeBase64Decode :=
  let reqlen := self.super.bufUsed + (bytes.length * 3 + 3) / 4 + 16
  decodeLoop bytes { self with super := codeGrow grow reqlen self.super }

def decodeFinish (self : ZCodeBase64Decode) : Bool × ZCodeBase64Decode :=
  if self.phase ≠ 0 then
    if self.errorTolerant then (true, { self with phase := 0 }) else (false, { self with phase := 0 })
  else (true, self)

def decodeNew (bufsize : Int) (errorTolerant : Bool) : ZCodeBase64Decode :=
  { super := codeInit bufsize, errorTolerant := errorTolerant }

def encoder : Codec ZCodeBase64Encode where
  transform := encodeTransform grow
  finish := encodeFinish
  super := (·.super)
  withSuper := fun c self => { self with super := c }

def decoder : Codec ZCodeBase64Decode where
  transform := decodeTransform grow
  finish := decodeFinish
  super := (·.super)
  withSuper := fun c self => { self with super := c }

end Libzorpll.CodeBase64
