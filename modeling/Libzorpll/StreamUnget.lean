import Mathlib.Logic.Function.Basic
import Libzorpll.StreamLine

namespace Libzorpll.StreamUnget

open ChildStream StreamLine

/-- A ZPktBuf. No references are left to a freed one. -/
structure Packet where
  data : List UInt8 := []
  refs : Nat := 0
  deriving DecidableEq

abbrev Heap := Nat → Packet

inductive Abort
  | freed
  | noChild
  | line (e : Region.Abort)
  deriving DecidableEq

/-- The read method of a class: what it reads from its child and what it makes
of the answers. -/
inductive Method (κ : Type)
  | answer (r : ReadResult) (next : κ)
  | readChild (count : Nat) (next : ReadResult → Method κ)

/-- A stream by its class. A ZStreamBuf hands a read on to its child, a
ZStreamLine has its buffer, and the others have a read method of their own. -/
inductive Body (κ : Type)
  | buf
  | line (self : ZStreamLine)
  | own (self : κ)

/-- A stream of a stack; `umbrellaIn` is G_IO_IN in its umbrella flags. -/
structure Layer (κ : Type) where
  umbrellaIn : Bool
  ungotBufs : List Nat := []
  body : Body κ

/-- The streams of a stack from its top, and the packets in memory. -/
abbrev State (κ : Type) := List (Layer κ) × Heap

variable {κ : Type}

def pktbufUnref (p : Nat) (heap : Heap) : Except Abort Heap :=
  match (heap p).refs with
  | 0 => .error .freed
  | 1 => .ok (Function.update heap p {})
  | refs + 2 => .ok (Function.update heap p { heap p with refs := refs + 1 })

/-- The bytes read from an ungot packet, and whether they were the whole of
it. The rest of a packet is seen by all who hold it. -/
def readPacket (count p : Nat) (heap : Heap) : Except Abort (List UInt8 × Bool × Heap) :=
  let pack := heap p
  if pack.refs = 0 then .error .freed
  else if pack.data.length ≤ count then do
    let heap ← pktbufUnref p heap
    return (pack.data, true, heap)
  else
    .ok (pack.data.take count, false,
      Function.update heap p { pack with data := pack.data.drop count })

/-- A read method over a stack below it. -/
def readWith (readChild : Nat → State κ → Except Abort (ReadResult × State κ)) :
    Method κ → State κ → Except Abort (ReadResult × κ × State κ)
  | .answer r next, s => .ok (r, next, s)
  | .readChild count next, s =>
      match readChild count s with
      | .error e => .error e
      | .ok (r, s) => readWith readChild (next r) s

/-- The read method of a stream over the streams below it. -/
def readBody (method : κ → Nat → Method κ)
    (readChild : Nat → State κ → Except Abort (ReadResult × State κ)) (count : Nat) (s : State κ) :
    Body κ → Except Abort (ReadResult × Body κ × State κ)
  | .buf => do
      let (r, s) ← readChild count s
      return (r, .buf, s)
  | .line self =>
      if gsizeSub self.endPos self.pos ≠ 0 then do
        let (r, self, _) ← (readMethod count (self, [])).mapError .line
        return (r, .line self, s)
      else do
        let (r, s) ← readChild count s
        return (r, .line { self with childIn := false, childPri := false }, s)
  | .own self => do
      let (r, self, s) ← readWith readChild (method self count) s
      return (r, .own self, s)

/-- z_stream_read on the top of a stack; the depth bounds the recursion over
the children. -/
def readLayers (method : κ → Nat → Method κ) :
    Nat → Nat → State κ → Except Abort (ReadResult × State κ)
  | 0, _, _ => .error .noChild
  | _ + 1, _, ([], _) => .error .noChild
  | depth + 1, count, (layer :: rest, heap) =>
      match layer.ungotBufs with
      | p :: ps => do
          let (bytes, whole, heap) ← readPacket count p heap
          return (.normal bytes,
            (if whole then { layer with ungotBufs := ps } else layer) :: rest, heap)
      | [] => do
          let (r, body, rest, heap) ←
            readBody method (readLayers method depth) count (rest, heap) layer.body
          return (r, { layer with body := body } :: rest, heap)

def streamRead (method : κ → Nat → Method κ) (count : Nat) (s : State κ) :
    Except Abort (ReadResult × State κ) :=
  readLayers method s.1.length count s

/-- The default unget_packet method. The packet goes to every stream with
G_IO_IN in its umbrella flags, with the one reference that its caller had. -/
def ungetPacketDefault (p : Nat) (layers : List (Layer κ)) : List (Layer κ) :=
  layers.map (fun layer =>
    if layer.umbrellaIn then { layer with ungotBufs := p :: layer.ungotBufs } else layer)

/-- z_stream_unget_packet, by the class of the stream on top. -/
def ungetPacket (p : Nat) (s : State κ) : Except Abort (Bool × State κ) :=
  match s.1 with
  | [] => .error .noChild
  | layer :: rest =>
      match layer.body with
      | .line self => do
          let (res, self) ← (ungetPacketMethod (s.2 p).data self).mapError .line
          if res then
            let heap ← pktbufUnref p s.2
            return (true, { layer with body := .line self } :: rest, heap)
          else return (false, s)
      | _ => .ok (true, ungetPacketDefault p s.1, s.2)

/-- z_stream_unget, where z_pktbuf_new finds room at p. -/
def unget (buf : List UInt8) (p : Nat) (s : State κ) : Except Abort (Bool × State κ) := do
  let (res, s) ← ungetPacket p (s.1, Function.update s.2 p ⟨buf, 1⟩)
  if res then return (true, s)
  else
    let heap ← pktbufUnref p s.2
    return (false, s.1, heap)

end Libzorpll.StreamUnget
