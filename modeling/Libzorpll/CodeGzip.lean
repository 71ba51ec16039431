import Libzorpll.CodeGrow
import Libzorpll.ZlibContract

namespace Libzorpll.CodeGzip

open Code CodeGrow StreamGzip ZlibContract

/-- gzip is what zlib keeps in the z_stream, for deflate and for inflate; one
of them is used. nextIn are the avail_in bytes at next_in. -/
structure ZCodeGzip (ζ χ : Type) where
  super : ZCode
  encode : Bool
  gzip : ζ × χ
  nextIn : List UInt8 := []
  availOut : Nat := 0
  endOfStream : Bool := false

variable {ζ χ : Type}

/-- A guint. -/
def needed (self : ZCodeGzip ζ χ) : Nat :=
  if self.encode then self.nextIn.length else self.nextIn.length * 2 % 2 ^ 32

/-- None where the doubling of the length leaves gint. -/
def gzipRoom (self : ZCodeGzip ζ χ) : Option ZCode :=
  let reqlen := self.super.bufLen + needed self
  if self.super.bufLen - self.super.bufUsed < needed self then
    (growLength self.super.bufLen reqlen).map (fun len => codeGrow (fun _ _ => len) reqlen self.super)
  else some self.super

def gzipCall (zlib : Zlib ζ χ) (space : Nat) (self : ZCodeGzip ζ χ) : ZCall (ζ × χ) :=
  if self.encode then
    let c := zlib.deflate .syncFlush self.nextIn space self.gzip.1
    { ret := c.ret, consumed := c.consumed, output := c.output, state := (c.state, self.gzip.2) }
  else
    let c := zlib.inflate self.nextIn space self.gzip.2
    { ret := c.ret, consumed := c.consumed, output := c.output, state := (self.gzip.1, c.state) }

def storeBytes (bytes : List UInt8) (c : ZCode) : ZCode := bytes.foldl (fun c b => (c.put b).advance) c

/-- buf_used is left where it is after an error. -/
def gzipAfter (super : ZCode) (c : ZCall (ζ × χ)) (self : ZCodeGzip ζ χ) : ZCodeGzip ζ χ :=
  { self with
    super := if negative c.ret then { storeBytes c.output super with bufUsed := super.bufUsed }
      else storeBytes c.output super
    gzip := c.state
    nextIn := self.nextIn.drop c.consumed
    availOut := super.bufLen - super.bufUsed - c.output.length
    endOfStream := self.endOfStream || c.ret == .streamEnd }

def gzipRound (zlib : Zlib ζ χ) (self : ZCodeGzip ζ χ) : Option (ZRet × ZCodeGzip ζ χ) :=
  (gzipRoom self).map (fun super =>
    let c := gzipCall zlib (super.bufLen - super.bufUsed) self
    (c.ret, gzipAfter super c self))

/-- None where the loop does not end in so many rounds. -/
def gzipLoop (zlib : Zlib ζ χ) : Nat → ZCodeGzip ζ χ → Option (Bool × ZCodeGzip ζ χ)
  | 0, _ => none
  | fuel + 1, self =>
      match gzipRound zlib self with
      | none => none
      | some (ret, self) =>
          if negative ret then some (false, self)
          else if self.nextIn = [] then some (true, self)
          else gzipLoop zlib fuel self

/-- avail_in is an uInt. -/
def gzipStart (buf : List UInt8) (self : ZCodeGzip ζ χ) : ZCodeGzip ζ χ :=
  { self with nextIn := buf.take (buf.length % 2 ^ 32) }

def gzipTransform (zlib : Zlib ζ χ) (fuel : Nat) (buf : List UInt8) (self : ZCodeGzip ζ χ) :
    Option (Bool × ZCodeGzip ζ χ) :=
  if buf = [] then some (true, self)
  else if self.endOfStream then some (false, self)
  else gzipLoop zlib fuel (gzipStart buf self)

def gzipFinish (self : ZCodeGzip ζ χ) : Bool := self.nextIn = []

/-- `gzip` is what deflateInit and inflateInit leave. -/
def gzipInit (bufsize : Int) (encode : Bool) (gzip : ζ × χ) : ZCodeGzip ζ χ :=
  { super := codeInit bufsize, encode := encode, gzip := gzip }

@[simp] theorem storeBytes_contents (bytes : List UInt8) (c : ZCode) :
    (storeBytes bytes c).contents = c.contents ++ bytes := by
  induction bytes generalizing c with
  | nil => simp [storeBytes]
  | cons b bytes ih =>
      have hstore : storeBytes (b :: bytes) c = storeBytes bytes (c.put b).advance := rfl
      rw [hstore, ih]
      simp

theorem gzipRound_some {zlib : Zlib ζ χ} {s t : ZCodeGzip ζ χ} {ret : ZRet}
    (h : gzipRound zlib s = some (ret, t)) :
    ∃ super, gzipRoom s = some super ∧
      ret = (gzipCall zlib (super.bufLen - super.bufUsed) s).ret ∧
      t = gzipAfter super (gzipCall zlib (super.bufLen - super.bufUsed) s) s := by
  obtain ⟨super, hsuper, heq⟩ := Option.map_eq_some_iff.mp h
  cases heq
  exact ⟨super, hsuper, rfl, rfl⟩

theorem gzipRound_of_room {zlib : Zlib ζ χ} {s : ZCodeGzip ζ χ} {super : ZCode}
    (h : gzipRoom s = some super) :
    gzipRound zlib s = some ((gzipCall zlib (super.bufLen - super.bufUsed) s).ret,
      gzipAfter super (gzipCall zlib (super.bufLen - super.bufUsed) s) s) := by
  rw [gzipRound, h, Option.map_some]

theorem gzipLoop_failed {zlib : Zlib ζ χ} {s t : ZCodeGzip ζ χ} {ret : ZRet}
    (h : gzipRound zlib s = some (ret, t)) (hret : negative ret = true) (fuel : Nat) :
    gzipLoop zlib (fuel + 1) s = some (false, t) := by
  simp only [gzipLoop, h, hret, ↓reduceIte]

theorem gzipLoop_last {zlib : Zlib ζ χ} {s t : ZCodeGzip ζ χ} {ret : ZRet}
    (h : gzipRound zlib s = some (ret, t)) (hret : negative ret = false) (hdone : t.nextIn = []) (fuel : Nat) :
    gzipLoop zlib (fuel + 1) s = some (true, t) := by
  simp only [gzipLoop, h, hret, Bool.false_eq_true, ↓reduceIte, hdone]

theorem gzipLoop_next {zlib : Zlib ζ χ} {s t : ZCodeGzip ζ χ} {ret : ZRet}
    (h : gzipRound zlib s = some (ret, t)) (hret : negative ret = false) (hleft : t.nextIn ≠ []) (fuel : Nat) :
    gzipLoop zlib (fuel + 1) s = gzipLoop zlib fuel t := by
  simp only [gzipLoop, h, hret, Bool.false_eq_true, ↓reduceIte, hleft]

theorem gzipLoop_undefined {zlib : Zlib ζ χ} {s : ZCodeGzip ζ χ} (h : gzipRoom s = none) (fuel : Nat) :
    gzipLoop zlib fuel s = none := by
  cases fuel with
  | zero => rfl
  | succ fuel =>
      have hround : gzipRound zlib s = none := by rw [gzipRound, h, Option.map_none]
      simp only [gzipLoop, hround]

end Libzorpll.CodeGzip
