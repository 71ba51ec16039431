import Libzorpll.StreamGzip

/-! What is relied on of zlib. -/

namespace Libzorpll.ZlibContract

open StreamGzip

variable {ζ χ : Type}

/-- Whether a value that zlib returns is less than zero. -/
def negative : ZRet → Bool
  | .ok | .streamEnd => false
  | .bufError | .error => true

/-- What zlib does in a call: it goes on or returns Z_BUF_ERROR, the output of
a call that takes nothing was held back before, and after the end of the stream
inflate takes nothing. `held` and `owed` are the lengths of what is held back. -/
structure Progresses (zlib : Zlib ζ χ) (held : ζ → Nat) (owed : χ → Nat) (Ended : χ → Prop) : Prop where
  deflate_progress : ∀ input space z, (zlib.deflate .syncFlush input space z).ret = .ok →
    (zlib.deflate .syncFlush input space z).consumed = 0 →
    (zlib.deflate .syncFlush input space z).output ≠ []
  deflate_held : ∀ input space z, (zlib.deflate .syncFlush input space z).consumed = 0 →
    held (zlib.deflate .syncFlush input space z).state +
      (zlib.deflate .syncFlush input space z).output.length ≤ held z
  deflate_open : ∀ input space z, (zlib.deflate .syncFlush input space z).ret ≠ .streamEnd
  inflate_progress : ∀ input space x, ¬Ended x → (zlib.inflate input space x).ret = .ok →
    (zlib.inflate input space x).consumed = 0 → (zlib.inflate input space x).output ≠ []
  inflate_owed : ∀ input space x, (zlib.inflate input space x).consumed = 0 →
    owed (zlib.inflate input space x).state + (zlib.inflate input space x).output.length ≤ owed x
  inflate_open : ∀ input space x, ¬Ended x → (zlib.inflate input space x).ret ≠ .streamEnd →
    ¬Ended (zlib.inflate input space x).state
  inflate_end : ∀ input space x, (zlib.inflate input space x).ret = .streamEnd →
    Ended (zlib.inflate input space x).state
  inflate_ended : ∀ input space x, Ended x → (zlib.inflate input space x).ret = .streamEnd ∧
    (zlib.inflate input space x).consumed = 0 ∧ (zlib.inflate input space x).output = []

/-- The streams of zlib. `Deflating z given taken` relates a state of deflate to
the bytes given to it and those taken from it, `Inflating` does for inflate, and
`Stands text bytes` is a text flushed for the bytes. The flush is complete when
a call returns with space left, and then inflate holds nothing back either. -/
structure Lossless (zlib : Zlib ζ χ) (deflateInit : ζ) (inflateInit : χ)
    (Deflating : ζ → List UInt8 → List UInt8 → Prop) (Inflating : χ → List UInt8 → List UInt8 → Prop)
    (Stands : List UInt8 → List UInt8 → Prop) : Prop where
  deflate_start : Deflating deflateInit [] []
  deflate_next : ∀ input space z given taken, Deflating z given taken →
    negative (zlib.deflate .syncFlush input space z).ret = false →
    Deflating (zlib.deflate .syncFlush input space z).state
      (given ++ input.take (zlib.deflate .syncFlush input space z).consumed)
      (taken ++ (zlib.deflate .syncFlush input space z).output)
  deflate_flushed : ∀ input space z given taken, Deflating z given taken → input ≠ [] →
    negative (zlib.deflate .syncFlush input space z).ret = false →
    (zlib.deflate .syncFlush input space z).output.length < space →
    (zlib.deflate .syncFlush input space z).consumed = input.length ∧
      Stands (taken ++ (zlib.deflate .syncFlush input space z).output) (given ++ input)
  inflate_start : Inflating inflateInit [] []
  inflate_next : ∀ input space x fed gave z given rest, Inflating x fed gave →
    Deflating z given (fed ++ input ++ rest) → input ≠ [] → 0 < space →
    (zlib.inflate input space x).ret = .ok ∧
      Inflating (zlib.inflate input space x).state
        (fed ++ input.take (zlib.inflate input space x).consumed)
        (gave ++ (zlib.inflate input space x).output)
  inflate_complete : ∀ input space x fed gave z given rest, Inflating x fed gave →
    Deflating z given (fed ++ input ++ rest) → input ≠ [] →
    (zlib.inflate input space x).output.length < space →
    (zlib.inflate input space x).consumed = input.length ∧
      ∀ bytes, Stands (fed ++ input) bytes → gave ++ (zlib.inflate input space x).output = bytes

end Libzorpll.ZlibContract
