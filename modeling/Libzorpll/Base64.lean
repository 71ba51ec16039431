import Mathlib.Data.List.Basic
import Libzorpll.Transducer

/-! Base64: bytes, the values of six bits that stand for them, and quanta. -/

namespace Libzorpll.Base64

/-- The alphabet in the order of its values. -/
def alphabet : List UInt8 :=
  [65, 66, 67, 68, 69, 70, 71, 72, 73, 74, 75, 76, 77, 78, 79, 80, 81, 82, 83, 84, 85, 86, 87, 88,
    89, 90, 97, 98, 99, 100, 101, 102, 103, 104, 105, 106, 107, 108, 109, 110, 111, 112, 113, 114,
    115, 116, 117, 118, 119, 120, 121, 122, 48, 49, 50, 51, 52, 53, 54, 55, 56, 57, 43, 47]

def pad : UInt8 := 61

def isSpace (c : UInt8) : Bool := c == 9 || c == 10 || c == 13 || c == 32

def value (c : UInt8) : Option UInt8 := (alphabet.findIdx? (· == c)).map Nat.toUInt8

def char (v : UInt8) : UInt8 := alphabet.getD v.toNat 0

/-- The bytes of two neighbouring values. -/
def first (a b : UInt8) : UInt8 := a <<< 2 ||| b >>> 4

def second (b c : UInt8) : UInt8 := b <<< 4 ||| c >>> 2

def third (c d : UInt8) : UInt8 := c <<< 6 ||| d

/-- Four characters and the bytes they stand for. -/
inductive Quantum : List UInt8 → List UInt8 → Prop
  | three {a b c d u v w x : UInt8} (ha : value a = some u) (hb : value b = some v)
      (hc : value c = some w) (hd : value d = some x) :
      Quantum [a, b, c, d] [first u v, second v w, third w x]
  | two {a b c u v w : UInt8} (ha : value a = some u) (hb : value b = some v)
      (hc : value c = some w) : Quantum [a, b, c, pad] [first u v, second v w]
  | one {a b u v : UInt8} (ha : value a = some u) (hb : value b = some v) :
      Quantum [a, b, pad, pad] [first u v]

/-- A sequence of quanta, padded ones anywhere in it. -/
inductive Quanta : List UInt8 → List UInt8 → Prop
  | nil : Quanta [] []
  | cons {text texts bytes more : List UInt8} (h : Quantum text bytes) (hs : Quanta texts more) :
      Quanta (text ++ texts) (bytes ++ more)

/-- The characters for a sequence of bytes. -/
def encode : List UInt8 → List UInt8
  | [] => []
  | [x] => [char (x >>> 2), char ((x &&& 0x03) <<< 4), pad, pad]
  | [x, y] => [char (x >>> 2), char ((x &&& 0x03) <<< 4 ||| y >>> 4), char ((y &&& 0x0f) <<< 2), pad]
  | x :: y :: z :: rest =>
      char (x >>> 2) :: char ((x &&& 0x03) <<< 4 ||| y >>> 4) ::
        char ((y &&& 0x0f) <<< 2 ||| z >>> 6) :: char (z &&& 0x3f) :: encode rest

theorem forall_byte {P : UInt8 → Prop} [DecidablePred P]
    (h : (List.range 256).all (fun n => decide (P (UInt8.ofNat n))) = true) (b : UInt8) : P b := by
  have hb := List.all_eq_true.mp h b.toNat (List.mem_range.mpr b.toNat_lt)
  rw [UInt8.ofNat_toNat] at hb
  exact of_decide_eq_true hb

theorem value_char {v : UInt8} (h : v < 64) : value (char v) = some v := by
  revert h
  exact forall_byte (P := fun v => v < 64 → value (char v) = some v) (by decide +kernel) v

theorem char_visible {v : UInt8} (h : v < 64) : isSpace (char v) = false := by
  revert h
  exact forall_byte (P := fun v => v < 64 → isSpace (char v) = false) (by decide +kernel) v

theorem value_lt {c v : UInt8} (h : value c = some v) : v < 64 := by
  obtain ⟨i, hi, rfl⟩ := Option.map_eq_some_iff.mp h
  obtain ⟨hlen, -⟩ := List.findIdx?_eq_some_iff_getElem.mp hi
  have hlt : i < 64 := hlen
  rw [UInt8.lt_iff_toNat_lt, Nat.toUInt8_eq, UInt8.toNat_ofNat']
  exact Nat.lt_of_le_of_lt (Nat.mod_le i 256) hlt

theorem value_pad : value pad = none := by decide

theorem value_space {c : UInt8} (h : isSpace c = true) : value c = none := by
  revert h
  exact forall_byte (P := fun c => isSpace c = true → value c = none) (by decide +kernel) c

theorem high_lt (x : UInt8) : x >>> 2 < 64 := forall_byte (P := fun x => x >>> 2 < 64) (by decide +kernel) x

theorem six_lt (x : UInt8) : x &&& 0x3f < 64 := forall_byte (P := fun x => x &&& 0x3f < 64) (by decide +kernel) x

theorem eq_of_bits {a b : UInt8} (h : ∀ i < 8, a.toBitVec.getLsbD i = b.toBitVec.getLsbD i) : a = b :=
  UInt8.eq_of_toBitVec_eq (BitVec.eq_of_getLsbD_eq h)

theorem bit_cases {i : Nat} (h : i < 8) :
    i = 0 ∨ i = 1 ∨ i = 2 ∨ i = 3 ∨ i = 4 ∨ i = 5 ∨ i = 6 ∨ i = 7 := by
  omega

theorem first_encode (x y : UInt8) : first (x >>> 2) ((x &&& 0x03) <<< 4 ||| y >>> 4) = x := by
  apply eq_of_bits
  intro i hi
  rcases bit_cases hi with rfl | rfl | rfl | rfl | rfl | rfl | rfl | rfl <;> simp [first]

theorem second_encode (x y z : UInt8) :
    second ((x &&& 0x03) <<< 4 ||| y >>> 4) ((y &&& 0x0f) <<< 2 ||| z >>> 6) = y := by
  apply eq_of_bits
  intro i hi
  rcases bit_cases hi with rfl | rfl | rfl | rfl | rfl | rfl | rfl | rfl <;> simp [second]

theorem third_encode (y z : UInt8) : third ((y &&& 0x0f) <<< 2 ||| z >>> 6) (z &&& 0x3f) = z := by
  apply eq_of_bits
  intro i hi
  rcases bit_cases hi with rfl | rfl | rfl | rfl | rfl | rfl | rfl | rfl <;> simp [third]

theorem or_lt {a b : UInt8} (ha : a < 64) (hb : b < 64) : a ||| b < 64 := by
  rw [UInt8.lt_iff_toNat_lt] at ha hb ⊢
  rw [UInt8.toNat_or]
  exact Nat.or_lt_two_pow (n := 6) ha hb

theorem low_lt (x : UInt8) : (x &&& 0x03) <<< 4 < 64 :=
  forall_byte (P := fun x => (x &&& 0x03) <<< 4 < 64) (by decide +kernel) x

theorem middle_lt (x : UInt8) : (x &&& 0x0f) <<< 2 < 64 :=
  forall_byte (P := fun x => (x &&& 0x0f) <<< 2 < 64) (by decide +kernel) x

theorem tops_lt (x : UInt8) : x >>> 4 < 64 ∧ x >>> 6 < 64 :=
  forall_byte (P := fun x => x >>> 4 < 64 ∧ x >>> 6 < 64) (by decide +kernel) x

theorem second_lt (x y : UInt8) : (x &&& 0x03) <<< 4 ||| y >>> 4 < 64 := or_lt (low_lt x) (tops_lt y).1

theorem third_lt (y z : UInt8) : (y &&& 0x0f) <<< 2 ||| z >>> 6 < 64 := or_lt (middle_lt y) (tops_lt z).2

/-- The characters for a sequence of bytes are quanta that stand for it. -/
theorem quanta_encode (bytes : List UInt8) : Quanta (encode bytes) bytes := by
  induction bytes using encode.induct with
  | case1 => exact .nil
  | case2 x =>
      have hfirst := first_encode x 0
      simp only [UInt8.zero_shiftRight, UInt8.or_zero] at hfirst
      have h := Quantum.one (value_char (high_lt x)) (value_char (low_lt x))
      rw [hfirst] at h
      exact .cons h .nil
  | case3 x y =>
      have hsecond := second_encode x y 0
      simp only [UInt8.zero_shiftRight, UInt8.or_zero] at hsecond
      have h := Quantum.two (value_char (high_lt x)) (value_char (second_lt x y))
        (value_char (middle_lt y))
      rw [first_encode, hsecond] at h
      exact .cons h .nil
  | case4 x y z rest ih =>
      have h := Quantum.three (value_char (high_lt x)) (value_char (second_lt x y))
        (value_char (third_lt y z)) (value_char (six_lt z))
      rw [first_encode, second_encode, third_encode] at h
      exact .cons h ih

open Transducer

/-- A decoder between two characters, with the bits of the byte it has begun. -/
inductive Partial
  | start
  | one (bits : UInt8)
  | two (bits : UInt8)
  | three (bits : UInt8)
  | closing
  deriving DecidableEq

/-- The decoder that refuses what is not base64. -/
def decode (c : UInt8) (s : Partial) : Option (List UInt8 × Partial) :=
  if isSpace c then some ([], s)
  else if c = pad then
    match s with
    | .start | .one _ => none
    | .two _ => some ([], .closing)
    | .three _ | .closing => some ([], .start)
  else
    match value c, s with
    | none, _ | some _, .closing => none
    | some v, .start => some ([], .one (v <<< 2))
    | some v, .one bits => some ([bits ||| v >>> 4], .two (v <<< 4))
    | some v, .two bits => some ([bits ||| v >>> 2], .three (v <<< 6))
    | some v, .three bits => some ([bits ||| v], .start)

def decodeEnd : Partial → Option (List UInt8 × Partial)
  | .start => some ([], .start)
  | _ => none

/-- What the decoder does with a character that has a value. -/
theorem decode_value {c v : UInt8} (h : value c = some v) (s : Partial) :
    decode c s = match s with
      | .start => some ([], .one (v <<< 2))
      | .one bits => some ([bits ||| v >>> 4], .two (v <<< 4))
      | .two bits => some ([bits ||| v >>> 2], .three (v <<< 6))
      | .three bits => some ([bits ||| v], .start)
      | .closing => none := by
  have hspace : isSpace c = false := by
    cases hs : isSpace c with
    | false => rfl
    | true => rw [value_space hs] at h; cases h
  have hpad : c ≠ pad := by
    rintro rfl
    rw [value_pad] at h
    cases h
  cases s <;> simp only [decode, hspace, Bool.false_eq_true, ↓reduceIte, hpad, h]

theorem decode_pad (s : Partial) :
    decode pad s = match s with
      | .start | .one _ => none
      | .two _ => some ([], .closing)
      | .three _ | .closing => some ([], .start) := by
  cases s <;> rfl

theorem decode_quantum {text bytes : List UInt8} (h : Quantum text bytes) :
    runOut decode text .start = some (bytes, .start) := by
  cases h with
  | three ha hb hc hd =>
      simp only [runOut, decode_value ha, decode_value hb, decode_value hc, decode_value hd]
      rfl
  | two ha hb hc =>
      simp only [runOut, decode_value ha, decode_value hb, decode_value hc, decode_pad]
      rfl
  | one ha hb =>
      simp only [runOut, decode_value ha, decode_value hb, decode_pad]
      rfl

theorem decode_quanta {text bytes : List UInt8} (h : Quanta text bytes) :
    runOut decode text .start = some (bytes, .start) := by
  induction h with
  | nil => rfl
  | cons hq _ ih => rw [runOut_append, decode_quantum hq, Option.bind_some, ih]; rfl

/-- A character, other than a space, that the decoder takes. -/
inductive Takes : UInt8 → Partial → List UInt8 → Partial → Prop
  | start {c v : UInt8} (h : value c = some v) : Takes c .start [] (.one (v <<< 2))
  | one {c v bits : UInt8} (h : value c = some v) :
      Takes c (.one bits) [bits ||| v >>> 4] (.two (v <<< 4))
  | two {c v bits : UInt8} (h : value c = some v) :
      Takes c (.two bits) [bits ||| v >>> 2] (.three (v <<< 6))
  | three {c v bits : UInt8} (h : value c = some v) : Takes c (.three bits) [bits ||| v] .start
  | padTwo (bits : UInt8) : Takes pad (.two bits) [] .closing
  | padThree (bits : UInt8) : Takes pad (.three bits) [] .start
  | padClosing : Takes pad .closing [] .start

theorem takes_of_decode {c : UInt8} {s t : Partial} {out : List UInt8} (hspace : isSpace c = false)
    (h : decode c s = some (out, t)) : Takes c s out t := by
  by_cases hpad : c = pad
  · subst hpad
    rw [decode_pad] at h
    cases s <;> cases h <;> constructor
  · cases hv : value c with
    | none => cases s <;> simp [decode, hspace, hpad, hv] at h
    | some v =>
        rw [decode_value hv] at h
        cases s with
        | start => cases h; exact .start hv
        | one bits => cases h; exact .one hv
        | two bits => cases h; exact .two hv
        | three bits => cases h; exact .three hv
        | closing => cases h

/-- A text without spaces that leads the decoder back to its start is made of
quanta. -/
theorem quanta_of_decode {text out : List UInt8} (hvis : ∀ c ∈ text, isSpace c = false)
    (h : runOut decode text .start = some (out, .start)) : Quanta text out := by
  induction hn : text.length using Nat.strongRecOn generalizing text out with
  | ind n ih =>
      cases text with
      | nil => cases h; exact .nil
      | cons a text =>
          rw [List.forall_mem_cons] at hvis
          obtain ⟨_, _, _, ha, hrest, rfl⟩ := runOut_cons_inv h
          clear h
          cases takes_of_decode hvis.1 ha
          rename_i u hu
          cases text with
          | nil => cases hrest
          | cons b text =>
              rw [List.forall_mem_cons] at hvis
              obtain ⟨_, _, _, hb, hrest', rfl⟩ := runOut_cons_inv hrest
              clear hrest
              cases takes_of_decode hvis.2.1 hb
              rename_i v hv
              cases text with
              | nil => cases hrest'
              | cons c text =>
                  rw [List.forall_mem_cons] at hvis
                  obtain ⟨_, _, _, hc, hrest, rfl⟩ := runOut_cons_inv hrest'
                  clear hrest'
                  cases text with
                  | nil => cases takes_of_decode hvis.2.2.1 hc <;> cases hrest
                  | cons d text =>
                      rw [List.forall_mem_cons] at hvis
                      obtain ⟨_, _, rest, hd, hlast, rfl⟩ := runOut_cons_inv hrest
                      have hlen : text.length < n := by
                        rw [← hn]
                        simp only [List.length_cons]
                        omega
                      cases takes_of_decode hvis.2.2.1 hc with
                      | two hw =>
                          cases takes_of_decode hvis.2.2.2.1 hd with
                          | three hx =>
                              exact .cons (.three hu hv hw hx) (ih _ hlen hvis.2.2.2.2 hlast rfl)
                          | padThree => exact .cons (.two hu hv hw) (ih _ hlen hvis.2.2.2.2 hlast rfl)
                      | padTwo =>
                          cases takes_of_decode hvis.2.2.2.1 hd
                          exact .cons (.one hu hv) (ih _ hlen hvis.2.2.2.2 hlast rfl)

/-- What the decoder accepts, and what it gives. -/
theorem decode_iff (text out : List UInt8) :
    message decode decodeEnd text .start = some (out, .start) ↔
      Quanta (text.filter (fun c => !isSpace c)) out := by
  have hskip : runOut decode (text.filter (fun c => !isSpace c)) .start = runOut decode text .start := by
    apply runOut_filter
    intro c s hc
    simp only [Bool.not_eq_false'] at hc
    simp [decode, hc]
  rw [message, ← hskip]
  constructor
  · intro h
    obtain ⟨⟨first, s⟩, hrun, hend⟩ := Option.bind_eq_some_iff.mp h
    cases s with
    | start =>
        simp only [decodeEnd, Option.map_some, List.append_nil, Option.some.injEq, Prod.mk.injEq,
          and_true] at hend
        subst hend
        refine quanta_of_decode ?_ hrun
        intro c hc
        simpa using (List.mem_filter.mp hc).2
    | one | two | three | closing => cases hend
  · intro h
    rw [decode_quanta h]
    simp [decodeEnd]

theorem decode_ends {text out : List UInt8} {s : Partial}
    (h : message decode decodeEnd text .start = some (out, s)) : s = .start := by
  obtain ⟨⟨first, t⟩, -, hend⟩ := Option.bind_eq_some_iff.mp h
  cases t with
  | start => cases hend; rfl
  | one | two | three | closing => cases hend

end Libzorpll.Base64
