import Libzorpll.BitStream

/-! Random values between two bounds, made of as many random bits as the
difference of the bounds has. -/

namespace Libzorpll.RandomBounded

open BitStream

inductive Halt
  | outOfBounds
  | assertion
  deriving DecidableEq

/-- MASK_FOR_N_BITS -/
def maskForNBits (n : Nat) : Nat := (1 <<< n) - 1

def countBits (bound : Nat) : Nat := if bound = 0 then 0 else countBits (bound / 2) + 1

structure State where
  target : List UInt8
  j : Nat := 0
  unusedBitCount : Nat := 0
  bitBuffer : Nat := 0

def readByte (buf : List UInt8) (j : Nat) : Except Halt Nat :=
  match buf[j]? with
  | some b => .ok b.toNat
  | none => .error .outOfBounds

/-- Buffered bits go in as the high order bits, new ones as the low order bits. -/
def takeBits (buf : List UInt8) (numBits : Nat) (s : State) : Except Halt (Nat × State) :=
  if numBits ≤ s.unusedBitCount then
    .ok (s.bitBuffer &&& maskForNBits numBits,
      { s with bitBuffer := s.bitBuffer >>> numBits, unusedBitCount := s.unusedBitCount - numBits })
  else do
    let offset := numBits - s.unusedBitCount
    let byte ← readByte buf s.j
    .ok ((s.bitBuffer <<< offset) % 256 ||| (byte &&& maskForNBits offset),
      { s with j := s.j + 1, bitBuffer := byte >>> offset, unusedBitCount := 8 - offset })

def scale (min max : UInt8) (numBits value : Nat) : Nat :=
  (value * (max.toNat - min.toNat) / maskForNBits numBits + min.toNat) &&& 0xFF

def round (buf : List UInt8) (min max : UInt8) (numBits i : Nat) (s : State) : Except Halt State := do
  let (value, s) ← takeBits buf numBits s
  let value := scale min max numBits value
  if i < s.target.length then
    if min.toNat ≤ value ∧ value ≤ max.toNat then .ok { s with target := s.target.set i value.toUInt8 }
    else .error .assertion
  else .error .outOfBounds

def fill (buf : List UInt8) (min max : UInt8) (numBits : Nat) : Nat → Nat → State → Except Halt State
  | 0, _, s => .ok s
  | left + 1, i, s => do
      let s ← round buf min max numBits i s
      fill buf min max numBits left (i + 1) s

def numBits (min max : UInt8) : Nat := countBits (max.toNat - min.toNat)

/-- A guint of a gsize product. -/
def neededBytes (min max : UInt8) (targetLen : Nat) : Nat :=
  (numBits min max * targetLen + 7) % 2 ^ 64 / 8 % 2 ^ 32

/-- The random bytes are what RAND_bytes puts into the buffer, if it does; the
buffer has one byte more than the target. -/
def zRandomSequenceGetBounded (randBytes : (n : Nat) → Option (Vector UInt8 n)) (target : List UInt8)
    (min max : UInt8) : Except Halt (Bool × List UInt8) :=
  if min < max then
    if neededBytes min max target.length ≤ target.length + 1 then
      match randBytes (neededBytes min max target.length) with
      | none => .ok (false, target)
      | some buf =>
          (fill buf.toList min max (numBits min max) target.length 0 { target := target }).map fun s => (true, s.target)
    else .error .outOfBounds
  else .ok (false, target)

/-- The call fills every position with a value between the bounds, or none of
them if there are no random bytes, and reads no byte that it did not get. -/
def Fills (randBytes : (n : Nat) → Option (Vector UInt8 n)) (target : List UInt8) (min max : UInt8) : Prop :=
  ∃ ok t, zRandomSequenceGetBounded randBytes target min max = .ok (ok, t) ∧
    ok = (randBytes (neededBytes min max target.length)).isSome ∧ t.length = target.length ∧
      if ok then ∀ v ∈ t, min ≤ v ∧ v ≤ max else t = target

/-- A bit that the value at a position is made of. -/
def OwnBit (numBits i k : Nat) : Prop := i * numBits ≤ k ∧ k < i * numBits + numBits

/-- Two calls whose random bytes have the same bits for a position have the
same value there. -/
def OwnBitsDecide (min max : UInt8) (len : Nat) : Prop :=
  ∀ (randBytes randBytes' : (n : Nat) → Option (Vector UInt8 n)) (target target' t t' : List UInt8)
    (buf buf' : Vector UInt8 (neededBytes min max len)),
    target.length = len → target'.length = len →
      randBytes (neededBytes min max len) = some buf → randBytes' (neededBytes min max len) = some buf' →
        zRandomSequenceGetBounded randBytes target min max = .ok (true, t) →
          zRandomSequenceGetBounded randBytes' target' min max = .ok (true, t') →
            ∀ i, (∀ k, OwnBit (numBits min max) i k → bit buf.toList k = bit buf'.toList k) → t[i]? = t'[i]?

variable {buf : List UInt8} {min max : UInt8} {n i left : Nat} {s : State}

/-! The bits -/

theorem countBits_pos {bound : Nat} (h : 0 < bound) : 0 < countBits bound := by
  rw [countBits, if_neg (Nat.ne_of_gt h)]
  exact Nat.succ_pos _

theorem countBits_le {bound : Nat} (h : bound < 2 ^ n) : countBits bound ≤ n := by
  induction n generalizing bound with
  | zero =>
      obtain rfl := Nat.lt_one_iff.mp h
      rw [countBits, if_pos rfl]
  | succ n ih =>
      rw [countBits]
      split
      · exact Nat.zero_le _
      · exact Nat.succ_le_succ (ih (by omega))

theorem numBits_pos (hlt : min < max) : 0 < numBits min max :=
  countBits_pos (Nat.sub_pos_of_lt (UInt8.lt_iff_toNat_lt.mp hlt))

theorem numBits_le (min max : UInt8) : numBits min max ≤ 8 :=
  countBits_le (Nat.lt_of_le_of_lt (Nat.sub_le _ _) max.toNat_lt)

theorem maskForNBits_eq (n : Nat) : maskForNBits n = 2 ^ n - 1 := by
  rw [maskForNBits, Nat.one_shiftLeft]

/-! One round -/

/-- What is in the bit buffer after so many values of so many bits. -/
structure Buffered (buf : List UInt8) (n i : Nat) (s : State) : Prop where
  unused : s.unusedBitCount < 8
  consumed : 8 * s.j = i * n + s.unusedBitCount
  content : s.bitBuffer = bits buf (i * n) s.unusedBitCount

/-- The bits that are left of a byte at a position. -/
def leftBits (n i : Nat) : Nat := (8 - i * n % 8) % 8

/-- The bits of a position in their order in the value. -/
def arranged (n i w : Nat) : Nat :=
  if n ≤ leftBits n i then w else 2 ^ (n - leftBits n i) * (w % 2 ^ leftBits n i) + w / 2 ^ leftBits n i

theorem Buffered.leftBits_eq (h : Buffered buf n i s) : s.unusedBitCount = leftBits n i := by
  have hunused := h.unused
  have hconsumed := h.consumed
  rw [leftBits]
  omega

theorem readByte_ok {j : Nat} (h : j < buf.length) : readByte buf j = .ok (bits buf (8 * j) 8) := by
  rw [readByte, List.getElem?_eq_getElem h, bits_byte, List.getD_eq_getElem?_getD, List.getElem?_eq_getElem h,
    Option.getD_some]

/-- A value is made of its own bits, and the buffer is left with the ones behind. -/
theorem takeBits_ok (h : Buffered buf n i s) (hpos : 0 < n) (hle : n ≤ 8) (hroom : i * n + n ≤ 8 * buf.length) :
    ∃ s', takeBits buf n s = .ok (arranged n i (bits buf (i * n) n), s') ∧ Buffered buf n (i + 1) s' ∧
      s'.target = s.target := by
  have hunused := h.unused
  have hconsumed := h.consumed
  have hnext : (i + 1) * n = i * n + n := Nat.succ_mul i n
  rw [takeBits, arranged, ← h.leftBits_eq, h.content]
  split
  · rename_i henough
    rw [maskForNBits_eq, Nat.and_two_pow_sub_one_eq_mod, bits_mod buf _ henough]
    refine ⟨_, rfl, ⟨Nat.lt_of_le_of_lt (Nat.sub_le _ _) hunused, ?_, ?_⟩, rfl⟩
    · change 8 * s.j = (i + 1) * n + (s.unusedBitCount - n)
      omega
    · rw [hnext, Nat.shiftRight_eq_div_pow]
      exact bits_div buf _ henough
  · rename_i hmore
    have hoffset : n - s.unusedBitCount ≤ 8 := by omega
    have hsplit : s.unusedBitCount + (n - s.unusedBitCount) = n := by omega
    have hhigh : bits buf (i * n) s.unusedBitCount * 2 ^ (n - s.unusedBitCount) < 256 :=
      calc bits buf (i * n) s.unusedBitCount * 2 ^ (n - s.unusedBitCount)
          < 2 ^ s.unusedBitCount * 2 ^ (n - s.unusedBitCount) :=
            Nat.mul_lt_mul_of_pos_right (bits_lt _ _ _) (Nat.two_pow_pos _)
        _ = 2 ^ n := by rw [← Nat.pow_add, hsplit]
        _ ≤ 2 ^ 8 := Nat.pow_le_pow_right (by decide) hle
    rw [readByte_ok (by omega)]
    refine ⟨{ s with
      j := s.j + 1
      bitBuffer := bits buf (8 * s.j) 8 >>> (n - s.unusedBitCount)
      unusedBitCount := 8 - (n - s.unusedBitCount) }, ?_, ⟨by change 8 - _ < 8; omega, ?_, ?_⟩, rfl⟩
    · change Except.ok _ = _
      congr 2
      rw [Nat.shiftLeft_eq, Nat.mod_eq_of_lt hhigh, maskForNBits_eq, Nat.and_two_pow_sub_one_eq_mod,
        bits_mod buf _ hoffset, ← Nat.shiftLeft_eq, ← Nat.shiftLeft_add_eq_or_of_lt (bits_lt _ _ _),
        Nat.shiftLeft_eq, bits_mod buf _ (by omega), bits_div buf _ (by omega), hconsumed, Nat.mul_comm]
    · change 8 * (s.j + 1) = (i + 1) * n + (8 - (n - s.unusedBitCount))
      omega
    · change bits buf (8 * s.j) 8 >>> (n - s.unusedBitCount) = bits buf ((i + 1) * n) (8 - (n - s.unusedBitCount))
      rw [Nat.shiftRight_eq_div_pow, bits_div buf _ hoffset]
      congr 1
      omega

theorem arranged_lt {w : Nat} (hw : w < 2 ^ n) : arranged n i w < 2 ^ n := by
  rw [arranged]
  split
  · exact hw
  · rename_i hmore
    have hsplit : 2 ^ n = 2 ^ (n - leftBits n i) * 2 ^ leftBits n i := by
      rw [← Nat.pow_add, Nat.sub_add_cancel (by omega)]
    have hhigh : w % 2 ^ leftBits n i < 2 ^ leftBits n i := Nat.mod_lt _ (Nat.two_pow_pos _)
    have hlow : w / 2 ^ leftBits n i < 2 ^ (n - leftBits n i) := by
      rw [Nat.div_lt_iff_lt_mul (Nat.two_pow_pos _), ← hsplit]
      exact hw
    calc 2 ^ (n - leftBits n i) * (w % 2 ^ leftBits n i) + w / 2 ^ leftBits n i
        < 2 ^ (n - leftBits n i) * (w % 2 ^ leftBits n i) + 2 ^ (n - leftBits n i) := Nat.add_lt_add_left hlow _
      _ = 2 ^ (n - leftBits n i) * (w % 2 ^ leftBits n i + 1) := (Nat.mul_succ _ _).symm
      _ ≤ 2 ^ n := hsplit ▸ Nat.mul_le_mul_left _ hhigh

theorem scale_bounds (hlt : min < max) {value : Nat} (hvalue : value < 2 ^ n) :
    min.toNat ≤ scale min max n value ∧ scale min max n value ≤ max.toNat := by
  have hminmax := UInt8.lt_iff_toNat_lt.mp hlt
  have hmax := max.toNat_lt
  have hdiv : value * (max.toNat - min.toNat) / maskForNBits n ≤ max.toNat - min.toNat := by
    apply Nat.div_le_of_le_mul
    rw [maskForNBits_eq]
    exact Nat.mul_le_mul_right _ (Nat.le_sub_one_of_lt hvalue)
  have hmask (m : Nat) : m &&& 0xFF = m % 256 := Nat.and_two_pow_sub_one_eq_mod m 8
  rw [scale, hmask]
  generalize value * (max.toNat - min.toNat) / maskForNBits n = q at hdiv
  rw [Nat.mod_eq_of_lt (by omega)]
  omega

/-- The value at a position, of the bits that are its own. -/
def valueAt (min max : UInt8) (n i w : Nat) : UInt8 := (scale min max n (arranged n i w)).toUInt8

theorem valueAt_bounds (hlt : min < max) {w : Nat} (hw : w < 2 ^ n) :
    min ≤ valueAt min max n i w ∧ valueAt min max n i w ≤ max := by
  obtain ⟨hmin, hmax⟩ := scale_bounds hlt (@arranged_lt n i w hw)
  have hbyte : (valueAt min max n i w).toNat = scale min max n (arranged n i w) :=
    UInt8.toNat_ofNat_of_lt (Nat.lt_of_le_of_lt hmax max.toNat_lt)
  exact ⟨UInt8.le_iff_toNat_le.mpr (hbyte ▸ hmin), UInt8.le_iff_toNat_le.mpr (hbyte ▸ hmax)⟩

theorem round_ok (hlt : min < max) (h : Buffered buf n i s) (hpos : 0 < n) (hle : n ≤ 8)
    (hroom : i * n + n ≤ 8 * buf.length) (hi : i < s.target.length) :
    ∃ s', round buf min max n i s = .ok s' ∧ Buffered buf n (i + 1) s' ∧
      s'.target = s.target.set i (valueAt min max n i (bits buf (i * n) n)) := by
  obtain ⟨t, htake, hbuffered, htarget⟩ := takeBits_ok h hpos hle hroom
  have hbounds := scale_bounds hlt (@arranged_lt n i _ (bits_lt buf (i * n) n))
  refine ⟨{ t with target := t.target.set i (valueAt min max n i (bits buf (i * n) n)) }, ?_, ?_, ?_⟩
  · rw [round, htake]
    change (if i < t.target.length then _ else _) = _
    rw [htarget, if_pos hi, if_pos hbounds]
    rfl
  · exact ⟨hbuffered.unused, hbuffered.consumed, hbuffered.content⟩
  · change t.target.set _ _ = _
    rw [htarget]

/-! All rounds -/

theorem fill_ok (hlt : min < max) (hpos : 0 < n) (hle : n ≤ 8) (h : Buffered buf n i s)
    (hlen : i + left ≤ s.target.length) (hroom : (i + left) * n ≤ 8 * buf.length) :
    ∃ s', fill buf min max n left i s = .ok s' ∧ ∀ k, s'.target[k]? =
      if i ≤ k ∧ k < i + left then some (valueAt min max n k (bits buf (k * n) n)) else s.target[k]? := by
  induction left generalizing i s with
  | zero =>
      refine ⟨s, rfl, fun k => ?_⟩
      rw [if_neg (by omega)]
  | succ left ih =>
      have hnext : i * n + n ≤ 8 * buf.length := by
        calc i * n + n = (i + 1) * n := (Nat.succ_mul i n).symm
          _ ≤ (i + (left + 1)) * n := Nat.mul_le_mul_right n (by omega)
          _ ≤ 8 * buf.length := hroom
      obtain ⟨t, hround, hbuffered, htarget⟩ := round_ok hlt h hpos hle hnext (by omega)
      have hshift : i + 1 + left = i + (left + 1) := by omega
      obtain ⟨s', hfill, hvalues⟩ := ih hbuffered (by rw [htarget, List.length_set]; omega)
        (by rw [hshift]; exact hroom)
      refine ⟨s', ?_, fun k => ?_⟩
      · rw [fill, hround]
        exact hfill
      · rw [hvalues, htarget, hshift]
        by_cases hk : i = k
        · subst hk
          rw [if_neg (by omega), List.getElem?_set_self (by omega), if_pos (by omega)]
        · rw [List.getElem?_set_ne hk]
          by_cases hin : i + 1 ≤ k ∧ k < i + (left + 1)
          · rw [if_pos hin, if_pos ⟨by omega, hin.2⟩]
          · rw [if_neg hin, if_neg (by omega)]

/-- The bytes needed have all the bits, and there is room for them. -/
theorem neededBytes_spec (min max : UInt8) {len : Nat} (hroom : numBits min max * len < 2 ^ 32) :
    len * numBits min max ≤ 8 * neededBytes min max len ∧ neededBytes min max len ≤ len + 1 := by
  have hle := numBits_le min max
  have hmul : numBits min max * len ≤ 8 * len := Nat.mul_le_mul_right len hle
  rw [neededBytes, Nat.mul_comm len]
  omega

variable {randBytes : (n : Nat) → Option (Vector UInt8 n)} {target : List UInt8} {len : Nat}

theorem bounded_some (hlt : min < max) (hlen : target.length = len) (hroom : numBits min max * len < 2 ^ 32)
    {buf : Vector UInt8 (neededBytes min max len)} (hrand : randBytes (neededBytes min max len) = some buf) :
    ∃ t, zRandomSequenceGetBounded randBytes target min max = .ok (true, t) ∧ ∀ k, t[k]? =
      if k < len then
        some (valueAt min max (numBits min max) k (bits buf.toList (k * numBits min max) (numBits min max)))
      else none := by
  subst hlen
  obtain ⟨hbits, hbytes⟩ := neededBytes_spec min max hroom
  have hstart : Buffered buf.toList (numBits min max) 0 { target := target } := by
    refine ⟨(by decide : 0 < 8), ?_, ?_⟩
    · change 8 * 0 = 0 * numBits min max + 0
      rw [Nat.zero_mul]
    · change 0 = bits buf.toList (0 * numBits min max) 0
      exact (Nat.mod_one _).symm
  have hroom' : (0 + target.length) * numBits min max ≤ 8 * buf.toList.length := by
    rw [Nat.zero_add, Vector.length_toList]
    exact hbits
  obtain ⟨s, hfill, hvalues⟩ := fill_ok hlt (numBits_pos hlt) (numBits_le min max) hstart (Nat.zero_add _).le hroom'
  refine ⟨s.target, ?_, fun k => ?_⟩
  · rw [zRandomSequenceGetBounded, if_pos hlt, if_pos hbytes, hrand]
    change Except.map _ (fill _ _ _ _ _ _ _) = _
    rw [hfill]
    rfl
  · rw [hvalues, Nat.zero_add]
    by_cases hk : k < target.length
    · rw [if_pos ⟨Nat.zero_le k, hk⟩, if_pos hk]
    · rw [if_neg fun h => hk h.2, if_neg hk]
      exact List.getElem?_eq_none (Nat.not_lt.mp hk)

theorem bounded_none (hlt : min < max) (hroom : numBits min max * target.length < 2 ^ 32)
    (hrand : randBytes (neededBytes min max target.length) = none) :
    zRandomSequenceGetBounded randBytes target min max = .ok (false, target) := by
  rw [zRandomSequenceGetBounded, if_pos hlt, if_pos (neededBytes_spec min max hroom).2, hrand]

theorem fills (hlt : min < max) (hroom : numBits min max * target.length < 2 ^ 32) :
    Fills randBytes target min max := by
  cases hrand : randBytes (neededBytes min max target.length) with
  | none => exact ⟨false, target, bounded_none hlt hroom hrand, by rw [hrand]; rfl, rfl, rfl⟩
  | some buf =>
      obtain ⟨t, hcall, hvalues⟩ := bounded_some hlt rfl hroom hrand
      refine ⟨true, t, hcall, by rw [hrand]; rfl, ?_, fun v hv => ?_⟩
      · apply Nat.le_antisymm
        · have hnone := hvalues target.length
          rw [if_neg (Nat.lt_irrefl _)] at hnone
          exact List.getElem?_eq_none_iff.mp hnone
        · refine Nat.le_of_not_lt fun hshort => ?_
          have hsome := hvalues t.length
          rw [if_pos hshort, List.getElem?_eq_none (Nat.le_refl _)] at hsome
          cases hsome
      · obtain ⟨k, hk⟩ := List.mem_iff_getElem?.mp hv
        have hvalue := hvalues k
        rw [hk] at hvalue
        split at hvalue
        · cases hvalue
          exact valueAt_bounds hlt (bits_lt _ _ _)
        · cases hvalue

theorem ownBits_decide (hlt : min < max) (hroom : numBits min max * len < 2 ^ 32) : OwnBitsDecide min max len := by
  intro randBytes randBytes' target target' t t' buf buf' hlen hlen' hrand hrand' hcall hcall' i hbits
  obtain ⟨u, hu, hvalues⟩ := bounded_some hlt hlen hroom hrand
  obtain ⟨u', hu', hvalues'⟩ := bounded_some hlt hlen' hroom hrand'
  obtain rfl : u = t := congrArg Prod.snd (Except.ok.inj (hu.symm.trans hcall))
  obtain rfl : u' = t' := congrArg Prod.snd (Except.ok.inj (hu'.symm.trans hcall'))
  rw [hvalues, hvalues', bits_congr fun k hlow hhigh => hbits k ⟨hlow, hhigh⟩]

theorem ownBit_unique {i' k : Nat} (h : OwnBit n i k) (h' : OwnBit n i' k) : i = i' := by
  obtain ⟨hlow, hhigh⟩ := h
  obtain ⟨hlow', hhigh'⟩ := h'
  rw [← Nat.succ_mul] at hhigh hhigh'
  have hle : i ≤ i' := Nat.le_of_lt_succ (Nat.lt_of_mul_lt_mul_right (Nat.lt_of_le_of_lt hlow hhigh'))
  have hge : i' ≤ i := Nat.le_of_lt_succ (Nat.lt_of_mul_lt_mul_right (Nat.lt_of_le_of_lt hlow' hhigh))
  exact Nat.le_antisymm hle hge

/-- The values are between their bounds, and each of them is decided by bits
of its own. -/
theorem bounded_values (randBytes : (n : Nat) → Option (Vector UInt8 n)) (target : List UInt8) (min max : UInt8)
    (hlt : min < max) (hroom : numBits min max * target.length < 2 ^ 32) :
    Fills randBytes target min max ∧ OwnBitsDecide min max target.length ∧
      ∀ i i' k, OwnBit (numBits min max) i k → OwnBit (numBits min max) i' k → i = i' :=
  ⟨fills hlt hroom, ownBits_decide hlt hroom, fun _ _ _ => ownBit_unique⟩

theorem bounded_values_letters :
    Fills (fun n => some (Vector.replicate n 0xA5)) [0, 0, 0] 97 122 ∧ OwnBitsDecide 97 122 3 ∧
      ∀ i i' k, OwnBit (numBits 97 122) i k → OwnBit (numBits 97 122) i' k → i = i' :=
  bounded_values _ [0, 0, 0] 97 122 (by decide) (by
    have hle := numBits_le 97 122
    rw [List.length_cons, List.length_cons, List.length_singleton]
    omega)

end Libzorpll.RandomBounded
