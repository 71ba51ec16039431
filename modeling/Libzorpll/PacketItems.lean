import Libzorpll.PacketBuf
import Libzorpll.Run

/-! What is put into a packet buffer and got back. -/

namespace Libzorpll.PacketItems

open Region Word PacketBuf Run

structure Valid (s : ZPktBuf) : Prop where
  pos_le : s.pos ≤ s.length
  length_le : s.length ≤ s.allocated
  block : s.data.length = s.allocated
  owned : s.borrowed = false
  small : s.allocated < 2 ^ 63

/-- A buffer whose sizes fit together; its memory may be borrowed. -/
structure Sound (s : ZPktBuf) : Prop where
  pos_le : s.pos ≤ s.length
  length_le : s.length ≤ s.allocated
  block : s.data.length = s.allocated
  fits : s.allocated < 2 ^ 64

variable (fresh : Nat → UInt8) {s t : ZPktBuf}

theorem Valid.sound (h : Valid s) : Sound s :=
  ⟨h.pos_le, h.length_le, h.block, Nat.lt_trans h.small (by decide)⟩

theorem Sound.valid (h : Sound s) (howned : s.borrowed = false) (hsmall : s.allocated < 2 ^ 63) :
    Valid s := ⟨h.pos_le, h.length_le, h.block, howned, hsmall⟩

theorem access_ok {α : Type} (a : α) : access (.ok a) = .ok a := rfl

theorem gsize_of_lt {n : Nat} (h : n < 2 ^ 64) : gsize n = n := Nat.mod_eq_of_lt h

theorem gssize_of_lt {n : Nat} (h : n < 2 ^ 63) : gssize n = n := by
  rw [gssize, Int.bmod_eq_of_le]
  · omega
  · omega

theorem gsub_of_le {a b : Nat} (h : b ≤ a) (ha : a < 2 ^ 64) : gsub a b = a - b := by
  rw [gsub]
  omega

theorem available_eq (h : Sound s) : available s = s.length - s.pos :=
  gsub_of_le h.pos_le (Nat.lt_of_le_of_lt h.length_le h.fits)

theorem realloc_length {data : List UInt8} {size : Nat} (h : data.length ≤ size) :
    (realloc fresh data size).length = size := by
  rw [realloc, List.length_append, List.length_take, List.length_map, List.length_range]
  omega

theorem realloc_getElem? {data : List UInt8} {size i : Nat} (h : data.length ≤ size)
    (hi : i < data.length) : (realloc fresh data size)[i]? = data[i]? := by
  rw [realloc, List.take_of_length_le h, List.getElem?_append_left hi]

theorem resize_eq {size : Nat} (howned : s.allocated < size → s.borrowed = false) :
    resize fresh s size =
      .ok { s with
        data := if s.allocated < size then realloc fresh s.data size else s.data
        allocated := max s.allocated size
        length := min s.length size
        pos := min s.pos size } := by
  rcases s with ⟨allocated, length, pos, borrowed, data⟩
  simp only at howned
  simp only [resize]
  by_cases ha : allocated < size
  · rw [howned ha]
    by_cases hl : size < length <;> by_cases hp : size < pos <;>
      simp [ha, hl, hp, bind, Except.bind, Nat.le_of_lt, Nat.not_lt.mp]
  · by_cases hl : size < length <;> by_cases hp : size < pos <;>
      simp [ha, hl, hp, bind, Except.bind, Nat.le_of_lt, Nat.not_lt.mp]

/-- A buffer that has room for so many bytes, of which as many count. -/
def grown (fresh : Nat → UInt8) (s : ZPktBuf) (size : Nat) : ZPktBuf :=
  { s with
    data := if s.allocated < size then realloc fresh s.data size else s.data
    allocated := max s.allocated size
    length := max s.length size }

theorem setAvailable_eq (h : Sound s) {size : Nat} (hsize : s.pos + size < 2 ^ 63)
    (howned : s.allocated < s.pos + size → s.borrowed = false) :
    setAvailable fresh s size = .ok (true, grown fresh s (s.pos + size)) := by
  have hlen := h.length_le
  have hgsize : gsize (s.pos + size) = s.pos + size := gsize_of_lt (by omega)
  rw [setAvailable, hgsize]
  split
  · rename_i hle
    have hroom : ¬s.allocated < s.pos + size := by omega
    rw [grown, if_neg hroom, Nat.max_eq_left hle, Nat.max_eq_left (Nat.le_trans hle hlen)]
  · rename_i hgt
    have hlt := Nat.not_le.mp hgt
    have hresize := resize_eq fresh (s := { s with length := s.pos + size }) howned
    rw [Nat.min_self, Nat.min_eq_left (Nat.le_add_right s.pos size)] at hresize
    change (resize fresh { s with length := s.pos + size } (gsize (s.pos + size)) >>= _) = _
    rw [hgsize, hresize, grown, Nat.max_eq_right (Nat.le_of_lt hlt)]
    rfl

/-- A borrowed block is not made longer. -/
theorem setAvailable_borrowed (h : Sound s) {size : Nat} (hsize : s.pos + size < 2 ^ 63)
    (hborrowed : s.borrowed = true) (hroom : s.allocated < s.pos + size) :
    setAvailable fresh s size = .error .assertion := by
  have hlen := h.length_le
  have hgsize : gsize (s.pos + size) = s.pos + size := gsize_of_lt (by omega)
  have hout : ¬s.pos + size ≤ s.length := by omega
  rw [setAvailable, hgsize, if_neg hout]
  simp only [resize, hgsize, hroom, hborrowed, ↓reduceIte, bind, Except.bind]

theorem sound_grown (h : Sound s) {size : Nat} (hsize : size < 2 ^ 64) :
    Sound (grown fresh s size) := by
  have hlen := h.length_le
  have hpos := h.pos_le
  constructor
  · exact Nat.le_trans hpos (Nat.le_max_left _ _)
  · exact Nat.max_le.mpr ⟨Nat.le_trans hlen (Nat.le_max_left _ _), Nat.le_max_right _ _⟩
  · rw [grown]
    simp only
    split
    · rename_i hlt
      rw [realloc_length fresh (by rw [h.block]; omega), Nat.max_eq_right (Nat.le_of_lt hlt)]
    · rename_i hge
      rw [Nat.max_eq_left (Nat.not_lt.mp hge)]
      exact h.block
  · exact Nat.max_lt.mpr ⟨h.fits, hsize⟩

theorem valid_grown (h : Valid s) {size : Nat} (hsize : size < 2 ^ 63) :
    Valid (grown fresh s size) :=
  (sound_grown fresh h.sound (by omega)).valid h.owned (Nat.max_lt.mpr ⟨h.small, hsize⟩)

theorem grown_getElem? (h : Sound s) (size : Nat) {i : Nat} (hi : i < s.allocated) :
    (grown fresh s size).data[i]? = s.data[i]? := by
  rw [grown]
  simp only
  split
  · rename_i hlt
    exact realloc_getElem? fresh (by rw [h.block]; omega) (by rw [h.block]; exact hi)
  · rfl

/-- Bytes have been written at the position, and the position is behind them. -/
structure Put (s : ZPktBuf) (bytes : List UInt8) (t : ZPktBuf) : Prop where
  valid : Valid t
  pos : t.pos = s.pos + bytes.length
  length : t.length = max s.length (s.pos + bytes.length)
  written : window t.data s.pos (s.pos + bytes.length) = bytes
  same : ∀ i, i < s.length → i < s.pos ∨ s.pos + bytes.length ≤ i → t.data[i]? = s.data[i]?

/-- The same of any buffer, with what becomes of a borrowed block. -/
structure Placed (s : ZPktBuf) (bytes : List UInt8) (t : ZPktBuf) : Prop where
  sound : Sound t
  borrowed : t.borrowed = s.borrowed
  kept : s.borrowed = true → t.allocated = s.allocated
  pos : t.pos = s.pos + bytes.length
  length : t.length = max s.length (s.pos + bytes.length)
  written : window t.data s.pos (s.pos + bytes.length) = bytes
  same : ∀ i, i < s.length → i < s.pos ∨ s.pos + bytes.length ≤ i → t.data[i]? = s.data[i]?

theorem Put.placed {bytes : List UInt8} (h : Put s bytes t) (hs : Valid s) : Placed s bytes t where
  sound := h.valid.sound
  borrowed := h.valid.owned.trans hs.owned.symm
  kept := fun hb => Bool.noConfusion (hs.owned.symm.trans hb)
  pos := h.pos
  length := h.length
  written := h.written
  same := h.same

theorem Placed.put {bytes : List UInt8} (h : Placed s bytes t) (ht : Valid t) : Put s bytes t :=
  ⟨ht, h.pos, h.length, h.written, h.same⟩

/-- The buffer with the bytes in it. -/
def placed (fresh : Nat → UInt8) (s : ZPktBuf) (bytes : List UInt8) : ZPktBuf :=
  { grown fresh s (s.pos + bytes.length) with
    data := put (grown fresh s (s.pos + bytes.length)).data s.pos bytes
    pos := s.pos + bytes.length }

theorem placed_of_write (h : Sound s) {bytes : List UInt8} (hsize : s.pos + bytes.length < 2 ^ 64)
    (howned : s.allocated < s.pos + bytes.length → s.borrowed = false) :
    Placed s bytes (placed fresh s bytes) := by
  have hgrown := sound_grown fresh h hsize
  have hroom : s.pos + bytes.length ≤ (grown fresh s (s.pos + bytes.length)).data.length := by
    rw [hgrown.block]
    exact Nat.le_max_right _ _
  have hlen := h.length_le
  constructor
  · constructor
    · exact Nat.le_max_right _ _
    · exact hgrown.length_le
    · rw [placed, put_length hroom]
      exact hgrown.block
    · exact hgrown.fits
  · rfl
  · intro hborrowed
    refine Nat.max_eq_left (Nat.not_lt.mp fun hlt => ?_)
    exact Bool.noConfusion ((howned hlt).symm.trans hborrowed)
  · rfl
  · rfl
  · exact window_put_same hroom
  · intro i hi hout
    rw [placed, put_getElem? hroom hout]
    exact grown_getElem? fresh h _ (Nat.lt_of_lt_of_le hi hlen)

theorem Placed.trans {u : ZPktBuf} {xs ys : List UInt8} (h : Placed s xs t) (h' : Placed t ys u) :
    Placed s (xs ++ ys) u := by
  have hpos := h.pos
  have hlength := h.length
  constructor
  · exact h'.sound
  · exact h'.borrowed.trans h.borrowed
  · intro hborrowed
    exact (h'.kept (h.borrowed.trans hborrowed)).trans (h.kept hborrowed)
  · rw [h'.pos, hpos, List.length_append, Nat.add_assoc]
  · rw [h'.length, hlength, hpos, List.length_append]
    omega
  · have hfirst : window u.data s.pos (s.pos + xs.length) = xs := by
      refine (window_congr ?_).trans h.written
      intro i _ hi
      exact h'.same i (by omega) (.inl (by omega))
    have hsecond := h'.written
    rw [hpos] at hsecond
    rw [List.length_append, ← Nat.add_assoc, ← window_append u.data (Nat.le_add_right s.pos xs.length)
      (Nat.le_add_right _ ys.length), hfirst, hsecond]
  · intro i hi hout
    rw [List.length_append] at hout
    rw [h'.same i (by omega) (by omega), h.same i hi (by omega)]

theorem Placed.nil (h : Sound s) : Placed s [] s where
  sound := h
  borrowed := rfl
  kept := fun _ => rfl
  pos := rfl
  length := (Nat.max_eq_left h.pos_le).symm
  written := window_self _ _
  same := fun _ _ _ => rfl

theorem Put.trans {u : ZPktBuf} {xs ys : List UInt8} (hs : Valid s) (h : Put s xs t)
    (h' : Put t ys u) : Put s (xs ++ ys) u :=
  ((h.placed hs).trans (h'.placed h.valid)).put h'.valid

theorem Put.nil (h : Valid s) : Put s [] s := (Placed.nil h.sound).put h

/-- What is placed in a valid buffer. -/
theorem put_placed (h : Valid s) {bytes : List UInt8} (hsize : s.pos + bytes.length < 2 ^ 63) :
    Put s bytes (placed fresh s bytes) := by
  have hsize64 : s.pos + bytes.length < 2 ^ 64 := by omega
  have hplaced := placed_of_write fresh h.sound hsize64 (fun _ => h.owned)
  exact hplaced.put (hplaced.sound.valid (hplaced.borrowed.trans h.owned)
    (Nat.max_lt.mpr ⟨h.small, hsize⟩))

/-- After a call that makes room the bytes can be written. -/
theorem place_eq (h : Sound s) {bytes : List UInt8} (hsize : s.pos + bytes.length < 2 ^ 64) :
    (access (write (grown fresh s (s.pos + bytes.length)).data s.pos bytes) >>= fun data =>
        .ok (true, { grown fresh s (s.pos + bytes.length) with
          data := data
          pos := gsize (s.pos + bytes.length) })) = .ok (true, placed fresh s bytes) := by
  have hroom : s.pos + bytes.length ≤ (grown fresh s (s.pos + bytes.length)).data.length := by
    rw [(sound_grown fresh h hsize).block]
    exact Nat.le_max_right _ _
  rw [write_eq hroom, gsize_of_lt hsize]
  rfl

theorem flip_of_ne {host e : ByteOrder} (h : e ≠ host) : host.flip = e ∧ e.flip = host := by
  cases host <;> cases e <;> first | exact ⟨rfl, rfl⟩ | exact absurd rfl h

/-- A word is written in the order asked for. -/
theorem encode_ordered (host e : ByteOrder) (w d : Nat) :
    encode host w (if e = host then d else swap w d) = encode e w d := by
  split
  · rename_i heq
    rw [heq]
  · rename_i hne
    rw [encode_swap, (flip_of_ne hne).1]

theorem decode_ordered (host e : ByteOrder) (bytes : List UInt8) :
    (if e = host then decode host bytes else swap bytes.length (decode host bytes)) =
      decode e bytes := by
  split
  · rename_i heq
    rw [heq]
  · rename_i hne
    rw [swap_decode, (flip_of_ne hne).1]

theorem putWord_eq (h : Sound s) (host e : ByteOrder) {w : Nat} (hsize : s.pos + w < 2 ^ 63)
    (howned : s.allocated < s.pos + w → s.borrowed = false) (d : Nat) :
    putWord host e w fresh s d = .ok (true, placed fresh s (encode e w d)) := by
  have hlen := encode_length e w d
  have hroom : s.pos + (encode e w d).length < 2 ^ 64 := by
    rw [hlen]
    omega
  have hwrite := place_eq fresh h hroom
  rw [hlen] at hwrite
  rw [putWord, setAvailable_eq fresh h hsize howned, ok_bind]
  simp only [encode_ordered]
  exact hwrite

theorem putWord_spec (h : Valid s) (host e : ByteOrder) {w : Nat} (hsize : s.pos + w < 2 ^ 63)
    (d : Nat) : ∃ t, putWord host e w fresh s d = .ok (true, t) ∧ Put s (encode e w d) t := by
  have hroom : s.pos + (encode e w d).length < 2 ^ 63 := by
    rw [encode_length]
    exact hsize
  exact ⟨_, putWord_eq fresh h.sound host e hsize (fun _ => h.owned) d, put_placed fresh h hroom⟩

theorem swapLoop_done {host : ByteOrder} {w n i : Nat} (h : n ≤ i) (src : List UInt8) (a b fuel : Nat)
    (dst : List UInt8) : swapLoop host w n src a b fuel i dst = .ok dst := by
  cases fuel with
  | zero => exact if_pos h
  | succ fuel => exact if_pos h

/-- The loop swaps the words of the source that are left. -/
theorem swapLoop_eq (host : ByteOrder) {w n : Nat} (hw : 0 < w) (hn : n < 2 ^ 32) {src : List UInt8}
    {a b : Nat} (ha : a + n ≤ src.length) {fuel i k : Nat} (hk : i + k * w = n) (hfuel : k ≤ fuel)
    {dst : List UInt8} (hb : b + n ≤ dst.length) :
    swapLoop host w n src a b fuel i dst =
      .ok (put dst (b + i) (flipWords w k (window src (a + i) (a + n)))) := by
  induction k generalizing fuel i dst with
  | zero =>
      rw [Nat.zero_mul, Nat.add_zero] at hk
      rw [flipWords, put_nil, swapLoop_done (Nat.le_of_eq hk.symm)]
  | succ k ih =>
      rw [Nat.succ_mul] at hk
      have hi : i + w ≤ n := by omega
      have hwindow : window src (a + i) (a + n) =
          window src (a + i) (a + i + w) ++ window src (a + i + w) (a + n) :=
        (window_append src (Nat.le_add_right _ w) (by omega)).symm
      have hlen : (window src (a + i) (a + i + w)).length = w := by
        rw [window_length src (by omega)]
        omega
      have hbytes : encode host w (swap w (decode host (window src (a + i) (a + i + w)))) =
          (window src (a + i) (a + i + w)).reverse := by
        have hswap := encode_swap_decode host (window src (a + i) (a + i + w))
        rw [hlen] at hswap
        exact hswap
      have hreverse : (window src (a + i) (a + i + w)).reverse.length = w := by
        rw [List.length_reverse, hlen]
      have hwrite : b + i + (window src (a + i) (a + i + w)).reverse.length ≤ dst.length := by
        rw [hreverse]
        omega
      cases fuel with
      | zero => exact absurd hfuel (Nat.not_succ_le_zero k)
      | succ fuel =>
          rw [swapLoop, if_neg (by omega), read_eq (by omega), access_ok, ok_bind, hbytes,
            write_eq hwrite, access_ok, ok_bind]
          have hput := put_length hwrite
          rw [Nat.mod_eq_of_lt (by omega : i + w < 2 ^ 32),
            ih (by omega) (Nat.le_of_succ_le_succ hfuel) (by rw [hput]; exact hb)]
          have happend := put_append (flipWords w k (window src (a + i + w) (a + n))) hwrite
          rw [hreverse] at happend
          rw [← Nat.add_assoc, ← Nat.add_assoc, happend, flipWords, hwindow, List.take_left' hlen,
            List.drop_left' hlen]

/-- The bytes of an array as they are when one side of the copy is in the
order of the host and the other in the order asked for. -/
def ordered (host e : ByteOrder) (w k : Nat) (bytes : List UInt8) : List UInt8 :=
  if e = host then bytes else flipWords w k bytes

theorem copyWords_eq (host e : ByteOrder) {w k : Nat} (hw : 0 < w)
    (hn : e = host ∨ k * w < 2 ^ 32) {src dst : List UInt8} {a b : Nat}
    (ha : a + k * w ≤ src.length) (hb : b + k * w ≤ dst.length) :
    copyWords host e w (k * w) src a dst b =
      .ok (put dst b (ordered host e w k (window src a (a + k * w)))) := by
  rw [copyWords, ordered]
  split
  · have hlen : (window src a (a + k * w)).length = k * w := by
      rw [window_length src ha]
      omega
    rw [read_eq ha, access_ok, ok_bind, write_eq (by rw [hlen]; exact hb), access_ok]
  · rename_i hne
    have hfuel : k ≤ k * w := Nat.le_mul_of_pos_right k hw
    have hloop := swapLoop_eq host hw (hn.resolve_left hne) ha (i := 0) (Nat.zero_add _) hfuel hb
    rw [Nat.add_zero, Nat.add_zero] at hloop
    exact hloop

/-- What comes from memory in the order of the host goes into the buffer in
the order asked for. -/
theorem ordered_put (host e : ByteOrder) (w : Nat) (xs : List Nat) :
    ordered host e w xs.length (encodeAll host w xs) = encodeAll e w xs := by
  rw [ordered]
  split
  · rename_i heq
    rw [heq]
  · rename_i hne
    rw [flipWords_encodeAll, (flip_of_ne hne).1]

/-- And the other way. -/
theorem ordered_get (host e : ByteOrder) (w : Nat) (xs : List Nat) :
    ordered host e w xs.length (encodeAll e w xs) = encodeAll host w xs := by
  rw [ordered]
  split
  · rename_i heq
    rw [heq]
  · rename_i hne
    rw [flipWords_encodeAll, (flip_of_ne hne).2]

theorem ordered_length (host e : ByteOrder) {w k : Nat} {bytes : List UInt8}
    (h : bytes.length = k * w) : (ordered host e w k bytes).length = k * w := by
  rw [ordered]
  split
  · exact h
  · exact flipWords_length h

theorem putWords_eq (h : Sound s) (host e : ByteOrder) {w k : Nat} (hw : 0 < w)
    (hn : e = host ∨ k * w < 2 ^ 32) (hsize : s.pos + k * w < 2 ^ 63)
    (howned : s.allocated < s.pos + k * w → s.borrowed = false) {memory : List UInt8}
    (hmemory : memory.length = k * w) :
    putWords host e w k fresh s (some memory) =
      .ok (true, placed fresh s (ordered host e w k memory)) := by
  have hall : window memory 0 (0 + k * w) = memory := by
    rw [Nat.zero_add, window, List.drop_zero, Nat.sub_zero, ← hmemory, List.take_length]
  have hlen := ordered_length host e hmemory
  have hsize64 : s.pos + k * w < 2 ^ 64 := by omega
  have hroom : s.pos + k * w ≤ (grown fresh s (s.pos + k * w)).data.length := by
    rw [(sound_grown fresh h hsize64).block]
    exact Nat.le_max_right _ _
  have hcopy := copyWords_eq host e hw hn (a := 0)
    (Nat.le_of_eq ((Nat.zero_add _).trans hmemory.symm)) hroom
  rw [hall] at hcopy
  have hn64 : gsize (k * w) = k * w := gsize_of_lt (by omega)
  have hpos : (grown fresh s (s.pos + k * w)).pos = s.pos := rfl
  rw [putWords, hn64, setAvailable_eq fresh h hsize howned, ok_bind]
  simp only [hpos]
  rw [hcopy, ok_bind, gsize_of_lt hsize64, placed, hlen]

theorem putWords_spec (h : Valid s) (host e : ByteOrder) {w k : Nat} (hw : 0 < w)
    (hn : e = host ∨ k * w < 2 ^ 32) (hsize : s.pos + k * w < 2 ^ 63) {memory : List UInt8}
    (hmemory : memory.length = k * w) :
    ∃ t, putWords host e w k fresh s (some memory) = .ok (true, t) ∧
      Put s (ordered host e w k memory) t := by
  have hroom : s.pos + (ordered host e w k memory).length < 2 ^ 63 := by
    rw [ordered_length host e hmemory]
    exact hsize
  exact ⟨_, putWords_eq fresh h.sound host e hw hn hsize (fun _ => h.owned) hmemory,
    put_placed fresh h hroom⟩

theorem getWord_spec (h : Sound s) (host e : ByteOrder) {w : Nat} (hw : s.pos + w ≤ s.length)
    (res : Option Nat) :
    getWord host e w s res =
      .ok (true, res.map (fun _ => decode e (window s.data s.pos (s.pos + w))),
        { s with pos := s.pos + w }) := by
  have hlen := h.length_le
  have hfits := h.fits
  have hroom : s.pos + w ≤ s.data.length := by
    rw [h.block]
    exact Nat.le_trans hw hlen
  have hbytes : (window s.data s.pos (s.pos + w)).length = w := by
    rw [window_length s.data hroom]
    omega
  have hdecode := decode_ordered host e (window s.data s.pos (s.pos + w))
  rw [hbytes] at hdecode
  rw [getWord, available_eq h, if_neg (by omega), read_eq hroom, gsize_of_lt (by omega)]
  cases res with
  | none => rfl
  | some r => simp only [access_ok, ok_bind, hdecode, Option.map_some]

theorem getWords_spec (h : Sound s) (host e : ByteOrder) {w k : Nat} (hw : 0 < w)
    (hn : e = host ∨ k * w < 2 ^ 32) (hroom : s.pos + k * w ≤ s.length) {memory : List UInt8}
    (hmemory : memory.length = k * w) :
    getWords host e w k s (some memory) =
      .ok (true, some (ordered host e w k (window s.data s.pos (s.pos + k * w))),
        { s with pos := s.pos + k * w }) := by
  have hlen := h.length_le
  have hfits := h.fits
  have hn64 : gsize (k * w) = k * w := gsize_of_lt (by omega)
  have hdata : s.pos + k * w ≤ s.data.length := by
    rw [h.block]
    exact Nat.le_trans hroom hlen
  have hcopy := copyWords_eq host e hw hn (b := 0) hdata
    (Nat.le_of_eq ((Nat.zero_add _).trans hmemory.symm))
  have hwindow : (window s.data s.pos (s.pos + k * w)).length = k * w := by
    rw [window_length s.data hdata]
    omega
  have hbytes := ordered_length host e hwindow
  rw [put_all (by rw [hbytes, hmemory])] at hcopy
  rw [getWords, hn64, available_eq h]
  simp only
  rw [if_neg (by omega), hcopy, gsize_of_lt (by omega)]
  rfl

inductive Width
  | w8
  | w16
  | w32
  | w64
  deriving DecidableEq

def Width.bytes : Width → Nat
  | .w8 => 1
  | .w16 => 2
  | .w32 => 4
  | .w64 => 8

theorem Width.bytes_pos (w : Width) : 0 < w.bytes := by
  cases w <;> decide

/-- What is put: a number or an array of numbers, each of which its width can
represent. -/
inductive Item
  | word (w : Width) (e : ByteOrder) (v : Fin (256 ^ w.bytes))
  | array (w : Width) (e : ByteOrder) (vs : List (Fin (256 ^ w.bytes)))

/-- What a get is told about the item. -/
inductive Shape
  | word (w : Width) (e : ByteOrder)
  | array (w : Width) (e : ByteOrder) (n : Nat)

def Item.shape : Item → Shape
  | .word w e _ => .word w e
  | .array w e vs => .array w e vs.length

def Item.values : Item → List Nat
  | .word _ _ v => [v.val]
  | .array _ _ vs => vs.map Fin.val

def Item.size : Item → Nat
  | .word w _ _ => w.bytes
  | .array w _ vs => vs.length * w.bytes

/-- An item with what the calls for it find: the memory that a longer block
gets, and what the caller's variable has held. -/
structure Call where
  item : Item
  fresh : Nat → UInt8
  old : Nat → UInt8

section Calls

variable (host : ByteOrder)

def putItem (c : Call) (s : ZPktBuf) : Except Halt (Bool × ZPktBuf) :=
  match c.item with
  | .word .w8 _ v => putU8 host c.fresh s v.val
  | .word .w16 e v => putU16 host e c.fresh s v.val
  | .word .w32 e v => putU32 host e c.fresh s v.val
  | .word .w64 e v => putU64 host e c.fresh s v.val
  | .array .w8 _ vs => putU8s host vs.length c.fresh s (some (encodeAll host 1 (vs.map Fin.val)))
  | .array .w16 e vs => putU16s host e vs.length c.fresh s (some (encodeAll host 2 (vs.map Fin.val)))
  | .array .w32 e vs => putU32s host e vs.length c.fresh s (some (encodeAll host 4 (vs.map Fin.val)))
  | .array .w64 e vs => putU64s host e vs.length c.fresh s (some (encodeAll host 8 (vs.map Fin.val)))

/-- The memory of an array that has not been written yet. -/
def oldArray (old : Nat → UInt8) (n w : Nat) : List UInt8 := (List.range (n * w)).map old

def gotWord (r : Bool × Option Nat × ZPktBuf) : (Bool × List Nat) × ZPktBuf :=
  ((r.1, r.2.1.toList), r.2.2)

def gotArray (w n : Nat) (r : Bool × Option (List UInt8) × ZPktBuf) : (Bool × List Nat) × ZPktBuf :=
  ((r.1, r.2.1.toList.flatMap (words host w n)), r.2.2)

def getItem (c : Call) (s : ZPktBuf) : Except Halt ((Bool × List Nat) × ZPktBuf) :=
  match c.item.shape with
  | .word .w8 _ => (getU8 host s (some (c.old 0).toNat)).map gotWord
  | .word .w16 e => (getU16 host e s (some (c.old 0).toNat)).map gotWord
  | .word .w32 e => (getU32 host e s (some (c.old 0).toNat)).map gotWord
  | .word .w64 e => (getU64 host e s (some (c.old 0).toNat)).map gotWord
  | .array .w8 _ n => (getU8s host n s (some (oldArray c.old n 1))).map (gotArray host 1 n)
  | .array .w16 e n => (getU16s host e n s (some (oldArray c.old n 2))).map (gotArray host 2 n)
  | .array .w32 e n => (getU32s host e n s (some (oldArray c.old n 4))).map (gotArray host 4 n)
  | .array .w64 e n => (getU64s host e n s (some (oldArray c.old n 8))).map (gotArray host 8 n)

/-- The functions for single bytes have no byte order. -/
def order (e : ByteOrder) : Width → ByteOrder
  | .w8 => host
  | .w16 | .w32 | .w64 => e

def layout : Item → List UInt8
  | .word w e v => encode (order host e w) w.bytes v.val
  | .array w e vs => encodeAll (order host e w) w.bytes (vs.map Fin.val)

end Calls

variable {host : ByteOrder}

theorem layout_length (item : Item) : (layout host item).length = item.size := by
  cases item with
  | word w e v => exact encode_length _ _ _
  | array w e vs => rw [layout, encodeAll_length, List.length_map, Item.size]

/-- The functions of a family differ in the width only. -/
theorem putItem_word (w : Width) (e : ByteOrder) (v : Fin (256 ^ w.bytes)) (fresh old : Nat → UInt8)
    (s : ZPktBuf) : putItem host ⟨.word w e v, fresh, old⟩ s =
      putWord host (order host e w) w.bytes fresh s v.val := by
  cases w <;> rfl

theorem putItem_array (w : Width) (e : ByteOrder) (vs : List (Fin (256 ^ w.bytes)))
    (fresh old : Nat → UInt8) (s : ZPktBuf) : putItem host ⟨.array w e vs, fresh, old⟩ s =
      putWords host (order host e w) w.bytes vs.length fresh s
        (some (encodeAll host w.bytes (vs.map Fin.val))) := by
  cases w <;> rfl

theorem getItem_word (w : Width) (e : ByteOrder) (v : Fin (256 ^ w.bytes)) (fresh old : Nat → UInt8)
    (s : ZPktBuf) : getItem host ⟨.word w e v, fresh, old⟩ s =
      (getWord host (order host e w) w.bytes s (some (old 0).toNat)).map gotWord := by
  cases w <;> rfl

theorem getItem_array (w : Width) (e : ByteOrder) (vs : List (Fin (256 ^ w.bytes)))
    (fresh old : Nat → UInt8) (s : ZPktBuf) : getItem host ⟨.array w e vs, fresh, old⟩ s =
      (getWords host (order host e w) w.bytes vs.length s
        (some (oldArray old vs.length w.bytes))).map (gotArray host w.bytes vs.length) := by
  cases w <;> rfl

theorem putItem_spec (host : ByteOrder) (c : Call) (h : Valid s) (hsize : s.pos + c.item.size < 2 ^ 31) :
    ∃ t, putItem host c s = .ok (true, t) ∧ Put s (layout host c.item) t := by
  rcases c with ⟨item, fresh, old⟩
  cases item with
  | word w e v =>
      simp only [Item.size] at hsize
      obtain ⟨t, hput, ht⟩ := putWord_spec fresh h host (order host e w) (w := w.bytes)
        (by omega) v.val
      exact ⟨t, (putItem_word w e v fresh old s).trans hput, ht⟩
  | array w e vs =>
      simp only [Item.size] at hsize
      have hlen : (vs.map Fin.val).length = vs.length := List.length_map _
      have hmemory := encodeAll_length host w.bytes (vs.map Fin.val)
      rw [hlen] at hmemory
      obtain ⟨t, hput, ht⟩ := putWords_spec fresh h host (order host e w) w.bytes_pos
        (.inr (by omega)) (by omega) hmemory
      have hordered := ordered_put host (order host e w) w.bytes (vs.map Fin.val)
      rw [hlen] at hordered
      rw [hordered] at ht
      exact ⟨t, (putItem_array w e vs fresh old s).trans hput, ht⟩

theorem getItem_spec (c : Call) (h : Valid s) (hroom : s.pos + c.item.size ≤ s.length)
    (hsize : s.pos + c.item.size < 2 ^ 31)
    (hbytes : window s.data s.pos (s.pos + c.item.size) = layout host c.item) :
    getItem host c s =
      .ok ((true, c.item.values), { s with pos := s.pos + c.item.size }) := by
  rcases c with ⟨item, fresh, old⟩
  cases item with
  | word w e v =>
      simp only [Item.size, layout] at hroom hsize hbytes ⊢
      have hget := getWord_spec h.sound host (order host e w) hroom (some (old 0).toNat)
      rw [hbytes, decode_encode _ v.isLt] at hget
      rw [getItem_word, hget]
      rfl
  | array w e vs =>
      simp only [Item.size, layout] at hroom hsize hbytes ⊢
      have hlen : (vs.map Fin.val).length = vs.length := List.length_map _
      have hold : (oldArray old vs.length w.bytes).length = vs.length * w.bytes := by
        rw [oldArray, List.length_map, List.length_range]
      have hget := getWords_spec h.sound host (order host e w) w.bytes_pos (.inr (by omega)) hroom hold
      have hordered := ordered_get host (order host e w) w.bytes (vs.map Fin.val)
      have hwords : words host w.bytes (vs.map Fin.val).length (encodeAll host w.bytes (vs.map Fin.val)) =
          vs.map Fin.val := by
        apply words_encodeAll
        intro x hx
        obtain ⟨v, -, rfl⟩ := List.mem_map.mp hx
        exact v.isLt
      rw [hlen] at hordered hwords
      rw [hbytes, hordered] at hget
      rw [getItem_array, hget]
      simp only [Except.map, gotArray, Option.toList_some, List.flatMap_cons, List.flatMap_nil,
        List.append_nil, hwords, Item.values]

def total (calls : List Call) : Nat := (calls.map (fun c => c.item.size)).sum

def layouts (host : ByteOrder) (calls : List Call) : List UInt8 :=
  calls.flatMap (fun c => layout host c.item)

theorem total_cons (c : Call) (calls : List Call) : total (c :: calls) = c.item.size + total calls :=
  List.sum_cons

theorem layouts_length (calls : List Call) : (layouts host calls).length = total calls := by
  induction calls with
  | nil => rfl
  | cons c calls ih =>
      rw [layouts, List.flatMap_cons, List.length_append, layout_length, ← layouts, ih, total_cons]

theorem putItems_spec (host : ByteOrder) (calls : List Call) (h : Valid s) (hsize : s.pos + total calls < 2 ^ 31) :
    ∃ t, Run.run (putItem host) calls s = .ok (calls.map (fun _ => true), t) ∧
      Put s (layouts host calls) t := by
  induction calls generalizing s with
  | nil => exact ⟨s, rfl, Put.nil h⟩
  | cons c calls ih =>
      rw [total_cons] at hsize
      obtain ⟨t, hput, ht⟩ := putItem_spec host c h (by omega)
      have hpos := ht.pos
      rw [layout_length] at hpos
      obtain ⟨u, hrun, hu⟩ := ih ht.valid (by omega)
      refine ⟨u, ?_, ht.trans h hu⟩
      simp only [Run.run, hput, hrun, Except.map, List.map_cons]

theorem getItems_spec (calls : List Call) (h : Valid s) (hroom : s.pos + total calls ≤ s.length)
    (hsize : s.pos + total calls < 2 ^ 31)
    (hbytes : window s.data s.pos (s.pos + total calls) = layouts host calls) :
    Run.run (getItem host) calls s =
      .ok (calls.map (fun c => (true, c.item.values)), { s with pos := s.pos + total calls }) := by
  induction calls generalizing s with
  | nil => rfl
  | cons c calls ih =>
      rw [total_cons] at hroom hsize hbytes
      have hblock : s.length ≤ s.data.length := by
        rw [h.block]
        exact h.length_le
      rw [layouts, List.flatMap_cons] at hbytes
      have hsplit := window_split (by omega) (by omega) hbytes
      rw [layout_length] at hsplit
      have hget := getItem_spec c h (by omega) (by omega) hsplit.1
      have hvalid : Valid { s with pos := s.pos + c.item.size } := by
        refine ⟨?_, h.length_le, h.block, h.owned, h.small⟩
        simp only
        omega
      have hrun := ih hvalid (by simp only; omega) (by simp only; omega)
        (by rw [← Nat.add_assoc] at hsplit; exact hsplit.2)
      rw [Run.run, hget]
      simp only [hrun, Except.map, List.map_cons, total_cons, Nat.add_assoc]

theorem seekSet_eq (h : Valid s) {pos : Nat} (hpos : pos ≤ s.length) :
    seek .seekSet s pos = .ok (true, { s with pos := pos }) := by
  have hinside := h.length_le
  have hsmall := h.small
  have hin : ¬(gssize s.length < (pos : Int) ∨ (pos : Int) < 0) := by
    rw [gssize_of_lt (by omega)]
    omega
  rw [seek, if_neg hin, Int.toNat_natCast]

/-- What has been put from a position on is got back from there, and the rest
of the buffer is left alone. -/
theorem got_back (host : ByteOrder) (calls : List Call) (h : Valid s)
    (hsize : s.pos + total calls < 2 ^ 31) :
    ∃ t u, Run.run (putItem host) calls s = .ok (calls.map (fun _ => true), t) ∧
      seek .seekSet t s.pos = .ok (true, u) ∧
      Run.run (getItem host) calls u = .ok (calls.map (fun c => (true, c.item.values)), t) ∧
      t.pos = s.pos + total calls ∧ t.length = max s.length (s.pos + total calls) ∧
      ∀ i, i < s.length → i < s.pos ∨ t.pos ≤ i → t.data[i]? = s.data[i]? := by
  obtain ⟨t, hrun, ht⟩ := putItems_spec host calls h hsize
  have hpos := ht.pos
  have hlength := ht.length
  have hwritten := ht.written
  have hsame := ht.same
  rw [layouts_length] at hpos hlength hwritten hsame
  have hvalid := ht.valid
  have hinside := hvalid.length_le
  have hsmall := hvalid.small
  have hseek := seekSet_eq hvalid (Nat.le_trans h.pos_le (hlength ▸ Nat.le_max_left _ _))
  have hstart : Valid { t with pos := s.pos } := by
    refine ⟨?_, hinside, hvalid.block, hvalid.owned, hsmall⟩
    simp only
    omega
  have hget := getItems_spec calls hstart (by simp only; omega) hsize hwritten
  have hend : { t with pos := s.pos + total calls } = t := by
    rw [← hpos]
  refine ⟨t, _, hrun, hseek, ?_, hpos, hlength, ?_⟩
  · rw [hget]
    simp only [hend]
  · intro i hi hout
    rw [hpos] at hout
    exact hsame i hi hout

/-- A number and an array over the end of a buffer of three bytes. -/
theorem got_back_longer :
    let s : ZPktBuf := { allocated := 3, length := 3, pos := 1, data := [9, 8, 7] }
    let calls : List Call :=
      [⟨.word .w16 .big 258, fun _ => 0, fun _ => 0⟩, ⟨.array .w8 .big [3, 4], fun _ => 0, fun _ => 0⟩]
    ∃ t u, Run.run (putItem .little) calls s = .ok ([true, true], t) ∧
      seek .seekSet t 1 = .ok (true, u) ∧
      Run.run (getItem .little) calls u = .ok ([(true, [258]), (true, [3, 4])], t) ∧
      t.pos = 5 ∧ t.length = 5 ∧ t.data[0]? = some 9 := by
  intro s calls
  have hvalid : Valid s := ⟨by decide, by decide, rfl, rfl, by decide⟩
  obtain ⟨t, u, hput, hseek, hget, hpos, hlength, hsame⟩ := got_back .little calls hvalid (by decide)
  exact ⟨t, u, hput, hseek, hget, hpos, hlength, hsame 0 (by decide) (.inl (by decide))⟩

end Libzorpll.PacketItems
