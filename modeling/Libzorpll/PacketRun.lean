import Libzorpll.PacketItems

/-! What every sequence of operations on a packet buffer keeps. -/

namespace Libzorpll.PacketRun

open Region Word PacketBuf PacketItems Run

inductive Op
  | copy (bytes : List UInt8)
  | append (bytes : List UInt8)
  | insert (pos : Nat) (bytes : List UInt8)
  | resize (size : Nat)
  | relocate (block : List UInt8)
  | setAvailable (size : Nat)
  | seek (whence : Whence) (offset : Int)
  | getWord (w : Width) (e : ByteOrder) (res : Option Nat)
  | putWord (w : Width) (e : ByteOrder) (d : Fin (256 ^ w.bytes))
  | getArray (w : Width) (e : ByteOrder) (n : Nat) (res : Option (List UInt8))
  | putArray (w : Width) (e : ByteOrder) (n : Nat) (res : Option (List UInt8))
  | getBoolean (res : Option Bool)
  | getBoolean16 (res : Option Bool)
  | putBoolean (res : Bool)

/-- The result and the buffer of a get. -/
def outcome {α : Type} (r : Bool × α × ZPktBuf) : Bool × ZPktBuf := (r.1, r.2.2)

def returnsTrue (s : ZPktBuf) : Bool × ZPktBuf := (true, s)

/-- An operation, and the memory that a longer block gets. -/
def perform (host : ByteOrder) (c : Op × (Nat → UInt8)) (s : ZPktBuf) : Except Halt (Bool × ZPktBuf) :=
  match c.1 with
  | .copy bytes => copy c.2 s bytes
  | .append bytes => append c.2 s bytes
  | .insert pos bytes => insert c.2 s pos bytes
  | .resize size => (resize c.2 s size).map returnsTrue
  | .relocate block => .ok (true, relocate s block false)
  | .setAvailable size => setAvailable c.2 s size
  | .seek whence offset => seek whence s offset
  | .getWord .w8 _ res => (getU8 host s res).map outcome
  | .getWord .w16 e res => (getU16 host e s res).map outcome
  | .getWord .w32 e res => (getU32 host e s res).map outcome
  | .getWord .w64 e res => (getU64 host e s res).map outcome
  | .putWord .w8 _ d => putU8 host c.2 s d.val
  | .putWord .w16 e d => putU16 host e c.2 s d.val
  | .putWord .w32 e d => putU32 host e c.2 s d.val
  | .putWord .w64 e d => putU64 host e c.2 s d.val
  | .getArray .w8 _ n res => (getU8s host n s res).map outcome
  | .getArray .w16 e n res => (getU16s host e n s res).map outcome
  | .getArray .w32 e n res => (getU32s host e n s res).map outcome
  | .getArray .w64 e n res => (getU64s host e n s res).map outcome
  | .putArray .w8 _ n res => putU8s host n c.2 s res
  | .putArray .w16 e n res => putU16s host e n c.2 s res
  | .putArray .w32 e n res => putU32s host e n c.2 s res
  | .putArray .w64 e n res => putU64s host e n c.2 s res
  | .getBoolean res => (getBoolean host s res).map outcome
  | .getBoolean16 res => (getBoolean16 host s res).map outcome
  | .putBoolean res => putBoolean c.2 s res

/-- The sums stay below 2 ^ 63, an insert is inside the contents, and an array
of the caller has the elements that are announced. -/
def Allowed (c : Op × (Nat → UInt8)) (s : ZPktBuf) : Prop :=
  match c.1 with
  | .copy bytes | .relocate bytes => bytes.length < 2 ^ 63
  | .append bytes => s.length + bytes.length < 2 ^ 63
  | .insert pos bytes => pos ≤ s.length ∧ s.length + bytes.length < 2 ^ 63
  | .resize size => size < 2 ^ 63
  | .setAvailable size => s.pos + size < 2 ^ 63
  | .seek _ offset => -2 ^ 63 < offset ∧ offset < 2 ^ 63
  | .getWord _ _ _ | .getBoolean _ | .getBoolean16 _ => True
  | .putWord w _ _ => s.pos + w.bytes < 2 ^ 63
  | .putBoolean _ => s.pos + 1 < 2 ^ 63
  | .getArray w _ n res | .putArray w _ n res =>
      s.pos + n * w.bytes < 2 ^ 63 ∧ ∀ memory, res = some memory → memory.length = n * w.bytes

/-- What an operation does to the contents. -/
def Effect (op : Op) (s t : ZPktBuf) : Prop :=
  match op with
  | .copy bytes | .relocate bytes => contents t = bytes
  | .append bytes => contents t = contents s ++ bytes
  | .insert pos bytes => contents t = (contents s).take pos ++ bytes ++ (contents s).drop pos
  | .resize size => contents t = (contents s).take size
  | .setAvailable _ => contents s <+: contents t
  | .putWord _ _ _ | .putArray _ _ _ _ | .putBoolean _ => (contents s).take s.pos <+: contents t
  | .seek _ _ | .getWord _ _ _ | .getArray _ _ _ _ | .getBoolean _ | .getBoolean16 _ =>
      contents t = contents s

/-- A loop over an array of 2 ^ 32 bytes or more in the other byte order has
no end. -/
def Endless (host : ByteOrder) (op : Op) : Prop :=
  match op with
  | .getArray w e n (some _) | .putArray w e n (some _) =>
      order host e w ≠ host ∧ 2 ^ 32 ≤ n * w.bytes
  | _ => False

/-- What holds after an operation that comes back. -/
structure Kept (op : Op) (s : ZPktBuf) (res : Bool) (t : ZPktBuf) : Prop where
  valid : Valid t
  unchanged : res = false → t = s
  effect : Effect op s t

variable (fresh : Nat → UInt8) {s : ZPktBuf}

theorem contents_eq_take (s : ZPktBuf) : contents s = s.data.take s.length := by
  rw [contents, window, List.drop_zero, Nat.sub_zero]

theorem valid_resized (h : Valid s) {size : Nat} (hsize : size < 2 ^ 63) :
    ∃ t, resize fresh s size = .ok t ∧ Valid t ∧ t.length = min s.length size ∧ size ≤ t.allocated ∧
      ∀ i, i < s.allocated → t.data[i]? = s.data[i]? := by
  have hlen := h.length_le
  have hpos := h.pos_le
  have hgrown := valid_grown fresh h hsize
  refine ⟨_, resize_eq fresh (fun _ => h.owned), ⟨?_, ?_, hgrown.block, h.owned, hgrown.small⟩, rfl,
    Nat.le_max_right _ _, fun i hi => grown_getElem? fresh h.sound size hi⟩
  · exact Nat.le_min.mpr ⟨Nat.le_trans (Nat.min_le_left _ _) hpos, Nat.min_le_right _ _⟩
  · exact Nat.le_trans (Nat.min_le_left _ _) (Nat.le_trans hlen (Nat.le_max_left _ _))

theorem copy_kept (h : Valid s) {bytes : List UInt8} (hsize : bytes.length < 2 ^ 63) :
    ∃ t, copy fresh s bytes = .ok (true, t) ∧ Valid t ∧ contents t = bytes := by
  obtain ⟨t, hresize, ht, hlength, hallocated, -⟩ := valid_resized fresh h hsize
  have hroom : 0 + bytes.length ≤ t.data.length := by
    rw [Nat.zero_add, ht.block]
    exact hallocated
  have hpos : (if bytes.length < t.pos then { t with pos := bytes.length } else t).pos ≤ bytes.length ∧
      (if bytes.length < t.pos then { t with pos := bytes.length } else t).data = t.data ∧
      (if bytes.length < t.pos then { t with pos := bytes.length } else t).allocated = t.allocated ∧
      (if bytes.length < t.pos then { t with pos := bytes.length } else t).borrowed = t.borrowed := by
    split
    · exact ⟨Nat.le_refl _, rfl, rfl, rfl⟩
    · rename_i hle
      exact ⟨Nat.not_lt.mp hle, rfl, rfl, rfl⟩
  obtain ⟨hle, hdata, halloc, hborrowed⟩ := hpos
  refine ⟨{ (if bytes.length < t.pos then { t with pos := bytes.length } else t) with
    data := put t.data 0 bytes
    length := bytes.length }, ?_, ⟨hle, ?_, ?_, ?_, ?_⟩, ?_⟩
  · rw [copy, hresize, ok_bind]
    simp only [hdata]
    rw [write_eq hroom, access_ok, ok_bind]
  · simp only [halloc]
    exact hallocated
  · simp only [halloc, put_length hroom]
    exact ht.block
  · exact hborrowed.trans ht.owned
  · simp only [halloc]
    exact ht.small
  · rw [contents]
    have hsame := window_put_same hroom
    rw [Nat.zero_add] at hsame
    exact hsame

theorem append_kept (h : Valid s) {bytes : List UInt8} (hsize : s.length + bytes.length < 2 ^ 63) :
    ∃ t, append fresh s bytes = .ok (true, t) ∧ Valid t ∧ contents t = contents s ++ bytes := by
  obtain ⟨t, hresize, ht, hlength, hallocated, hsame⟩ := valid_resized fresh h hsize
  rw [Nat.min_eq_left (Nat.le_add_right _ _)] at hlength
  have hroom : s.length + bytes.length ≤ t.data.length := by
    rw [ht.block]
    exact hallocated
  have hcontents : window t.data 0 s.length = contents s := by
    apply window_congr
    intro i _ hi
    exact hsame i (Nat.lt_of_lt_of_le hi h.length_le)
  refine ⟨{ t with data := put t.data s.length bytes, length := s.length + bytes.length }, ?_,
    ⟨?_, hallocated, ?_, ht.owned, ht.small⟩, ?_⟩
  · rw [append, gsize_of_lt (by omega), hresize]
    rw [ok_bind, hlength, write_eq hroom, access_ok, ok_bind, gsize_of_lt (by omega)]
  · have hpos := ht.pos_le
    rw [hlength] at hpos
    exact Nat.le_trans hpos (Nat.le_add_right _ _)
  · rw [put_length hroom]
    exact ht.block
  · rw [contents, window_put_append (Nat.zero_le _) hroom, hcontents]

theorem insert_kept (h : Valid s) {pos : Nat} (hpos : pos ≤ s.length) {bytes : List UInt8}
    (hsize : s.length + bytes.length < 2 ^ 63) :
    ∃ t, insert fresh s pos bytes = .ok (true, t) ∧ Valid t ∧
      contents t = (contents s).take pos ++ bytes ++ (contents s).drop pos := by
  obtain ⟨t, hresize, ht, hlength, hallocated, hsame⟩ := valid_resized fresh h hsize
  rw [Nat.min_eq_left (Nat.le_add_right _ _)] at hlength
  have hdata : s.length + bytes.length ≤ t.data.length := by
    rw [ht.block]
    exact hallocated
  have htail : (window t.data pos s.length).length = s.length - pos :=
    window_length t.data (by omega)
  have hmove : move t.data (pos + bytes.length) pos (s.length - pos) =
      .ok (put t.data (pos + bytes.length) (window t.data pos (pos + (s.length - pos)))) :=
    move_eq (by omega) (by omega)
  rw [Nat.add_sub_cancel' hpos] at hmove
  have hmoved : pos + bytes.length + (window t.data pos s.length).length ≤ t.data.length := by omega
  have hlen := put_length hmoved
  have hroom : pos + bytes.length ≤ (put t.data (pos + bytes.length) (window t.data pos s.length)).length := by
    omega
  have hwindow {a b : Nat} (hb : b ≤ s.length) : window t.data a b = window s.data a b := by
    apply window_congr
    intro i _ hi
    exact hsame i (by have := h.length_le; omega)
  refine ⟨{ t with
    data := put (put t.data (pos + bytes.length) (window t.data pos s.length)) pos bytes
    length := s.length + bytes.length }, ?_, ⟨?_, hallocated, ?_, ht.owned, ht.small⟩, ?_⟩
  · have hleft : gsub s.length pos = s.length - pos := gsub_of_le hpos (by omega)
    rw [PacketBuf.insert, gsize_of_lt (by omega), hresize, ok_bind, hlength, hleft, hmove, access_ok, ok_bind,
      write_eq hroom, access_ok, ok_bind, gsize_of_lt (by omega)]
  · have hle := ht.pos_le
    rw [hlength] at hle
    exact Nat.le_trans hle (Nat.le_add_right _ _)
  · rw [put_length hroom, hlen]
    exact ht.block
  · have hend : s.length + bytes.length = pos + bytes.length + (window t.data pos s.length).length := by
      omega
    have hfirst : (contents s).take pos = window s.data 0 pos := by
      rw [contents_eq_take, List.take_take, Nat.min_eq_left hpos, window, List.drop_zero, Nat.sub_zero]
    have hlast : (contents s).drop pos = window s.data pos s.length := by
      rw [contents_eq_take, List.drop_take, window]
    rw [contents, hfirst, hlast, ← window_append _ (Nat.zero_le pos) (by omega : pos ≤ s.length + bytes.length),
      ← window_append _ (Nat.le_add_right pos bytes.length) (by omega : _ ≤ s.length + bytes.length),
      window_put_before hroom (Nat.le_refl _), window_put_before hmoved (Nat.le_add_right _ _),
      window_put_same hroom, window_put_after hroom (Nat.le_refl _), hend, window_put_same hmoved,
      hwindow hpos, hwindow (Nat.le_refl _), List.append_assoc]

theorem take_contents {k : Nat} (hk : k ≤ s.length) : (contents s).take k = window s.data 0 k := by
  rw [contents_eq_take, List.take_take, Nat.min_eq_left hk, window, List.drop_zero, Nat.sub_zero]

theorem take_prefix_contents {t : ZPktBuf} {k : Nat} (hs : k ≤ s.length) (ht : k ≤ t.length)
    (hsame : ∀ i, i < k → t.data[i]? = s.data[i]?) : (contents s).take k <+: contents t := by
  have hwindow : window t.data 0 k = window s.data 0 k := by
    apply window_congr
    intro i _ hi
    exact hsame i hi
  rw [take_contents hs, ← hwindow, contents, ← window_append t.data (Nat.zero_le k) ht]
  exact List.prefix_append _ _

theorem resize_kept (h : Valid s) {size : Nat} (hsize : size < 2 ^ 63) :
    ∃ t, resize fresh s size = .ok t ∧ Valid t ∧ contents t = (contents s).take size := by
  obtain ⟨t, hresize, ht, hlength, -, hsame⟩ := valid_resized fresh h hsize
  refine ⟨t, hresize, ht, ?_⟩
  rw [contents_eq_take s, List.take_take, Nat.min_comm, ← hlength, contents, window, List.drop_zero,
    Nat.sub_zero]
  apply List.ext_getElem?
  intro i
  rw [List.getElem?_take, List.getElem?_take]
  split
  · have hlen := h.length_le
    exact hsame i (by omega)
  · rfl

theorem relocate_kept (s : ZPktBuf) {block : List UInt8} (hsize : block.length < 2 ^ 63) :
    Valid (relocate s block false) ∧ contents (relocate s block false) = block := by
  have hall : window block 0 block.length = block := by
    rw [window, List.drop_zero, Nat.sub_zero, List.take_length]
  rw [relocate]
  split
  · exact ⟨⟨Nat.le_refl _, Nat.le_refl _, rfl, rfl, hsize⟩, hall⟩
  · rename_i hle
    exact ⟨⟨Nat.not_lt.mp hle, Nat.le_refl _, rfl, rfl, hsize⟩, hall⟩

theorem setAvailable_kept (h : Valid s) {size : Nat} (hsize : s.pos + size < 2 ^ 63) :
    ∃ t, setAvailable fresh s size = .ok (true, t) ∧ Valid t ∧ contents s <+: contents t := by
  refine ⟨_, setAvailable_eq fresh h.sound hsize (fun _ => h.owned), valid_grown fresh h hsize, ?_⟩
  have hprefix := take_prefix_contents (t := grown fresh s (s.pos + size)) (Nat.le_refl s.length)
    (Nat.le_max_left _ _) (fun i hi => grown_getElem? fresh h.sound _ (Nat.lt_of_lt_of_le hi h.length_le))
  rw [take_contents (Nat.le_refl _)] at hprefix
  exact hprefix

theorem gssize_of_range {n : Int} (hlow : -2 ^ 63 ≤ n) (hhigh : n < 2 ^ 63) : gssize n = n := by
  rw [gssize, Int.bmod_eq_of_le]
  · omega
  · omega

/-- The position moves inside the contents. -/
theorem valid_moved (h : Valid s) {pos : Nat} (hpos : pos ≤ s.length) : Valid { s with pos := pos } :=
  ⟨hpos, h.length_le, h.block, h.owned, h.small⟩

theorem seek_kept (h : Valid s) (whence : Whence) {offset : Int} (hlow : -2 ^ 63 < offset)
    (hhigh : offset < 2 ^ 63) :
    ∃ r t, seek whence s offset = .ok (r, t) ∧ Valid t ∧ contents t = contents s ∧
      (r = false → t = s) := by
  have hpos := h.pos_le
  have hlen := h.length_le
  have hsmall := h.small
  have hlength : gssize s.length = s.length := gssize_of_lt (by omega)
  cases whence with
  | seekCur =>
      have hp : gssize s.pos = s.pos := gssize_of_lt (by omega)
      rw [seek]
      simp only [hp]
      split
      · exact ⟨false, s, rfl, h, rfl, fun _ => rfl⟩
      · rename_i hle
        -- A sum of 2 ^ 63 or more is behind the end.
        have hsum : gssize (s.pos + offset) = s.pos + offset :=
          gssize_of_range (by omega) (by omega)
        rw [if_neg (not_not_intro hsum)]
        split
        · exact ⟨false, s, rfl, h, rfl, fun _ => rfl⟩
        · exact ⟨true, _, rfl, valid_moved h (Nat.not_lt.mp hle), rfl, fun hr => Bool.noConfusion hr⟩
  | seekSet =>
      rw [seek, hlength]
      split
      · exact ⟨false, s, rfl, h, rfl, fun _ => rfl⟩
      · rename_i hin
        exact ⟨true, _, rfl, valid_moved h (by omega), rfl, fun hr => Bool.noConfusion hr⟩
  | seekEnd =>
      have hneg : gssize (-offset) = -offset := gssize_of_range (by omega) (by omega)
      rw [seek, if_neg (not_not_intro hneg), hlength]
      split
      · exact ⟨false, s, rfl, h, rfl, fun _ => rfl⟩
      · split
        · exact ⟨false, s, rfl, h, rfl, fun _ => rfl⟩
        · exact ⟨true, _, rfl, valid_moved h (by omega), rfl, fun hr => Bool.noConfusion hr⟩

/-- What a get of one word or flag leaves. -/
theorem moved_past (h : Valid s) {w : Nat} (hw : ¬available s < w) :
    gsize (s.pos + w) = s.pos + w ∧ s.pos + w ≤ s.length := by
  have hlen := h.length_le
  have hpos := h.pos_le
  have hsmall := h.small
  rw [available_eq h.sound] at hw
  exact ⟨gsize_of_lt (by omega), by omega⟩

theorem read_inside (h : Valid s) {w : Nat} (hw : s.pos + w ≤ s.length) :
    read s.data s.pos w = .ok (window s.data s.pos (s.pos + w)) := by
  apply read_eq
  rw [h.block]
  exact Nat.le_trans hw h.length_le

/-- What holds after an operation that does not touch the contents. -/
structure Looked (s : ZPktBuf) (res : Bool) (t : ZPktBuf) : Prop where
  valid : Valid t
  contents : contents t = contents s
  unchanged : res = false → t = s

theorem Looked.refused (h : Valid s) : Looked s false s := ⟨h, rfl, fun _ => rfl⟩

theorem Looked.moved (h : Valid s) {pos : Nat} (hpos : pos ≤ s.length) :
    Looked s true { s with pos := pos } := ⟨valid_moved h hpos, rfl, fun hr => nomatch hr⟩

theorem getWord_looked (h : Valid s) (host e : ByteOrder) (w : Nat) (res : Option Nat) :
    ∃ r v t, getWord host e w s res = .ok (r, v, t) ∧ Looked s r t := by
  by_cases hw : available s < w
  · exact ⟨false, res, s, if_pos hw, Looked.refused h⟩
  · obtain ⟨hpos, hroom⟩ := moved_past h hw
    rw [getWord, if_neg hw, read_inside h hroom, hpos]
    cases res with
    | none => exact ⟨true, none, _, rfl, Looked.moved h hroom⟩
    | some v => exact ⟨true, _, _, rfl, Looked.moved h hroom⟩

theorem getFlag_looked (h : Valid s) (host : ByteOrder) (w : Nat) (res : Option Bool) :
    ∃ r v t, getFlag host w s res = .ok (r, v, t) ∧ Looked s r t := by
  by_cases hw : available s < w
  · exact ⟨false, res, s, if_pos hw, Looked.refused h⟩
  · obtain ⟨hpos, hroom⟩ := moved_past h hw
    rw [getFlag, if_neg hw, read_inside h hroom, hpos]
    cases res with
    | none => exact ⟨true, none, _, rfl, Looked.moved h hroom⟩
    | some v => exact ⟨true, _, _, rfl, Looked.moved h hroom⟩

/-- The index comes back to 0 at 2 ^ 32 and every access is inside. -/
theorem swapLoop_endless (host : ByteOrder) {w n : Nat} (hdvd : w ∣ 2 ^ 32)
    (hn : 2 ^ 32 ≤ n) {src : List UInt8} {a b : Nat} (ha : a + n ≤ src.length) (fuel : Nat) {i : Nat}
    (hi : i < 2 ^ 32) (hmul : w ∣ i) {dst : List UInt8} (hb : b + n ≤ dst.length) :
    swapLoop host w n src a b fuel i dst = .error (.memory .diverges) := by
  have hround : ¬n ≤ i := by omega
  induction fuel generalizing i dst with
  | zero => rw [swapLoop, if_neg hround]
  | succ fuel ih =>
      have hleft : w ≤ 2 ^ 32 - i := Nat.le_of_dvd (by omega) (Nat.dvd_sub hdvd hmul)
      have hwrite : b + i +
          (encode host w (swap w (decode host (window src (a + i) (a + i + w))))).length ≤ dst.length := by
        rw [encode_length]
        omega
      have hnext : (i + w) % 2 ^ 32 < 2 ^ 32 := Nat.mod_lt _ (by omega)
      rw [swapLoop, if_neg hround, read_eq (by omega), access_ok, ok_bind, write_eq hwrite, access_ok,
        ok_bind]
      apply ih hnext
      · exact (Nat.dvd_mod_iff hdvd).mpr (Nat.dvd_add hmul (Nat.dvd_refl w))
      · rw [put_length hwrite]
        exact hb
      · omega

theorem bytes_dvd (w : Width) : w.bytes ∣ 2 ^ 32 := by
  cases w <;> decide

theorem copyWords_endless {host e : ByteOrder} (hne : e ≠ host) (w : Width) {n : Nat} (hn : 2 ^ 32 ≤ n)
    {src dst : List UInt8} {a b : Nat} (ha : a + n ≤ src.length) (hb : b + n ≤ dst.length) :
    copyWords host e w.bytes n src a dst b = .error (.memory .diverges) := by
  rw [copyWords, if_neg hne]
  exact swapLoop_endless host (bytes_dvd w) hn ha n (by omega) (Nat.dvd_zero _) hb

theorem getWords_looked (h : Valid s) (host e : ByteOrder) (w : Width) {k : Nat}
    (hsize : s.pos + k * w.bytes < 2 ^ 63) {res : Option (List UInt8)}
    (hres : ∀ memory, res = some memory → memory.length = k * w.bytes) :
    (getWords host e w.bytes k s res = .error (.memory .diverges) ∧
        (∃ memory, res = some memory) ∧ e ≠ host ∧ 2 ^ 32 ≤ k * w.bytes) ∨
      ∃ r v t, getWords host e w.bytes k s res = .ok (r, v, t) ∧ Looked s r t := by
  have hn64 : gsize (k * w.bytes) = k * w.bytes := gsize_of_lt (by omega)
  by_cases hw : available s < k * w.bytes
  · refine .inr ⟨false, res, s, ?_, Looked.refused h⟩
    rw [getWords, hn64]
    exact if_pos hw
  · obtain ⟨hpos, hroom⟩ := moved_past h hw
    cases res with
    | none =>
        refine .inr ⟨true, none, _, ?_, Looked.moved h hroom⟩
        rw [getWords, hn64, hpos]
        exact if_neg hw
    | some memory =>
        have hmemory := hres memory rfl
        by_cases hn : e = host ∨ k * w.bytes < 2 ^ 32
        · exact .inr ⟨true, _, _, getWords_spec h.sound host e w.bytes_pos hn hroom hmemory,
            Looked.moved h hroom⟩
        · rw [not_or, Nat.not_lt] at hn
          refine .inl ⟨?_, ⟨memory, rfl⟩, hn⟩
          have hdata : s.pos + k * w.bytes ≤ s.data.length := by
            rw [h.block]
            exact Nat.le_trans hroom h.length_le
          rw [getWords, hn64]
          simp only
          rw [if_neg hw, copyWords_endless hn.1 w hn.2 hdata (by omega)]
          rfl

/-- What holds after bytes have been put at the position. -/
structure Wrote (s t : ZPktBuf) : Prop where
  valid : Valid t
  before : (contents s).take s.pos <+: contents t

theorem Wrote.of_put {bytes : List UInt8} {t : ZPktBuf} (h : Valid s) (hput : Put s bytes t) :
    Wrote s t := by
  have hpos := h.pos_le
  refine ⟨hput.valid, take_prefix_contents hpos ?_ ?_⟩
  · rw [hput.length]
    exact Nat.le_trans hpos (Nat.le_max_left _ _)
  · intro i hi
    exact hput.same i (Nat.lt_of_lt_of_le hi hpos) (.inl hi)

theorem putWords_wrote (h : Valid s) (host e : ByteOrder) (w : Width) {k : Nat}
    (hsize : s.pos + k * w.bytes < 2 ^ 63) {res : Option (List UInt8)}
    (hres : ∀ memory, res = some memory → memory.length = k * w.bytes) :
    (putWords host e w.bytes k fresh s res = .error (.memory .diverges) ∧
        (∃ memory, res = some memory) ∧ e ≠ host ∧ 2 ^ 32 ≤ k * w.bytes) ∨
      ∃ t, putWords host e w.bytes k fresh s res = .ok (true, t) ∧ Wrote s t := by
  have hn64 : gsize (k * w.bytes) = k * w.bytes := gsize_of_lt (by omega)
  have hgrown := valid_grown fresh h hsize
  cases res with
  | none =>
      refine .inr ⟨{ grown fresh s (s.pos + k * w.bytes) with pos := s.pos + k * w.bytes }, ?_,
        valid_moved hgrown (Nat.le_max_right _ _), ?_⟩
      · rw [putWords, hn64, setAvailable_eq fresh h.sound hsize (fun _ => h.owned), ok_bind]
        simp only [ok_bind]
        have hpos : (grown fresh s (s.pos + k * w.bytes)).pos = s.pos := rfl
        rw [hpos, gsize_of_lt (by omega)]
      · apply take_prefix_contents h.pos_le
        · exact Nat.le_trans h.pos_le (Nat.le_max_left _ _)
        · intro i hi
          have hpos := h.pos_le
          have hlen := h.length_le
          exact grown_getElem? fresh h.sound _ (by omega)
  | some memory =>
      have hmemory := hres memory rfl
      by_cases hn : e = host ∨ k * w.bytes < 2 ^ 32
      · obtain ⟨t, hrun, ht⟩ := putWords_spec fresh h host e w.bytes_pos hn hsize hmemory
        exact .inr ⟨t, hrun, Wrote.of_put h ht⟩
      · rw [not_or, Nat.not_lt] at hn
        refine .inl ⟨?_, ⟨memory, rfl⟩, hn⟩
        have hpos : (grown fresh s (s.pos + k * w.bytes)).pos = s.pos := rfl
        have hroom : s.pos + k * w.bytes ≤ (grown fresh s (s.pos + k * w.bytes)).data.length := by
          rw [hgrown.block]
          exact Nat.le_max_right _ _
        rw [putWords, hn64, setAvailable_eq fresh h.sound hsize (fun _ => h.owned), ok_bind]
        simp only [hpos]
        rw [copyWords_endless hn.1 w hn.2 (by omega) hroom]
        rfl

theorem putBoolean_wrote (h : Valid s) (hsize : s.pos + 1 < 2 ^ 63) (res : Bool) :
    ∃ t, putBoolean fresh s res = .ok (true, t) ∧ Wrote s t := by
  have hroom : s.pos + [if res then (1 : UInt8) else 0].length < 2 ^ 63 := hsize
  have hwrite := place_eq fresh h.sound (Nat.lt_trans hroom (by decide))
  refine ⟨_, ?_, Wrote.of_put h (put_placed fresh h hroom)⟩
  rw [putBoolean, setAvailable_eq fresh h.sound hsize (fun _ => h.owned), ok_bind]
  exact hwrite

/-- The functions of a family differ in the width only. -/
theorem perform_getWord (host : ByteOrder) (w : Width) (e : ByteOrder) (res : Option Nat) :
    perform host (.getWord w e res, fresh) s =
      (getWord host (order host e w) w.bytes s res).map outcome := by
  cases w <;> rfl

theorem perform_putWord (host : ByteOrder) (w : Width) (e : ByteOrder) (d : Fin (256 ^ w.bytes)) :
    perform host (.putWord w e d, fresh) s =
      putWord host (order host e w) w.bytes fresh s d.val := by
  cases w <;> rfl

theorem perform_getArray (host : ByteOrder) (w : Width) (e : ByteOrder) (n : Nat)
    (res : Option (List UInt8)) :
    perform host (.getArray w e n res, fresh) s =
      (getWords host (order host e w) w.bytes n s res).map outcome := by
  cases w <;> rfl

theorem perform_putArray (host : ByteOrder) (w : Width) (e : ByteOrder) (n : Nat)
    (res : Option (List UInt8)) :
    perform host (.putArray w e n res, fresh) s =
      putWords host (order host e w) w.bytes n fresh s res := by
  cases w <;> rfl

/-- An operation on a valid buffer comes back, or it is a loop without an
end. -/
theorem perform_kept (host : ByteOrder) (c : Op × (Nat → UInt8)) (h : Valid s) (hop : Allowed c s) :
    (∃ e, perform host c s = .error e ∧ e = .memory .diverges ∧ Endless host c.1) ∨
      ∃ r t, perform host c s = .ok (r, t) ∧ Kept c.1 s r t := by
  obtain ⟨op, fresh⟩ := c
  cases op with
  | copy bytes =>
      obtain ⟨t, hrun, ht, heffect⟩ := copy_kept fresh h hop
      exact .inr ⟨true, t, hrun, ht, (fun hr => nomatch hr), heffect⟩
  | append bytes =>
      obtain ⟨t, hrun, ht, heffect⟩ := append_kept fresh h hop
      exact .inr ⟨true, t, hrun, ht, (fun hr => nomatch hr), heffect⟩
  | insert pos bytes =>
      obtain ⟨t, hrun, ht, heffect⟩ := insert_kept fresh h hop.1 hop.2
      exact .inr ⟨true, t, hrun, ht, (fun hr => nomatch hr), heffect⟩
  | resize size =>
      obtain ⟨t, hrun, ht, heffect⟩ := resize_kept fresh h hop
      refine .inr ⟨true, t, ?_, ht, (fun hr => nomatch hr), heffect⟩
      have hperform : perform host (.resize size, fresh) s = (resize fresh s size).map returnsTrue := rfl
      rw [hperform, hrun]
      rfl
  | relocate block =>
      obtain ⟨ht, heffect⟩ := relocate_kept s hop
      exact .inr ⟨true, _, rfl, ht, (fun hr => nomatch hr), heffect⟩
  | setAvailable size =>
      obtain ⟨t, hrun, ht, heffect⟩ := setAvailable_kept fresh h hop
      exact .inr ⟨true, t, hrun, ht, (fun hr => nomatch hr), heffect⟩
  | seek whence offset =>
      obtain ⟨r, t, hrun, ht, heffect, hsame⟩ := seek_kept h whence hop.1 hop.2
      exact .inr ⟨r, t, hrun, ht, hsame, heffect⟩
  | getWord w e res =>
      obtain ⟨r, v, t, hrun, ht⟩ := getWord_looked h host (order host e w) w.bytes res
      refine .inr ⟨r, t, ?_, ht.valid, ht.unchanged, ht.contents⟩
      rw [perform_getWord, hrun]
      rfl
  | putWord w e d =>
      obtain ⟨t, hrun, ht⟩ := putWord_spec fresh h host (order host e w) hop d.val
      have hwrote := Wrote.of_put h ht
      refine .inr ⟨true, t, ?_, hwrote.valid, (fun hr => nomatch hr), hwrote.before⟩
      rw [perform_putWord]
      exact hrun
  | getArray w e n res =>
      obtain ⟨hrun, ⟨memory, rfl⟩, hne, hn⟩ | ⟨r, v, t, hrun, ht⟩ :=
        getWords_looked h host (order host e w) w hop.1 hop.2
      · refine .inl ⟨_, ?_, rfl, hne, hn⟩
        rw [perform_getArray, hrun]
        rfl
      · refine .inr ⟨r, t, ?_, ht.valid, ht.unchanged, ht.contents⟩
        rw [perform_getArray, hrun]
        rfl
  | putArray w e n res =>
      obtain ⟨hrun, ⟨memory, rfl⟩, hne, hn⟩ | ⟨t, hrun, ht⟩ :=
        putWords_wrote fresh h host (order host e w) w hop.1 hop.2
      · refine .inl ⟨_, ?_, rfl, hne, hn⟩
        rw [perform_putArray]
        exact hrun
      · refine .inr ⟨true, t, ?_, ht.valid, (fun hr => nomatch hr), ht.before⟩
        rw [perform_putArray]
        exact hrun
  | getBoolean res =>
      obtain ⟨r, v, t, hrun, ht⟩ := getFlag_looked h host 1 res
      refine .inr ⟨r, t, ?_, ht.valid, ht.unchanged, ht.contents⟩
      have hperform : perform host (.getBoolean res, fresh) s = (getFlag host 1 s res).map outcome := rfl
      rw [hperform, hrun]
      rfl
  | getBoolean16 res =>
      obtain ⟨r, v, t, hrun, ht⟩ := getFlag_looked h host 2 res
      refine .inr ⟨r, t, ?_, ht.valid, ht.unchanged, ht.contents⟩
      have hperform : perform host (.getBoolean16 res, fresh) s = (getFlag host 2 s res).map outcome := rfl
      rw [hperform, hrun]
      rfl
  | putBoolean res =>
      obtain ⟨t, hrun, ht⟩ := putBoolean_wrote fresh h hop res
      exact .inr ⟨true, t, hrun, ht.valid, (fun hr => nomatch hr), ht.before⟩

/-- A new buffer is valid, and so is what every operation leaves. -/
theorem operations_keep (host : ByteOrder) (ops : List (Op × (Nat → UInt8)))
    (hops : Run.Meets (perform host) Allowed ops {}) :
    Run.Always (perform host) (fun c _ e => e = .memory .diverges ∧ Endless host c.1)
      (fun c s r t => Kept c.1 s r t) ops {} := by
  have hnew : Valid {} := ⟨Nat.le_refl _, Nat.le_refl _, rfl, rfl, by decide⟩
  have hstep (c : Op × (Nat → UInt8)) (s : ZPktBuf) (h : Valid s) (hop : Allowed c s) :
      (∃ e, perform host c s = .error e ∧ e = .memory .diverges ∧ Endless host c.1) ∨
        ∃ r t, perform host c s = .ok (r, t) ∧ Valid t ∧ Kept c.1 s r t := by
    obtain hstop | ⟨r, t, hrun, hkept⟩ := perform_kept host c h hop
    · exact .inl hstop
    · exact .inr ⟨r, t, hrun, hkept.valid, hkept⟩
  exact Run.always_induct hstep ops hnew hops

/-- Three bytes, a number over their end, a seek that is refused and an
insert. -/
theorem operations_keep_some :
    let ops : List (Op × (Nat → UInt8)) :=
      [(.copy [7, 8, 9], fun _ => 0), (.seek .seekSet 2, fun _ => 0), (.putWord .w16 .big 258, fun _ => 0),
        (.seek .seekCur 9, fun _ => 0), (.insert 1 [5], fun _ => 0)]
    Run.Always (perform .little) (fun c _ e => e = .memory .diverges ∧ Endless .little c.1)
      (fun c s r t => Kept c.1 s r t) ops {} := by
  refine operations_keep .little _ (meets_cons ?_ rfl (meets_cons ?_ rfl (meets_cons ?_ rfl
    (meets_cons ?_ rfl ⟨?_, fun _ _ _ => trivial⟩))))
  · simp only [Allowed]
    decide
  · simp only [Allowed]
    decide
  · simp only [Allowed]
    decide
  · simp only [Allowed]
    decide
  · simp only [Allowed]
    decide

end Libzorpll.PacketRun
