import Libzorpll.PacketArrays
import Libzorpll.StreamUnget

/-! What a read leaves of a packet that was pushed back, when others hold it
too. -/

namespace Libzorpll.PushbackPacket

open Region Word PacketBuf PacketItems PacketRun PacketArrays StreamUnget Run

/-- A packet with its references; a freed one has none. -/
structure Held where
  refCnt : Nat := 0
  packet : ZPktBuf := {}

abbrev Packets := Nat → Held

inductive Fault
  | memory (a : Region.Abort)
  | notOwned
  | freed
  | nothingUngot
  deriving DecidableEq

def inBlock {α : Type} : Except Region.Abort α → Except Fault α
  | .ok a => .ok a
  | .error e => .error (.memory e)

/-- A borrowed block is none of those that g_realloc knows. The new block is
never longer than the old one. -/
def shrink (pack : ZPktBuf) (data : List UInt8) (size : Nat) : Except Fault (List UInt8) :=
  if pack.borrowed then .error .notOwned else .ok (data.take size)

def readPart (count : Nat) (pack : ZPktBuf) : Except Fault (List UInt8 × ZPktBuf) := do
  let bytes ← inBlock (read pack.data 0 count)
  let data ← inBlock (move pack.data 0 count (gsub pack.length count))
  let data ← shrink pack data (gsub pack.length count)
  return (bytes, { pack with data := data, length := gsub pack.length count })

def zPktbufUnref (p : Nat) (packets : Packets) : Except Fault Packets :=
  match (packets p).refCnt with
  | 0 => .error .freed
  | 1 => .ok (Function.update packets p {})
  | refCnt + 2 => .ok (Function.update packets p { packets p with refCnt := refCnt + 1 })

/-- The bytes read from a packet, and whether they were the whole of it. -/
def readUngot (count p : Nat) (packets : Packets) : Except Fault (List UInt8 × Bool × Packets) :=
  let held := packets p
  if held.refCnt = 0 then .error .freed
  else if held.packet.length ≤ count then do
    let bytes ← inBlock (read held.packet.data 0 held.packet.length)
    let packets ← zPktbufUnref p packets
    return (bytes, true, packets)
  else do
    let (bytes, packet) ← readPart count held.packet
    return (bytes, false, Function.update packets p { held with packet := packet })

/-- A read of one of the streams of a stack. -/
structure Read where
  stream : Nat
  count : Nat

variable {κ : Type}

/-- z_stream_read of a stream that has a packet to read from. -/
def zStreamRead (r : Read) (s : List (Layer κ) × Packets) :
    Except Fault (List UInt8 × List (Layer κ) × Packets) :=
  match s.1[r.stream]? with
  | none => .error .nothingUngot
  | some layer =>
      match layer.ungotBufs with
      | [] => .error .nothingUngot
      | p :: ps => do
          let (bytes, whole, packets) ← readUngot r.count p s.2
          return (bytes, if whole then s.1.set r.stream { layer with ungotBufs := ps } else s.1, packets)

/-- A read asks for less than there is of the packet, which is the first one of
its stream. -/
def Partly (p : Nat) (r : Read) (s : List (Layer κ) × Packets) : Prop :=
  (∃ layer ps, s.1[r.stream]? = some layer ∧ layer.ungotBufs = p :: ps) ∧ r.count < (s.2 p).packet.length

/-- The calls that append to a packet or put into it. -/
inductive Writes : Op → Prop
  | append (bytes : List UInt8) : Writes (.append bytes)
  | putWord (w : Width) (e : ByteOrder) (d : Fin (256 ^ w.bytes)) : Writes (.putWord w e d)
  | putArray (w : Width) (e : ByteOrder) (n : Nat) (res : Option (List UInt8)) : Writes (.putArray w e n res)
  | putBoolean (res : Bool) : Writes (.putBoolean res)

def WritesInside (s : ZPktBuf) : Prop :=
  ∀ (host : ByteOrder) (op : Op) (fresh : Nat → UInt8), Writes op → Allowed (op, fresh) s →
    perform host (op, fresh) s ≠ .error (.memory .outOfBounds)

/-- The packet is as packetbuf.c keeps it, for whoever else has it. -/
def WellFormed (p : Nat) (s : List (Layer κ) × Packets) : Prop :=
  Sound (s.2 p).packet ∧ WritesInside (s.2 p).packet

/-- Every read comes back, and no block is reallocated that is borrowed. -/
def KeepsWellFormed (p : Nat) (reads : List Read) (s : List (Layer κ) × Packets) : Prop :=
  Always zStreamRead (fun _ _ _ => False) (fun _ _ _ t => WellFormed p t) reads s

variable {s : ZPktBuf} {count : Nat}

/-! Writing to a packet whose sizes fit together -/

theorem resize_borrowed (fresh : Nat → UInt8) {size : Nat} (hborrowed : s.borrowed = true)
    (hroom : s.allocated < size) : resize fresh s size = .error .assertion := by
  rw [resize, if_pos hroom, if_pos hborrowed]
  rfl

theorem append_inside (h : Sound s) (fresh : Nat → UInt8) {bytes : List UInt8}
    (hsize : s.length + bytes.length < 2 ^ 63) : append fresh s bytes ≠ .error (.memory .outOfBounds) := by
  have hgsize : gsize (s.length + bytes.length) = s.length + bytes.length := gsize_of_lt (by omega)
  by_cases hstuck : s.allocated < s.length + bytes.length ∧ s.borrowed = true
  · have hresize := resize_borrowed fresh hstuck.2 hstuck.1
    rw [append, hgsize, hresize]
    rintro ⟨⟩
  · have howned : s.allocated < s.length + bytes.length → s.borrowed = false := fun hlt =>
      Bool.eq_false_iff.mpr fun hborrowed => hstuck ⟨hlt, hborrowed⟩
    have hgrown : Sound (grown fresh s (s.length + bytes.length)) := sound_grown fresh h (by omega)
    have hroom : s.length + bytes.length ≤ (grown fresh s (s.length + bytes.length)).data.length := by
      rw [hgrown.block]
      exact Nat.le_max_right _ _
    rw [append, hgsize, resize_eq fresh howned, ok_bind, Nat.min_eq_left (Nat.le_add_right _ _)]
    change (access (write (grown fresh s _).data s.length bytes) >>= _) ≠ _
    rw [write_eq hroom]
    rintro ⟨⟩

theorem putBoolean_inside (h : Sound s) (fresh : Nat → UInt8) (hsize : s.pos + 1 < 2 ^ 63) (res : Bool) :
    putBoolean fresh s res ≠ .error (.memory .outOfBounds) := by
  by_cases hstuck : Stuck s 1
  · rw [putBoolean, setAvailable_borrowed fresh h hsize hstuck.1 hstuck.2]
    rintro ⟨⟩
  · have hroom : s.pos + [if res then (1 : UInt8) else 0].length < 2 ^ 64 := Nat.lt_trans hsize (by decide)
    have hput : putBoolean fresh s res = .ok (true, placed fresh s [if res then 1 else 0]) := by
      rw [putBoolean, setAvailable_eq fresh h hsize (owned_of_not_stuck hstuck), ok_bind]
      exact place_eq fresh h hroom
    rw [hput]
    rintro ⟨⟩

theorem putOne_inside (h : Sound s) (host e : ByteOrder) (w : Width) (fresh : Nat → UInt8)
    (hsize : s.pos + w.bytes < 2 ^ 63) (d : Nat) : putOne host e w fresh s d ≠ .error (.memory .outOfBounds) := by
  by_cases hstuck : Stuck s w.bytes
  · rw [putOne_stuck fresh h w hsize hstuck]
    rintro ⟨⟩
  · rw [putOne_eq, putWord_eq fresh h host (order host e w) hsize (owned_of_not_stuck hstuck)]
    rintro ⟨⟩

theorem putArray_inside (h : Sound s) (host e : ByteOrder) (w : Width) {n : Nat} (fresh : Nat → UInt8)
    {res : Option (List UInt8)} (hsize : s.pos + n * w.bytes < 2 ^ 63)
    (hres : ∀ memory, res = some memory → memory.length = n * w.bytes) :
    putArray host e w n fresh s res ≠ .error (.memory .outOfBounds) := by
  by_cases hstuck : Stuck s (n * w.bytes)
  · rw [putArray_stuck fresh h w hsize hstuck]
    rintro ⟨⟩
  · cases res with
    | none =>
        rw [putArray_null fresh h w hsize hstuck]
        rintro ⟨⟩
    | some memory =>
        by_cases hends : order host e w = host ∨ n * w.bytes < 2 ^ 32
        · obtain ⟨t, hput, -⟩ := putArray_goes fresh h w hsize hstuck (hres memory rfl) hends
          rw [hput]
          rintro ⟨⟩
        · obtain ⟨horder, hcount⟩ := not_or.mp hends
          rw [putArray_endless fresh h w hsize hstuck (hres memory rfl) horder (Nat.not_lt.mp hcount)]
          rintro ⟨⟩

theorem writesInside_of_sound (h : Sound s) : WritesInside s := by
  intro host op fresh hwrites hallowed
  cases hwrites with
  | append bytes => exact append_inside h fresh hallowed
  | putWord w e d =>
      rw [perform_putWord, ← putOne_eq]
      exact putOne_inside h host e w fresh hallowed d
  | putArray w e n res =>
      rw [perform_putArray, ← putArray_eq]
      exact putArray_inside h host e w fresh hallowed.1 hallowed.2
  | putBoolean res => exact putBoolean_inside h fresh hallowed res

/-! Reading a part -/

def rest (count : Nat) (s : ZPktBuf) : ZPktBuf :=
  { s with data := window s.data count s.length, length := s.length - count }

theorem readPart_eq (hcount : count ≤ s.length) (hdata : s.length ≤ s.data.length) (hfits : s.length < 2 ^ 64) :
    readPart count s =
      if s.borrowed then .error .notOwned else .ok (window s.data 0 count, rest count s) := by
  have hread : read s.data 0 count = .ok (window s.data 0 count) := read_window (Nat.zero_le _) (by omega)
  have hlength := window_length s.data (a := count) hdata
  have hmove : move s.data 0 count (s.length - count) = .ok (put s.data 0 (window s.data count s.length)) := by
    rw [move, read_window hcount hdata]
    exact write_eq (by omega)
  have htake : (put s.data 0 (window s.data count s.length)).take (s.length - count) =
      window s.data count s.length := by
    rw [put, List.take_zero, List.nil_append, ← hlength, List.take_left]
  rw [readPart, gsub_of_le hcount hfits, hread, hmove]
  change (shrink s (put s.data 0 _) (s.length - count) >>= _) = _
  rw [shrink, htake]
  by_cases hborrowed : s.borrowed = true
  · rw [if_pos hborrowed, if_pos hborrowed]
    rfl
  · rw [if_neg hborrowed, if_neg hborrowed]
    rfl

theorem rest_contents (hdata : s.length ≤ s.data.length) :
    contents (rest count s) = (contents s).drop count := by
  have hlength := window_length s.data (a := count) hdata
  have hall : contents (rest count s) = window s.data count s.length := by
    rw [contents_eq_take]
    change (window s.data count s.length).take (s.length - count) = _
    rw [← hlength, List.take_length]
  rw [hall, contents_eq_take, window, List.drop_take]

/-- The block is as long as the rest of the bytes, the size recorded stays. -/
theorem rest_sound_iff (h : Sound s) (hcount : count < s.length) :
    Sound (rest count s) ↔ count = 0 ∧ s.allocated = s.length := by
  have hlen := h.length_le
  have hdata : s.length ≤ s.data.length := h.block ▸ hlen
  have hlength : (rest count s).data.length = s.length - count := window_length s.data hdata
  constructor
  · intro hrest
    have hblock := hrest.block
    rw [hlength] at hblock
    change s.length - count = s.allocated at hblock
    omega
  · rintro ⟨rfl, hallocated⟩
    refine ⟨h.pos_le, hlen, ?_, h.fits⟩
    rw [hlength, Nat.sub_zero]
    exact hallocated.symm

/-- A read of nothing leaves a packet as it is, if its block has no more bytes
than count. -/
theorem rest_zero (h : Sound s) (hallocated : s.allocated = s.length) : rest 0 s = s := by
  have hdata : window s.data 0 s.length = s.data := by
    rw [← hallocated, ← h.block, window, List.drop_zero, Nat.sub_zero, List.take_length]
  rw [rest, hdata, Nat.sub_zero]

/-- What others append behind a part that was read away is not in the block,
as long as there is room for it by the size that is recorded. -/
theorem append_outside (h : Sound s) (count : Nat) (fresh : Nat → UInt8) {bytes : List UInt8}
    (hpos : 0 < bytes.length) (hroom : s.length - count + bytes.length ≤ s.allocated) :
    append fresh (rest count s) bytes = .error (.memory .outOfBounds) := by
  have hfits := h.fits
  have hdata : s.length ≤ s.data.length := h.block ▸ h.length_le
  have hlength : (rest count s).data.length = s.length - count := window_length s.data hdata
  have hgsize : gsize ((rest count s).length + bytes.length) = s.length - count + bytes.length :=
    gsize_of_lt (Nat.lt_of_le_of_lt hroom hfits)
  have hkept : ¬(rest count s).allocated < s.length - count + bytes.length := Nat.not_lt.mpr hroom
  rw [append, hgsize, resize_eq fresh fun hlt => absurd hlt hkept, ok_bind]
  simp only [if_neg hkept]
  change (access (write (rest count s).data (min (s.length - count) (s.length - count + bytes.length)) bytes) >>= _) = _
  rw [Nat.min_eq_left (Nat.le_add_right _ _), write_error (by omega)]
  rfl

/-! Reads of a packet that is listed -/

variable {p : Nat} {packets : Packets} {layers : List (Layer κ)} {r : Read}

/-- A read of a part leaves the packet where it is listed. -/
theorem zStreamRead_part (hlive : (packets p).refCnt ≠ 0) (h : Sound (packets p).packet)
    (hpartly : Partly p r (layers, packets)) :
    zStreamRead r (layers, packets) =
      if (packets p).packet.borrowed then .error .notOwned
      else .ok (window (packets p).packet.data 0 r.count, layers,
        Function.update packets p { packets p with packet := rest r.count (packets p).packet }) := by
  obtain ⟨⟨layer, ps, hlayer, hfirst⟩, hcount⟩ := hpartly
  have hlen := h.length_le
  have hfits := h.fits
  have hdata : (packets p).packet.length ≤ (packets p).packet.data.length := h.block ▸ hlen
  have hread := readPart_eq (Nat.le_of_lt hcount) hdata (Nat.lt_of_le_of_lt hlen hfits)
  have hungot : zStreamRead r (layers, packets) = (readUngot r.count p packets >>= fun got =>
      .ok (got.1, if got.2.1 then layers.set r.stream { layer with ungotBufs := ps } else layers, got.2.2)) := by
    rw [zStreamRead, hlayer]
    simp only [hfirst]
    rfl
  rw [hungot, readUngot]
  simp only [if_neg hlive, if_neg (Nat.not_le.mpr hcount), hread]
  by_cases hborrowed : (packets p).packet.borrowed = true
  · rw [if_pos hborrowed, if_pos hborrowed]
    rfl
  · rw [if_neg hborrowed, if_neg hborrowed]
    rfl

/-! The bytes alone -/

/-- The packets as lists of the bytes that count. -/
def view (packets : Packets) : Heap := fun p => ⟨contents (packets p).packet, (packets p).refCnt⟩

theorem view_update (packets : Packets) (p : Nat) (held : Held) :
    view (Function.update packets p held) =
      Function.update (view packets) p ⟨contents held.packet, held.refCnt⟩ := by
  funext q
  by_cases hq : q = p
  · subst hq
    rw [view, Function.update_self, Function.update_self]
  · rw [view, Function.update_of_ne hq, Function.update_of_ne hq, view]

theorem zPktbufUnref_view (hlive : (packets p).refCnt ≠ 0) :
    ∃ after, zPktbufUnref p packets = .ok after ∧ pktbufUnref p (view packets) = .ok (view after) := by
  have hrefs : (view packets p).refs = (packets p).refCnt := rfl
  rw [zPktbufUnref, pktbufUnref, hrefs]
  cases hcnt : (packets p).refCnt with
  | zero => exact absurd hcnt hlive
  | succ refCnt =>
      cases refCnt with
      | zero => exact ⟨_, rfl, congrArg Except.ok (view_update packets p {}).symm⟩
      | succ refCnt =>
          exact ⟨_, rfl, congrArg Except.ok (view_update packets p { packets p with refCnt := refCnt + 1 }).symm⟩

/-- A read gives the bytes that the model of lists gives, also where it leaves
the sizes of the packet wrong. -/
theorem readUngot_view (hlive : (packets p).refCnt ≠ 0)
    (hdata : (packets p).packet.length ≤ (packets p).packet.data.length) (hfits : (packets p).packet.length < 2 ^ 64)
    (howned : count < (packets p).packet.length → (packets p).packet.borrowed = false) :
    ∃ bytes whole after, readUngot count p packets = .ok (bytes, whole, after) ∧
      readPacket count p (view packets) = .ok (bytes, whole, view after) := by
  have hlength : (view packets p).data.length = (packets p).packet.length := window_length _ hdata
  have hrefs : (view packets p).refs ≠ 0 := hlive
  rw [readUngot, readPacket]
  simp only [if_neg hlive, if_neg hrefs, hlength]
  by_cases hwhole : (packets p).packet.length ≤ count
  · obtain ⟨after, hunref, hview⟩ := zPktbufUnref_view hlive
    refine ⟨contents (packets p).packet, true, after, ?_, ?_⟩
    · have hread : read (packets p).packet.data 0 (packets p).packet.length = .ok (contents (packets p).packet) :=
        read_window (Nat.zero_le _) hdata
      rw [if_pos hwhole, hread, hunref]
      rfl
    · rw [if_pos hwhole, hview]
      rfl
  · have hcount := Nat.not_le.mp hwhole
    have hread := readPart_eq (Nat.le_of_lt hcount) hdata hfits
    rw [howned hcount, if_neg Bool.false_ne_true] at hread
    refine ⟨window (packets p).packet.data 0 count, false,
      Function.update packets p { packets p with packet := rest count (packets p).packet }, ?_, ?_⟩
    · rw [if_neg hwhole, hread]
      rfl
    · have htake : (view packets p).data.take count = window (packets p).packet.data 0 count := by
        rw [view, contents_eq_take, List.take_take, Nat.min_eq_left (Nat.le_of_lt hcount), window, List.drop_zero,
          Nat.sub_zero]
      rw [if_neg hwhole, htake, view_update, rest_contents hdata]
      rfl

/-! Runs of reads -/

theorem wellFormed_rest_iff (layers : List (Layer κ)) (h : Sound (packets p).packet)
    (hcount : count < (packets p).packet.length) :
    WellFormed p (layers, Function.update packets p { packets p with packet := rest count (packets p).packet }) ↔
      count = 0 ∧ (packets p).packet.allocated = (packets p).packet.length := by
  have hpacket : (Function.update packets p { packets p with packet := rest count (packets p).packet } p).packet =
      rest count (packets p).packet := by rw [Function.update_self]
  rw [← rest_sound_iff h hcount]
  change Sound (Function.update packets p _ p).packet ∧ WritesInside (Function.update packets p _ p).packet ↔ _
  rw [hpacket]
  exact ⟨And.left, fun hrest => ⟨hrest, writesInside_of_sound hrest⟩⟩

theorem keeps_iff {reads : List Read} (hlive : (packets p).refCnt ≠ 0) (h : Sound (packets p).packet)
    (hpartly : Meets zStreamRead (Partly p) reads (layers, packets)) :
    KeepsWellFormed p reads (layers, packets) ↔ reads = [] ∨ ((packets p).packet.borrowed = false ∧
      (packets p).packet.allocated = (packets p).packet.length ∧ ∀ r ∈ reads, r.count = 0) := by
  induction reads with
  | nil => exact iff_of_true trivial (.inl rfl)
  | cons r reads ih =>
      have hread := zStreamRead_part hlive h hpartly.1
      have hcount := hpartly.1.2
      by_cases hborrowed : (packets p).packet.borrowed = true
      · rw [if_pos hborrowed] at hread
        refine iff_of_false ?_ ?_
        · rintro (⟨e, -, hstop⟩ | ⟨bytes, t, hok, -⟩)
          · exact hstop
          · cases hread.symm.trans hok
        · rintro (⟨⟨⟩⟩ | ⟨howned, -⟩)
          exact Bool.noConfusion (hborrowed.symm.trans howned)
      · rw [if_neg hborrowed] at hread
        by_cases hkept : r.count = 0 ∧ (packets p).packet.allocated = (packets p).packet.length
        · have hsame : Function.update packets p { packets p with packet := rest r.count (packets p).packet } =
              packets := by
            rw [hkept.1, rest_zero h hkept.2]
            exact Function.update_eq_self p packets
          have hwell := (wellFormed_rest_iff layers h hcount).mpr hkept
          rw [hsame] at hread hwell
          have hrest := ih (hpartly.2 _ _ hread)
          have hall : (∀ q ∈ r :: reads, q.count = 0) ↔ ∀ q ∈ reads, q.count = 0 := by
            rw [List.forall_mem_cons, and_iff_right hkept.1]
          rw [hall]
          constructor
          · intro hkeeps
            refine .inr ⟨Bool.eq_false_iff.mpr hborrowed, hkept.2, ?_⟩
            obtain rfl | ⟨-, -, hzero⟩ := hrest.mp (always_cons hkeeps hread).2
            · exact fun q hq => absurd hq List.not_mem_nil
            · exact hzero
          · rintro (⟨⟨⟩⟩ | hgood)
            exact .inr ⟨_, _, hread, hwell, hrest.mpr (.inr hgood)⟩
        · refine iff_of_false (fun hkeeps => ?_) ?_
          · exact hkept ((wellFormed_rest_iff layers h hcount).mp (always_cons hkeeps hread).1)
          · rintro (⟨⟨⟩⟩ | ⟨-, hallocated, hzero⟩)
            exact hkept ⟨hzero r List.mem_cons_self, hallocated⟩

/-- A packet that is read in parts stays well formed if and only if nothing is
read of it, and its block is its own and just as long as the packet. -/
theorem reads_keep_iff (layers : List (Layer κ)) (packets : Packets) (p : Nat) (reads : List Read)
    (hlive : (packets p).refCnt ≠ 0) (h : Sound (packets p).packet)
    (hpartly : Meets zStreamRead (Partly p) reads (ungetPacketDefault p layers, packets)) :
    KeepsWellFormed p reads (ungetPacketDefault p layers, packets) ↔
      reads = [] ∨ ((packets p).packet.borrowed = false ∧
        (packets p).packet.allocated = (packets p).packet.length ∧ ∀ r ∈ reads, r.count = 0) :=
  keeps_iff hlive h hpartly

theorem reads_keep_iff_nothing :
    KeepsWellFormed 0 [⟨0, 0⟩] (ungetPacketDefault 0 [⟨true, [], (.buf : Body Unit)⟩],
        fun _ => ⟨2, { allocated := 2, length := 2, data := [7, 8] }⟩) ↔
      [(⟨0, 0⟩ : Read)] = [] ∨ (false = false ∧ 2 = 2 ∧ ∀ r ∈ [(⟨0, 0⟩ : Read)], r.count = 0) := by
  refine reads_keep_iff [⟨true, [], .buf⟩] (fun _ => ⟨2, { allocated := 2, length := 2, data := [7, 8] }⟩) 0 [⟨0, 0⟩]
    (by decide) ⟨by decide, by decide, rfl, by decide⟩ ⟨⟨⟨_, _, rfl, rfl⟩, by decide⟩, fun _ _ _ => trivial⟩

/-- Of four bytes one is read, and the block that has three is still four bytes
long for the others. -/
theorem reads_not_keep :
    ¬∀ (layers : List (Layer Unit)) (packets : Packets) (p : Nat) (reads : List Read), (packets p).refCnt ≠ 0 →
      Sound (packets p).packet → Meets zStreamRead (Partly p) reads (ungetPacketDefault p layers, packets) →
        KeepsWellFormed p reads (ungetPacketDefault p layers, packets) := by
  intro hall
  let packets : Packets := fun _ => ⟨2, { allocated := 4, length := 4, data := [1, 2, 3, 4] }⟩
  have hsound : Sound (packets 0).packet := ⟨by decide, by decide, rfl, by decide⟩
  have hmeets : Meets zStreamRead (Partly 0) [⟨0, 1⟩]
      (ungetPacketDefault 0 [⟨true, [], (.buf : Body Unit)⟩], packets) :=
    ⟨⟨⟨_, _, rfl, rfl⟩, by decide⟩, fun _ _ _ => trivial⟩
  have hkeeps := hall _ packets 0 [⟨0, 1⟩] (by decide) hsound hmeets
  obtain ⟨⟨⟩⟩ | ⟨-, -, hzero⟩ := (keeps_iff (by decide) hsound hmeets).mp hkeeps
  exact absurd (hzero ⟨0, 1⟩ List.mem_cons_self) (by decide)

end Libzorpll.PushbackPacket
