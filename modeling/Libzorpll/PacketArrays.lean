import Libzorpll.PacketRun

/-! The calls for arrays, and as many calls for single numbers. -/

namespace Libzorpll.PacketArrays

open Region Word PacketBuf PacketItems PacketRun Run

section Functions

variable (host e : ByteOrder)

/-- The functions of a width; those for single bytes have no byte order. -/
def getOne : Width → ZPktBuf → Option Nat → Except Halt (Bool × Option Nat × ZPktBuf)
  | .w8 => getU8 host
  | .w16 => getU16 host e
  | .w32 => getU32 host e
  | .w64 => getU64 host e

def getArray :
    Width → Nat → ZPktBuf → Option (List UInt8) → Except Halt (Bool × Option (List UInt8) × ZPktBuf)
  | .w8 => getU8s host
  | .w16 => getU16s host e
  | .w32 => getU32s host e
  | .w64 => getU64s host e

def putOne : Width → (Nat → UInt8) → ZPktBuf → Nat → Except Halt (Bool × ZPktBuf)
  | .w8 => putU8 host
  | .w16 => putU16 host e
  | .w32 => putU32 host e
  | .w64 => putU64 host e

def putArray :
    Width → Nat → (Nat → UInt8) → ZPktBuf → Option (List UInt8) → Except Halt (Bool × ZPktBuf)
  | .w8 => putU8s host
  | .w16 => putU16s host e
  | .w32 => putU32s host e
  | .w64 => putU64s host e

/-- A call for a variable that holds `old`, if there is one. -/
def getCell (w : Width) (old : Option Nat) (s : ZPktBuf) :
    Except Halt ((Bool × Option Nat) × ZPktBuf) :=
  (getOne host e w s old).map fun r => ((r.1, r.2.1), r.2.2)

/-- One call after the other, each for the next variable. -/
def gets (w : Width) : List (Option Nat) → ZPktBuf → Except Halt (List (Bool × Option Nat) × ZPktBuf) :=
  Run.run (getCell host e w)

/-- One call after the other, each with the memory that a longer block gets. -/
def puts (w : Width) : List ((Nat → UInt8) × Nat) → ZPktBuf → Except Halt (List Bool × ZPktBuf) :=
  Run.run fun c s => putOne host e w c.1 s c.2

/-- The elements of an array as variables, if there is one. -/
def cells (w : Width) (n : Nat) : Option (List UInt8) → List (Option Nat)
  | none => List.replicate n none
  | some memory => (words host w.bytes n memory).map some

/-- A call for an array returns TRUE if and only if there are as many bytes,
and then does what single calls do; otherwise it changes nothing. -/
def GetAgrees (w : Width) (n : Nat) (s : ZPktBuf) (res : Option (List UInt8)) : Prop :=
  match getArray host e w n s res with
  | .ok (true, got, t) =>
      n * w.bytes ≤ s.length - s.pos ∧
        gets host e w (cells host w n res) s = .ok ((cells host w n got).map fun v => (true, v), t)
  | .ok (false, got, t) => s.length - s.pos < n * w.bytes ∧ got = res ∧ t = s
  | .error _ => False

/-- What a put leaves: the contents, the length and the position. -/
def left {α : Type} (r : Except Halt (α × ZPktBuf)) : Except Halt (List UInt8 × Nat × Nat) :=
  r.map fun p => (contents p.2, p.2.length, p.2.pos)

variable {host e}

theorem getOne_eq (w : Width) (s : ZPktBuf) (res : Option Nat) :
    getOne host e w s res = getWord host (order host e w) w.bytes s res := by
  cases w <;> rfl

theorem getArray_eq (w : Width) (n : Nat) (s : ZPktBuf) (res : Option (List UInt8)) :
    getArray host e w n s res = getWords host (order host e w) w.bytes n s res := by
  cases w <;> rfl

theorem putOne_eq (w : Width) (fresh : Nat → UInt8) (s : ZPktBuf) (d : Nat) :
    putOne host e w fresh s d = putWord host (order host e w) w.bytes fresh s d := by
  cases w <;> rfl

theorem putArray_eq (w : Width) (n : Nat) (fresh : Nat → UInt8) (s : ZPktBuf)
    (res : Option (List UInt8)) :
    putArray host e w n fresh s res = putWords host (order host e w) w.bytes n fresh s res := by
  cases w <;> rfl

end Functions

variable {host e : ByteOrder} {s t : ZPktBuf}

/-! Getting -/

theorem words_window (order : ByteOrder) {w k a : Nat} {m : List UInt8} (h : a + (k + 1) * w ≤ m.length) :
    words order w (k + 1) (window m a (a + (k + 1) * w)) =
      decode order (window m a (a + w)) :: words order w k (window m (a + w) (a + w + k * w)) := by
  have hsum : a + (k + 1) * w = a + w + k * w := by
    rw [Nat.succ_mul]
    omega
  rw [hsum] at h ⊢
  have hlen : (window m a (a + w)).length = w := by
    rw [window_length m (by omega)]
    omega
  rw [← window_append m (Nat.le_add_right a w) (Nat.le_add_right (a + w) (k * w)), words,
    List.take_left' hlen, List.drop_left' hlen]

theorem sound_moved (h : Sound s) {pos : Nat} (hpos : pos ≤ s.length) : Sound { s with pos := pos } :=
  ⟨hpos, h.length_le, h.block, h.fits⟩

theorem getCell_spec (h : Sound s) (w : Width) (old : Option Nat) (hroom : s.pos + w.bytes ≤ s.length) :
    getCell host e w old s =
      .ok ((true, old.map fun _ => decode (order host e w) (window s.data s.pos (s.pos + w.bytes))),
        { s with pos := s.pos + w.bytes }) := by
  rw [getCell, getOne_eq, getWord_spec h host _ hroom]
  rfl

/-- Single calls get the words that come next. -/
theorem gets_spec (h : Sound s) (w : Width) (olds : List (Option Nat))
    (hroom : s.pos + olds.length * w.bytes ≤ s.length) :
    gets host e w olds s =
      .ok (List.zipWith (fun old v => (true, old.map fun _ => v)) olds
          (words (order host e w) w.bytes olds.length
            (window s.data s.pos (s.pos + olds.length * w.bytes))),
        { s with pos := s.pos + olds.length * w.bytes }) := by
  induction olds generalizing s with
  | nil =>
      rw [List.length_nil, Nat.zero_mul, Nat.add_zero]
      rfl
  | cons old olds ih =>
      have hdata : s.pos + (olds.length + 1) * w.bytes ≤ s.data.length := by
        rw [h.block]
        exact Nat.le_trans hroom h.length_le
      rw [List.length_cons] at hroom ⊢
      have hsum : s.pos + (olds.length + 1) * w.bytes = s.pos + w.bytes + olds.length * w.bytes := by
        rw [Nat.succ_mul]
        omega
      have hnext : s.pos + w.bytes ≤ s.length := by omega
      have hfirst : getCell host e w old s = _ := getCell_spec h w old hnext
      have hrest := ih (sound_moved h hnext) (by simp only; omega)
      rw [gets] at hrest ⊢
      rw [words_window _ hdata, List.zipWith_cons_cons, hsum]
      simp only [Run.run, hfirst, hrest, Except.map]

theorem words_ordered (host e : ByteOrder) {w k : Nat} {bytes : List UInt8} (h : bytes.length = k * w) :
    words host w k (ordered host e w k bytes) = words e w k bytes := by
  have hget := ordered_get host e w (words e w k bytes)
  rw [words_length, encodeAll_words e h] at hget
  have hwords := words_encodeAll host (words_lt e h)
  rw [words_length] at hwords
  rw [hget, hwords]

theorem zipWith_none (ws : List Nat) :
    List.zipWith (fun (old : Option Nat) v => (true, old.map fun _ => v))
      (List.replicate ws.length none) ws = (List.replicate ws.length none).map fun v => (true, v) := by
  induction ws with
  | nil => rfl
  | cons v ws ih =>
      rw [List.length_cons, List.replicate_succ, List.zipWith_cons_cons, ih]
      rfl

theorem zipWith_some {xs ws : List Nat} (h : xs.length = ws.length) :
    List.zipWith (fun (old : Option Nat) v => (true, old.map fun _ => v)) (xs.map some) ws =
      (ws.map some).map fun v => (true, v) := by
  induction xs generalizing ws with
  | nil =>
      rw [List.length_nil] at h
      rw [List.eq_nil_of_length_eq_zero h.symm]
      rfl
  | cons x xs ih =>
      cases ws with
      | nil => cases h
      | cons v ws =>
          rw [List.length_cons, List.length_cons] at h
          rw [List.map_cons, List.zipWith_cons_cons, ih (Nat.succ.inj h)]
          rfl

/-- An array that is there is got by the one call as by single ones. -/
theorem getAgrees_of_room (h : Sound s) (w : Width) {n : Nat} (hroom : n * w.bytes ≤ s.length - s.pos)
    {res : Option (List UInt8)} (hres : ∀ memory ∈ res, memory.length = n * w.bytes)
    (hends : res = none ∨ order host e w = host ∨ n * w.bytes < 2 ^ 32) :
    GetAgrees host e w n s res := by
  have hpos := h.pos_le
  have hlen := h.length_le
  have hfits := h.fits
  have hinside : s.pos + n * w.bytes ≤ s.length := by omega
  have hwindow : (window s.data s.pos (s.pos + n * w.bytes)).length = n * w.bytes := by
    rw [window_length s.data (by rw [h.block]; omega)]
    omega
  cases res with
  | none =>
      have hn64 : gsize (n * w.bytes) = n * w.bytes := gsize_of_lt (by omega)
      have hget : getArray host e w n s none = .ok (true, none, { s with pos := s.pos + n * w.bytes }) := by
        rw [getArray_eq, getWords, hn64, available_eq h]
        simp only
        rw [if_neg (by omega), gsize_of_lt (by omega)]
        rfl
      have hgets : gets host e w _ s = _ := gets_spec h w (List.replicate n none)
        (by rw [List.length_replicate]; exact hinside)
      have hzip := zipWith_none (words (order host e w) w.bytes n
        (window s.data s.pos (s.pos + n * w.bytes)))
      rw [words_length] at hzip
      rw [List.length_replicate, hzip] at hgets
      rw [GetAgrees, hget]
      exact ⟨hroom, hgets⟩
  | some memory =>
      have hmemory := hres memory rfl
      have hget : getArray host e w n s (some memory) = _ := (getArray_eq w n s _).trans
        (getWords_spec h host (order host e w) w.bytes_pos
          (hends.resolve_left (Option.some_ne_none _)) hinside hmemory)
      have hlength : ((words host w.bytes n memory).map some).length = n := by
        rw [List.length_map, words_length]
      have hgets : gets host e w _ s = _ := gets_spec h w ((words host w.bytes n memory).map some)
        (by rw [hlength]; exact hinside)
      rw [hlength, zipWith_some (by rw [words_length, words_length])] at hgets
      rw [GetAgrees, hget]
      simp only [cells]
      rw [words_ordered host (order host e w) hwindow]
      exact ⟨hroom, hgets⟩

theorem getAgrees_of_refused (h : Sound s) (w : Width) {n : Nat} (res : Option (List UInt8))
    (hroom : s.length - s.pos < n * w.bytes) (hcount : s.length - s.pos < n * w.bytes % 2 ^ 64) :
    GetAgrees host e w n s res := by
  have hget : getArray host e w n s res = .ok (false, res, s) := by
    rw [getArray_eq, getWords, available_eq h]
    exact if_pos hcount
  rw [GetAgrees, hget]
  exact ⟨hroom, rfl, rfl⟩

theorem getArray_goes (host e : ByteOrder) (h : Sound s) (w : Width) {n : Nat} (res : Option (List UInt8))
    (hcount : n * w.bytes % 2 ^ 64 ≤ s.length - s.pos) :
    (∃ got t, getArray host e w n s res = .ok (true, got, t)) ∨
      ∃ a, getArray host e w n s res = .error a := by
  have hin : ¬s.length - s.pos < gsize (n * w.bytes) := Nat.not_lt.mpr hcount
  rw [getArray_eq, getWords, available_eq h]
  simp only [hin, ↓reduceIte]
  cases res with
  | none => exact .inl ⟨_, _, rfl⟩
  | some memory =>
      dsimp only
      cases copyWords host (order host e w) w.bytes (gsize (n * w.bytes)) s.data s.pos memory 0 with
      | error a => exact .inr ⟨a, rfl⟩
      | ok got => exact .inl ⟨_, _, rfl⟩

/-- A count whose bytes are not a gsize is taken for the rest of them. -/
theorem not_getAgrees_of_wrapped (h : Sound s) (w : Width) {n : Nat} (res : Option (List UInt8))
    (hroom : s.length - s.pos < n * w.bytes) (hcount : n * w.bytes % 2 ^ 64 ≤ s.length - s.pos) :
    ¬GetAgrees host e w n s res := by
  obtain ⟨got, t, hget⟩ | ⟨a, hget⟩ := getArray_goes host e h w res hcount
  · rw [GetAgrees, hget]
    exact fun hagrees => absurd hagrees.1 (Nat.not_le.mpr hroom)
  · rw [GetAgrees, hget]
    exact not_false

theorem not_getAgrees_of_endless (h : Sound s) (w : Width) {n : Nat}
    (hroom : n * w.bytes ≤ s.length - s.pos) {memory : List UInt8}
    (hmemory : memory.length = n * w.bytes) (horder : order host e w ≠ host)
    (hcount : 2 ^ 32 ≤ n * w.bytes) : ¬GetAgrees host e w n s (some memory) := by
  have hlen := h.length_le
  have hfits := h.fits
  have hn64 : gsize (n * w.bytes) = n * w.bytes := gsize_of_lt (by omega)
  have hpos := h.pos_le
  have hdata : s.pos + n * w.bytes ≤ s.data.length := by
    rw [h.block]
    omega
  have hget : getArray host e w n s (some memory) = .error (.memory .diverges) := by
    rw [getArray_eq, getWords, available_eq h, hn64]
    simp only
    rw [if_neg (by omega), copyWords_endless horder w hcount hdata (by omega)]
    rfl
  rw [GetAgrees, hget]
  exact not_false

/-! Putting -/

theorem contents_placed {bytes : List UInt8} {u : ZPktBuf} (h : Placed s bytes t)
    (h' : Placed s bytes u) (hpos : s.pos ≤ s.length) : contents t = contents u := by
  have hlength : t.length = u.length := h.length.trans h'.length.symm
  rw [contents, contents, ← hlength]
  apply window_congr
  intro i _ hi
  rw [h.length] at hi
  by_cases hin : s.pos ≤ i ∧ i < s.pos + bytes.length
  · have hwritten := congrArg (fun m : List UInt8 => m[i - s.pos]?) (h.written.trans h'.written.symm)
    have hoff : s.pos + (i - s.pos) = i := by omega
    rw [window_getElem (by omega), window_getElem (by omega), hoff] at hwritten
    exact hwritten
  · rw [h.same i (by omega) (by omega), h'.same i (by omega) (by omega)]

theorem left_placed {α β : Type} {bytes : List UInt8} {u : ZPktBuf} (h : Placed s bytes t)
    (h' : Placed s bytes u) (hpos : s.pos ≤ s.length) (a : α) (b : β) :
    left (.ok (a, t)) = left (.ok (b, u)) := by
  simp only [left, Except.map, contents_placed h h' hpos, h.length.trans h'.length.symm,
    h.pos.trans h'.pos.symm]

/-- A buffer that has to grow and must not. -/
def Stuck (s : ZPktBuf) (size : Nat) : Prop := s.borrowed = true ∧ s.allocated < s.pos + size

theorem owned_of_not_stuck {size : Nat} (h : ¬Stuck s size) :
    s.allocated < s.pos + size → s.borrowed = false := by
  intro hlt
  cases hb : s.borrowed with
  | false => rfl
  | true => exact absurd ⟨hb, hlt⟩ h

theorem putOne_stuck (fresh : Nat → UInt8) (h : Sound s) (w : Width) (hsize : s.pos + w.bytes < 2 ^ 63)
    (hstuck : Stuck s w.bytes) (d : Nat) : putOne host e w fresh s d = .error .assertion := by
  rw [putOne_eq, putWord, setAvailable_borrowed fresh h hsize hstuck.1 hstuck.2]
  rfl

/-- Single calls put their words one after the other, or stop at the assertion
of a borrowed buffer. -/
theorem puts_spec (h : Sound s) (w : Width) (calls : List ((Nat → UInt8) × Nat))
    (hsize : s.pos + calls.length * w.bytes < 2 ^ 63) :
    (Stuck s (calls.length * w.bytes) ∧ puts host e w calls s = .error .assertion) ∨
      (¬Stuck s (calls.length * w.bytes) ∧ ∃ rs t, puts host e w calls s = .ok (rs, t) ∧
        Placed s (encodeAll (order host e w) w.bytes (calls.map Prod.snd)) t) := by
  induction calls generalizing s with
  | nil =>
      refine .inr ⟨?_, [], s, rfl, Placed.nil h⟩
      rintro ⟨-, hlt⟩
      have hpos := h.pos_le
      have hlen := h.length_le
      rw [List.length_nil, Nat.zero_mul] at hlt
      omega
  | cons c calls ih =>
      rw [List.length_cons, Nat.succ_mul] at hsize ⊢
      have hone : s.pos + w.bytes < 2 ^ 63 := by omega
      by_cases hstuck : Stuck s w.bytes
      · refine .inl ⟨⟨hstuck.1, Nat.lt_of_lt_of_le hstuck.2 (by omega)⟩, ?_⟩
        simp only [puts, Run.run, putOne_stuck c.1 h w hone hstuck]
      · have howned := owned_of_not_stuck hstuck
        have hput : putOne host e w c.1 s c.2 = _ :=
          (putOne_eq w c.1 s c.2).trans (putWord_eq c.1 h host (order host e w) hone howned c.2)
        have hbytes := encode_length (order host e w) w.bytes c.2
        have hplaced : Placed s (encode (order host e w) w.bytes c.2) _ :=
          placed_of_write c.1 h (by rw [hbytes]; omega) (by rw [hbytes]; exact howned)
        have hpos := hplaced.pos
        rw [hbytes] at hpos
        have hsame : Stuck (placed c.1 s (encode (order host e w) w.bytes c.2)) (calls.length * w.bytes) ↔
            Stuck s (calls.length * w.bytes + w.bytes) := by
          rw [Stuck, Stuck, hplaced.borrowed, hpos]
          refine and_congr_right fun hb => ?_
          rw [hplaced.kept hb]
          omega
        obtain ⟨hstop, hrun⟩ | ⟨hgo, rs, u, hrun, hu⟩ := ih hplaced.sound (by rw [hpos]; omega)
        · refine .inl ⟨hsame.mp hstop, ?_⟩
          rw [puts] at hrun ⊢
          simp only [Run.run, hput, hrun, Except.map]
        · refine .inr ⟨fun hs => hgo (hsame.mpr hs), true :: rs, u, ?_, hplaced.trans hu⟩
          rw [puts] at hrun ⊢
          simp only [Run.run, hput, hrun, Except.map]

theorem putArray_stuck (fresh : Nat → UInt8) (h : Sound s) (w : Width) {n : Nat}
    (hsize : s.pos + n * w.bytes < 2 ^ 63) (hstuck : Stuck s (n * w.bytes))
    (res : Option (List UInt8)) : putArray host e w n fresh s res = .error .assertion := by
  have hn64 : gsize (n * w.bytes) = n * w.bytes := gsize_of_lt (by omega)
  rw [putArray_eq, putWords, hn64, setAvailable_borrowed fresh h hsize hstuck.1 hstuck.2]
  rfl

theorem putArray_goes (fresh : Nat → UInt8) (h : Sound s) (w : Width) {n : Nat}
    (hsize : s.pos + n * w.bytes < 2 ^ 63) (hstuck : ¬Stuck s (n * w.bytes)) {memory : List UInt8}
    (hmemory : memory.length = n * w.bytes) (hends : order host e w = host ∨ n * w.bytes < 2 ^ 32) :
    ∃ t, putArray host e w n fresh s (some memory) = .ok (true, t) ∧
      Placed s (encodeAll (order host e w) w.bytes (words host w.bytes n memory)) t := by
  have howned := owned_of_not_stuck hstuck
  have hordered := ordered_put host (order host e w) w.bytes (words host w.bytes n memory)
  rw [words_length, encodeAll_words host hmemory] at hordered
  have hlen := ordered_length host (order host e w) hmemory
  rw [← hordered]
  refine ⟨_, (putArray_eq w n fresh s _).trans
    (putWords_eq fresh h host (order host e w) w.bytes_pos hends hsize howned hmemory), ?_⟩
  exact placed_of_write fresh h (by rw [hlen]; omega) (by rw [hlen]; exact howned)

theorem putArray_endless (fresh : Nat → UInt8) (h : Sound s) (w : Width) {n : Nat}
    (hsize : s.pos + n * w.bytes < 2 ^ 63) (hstuck : ¬Stuck s (n * w.bytes)) {memory : List UInt8}
    (hmemory : memory.length = n * w.bytes) (horder : order host e w ≠ host)
    (hcount : 2 ^ 32 ≤ n * w.bytes) :
    putArray host e w n fresh s (some memory) = .error (.memory .diverges) := by
  have hn64 : gsize (n * w.bytes) = n * w.bytes := gsize_of_lt (by omega)
  have hgrown : Sound (grown fresh s (s.pos + n * w.bytes)) := sound_grown fresh h (by omega)
  have hpos : (grown fresh s (s.pos + n * w.bytes)).pos = s.pos := rfl
  have hroom : s.pos + n * w.bytes ≤ (grown fresh s (s.pos + n * w.bytes)).data.length := by
    rw [hgrown.block]
    exact Nat.le_max_right _ _
  rw [putArray_eq, putWords, hn64, setAvailable_eq fresh h hsize (owned_of_not_stuck hstuck), ok_bind]
  simp only [hpos]
  rw [copyWords_endless horder w hcount (by omega) hroom]
  rfl

/-- Without an array there is room for it, and the position is behind. -/
theorem putArray_null (fresh : Nat → UInt8) (h : Sound s) (w : Width) {n : Nat}
    (hsize : s.pos + n * w.bytes < 2 ^ 63) (hstuck : ¬Stuck s (n * w.bytes)) :
    putArray host e w n fresh s none =
      .ok (true, { grown fresh s (s.pos + n * w.bytes) with pos := s.pos + n * w.bytes }) := by
  have hn64 : gsize (n * w.bytes) = n * w.bytes := gsize_of_lt (by omega)
  have hpos : (grown fresh s (s.pos + n * w.bytes)).pos = s.pos := rfl
  rw [putArray_eq, putWords, hn64, setAvailable_eq fresh h hsize (owned_of_not_stuck hstuck), ok_bind]
  simp only [hpos, ok_bind]
  rw [gsize_of_lt (by omega)]

theorem puts_left (host e : ByteOrder) (h : Sound s) (w : Width) {n : Nat} {calls : List ((Nat → UInt8) × Nat)}
    (hcalls : calls.length = n) (hsize : s.pos + n * w.bytes < 2 ^ 63) :
    (Stuck s (n * w.bytes) ∧ puts host e w calls s = .error .assertion) ∨
      (¬Stuck s (n * w.bytes) ∧ ∃ rs t, puts host e w calls s = .ok (rs, t) ∧
        Placed s (encodeAll (order host e w) w.bytes (calls.map Prod.snd)) t) := by
  subst hcalls
  exact puts_spec h w calls hsize

theorem put_not_agrees (fresh : Nat → UInt8) (h : Sound s) (w : Width) {n : Nat}
    (hsize : s.pos + n * w.bytes < 2 ^ 63) (hstuck : ¬Stuck s (n * w.bytes)) {memory : List UInt8}
    (hmemory : memory.length = n * w.bytes) (horder : order host e w ≠ host)
    (hcount : 2 ^ 32 ≤ n * w.bytes) {calls : List ((Nat → UInt8) × Nat)} (hcalls : calls.length = n) :
    left (putArray host e w n fresh s (some memory)) ≠ left (puts host e w calls s) := by
  rw [putArray_endless fresh h w hsize hstuck hmemory horder hcount]
  obtain ⟨hs, -⟩ | ⟨-, rs, t, hputs, -⟩ := puts_left host e h w hcalls hsize
  · exact absurd hs hstuck
  · rw [hputs]
    exact fun hsame => nomatch hsame

theorem getAgrees_iff (h : Sound s) (w : Width) {n : Nat} {res : Option (List UInt8)}
    (hres : ∀ memory ∈ res, memory.length = n * w.bytes) :
    GetAgrees host e w n s res ↔
      (n * w.bytes < 2 ^ 64 ∨ s.length - s.pos < n * w.bytes % 2 ^ 64) ∧
        (n * w.bytes ≤ s.length - s.pos →
          res = none ∨ order host e w = host ∨ n * w.bytes < 2 ^ 32) := by
  have hlen := h.length_le
  have hfits := h.fits
  by_cases hroom : n * w.bytes ≤ s.length - s.pos
  · by_cases hends : res = none ∨ order host e w = host ∨ n * w.bytes < 2 ^ 32
    · exact iff_of_true (getAgrees_of_room h w hroom hres hends) ⟨.inl (by omega), fun _ => hends⟩
    · refine iff_of_false ?_ (fun hcond => hends (hcond.2 hroom))
      rw [not_or, not_or, Nat.not_lt] at hends
      cases res with
      | none => exact absurd rfl hends.1
      | some memory =>
          exact not_getAgrees_of_endless h w hroom (hres memory rfl) hends.2.1 hends.2.2
  · have hmore := Nat.not_le.mp hroom
    by_cases hcount : s.length - s.pos < n * w.bytes % 2 ^ 64
    · exact iff_of_true (getAgrees_of_refused h w res hmore hcount)
        ⟨.inr hcount, fun hle => absurd hle hroom⟩
    · refine iff_of_false (not_getAgrees_of_wrapped h w res hmore (Nat.not_lt.mp hcount)) ?_
      rintro ⟨hlt | hlt, -⟩
      · rw [Nat.mod_eq_of_lt hlt] at hcount
        exact hcount hmore
      · exact hcount hlt

/-- Both put the same numbers, unless the loop of the one has no end. -/
theorem putArray_puts_iff (fresh : Nat → UInt8) (h : Sound s) (w : Width) {n : Nat}
    {calls : List ((Nat → UInt8) × Nat)} {memory : List UInt8} (hsize : s.pos + n * w.bytes < 2 ^ 63)
    (hmemory : memory.length = n * w.bytes) (hvalues : calls.map Prod.snd = words host w.bytes n memory) :
    left (putArray host e w n fresh s (some memory)) = left (puts host e w calls s) ↔
      Stuck s (n * w.bytes) ∨ order host e w = host ∨ n * w.bytes < 2 ^ 32 := by
  have hcalls : calls.length = n := by
    rw [← words_length host w.bytes n memory, ← hvalues, List.length_map]
  obtain ⟨hstuck, hputs⟩ | ⟨hstuck, rs, t, hputs, ht⟩ :=
    puts_left host e h w hcalls hsize
  · rw [putArray_stuck fresh h w hsize hstuck, hputs]
    exact iff_of_true rfl (.inl hstuck)
  · rw [hvalues] at ht
    by_cases hends : order host e w = host ∨ n * w.bytes < 2 ^ 32
    · obtain ⟨u, hput, hu⟩ := putArray_goes fresh h w hsize hstuck hmemory hends
      rw [hput, hputs]
      exact iff_of_true (left_placed hu ht h.pos_le true rs) (.inr hends)
    · refine iff_of_false ?_ (fun hcond => hends (hcond.resolve_left hstuck))
      rw [not_or, Nat.not_lt] at hends
      rw [putArray_endless fresh h w hsize hstuck hmemory hends.1 hends.2, hputs]
      exact fun hsame => nomatch hsame

/-- With no array the place and the length are those of any numbers. -/
theorem putArray_null_puts (fresh : Nat → UInt8) (h : Sound s) (w : Width) {n : Nat}
    {calls : List ((Nat → UInt8) × Nat)} (hsize : s.pos + n * w.bytes < 2 ^ 63) (hcalls : calls.length = n) :
    (left (putArray host e w n fresh s none)).map Prod.snd =
      (left (puts host e w calls s)).map Prod.snd := by
  obtain ⟨hstuck, hputs⟩ | ⟨hstuck, rs, t, hputs, ht⟩ :=
    puts_left host e h w hcalls hsize
  · rw [putArray_stuck fresh h w hsize hstuck, hputs]
    rfl
  · have hbytes := encodeAll_length (order host e w) w.bytes (calls.map Prod.snd)
    rw [List.length_map, hcalls] at hbytes
    have hpos := ht.pos
    have hlength := ht.length
    rw [hbytes] at hpos hlength
    rw [putArray_null fresh h w hsize hstuck, hputs]
    simp only [left, Except.map, hpos, hlength, grown]

/-- Calls for arrays do what single calls do, but for a count that wraps
around and for the loop that swaps the bytes of an array of 2 ^ 32 bytes. -/
theorem arrays_agree_iff (host e : ByteOrder) (w : Width) (n : Nat) (s : ZPktBuf) (h : Sound s) :
    (∀ res, (∀ memory ∈ res, memory.length = n * w.bytes) →
      (GetAgrees host e w n s res ↔
        (n * w.bytes < 2 ^ 64 ∨ s.length - s.pos < n * w.bytes % 2 ^ 64) ∧
          (n * w.bytes ≤ s.length - s.pos →
            res = none ∨ order host e w = host ∨ n * w.bytes < 2 ^ 32))) ∧
    (s.pos + n * w.bytes < 2 ^ 63 → ∀ fresh (calls : List ((Nat → UInt8) × Nat)),
      (∀ memory, memory.length = n * w.bytes → calls.map Prod.snd = words host w.bytes n memory →
        (left (putArray host e w n fresh s (some memory)) = left (puts host e w calls s) ↔
          Stuck s (n * w.bytes) ∨ order host e w = host ∨ n * w.bytes < 2 ^ 32)) ∧
      (calls.length = n →
        (left (putArray host e w n fresh s none)).map Prod.snd =
          (left (puts host e w calls s)).map Prod.snd)) := by
  refine ⟨fun res hres => getAgrees_iff h w hres, ?_⟩
  intro hsize fresh calls
  refine ⟨?_, ?_⟩
  · intro memory hmemory hvalues
    exact putArray_puts_iff fresh h w hsize hmemory hvalues
  · intro hcalls
    exact putArray_null_puts fresh h w hsize hcalls

theorem arrays_agree_iff_two :
    let s : ZPktBuf := { allocated := 5, length := 4, data := [1, 2, 3, 4, 9] }
    GetAgrees .little .big .w16 2 s (some [0, 0, 0, 0]) ∧
      left (putArray .little .big .w16 2 (fun _ => 0) s (some [5, 6, 7, 8])) =
        left (puts .little .big .w16 [(fun _ => 0, 1541), (fun _ => 0, 2055)] s) := by
  intro s
  have hsound : Sound s := ⟨by decide, by decide, rfl, by decide⟩
  have hall := arrays_agree_iff .little .big .w16 2 s hsound
  refine ⟨?_, ?_⟩
  · have hmemory : ∀ memory ∈ some [(0 : UInt8), 0, 0, 0], memory.length = 2 * Width.w16.bytes := by
      intro memory h
      cases h
      rfl
    have hcount : 2 * Width.w16.bytes < 2 ^ 32 := by decide
    have hfits : 2 * Width.w16.bytes < 2 ^ 64 := by decide
    rw [hall.1 _ hmemory]
    exact ⟨.inl hfits, fun _ => .inr (.inr hcount)⟩
  · have hvalues : [((fun _ => 0 : Nat → UInt8), 1541), (fun _ => 0, 2055)].map Prod.snd =
        words .little Width.w16.bytes 2 [5, 6, 7, 8] := by decide
    rw [(hall.2 (by decide) (fun _ => 0) _).1 [5, 6, 7, 8] rfl hvalues]
    exact .inr (.inr (by decide))

/-- A skip over 2 ^ 63 numbers of two bytes is said to have worked in a buffer
of two bytes, and a put of 2 ^ 31 numbers in the other order has no end. -/
theorem arrays_not_agree :
    ¬GetAgrees .little .little .w16 (2 ^ 63) { allocated := 2, length := 2, data := [1, 2] } none ∧
      left (putArray .little .big .w16 (2 ^ 31) (fun _ => 0) {}
          (some (List.replicate (2 ^ 31 * Width.w16.bytes) 0))) ≠
        left (puts .little .big .w16 (List.replicate (2 ^ 31) (fun _ => 0, 0)) {}) := by
  refine ⟨?_, ?_⟩
  · exact not_getAgrees_of_wrapped ⟨by decide, by decide, rfl, by decide⟩ .w16 none (by decide)
      (by decide)
  · have hsound : Sound {} := ⟨Nat.le_refl _, Nat.le_refl _, rfl, by decide⟩
    exact put_not_agrees (fun _ => 0) hsound .w16 (by decide) (fun h => Bool.noConfusion h.1)
      List.length_replicate (by decide) (by decide) List.length_replicate

end Libzorpll.PacketArrays
