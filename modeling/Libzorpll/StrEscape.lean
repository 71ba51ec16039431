import Libzorpll.Run
import Libzorpll.UrlParse

/-! z_str_escape and z_str_compress, and when the one undoes the other. -/

namespace Libzorpll.StrEscape

open CString UrlParse

inductive Halt
  | outOfBounds
  | noMemory
  | overflow
  deriving DecidableEq

def space : UInt8 := 32

def underscore : UInt8 := 95

/-- The array of a result and the index of its next byte. -/
structure Buffer where
  mem : List UInt8
  j : Nat := 0

/-- g_new0 of so many bytes, which gives NULL for none: there is nothing to
read then either. -/
def newGchars (n : Int) : Except Halt Buffer :=
  if n < 0 then .error .noMemory else .ok { mem := List.replicate n.toNat 0 }

def Buffer.put (res : Buffer) (c : UInt8) : Except Halt Buffer :=
  if res.j < res.mem.length then .ok ⟨res.mem.set res.j c, res.j + 1⟩ else .error .outOfBounds

/-- The length that is given, or strlen(s) + 1 for a negative one. -/
def lengthOf (s : Ptr) (len : Int) : Except Halt Int :=
  if len < 0 then
    match string s with
    | none => .error .outOfBounds
    | some t => .ok (gint (t.length + 1 : Nat))
  else .ok len

def escapeByte (c : UInt8) (res : Buffer) : Except Halt Buffer :=
  if c = space then do
    let res ← res.put percent
    res.put underscore
  else if c = percent then do
    let res ← res.put percent
    res.put percent
  else res.put c

/-- The loop, for the rest of the string and what is left of the length. -/
def escapeLoop : Ptr → Nat → Buffer → Except Halt Buffer
  | _, 0, res => .ok res
  | [], _ + 1, _ => .error .outOfBounds
  | c :: s, left + 1, res =>
      if c = 0 then .ok res
      else do
        let res ← escapeByte c res
        escapeLoop s left res

/-- len * 2 in a gint. -/
def twice (len : Int) : Except Halt Int :=
  if len * 2 < -2 ^ 31 ∨ 2 ^ 31 ≤ len * 2 then .error .overflow else .ok (len * 2)

def zStrEscape (s : Ptr) (len : Int) : Except Halt Ptr := do
  let len ← lengthOf s len
  let size ← twice len
  let res ← newGchars size
  let res ← escapeLoop s len.toNat res
  .ok res.mem

def compressLoop : Ptr → Nat → Buffer → Except Halt Buffer
  | _, 0, res => .ok res
  | [], _ + 1, _ => .error .outOfBounds
  | c :: s, left + 1, res =>
      if c = 0 then .ok res
      else if c = percent then
        match s with
        | [] => .error .outOfBounds
        | d :: s' =>
            if d = percent then do
              let res ← res.put percent
              compressLoop s' (left - 1) res
            else if d = underscore then do
              let res ← res.put space
              compressLoop s' (left - 1) res
            else do
              let res ← res.put c
              compressLoop (d :: s') left res
      else do
        let res ← res.put c
        compressLoop s left res

def zStrCompress (s : Ptr) (len : Int) : Except Halt Ptr := do
  let len ← lengthOf s len
  let res ← newGchars len
  let res ← compressLoop s len.toNat res
  .ok res.mem

/-! What is written -/

/-- A byte that takes two. -/
def Special (c : UInt8) : Prop := c = space ∨ c = percent

instance (c : UInt8) : Decidable (Special c) := inferInstanceAs (Decidable (c = space ∨ c = percent))

def escapeOf (c : UInt8) : List UInt8 :=
  if c = space then [percent, underscore] else if c = percent then [percent, percent] else [c]

def escaped (s : List UInt8) : List UInt8 := s.flatMap escapeOf

variable {s w : List UInt8} {c : UInt8} {room left : Nat}

theorem escapeOf_length (c : UInt8) : (escapeOf c).length = 1 + if Special c then 1 else 0 := by
  rw [escapeOf]
  split
  · rename_i hc
    have hspecial : Special c := .inl hc
    rw [if_pos hspecial]
    rfl
  · rename_i hspace
    split
    · rename_i hc
      have hspecial : Special c := .inr hc
      rw [if_pos hspecial]
      rfl
    · rename_i hpercent
      have hplain : ¬Special c := not_or_intro hspace hpercent
      rw [if_neg hplain]
      rfl

theorem escaped_cons (c : UInt8) (s : List UInt8) : escaped (c :: s) = escapeOf c ++ escaped s := List.flatMap_cons

theorem escaped_length (s : List UInt8) : (escaped s).length = s.length + s.countP (Special ·) := by
  induction s with
  | nil => rfl
  | cons c s ih =>
      rw [escaped_cons, List.length_append, escapeOf_length, ih, List.length_cons, List.countP_cons]
      simp only [decide_eq_true_eq]
      omega

theorem escaped_le (s : List UInt8) : s.length ≤ (escaped s).length ∧ (escaped s).length ≤ 2 * s.length := by
  have hcount := List.countP_le_length (p := (Special ·)) (l := s)
  rw [escaped_length]
  omega

theorem escapeOf_bytes (hc : c ≠ 0) : 0 ∉ escapeOf c ∧ space ∉ escapeOf c := by
  rw [escapeOf]
  split
  · decide
  · rename_i hspace
    split
    · decide
    · simp only [List.mem_singleton]
      exact ⟨Ne.symm hc, Ne.symm hspace⟩

theorem escaped_bytes (hs : 0 ∉ s) : 0 ∉ escaped s ∧ space ∉ escaped s := by
  have hbytes (c : UInt8) (hmem : c ∈ s) := escapeOf_bytes (c := c) (by rintro rfl; exact hs hmem)
  simp only [escaped, List.mem_flatMap, not_exists, not_and]
  exact ⟨fun c hmem => (hbytes c hmem).1, fun c hmem => (hbytes c hmem).2⟩

/-- The array with these bytes written and the rest as it was allocated. -/
def filled (w : List UInt8) (room : Nat) : Buffer := ⟨w ++ List.replicate room 0, w.length⟩

theorem put_filled (w : List UInt8) (room : Nat) (c : UInt8) :
    (filled w (room + 1)).put c = .ok (filled (w ++ [c]) room) := by
  have hlt : w.length < (w ++ List.replicate (room + 1) (0 : UInt8)).length := by
    rw [List.length_append, List.length_replicate]
    omega
  have hset : (w ++ List.replicate (room + 1) (0 : UInt8)).set w.length c = w ++ [c] ++ List.replicate room 0 := by
    rw [List.set_append_right _ _ (Nat.le_refl _), Nat.sub_self, List.replicate_succ, List.set_cons_zero,
      List.append_assoc, List.singleton_append]
  rw [Buffer.put, filled, if_pos hlt, hset, filled, List.length_append, List.length_singleton]

theorem escapeByte_filled (w : List UInt8) (room : Nat) (c : UInt8) :
    escapeByte c (filled w (room + (escapeOf c).length)) = .ok (filled (w ++ escapeOf c) room) := by
  rw [escapeByte, escapeOf]
  split
  · change ((filled w (room + 1 + 1)).put percent >>= fun res => res.put underscore) = _
    rw [put_filled]
    change (filled _ (room + 1)).put underscore = _
    rw [put_filled, List.append_assoc]
    rfl
  · split
    · change ((filled w (room + 1 + 1)).put percent >>= fun res => res.put percent) = _
      rw [put_filled]
      change (filled _ (room + 1)).put percent = _
      rw [put_filled, List.append_assoc]
      rfl
    · exact put_filled w room c

theorem escapeLoop_filled (hs : 0 ∉ s) (hleft : s.length ≤ left) :
    escapeLoop (terminated s) left (filled w (room + (escaped s).length)) = .ok (filled (w ++ escaped s) room) := by
  induction s generalizing w left with
  | nil =>
      rw [escaped, List.flatMap_nil, List.append_nil]
      cases left with
      | zero => rw [escapeLoop]; rfl
      | succ left => rfl
  | cons c s ih =>
      rw [List.mem_cons, not_or] at hs
      obtain ⟨left, rfl⟩ : ∃ k, left = k + 1 := ⟨left - 1, by rw [List.length_cons] at hleft; omega⟩
      have hroom : room + (escaped (c :: s)).length = room + (escaped s).length + (escapeOf c).length := by
        rw [escaped_cons, List.length_append]
        omega
      change escapeLoop (c :: terminated s) (left + 1) _ = _
      rw [escapeLoop, if_neg (Ne.symm hs.1), hroom, escapeByte_filled]
      change escapeLoop (terminated s) left _ = _
      rw [ih hs.2 (Nat.le_of_succ_le_succ hleft), escaped_cons, List.append_assoc]

theorem compressLoop_pair (d : UInt8) (t : Ptr) (left : Nat) (res : Buffer) (hd : d = percent ∨ d = underscore) :
    compressLoop (percent :: d :: t) (left + 2) res =
      (res.put (if d = percent then percent else space)).bind (compressLoop t left) := by
  rw [compressLoop, if_neg (by decide), if_pos rfl]
  rcases hd with rfl | rfl
  · rfl
  · rfl

theorem compressLoop_plain (hc : c ≠ 0) (hpercent : c ≠ percent) (t : Ptr) (left : Nat) (res : Buffer) :
    compressLoop (c :: t) (left + 1) res = (res.put c).bind (compressLoop t left) := by
  rw [compressLoop.eq_def]
  simp only [if_neg hc, if_neg hpercent]
  rfl

/-- One byte is taken back. -/
theorem compressLoop_byte (hc : c ≠ 0) (t : Ptr) (left : Nat) (w : List UInt8) (room : Nat) :
    compressLoop (escapeOf c ++ t) (left + (escapeOf c).length) (filled w (room + 1)) =
      compressLoop t left (filled (w ++ [c]) room) := by
  rw [escapeOf]
  split
  · rename_i hspace
    rw [hspace]
    change compressLoop (percent :: underscore :: t) (left + 2) _ = _
    rw [compressLoop_pair underscore t left _ (.inr rfl), if_neg (by decide), put_filled]
    rfl
  · split
    · rename_i hpercent
      rw [hpercent]
      change compressLoop (percent :: percent :: t) (left + 2) _ = _
      rw [compressLoop_pair percent t left _ (.inl rfl), if_pos rfl, put_filled]
      rfl
    · rename_i hpercent
      change compressLoop (c :: t) (left + 1) _ = _
      rw [compressLoop_plain hc hpercent, put_filled]
      rfl

theorem compressLoop_filled (hs : 0 ∉ s) (tl : Ptr) (hleft : (escaped s).length ≤ left) :
    compressLoop (escaped s ++ 0 :: tl) left (filled w (room + s.length)) = .ok (filled (w ++ s) room) := by
  induction s generalizing w left with
  | nil =>
      rw [List.append_nil, escaped, List.flatMap_nil, List.nil_append]
      cases left with
      | zero => rw [compressLoop]; rfl
      | succ left => rw [compressLoop.eq_def]; rfl
  | cons c s ih =>
      rw [List.mem_cons, not_or] at hs
      rw [escaped_cons, List.length_append] at hleft
      obtain ⟨left, rfl⟩ : ∃ k, left = k + (escapeOf c).length := ⟨left - (escapeOf c).length, by omega⟩
      rw [escaped_cons, List.append_assoc]
      change compressLoop _ _ (filled w (room + s.length + 1)) = _
      rw [compressLoop_byte (Ne.symm hs.1), ih hs.2 (by omega), List.append_assoc, List.singleton_append]

/-! Results -/

theorem string_filled (hw : 0 ∉ w) (room : Nat) : string (filled w room).mem = if room = 0 then none else some w := by
  cases room with
  | zero =>
      have hnone (v : List UInt8) (hv : 0 ∉ v) : string v = none := by
        induction v with
        | nil => rfl
        | cons c v ih =>
            rw [List.mem_cons, not_or] at hv
            rw [string, if_neg (Ne.symm hv.1), ih hv.2]
            rfl
      rw [filled, List.replicate_zero, List.append_nil, hnone w hw]
      rfl
  | succ room => exact string_append hw (List.replicate room 0)

theorem newGchars_ok (n : Nat) : newGchars n = .ok (filled [] n) := by
  rw [newGchars, if_neg (Int.not_lt.mpr (Int.natCast_nonneg n))]
  rfl

theorem lengthOf_ok (s : Ptr) (len : Nat) : lengthOf s len = .ok (len : Int) :=
  if_neg (Int.not_lt.mpr (Int.natCast_nonneg len))

theorem lengthOf_terminated (hs : 0 ∉ s) : lengthOf (terminated s) (-1) = .ok (gint (s.length + 1 : Nat)) := by
  rw [lengthOf, if_pos (by decide), string_terminated hs]

/-- The loops of both calls, after the length has been found. -/
theorem zStrEscape_ok {len : Nat} {given : Int} (hs : 0 ∉ s) (hgiven : lengthOf (terminated s) given = .ok (len : Int))
    (hle : s.length ≤ len) (hlen : len < 2 ^ 30) :
    zStrEscape (terminated s) given = .ok (filled (escaped s) (2 * len - (escaped s).length)).mem := by
  have htwice : twice len = .ok ((2 * len : Nat) : Int) := by
    rw [twice, if_neg (by omega), Nat.cast_mul, Int.mul_comm]
    rfl
  have hroom : 2 * len = 2 * len - (escaped s).length + (escaped s).length := by
    have hescaped := (escaped_le s).2
    omega
  have hloop : escapeLoop (terminated s) len (filled [] (2 * len)) =
      .ok (filled (escaped s) (2 * len - (escaped s).length)) := by
    rw [hroom, escapeLoop_filled hs hle, Nat.add_sub_cancel, List.nil_append]
  rw [zStrEscape, hgiven, Run.ok_bind, htwice, Run.ok_bind, newGchars_ok, Run.ok_bind, Int.toNat_natCast, hloop]
  rfl

theorem zStrCompress_ok {len : Nat} {given : Int} (hs : 0 ∉ s) (tl : Ptr)
    (hgiven : lengthOf (escaped s ++ 0 :: tl) given = .ok (len : Int)) (hle : (escaped s).length ≤ len) :
    zStrCompress (escaped s ++ 0 :: tl) given = .ok (filled s (len - s.length)).mem := by
  have hroom : len = len - s.length + s.length := by
    have hescaped := (escaped_le s).1
    omega
  have hloop : compressLoop (escaped s ++ 0 :: tl) len (filled [] len) = .ok (filled s (len - s.length)) := by
    have hfilled := @compressLoop_filled s [] (len - s.length) len hs tl hle
    rw [← hroom] at hfilled
    exact hfilled
  rw [zStrCompress, hgiven, Run.ok_bind, newGchars_ok, Run.ok_bind, Int.toNat_natCast, hloop]
  rfl

theorem put_length {res res' : Buffer} (h : res.put c = .ok res') : res'.mem.length = res.mem.length := by
  rw [Buffer.put] at h
  split at h
  · cases h
    exact List.length_set
  · cases h

/-- The loop stays in its array. -/
theorem compressLoop_length {t : Ptr} {left : Nat} {res res' : Buffer} (h : compressLoop t left res = .ok res') :
    res'.mem.length = res.mem.length := by
  induction t, left, res using compressLoop.induct with
  | case1 t res =>
      rw [compressLoop] at h
      cases h
      rfl
  | case2 left res => cases h
  | case3 t left res =>
      rw [compressLoop.eq_def] at h
      cases h
      rfl
  | case4 left res hc =>
      rw [compressLoop.eq_def] at h
      cases h
  | case5 left res t hc ih =>
      rw [compressLoop.eq_def] at h
      obtain ⟨res'', hput, hrest⟩ := Run.bind_ok (e := res.put percent) h
      exact (ih res'' hrest).trans (put_length hput)
  | case6 left res t hc hd ih =>
      rw [compressLoop.eq_def] at h
      obtain ⟨res'', hput, hrest⟩ := Run.bind_ok (e := res.put space) h
      exact (ih res'' hrest).trans (put_length hput)
  | case7 left res d t hd hd' hc ih =>
      rw [compressLoop.eq_def] at h
      simp only [if_neg hc, if_neg hd, if_neg hd', if_true] at h
      obtain ⟨res'', hput, hrest⟩ := Run.bind_ok (e := res.put percent) h
      exact (ih res'' hrest).trans (put_length hput)
  | case8 c t left res hc hpercent ih =>
      rw [compressLoop.eq_def] at h
      simp only [if_neg hc, if_neg hpercent] at h
      obtain ⟨res'', hput, hrest⟩ := Run.bind_ok (e := res.put c) h
      exact (ih res'' hrest).trans (put_length hput)

theorem string_length {t : Ptr} {w : List UInt8} (h : string t = some w) : w.length < t.length := by
  induction t generalizing w with
  | nil => cases h
  | cons c t ih =>
      rw [string] at h
      split at h
      · cases h
        exact Nat.zero_lt_succ _
      · obtain ⟨v, hv, rfl⟩ := Option.map_eq_some_iff.mp h
        exact Nat.succ_lt_succ (ih hv)

theorem gint_bounds (n : Int) : -2 ^ 31 ≤ gint n ∧ gint n < 2 ^ 31 := by
  have hle := @Int.le_bmod n (2 ^ 32) (Nat.two_pow_pos 32)
  have hlt := @Int.bmod_lt n (2 ^ 32) (Nat.two_pow_pos 32)
  exact ⟨by rw [gint]; omega, by rw [gint]; omega⟩

theorem lengthOf_bounds {t : Ptr} {given len : Int} (hgiven : given < 2 ^ 31) (h : lengthOf t given = .ok len) :
    len < 2 ^ 31 := by
  rw [lengthOf] at h
  split at h
  · split at h
    · cases h
    · rw [← Except.ok.inj h]
      exact (gint_bounds _).2
  · rw [← Except.ok.inj h]
    exact hgiven

/-- The array of a result is shorter than 2^31 bytes, as its length is a gint. -/
theorem zStrCompress_length {t res : Ptr} {given : Int} (hgiven : given < 2 ^ 31) (h : zStrCompress t given = .ok res) :
    res.length < 2 ^ 31 := by
  obtain ⟨len, hlen, hrest⟩ := Run.bind_ok h
  obtain ⟨new, hnew, hrest⟩ := Run.bind_ok hrest
  obtain ⟨last, hloop, hres⟩ := Run.bind_ok hrest
  have hbound := lengthOf_bounds hgiven hlen
  rw [newGchars] at hnew
  split at hnew
  · cases hnew
  · cases hnew
    cases hres
    rw [compressLoop_length hloop, List.length_replicate]
    omega

/-- The two calls, with the lengths that a caller gives for the strings. -/
def EscapesBack (given : List UInt8 → Int) (s : List UInt8) : Prop :=
  ∃ res esc res', zStrEscape (terminated s) (given s) = .ok res ∧ string res = some esc ∧ space ∉ esc ∧
    zStrCompress res (given esc) = .ok res' ∧ string res' = some s

/-- A negative length. -/
def minusOne (_ : List UInt8) : Int := -1

/-- The exact length, as a gint. -/
def exactly (t : List UInt8) : Int := gint t.length

theorem length_of_escapesBack {given : List UInt8 → Int} (hgiven : ∀ t, given t < 2 ^ 31) (h : EscapesBack given s) :
    s.length + 1 < 2 ^ 31 := by
  obtain ⟨res, esc, res', -, -, -, hcompress, hback⟩ := h
  have hlt := string_length hback
  have hbound := zStrCompress_length (hgiven esc) hcompress
  omega

theorem twice_of_ok {given len : Int} {res : Ptr} (hlen : lengthOf (terminated s) given = .ok len)
    (h : zStrEscape (terminated s) given = .ok res) : len < 2 ^ 30 := by
  rw [zStrEscape, hlen, Run.ok_bind] at h
  obtain ⟨size, hsize, -⟩ := Run.bind_ok h
  rw [twice] at hsize
  split at hsize
  · cases hsize
  · omega

/-- Where the arrays have room for a NUL behind both strings. -/
theorem escapesBack_of_room {given : List UInt8 → Int} {len len' : Nat} (hs : 0 ∉ s)
    (hgiven : lengthOf (terminated s) (given s) = .ok (len : Int)) (hle : s.length ≤ len) (hlen : len < 2 ^ 30)
    (hroom : (escaped s).length < 2 * len)
    (hgiven' : ∀ t, string t = some (escaped s) → lengthOf t (given (escaped s)) = .ok (len' : Int))
    (hle' : (escaped s).length ≤ len') (hroom' : s.length < len') : EscapesBack given s := by
  obtain ⟨hzero, hspace⟩ := escaped_bytes hs
  obtain ⟨room, heq⟩ : ∃ room, 2 * len - (escaped s).length = room + 1 :=
    ⟨2 * len - (escaped s).length - 1, by omega⟩
  have hescape := zStrEscape_ok hs hgiven hle hlen
  rw [heq] at hescape
  have hstring : string (filled (escaped s) (room + 1)).mem = some (escaped s) := by
    rw [string_filled hzero, if_neg (Nat.succ_ne_zero room)]
  refine ⟨_, _, _, hescape, hstring, hspace, zStrCompress_ok hs (List.replicate room 0) (hgiven' _ hstring) hle', ?_⟩
  rw [string_filled hs, if_neg (by omega)]

theorem minusOne_iff (hs : 0 ∉ s) : EscapesBack minusOne s ↔ s.length < 2 ^ 30 - 1 := by
  have hlength : lengthOf (terminated s) (minusOne s) = .ok (gint (s.length + 1 : Nat)) := lengthOf_terminated hs
  constructor
  · intro h
    have hlt := length_of_escapesBack (fun _ => show (-1 : Int) < 2 ^ 31 by decide) h
    obtain ⟨res, esc, res', hescape, -⟩ := h
    rw [gint_of_lt hlt] at hlength
    have htwice := twice_of_ok hlength hescape
    omega
  · intro hlen
    obtain ⟨hle, hge⟩ := escaped_le s
    rw [gint_of_lt (by omega)] at hlength
    refine @escapesBack_of_room s minusOne (s.length + 1) ((escaped s).length + 1) hs hlength (Nat.le_succ _)
      (by omega) (by omega) ?_ (Nat.le_succ _) (by omega)
    intro t ht
    rw [lengthOf, minusOne, if_pos (by decide), ht]
    exact congrArg Except.ok (gint_of_lt (by omega))

/-- Some byte expands. -/
theorem special_iff (s : List UInt8) : (∃ c ∈ s, Special c) ↔ s.length < (escaped s).length := by
  have hcount := List.countP_pos_iff (p := (Special ·)) (l := s)
  simp only [decide_eq_true_eq] at hcount
  rw [← hcount, escaped_length]
  omega

/-- Some byte does not. -/
theorem plain_iff (s : List UInt8) : (∃ c ∈ s, ¬Special c) ↔ (escaped s).length < 2 * s.length := by
  have hcount := List.countP_eq_length (p := (Special ·)) (l := s)
  have hle := List.countP_le_length (p := (Special ·)) (l := s)
  simp only [decide_eq_true_eq] at hcount
  have hnot : (∃ c ∈ s, ¬Special c) ↔ ¬∀ c ∈ s, Special c := by
    push Not
    rfl
  rw [hnot, ← hcount, escaped_length]
  omega

theorem exactly_iff (hs : 0 ∉ s) :
    EscapesBack exactly s ↔ s.length < 2 ^ 30 ∧ (∃ c ∈ s, Special c) ∧ ∃ c ∈ s, ¬Special c := by
  have hlength (hlen : s.length < 2 ^ 31) : lengthOf (terminated s) (exactly s) = .ok (s.length : Int) := by
    rw [exactly, gint_of_lt hlen, lengthOf_ok]
  have hlength' (t : Ptr) (hlen : s.length < 2 ^ 30) :
      lengthOf t (exactly (escaped s)) = .ok ((escaped s).length : Int) := by
    have hge := (escaped_le s).2
    rw [exactly, gint_of_lt (by omega), lengthOf_ok]
  rw [special_iff, plain_iff]
  constructor
  · intro h
    have hlt := length_of_escapesBack (fun t => (gint_bounds _).2) h
    obtain ⟨res, esc, res', hescape, hstring, -, hcompress, hback⟩ := h
    have hlen := twice_of_ok (hlength (by omega)) hescape
    have hlen' : s.length < 2 ^ 30 := by omega
    rw [zStrEscape_ok hs (hlength (by omega)) (Nat.le_refl _) hlen'] at hescape
    cases hescape
    rw [string_filled (escaped_bytes hs).1] at hstring
    split at hstring
    · cases hstring
    · rename_i hroom
      cases hstring
      obtain ⟨room, heq⟩ : ∃ room, 2 * s.length - (escaped s).length = room + 1 :=
        ⟨2 * s.length - (escaped s).length - 1, by omega⟩
      rw [heq] at hcompress
      have hanswer := zStrCompress_ok hs (List.replicate room 0) (hlength' _ hlen') (Nat.le_refl _)
      change zStrCompress (filled (escaped s) (room + 1)).mem _ = _ at hanswer
      rw [hanswer] at hcompress
      cases hcompress
      rw [string_filled hs] at hback
      split at hback
      · cases hback
      · exact ⟨hlen', by omega, by omega⟩
  · rintro ⟨hlen, hgt, hlt⟩
    exact escapesBack_of_room hs (hlength (by omega)) (Nat.le_refl _) hlen hlt (fun t _ => hlength' t hlen)
      (Nat.le_refl _) hgt

/-- z_str_compress undoes z_str_escape where 2 * len is a gint and, with exact
lengths, where some of the bytes are escaped and some are not. -/
theorem escapes_back_iff (s : List UInt8) (hs : 0 ∉ s) :
    (EscapesBack minusOne s ↔ s.length < 2 ^ 30 - 1) ∧
      (EscapesBack exactly s ↔ s.length < 2 ^ 30 ∧ (∃ c ∈ s, Special c) ∧ ∃ c ∈ s, ¬Special c) :=
  ⟨minusOne_iff hs, exactly_iff hs⟩

theorem escapes_back_iff_words :
    (EscapesBack minusOne [97, space, percent] ↔ [97, space, percent].length < 2 ^ 30 - 1) ∧
      (EscapesBack exactly [97, space, percent] ↔ [97, space, percent].length < 2 ^ 30 ∧
        (∃ c ∈ [97, space, percent], Special c) ∧ ∃ c ∈ [97, space, percent], ¬Special c) :=
  escapes_back_iff [97, space, percent] (by decide)

/-- The array of z_str_compress has no room for a NUL behind a letter. -/
theorem not_escapes_back : ¬∀ s, 0 ∉ s → EscapesBack minusOne s ∧ EscapesBack exactly s := by
  intro h
  have hs : (0 : UInt8) ∉ [97] := by decide
  obtain ⟨-, ⟨c, hc, hspecial⟩, -⟩ := (exactly_iff hs).mp (h [97] hs).2
  rw [List.mem_singleton.mp hc] at hspecial
  exact absurd hspecial (by decide)

end Libzorpll.StrEscape
