import Libzorpll.PacketArrays
import Libzorpll.Signed

/-! Where z_pktbuf_seek goes when signed sums wrap around, and what is read
there. -/

namespace Libzorpll.PacketSeek

open Region Word PacketBuf PacketItems PacketRun PacketArrays Signed

def seekWraps (whence : Whence) (s : ZPktBuf) (offset : Int) : Bool × ZPktBuf :=
  match whence with
  | .seekCur =>
      let target := ((s.pos + offset) % 2 ^ 64).toNat
      if s.length < target ∨ gssize (gssize s.pos + offset) < 0 then (false, s)
      else (true, { s with pos := target })
  | .seekSet =>
      if gssize s.length < offset ∨ offset < 0 then (false, s)
      else (true, { s with pos := offset.toNat })
  | .seekEnd =>
      if 0 < offset ∨ gssize s.length < gssize (-offset) then (false, s)
      else (true, { s with pos := ((s.length + offset) % 2 ^ 64).toNat })

def target (whence : Whence) (s : ZPktBuf) (offset : Int) : Int :=
  match whence with
  | .seekCur => s.pos + offset
  | .seekSet => offset
  | .seekEnd => s.length + offset

/-- From the end the offset goes back only. -/
def InData (whence : Whence) (s : ZPktBuf) (offset : Int) : Prop :=
  0 ≤ target whence s offset ∧ target whence s offset ≤ s.length ∧ (whence = .seekEnd → offset ≤ 0)

/-- A get comes back, and a word that it takes is one of the data. -/
def GetsInside (s : ZPktBuf) : Prop :=
  ∀ (host e : ByteOrder) (w : Width) (res : Option Nat), ∃ taken got t, getOne host e w s res = .ok (taken, got, t) ∧
    (taken = true → t.pos = s.pos + w.bytes ∧ t.pos ≤ s.length)

structure Exact (whence : Whence) (s : ZPktBuf) (offset : Int) : Prop where
  moves : (seekWraps whence s offset).1 = true ↔ InData whence s offset
  moved : (seekWraps whence s offset).1 = true →
    (seekWraps whence s offset).2 = { s with pos := (target whence s offset).toNat }
  unchanged : (seekWraps whence s offset).1 = false → (seekWraps whence s offset).2 = s
  gets : GetsInside (seekWraps whence s offset).2

variable {s t : ZPktBuf} {whence : Whence} {offset : Int}

theorem ite_of_ok {α : Type} {c : Prop} [Decidable c] {a b r : α}
    (h : (if c then (.ok a : Except Halt α) else .ok b) = .ok r) : (if c then a else b) = r := by
  split at h
  · rename_i hc
    rw [if_pos hc]
    exact Except.ok.inj h
  · rename_i hc
    rw [if_neg hc]
    exact Except.ok.inj h

/-- Without a signed overflow it is the seek of the other operations. -/
theorem seekWraps_eq {r : Bool × ZPktBuf} (h : seek whence s offset = .ok r) : seekWraps whence s offset = r := by
  cases whence with
  | seekCur =>
      rw [seek] at h
      rw [seekWraps]
      by_cases hbehind : s.length < ((s.pos + offset) % 2 ^ 64).toNat
      · rw [if_pos hbehind] at h
        rw [if_pos (.inl hbehind)]
        exact Except.ok.inj h
      · rw [if_neg hbehind] at h
        by_cases hfits : gssize (gssize s.pos + offset) = gssize s.pos + offset
        · rw [if_neg (not_not_intro hfits)] at h
          simp only [hbehind, hfits, false_or]
          exact ite_of_ok h
        · rw [if_pos hfits] at h
          cases h
  | seekSet =>
      rw [seek] at h
      exact ite_of_ok h
  | seekEnd =>
      rw [seek] at h
      rw [seekWraps]
      by_cases hpos : 0 < offset
      · rw [if_pos hpos] at h
        rw [if_pos (.inl hpos)]
        exact Except.ok.inj h
      · rw [if_neg hpos] at h
        by_cases hfits : gssize (-offset) = -offset
        · rw [if_neg (not_not_intro hfits)] at h
          simp only [hpos, hfits, false_or]
          exact ite_of_ok h
        · rw [if_pos hfits] at h
          cases h

/-! Seeking -/

theorem seekCur_eq (hpos : s.pos ≤ s.length) (hlen : s.length < 2 ^ 63) (hoffset : Fits 64 offset) :
    seekWraps .seekCur s offset =
      if 0 ≤ s.pos + offset ∧ s.pos + offset ≤ s.length then (true, { s with pos := (s.pos + offset).toNat })
      else (false, s) := by
  obtain ⟨hlow, hhigh⟩ := hoffset
  have hsigned : gssize s.pos = s.pos := gssize_of_lt (by omega)
  rw [seekWraps, hsigned]
  by_cases hin : 0 ≤ s.pos + offset ∧ s.pos + offset ≤ s.length
  · have hmod : (s.pos + offset) % 2 ^ 64 = s.pos + offset := by omega
    have hsum : gssize (s.pos + offset) = s.pos + offset := gssize_of_range (by omega) (by omega)
    have hkept : ¬(s.length < (s.pos + offset).toNat ∨ s.pos + offset < 0) := by omega
    simp only [hmod, hsum]
    rw [if_neg hkept, if_pos hin]
  · -- Less than 0 wraps to 2 ^ 63 or more.
    have hbehind : s.length < ((s.pos + offset) % 2 ^ 64).toNat := by omega
    rw [if_neg hin]
    exact if_pos (.inl hbehind)

theorem seekSet_eq (hlen : s.length < 2 ^ 63) (offset : Int) :
    seekWraps .seekSet s offset =
      if 0 ≤ offset ∧ offset ≤ s.length then (true, { s with pos := offset.toNat }) else (false, s) := by
  rw [seekWraps, gssize_of_lt hlen]
  by_cases hin : 0 ≤ offset ∧ offset ≤ s.length
  · rw [if_neg (by omega), if_pos hin]
  · rw [if_pos (by omega), if_neg hin]

theorem seekEnd_eq (hlen : s.length < 2 ^ 63) (hoffset : Fits 64 offset) (hmin : offset ≠ -2 ^ 63) :
    seekWraps .seekEnd s offset =
      if 0 ≤ s.length + offset ∧ offset ≤ 0 then (true, { s with pos := (s.length + offset).toNat })
      else (false, s) := by
  obtain ⟨hlow, hhigh⟩ := hoffset
  have hneg : gssize (-offset) = -offset := gssize_of_range (by omega) (by omega)
  rw [seekWraps, gssize_of_lt hlen, hneg]
  by_cases hin : 0 ≤ s.length + offset ∧ offset ≤ 0
  · have hmod : (s.length + offset) % 2 ^ 64 = s.length + offset := by omega
    rw [if_neg (by omega), if_pos hin, hmod]
  · rw [if_pos (by omega), if_neg hin]

/-- The least offset is its own negation. -/
theorem seekEnd_min (hlen : s.length < 2 ^ 63) :
    seekWraps .seekEnd s (-2 ^ 63) = (true, { s with pos := s.length + 2 ^ 63 }) := by
  have hneg : gssize (-(-2 ^ 63)) = -2 ^ 63 := by decide
  have hmod : (((s.length : Int) + -2 ^ 63) % 2 ^ 64).toNat = s.length + 2 ^ 63 := by omega
  rw [seekWraps, gssize_of_lt hlen, hneg, hmod]
  exact if_neg (by omega)

/-! Reading where it went -/

theorem getsInside (hpos : s.pos ≤ s.length) (hlen : s.length < 2 ^ 63) (hdata : s.length ≤ s.data.length) :
    GetsInside s := by
  intro host e w res
  have havail : available s = s.length - s.pos := gsub_of_le hpos (by omega)
  rw [getOne_eq, getWord, havail]
  by_cases hw : s.length - s.pos < w.bytes
  · exact ⟨false, res, s, if_pos hw, by rintro ⟨⟩⟩
  · have hroom : s.pos + w.bytes ≤ s.length := by omega
    have hsum : gsize (s.pos + w.bytes) = s.pos + w.bytes := gsize_of_lt (by omega)
    have hread : read s.data s.pos w.bytes = .ok (window s.data s.pos (s.pos + w.bytes)) :=
      read_eq (Nat.le_trans hroom hdata)
    rw [if_neg hw, hread, hsum]
    cases res with
    | none => exact ⟨true, none, _, rfl, fun _ => ⟨rfl, hroom⟩⟩
    | some old => exact ⟨true, _, _, rfl, fun _ => ⟨rfl, hroom⟩⟩

/-- Behind the least offset from the end every word seems to be there. -/
theorem getOne_outside (hlen : s.length < 2 ^ 63) (hdata : s.data.length < 2 ^ 63) (host e : ByteOrder) (w : Width)
    (old : Nat) :
    getOne host e w (seekWraps .seekEnd s (-2 ^ 63)).2 (some old) = .error (.memory .outOfBounds) := by
  have hwidth : w.bytes ≤ 8 := by cases w <;> decide
  have havail : available { s with pos := s.length + 2 ^ 63 } = 2 ^ 63 := by
    change (s.length + 2 ^ 64 - (s.length + 2 ^ 63)) % 2 ^ 64 = 2 ^ 63
    omega
  have hread : read s.data (s.length + 2 ^ 63) w.bytes = .error .outOfBounds := if_neg (by omega)
  rw [seekEnd_min hlen, getOne_eq, getWord, havail, if_neg (by omega), hread]
  rfl

theorem exact_of_eq (hpos : s.pos ≤ s.length) (hlen : s.length < 2 ^ 63) (hdata : s.length ≤ s.data.length)
    (hin : InData whence s offset →
      seekWraps whence s offset = (true, { s with pos := (target whence s offset).toNat }))
    (hout : ¬InData whence s offset → seekWraps whence s offset = (false, s)) : Exact whence s offset := by
  by_cases h : InData whence s offset
  · have heq := hin h
    have htarget : (target whence s offset).toNat ≤ s.length := by
      have hle := h.2.1
      omega
    refine ⟨?_, fun _ => ?_, ?_, ?_⟩
    · rw [heq]
      exact iff_of_true rfl h
    · rw [heq]
    · rw [heq]
      rintro ⟨⟩
    · rw [heq]
      exact getsInside htarget hlen hdata
  · have heq := hout h
    refine ⟨?_, ?_, fun _ => ?_, ?_⟩
    · rw [heq]
      exact iff_of_false (by rintro ⟨⟩) h
    · rw [heq]
      rintro ⟨⟩
    · rw [heq]
    · rw [heq]
      exact getsInside hpos hlen hdata

theorem seek_exact (hpos : s.pos ≤ s.length) (hlen : s.length < 2 ^ 63) (hdata : s.length ≤ s.data.length)
    (hoffset : Fits 64 offset) (h : ¬(whence = .seekEnd ∧ offset = -2 ^ 63)) : Exact whence s offset := by
  cases whence with
  | seekCur =>
      have heq := seekCur_eq hpos hlen hoffset
      refine exact_of_eq hpos hlen hdata (fun hin => ?_) fun hout => ?_
      · exact heq.trans (if_pos ⟨hin.1, hin.2.1⟩)
      · exact heq.trans (if_neg fun hin => hout ⟨hin.1, hin.2, by rintro ⟨⟩⟩)
  | seekSet =>
      have heq := seekSet_eq hlen offset
      refine exact_of_eq hpos hlen hdata (fun hin => ?_) fun hout => ?_
      · exact heq.trans (if_pos ⟨hin.1, hin.2.1⟩)
      · exact heq.trans (if_neg fun hin => hout ⟨hin.1, hin.2, by rintro ⟨⟩⟩)
  | seekEnd =>
      have heq := seekEnd_eq hlen hoffset fun hmin => h ⟨rfl, hmin⟩
      refine exact_of_eq hpos hlen hdata (fun hin => ?_) fun hout => ?_
      · exact heq.trans (if_pos ⟨hin.1, hin.2.2 rfl⟩)
      · refine heq.trans (if_neg fun hin => hout ⟨hin.1, ?_, fun _ => hin.2⟩)
        change (s.length : Int) + offset ≤ s.length
        omega

/-- A seek is exact but for the least offset from the end, which goes behind
the data. -/
theorem seek_exact_iff (whence : Whence) (s : ZPktBuf) (offset : Int) (hpos : s.pos ≤ s.length)
    (hlen : s.length < 2 ^ 63) (hdata : s.length ≤ s.data.length) (hoffset : Fits 64 offset) :
    Exact whence s offset ↔ ¬(whence = .seekEnd ∧ offset = -2 ^ 63) := by
  refine ⟨?_, seek_exact hpos hlen hdata hoffset⟩
  rintro hexact ⟨rfl, rfl⟩
  have hin := hexact.moves.mp (congrArg Prod.fst (seekEnd_min hlen))
  have htarget : 0 ≤ (s.length : Int) + -2 ^ 63 := hin.1
  omega

/-- Two bytes back from the end of three. -/
theorem seek_exact_iff_back :
    Exact .seekEnd { allocated := 3, length := 3, data := [1, 2, 3] } (-2) ↔
      ¬((.seekEnd : Whence) = .seekEnd ∧ (-2 : Int) = -2 ^ 63) :=
  seek_exact_iff .seekEnd { allocated := 3, length := 3, data := [1, 2, 3] } (-2) (by decide) (by decide) (by decide)
    (by decide)

theorem seek_not_exact : ¬Exact .seekEnd { allocated := 1, length := 1, data := [7] } (-2 ^ 63) := by
  intro h
  have hin := h.moves.mp rfl
  exact absurd hin.1 (by decide)

end Libzorpll.PacketSeek
