import Libzorpll.CodeGrow
import Libzorpll.Base64RoundTrip

/-! What the encoder of base64 touches of its buffer. -/

namespace Libzorpll.Base64Bounds

open Code CodeBase64 CodeGrow Base64RoundTrip

/-- `dump` tells whether the messages of CORE_DUMP are logged in the call. -/
inductive EncodeCall
  | transform (dump : Bool) (bytes : List UInt8)
  | getResult (tolen : Nat)
  | finish

/-- The partial byte is read for a message. -/
def touchPartial (dump : Bool) (self : ZCodeBase64Encode) : ZCodeBase64Encode :=
  if dump then { self with super := self.super.touch (self.super.bufUsed + 1) } else self

def encodeLogged (dump : Bool) (bytes : List UInt8) (self : ZCodeBase64Encode) : ZCodeBase64Encode :=
  touchPartial dump (bytes.foldl encodeByte (touchPartial dump self))

/-- None where the doubling of the length leaves gint. -/
def encodeCall : EncodeCall → ZCodeBase64Encode → Option ZCodeBase64Encode
  | .transform dump bytes, self =>
      let reqlen := calculateGrowing self.super.bufUsed bytes.length self.linelen
      (growLength self.super.bufLen reqlen).map (fun len =>
        encodeLogged dump bytes (encodeGrown (fun _ _ => len) bytes self))
  | .getResult tolen, self => some { self with super := (getResult tolen self.super).2 }
  | .finish, self => some (encodeFinish self).2

def runCalls : List EncodeCall → ZCodeBase64Encode → Option ZCodeBase64Encode
  | [], self => some self
  | call :: calls, self => (encodeCall call self).bind (runCalls calls)

/-- Without messages the call is the encoder's. -/
theorem encodeCall_transform (bytes : List UInt8) (s : ZCodeBase64Encode) :
    encodeCall (.transform false bytes) s =
      (growLength s.super.bufLen (calculateGrowing s.super.bufUsed bytes.length s.linelen)).map
        (fun len => (encodeTransform (fun _ _ => len) bytes s).2) := rfl

/-- The line ends among `chars` characters from a position in a line on. -/
def breaks (linelen linepos chars : Nat) : Nat :=
  if linelen = 0 then 0 else (linepos + chars) / (linelen + 1)

def column (linelen linepos chars : Nat) : Nat :=
  if linelen = 0 then linepos else (linepos + chars) % (linelen + 1)

/-- The characters that `n` bytes complete. -/
def charsFor (phase n : Nat) : Nat := 4 * (phase + n) / 3 - 4 * phase / 3

def lastChars (phase : Nat) : Nat := if phase = 0 then 0 else 4 - phase

def usedAfter (s : ZCodeBase64Encode) (chars : Nat) : Nat :=
  s.super.bufUsed + chars + 2 * breaks s.linelen s.linepos chars

/-- The bytes of the buffer that a call needs, the partial one with them. -/
def transformTop (dump : Bool) (n : Nat) (s : ZCodeBase64Encode) : Nat :=
  if dump then usedAfter s (charsFor s.phase n) + 1
  else if n = 0 then 0
  else usedAfter s (charsFor s.phase n) + if (s.phase + n) % 3 = 0 then 0 else 1

def finishTop (s : ZCodeBase64Encode) : Nat :=
  if s.phase = 0 ∧ s.linepos = 0 then 0
  else usedAfter s (lastChars s.phase) + if column s.linelen s.linepos (lastChars s.phase) = 0 then 0 else 2

/-- The length is doubled in gint until it reaches what is asked for, and then
it is enough for what is needed. -/
def GrowsTo (bufLen : Nat) (reqlen : Int) (top : Nat) : Prop :=
  (∃ k, reqlen ≤ (bufLen * 2 ^ k : Nat) ∧ bufLen * 2 ^ k < 2 ^ 31) ∧
    ∀ k, reqlen ≤ (bufLen * 2 ^ k : Nat) → top ≤ bufLen * 2 ^ k

def Fits : EncodeCall → ZCodeBase64Encode → Prop
  | .transform dump bytes, s =>
      GrowsTo s.super.bufLen (gint (calculateGrowing s.super.bufUsed bytes.length s.linelen))
        (transformTop dump bytes.length s)
  | .getResult tolen, s => tolen = 0 ∨ s.super.bufUsed = 0 ∨ s.super.bufUsed < s.super.bufLen
  | .finish, s => finishTop s ≤ s.super.bufLen

def AllFit : List EncodeCall → ZCodeBase64Encode → Prop
  | [], _ => True
  | call :: calls, s => Fits call s ∧ ∀ t, encodeCall call s = some t → AllFit calls t

structure Kept (s : ZCodeBase64Encode) : Prop where
  phase : s.phase ≤ 2
  linepos : s.linepos ≤ s.linelen
  nonempty : 0 < s.super.bufLen
  gint : s.super.bufLen < 2 ^ 31

theorem column_le {linelen linepos : Nat} (h : linepos ≤ linelen) (chars : Nat) :
    column linelen linepos chars ≤ linelen := by
  by_cases hlen : linelen = 0
  · rw [column, if_pos hlen]
    exact h
  · rw [column, if_neg hlen]
    exact Nat.lt_succ_iff.mp (Nat.mod_lt _ (Nat.succ_pos linelen))

theorem column_zero {linelen linepos : Nat} (h : linepos ≤ linelen) : column linelen linepos 0 = linepos := by
  by_cases hlen : linelen = 0
  · rw [column, if_pos hlen]
  · rw [column, if_neg hlen, Nat.add_zero, Nat.mod_eq_of_lt (Nat.lt_succ_of_le h)]

theorem breaks_zero {linelen linepos : Nat} (h : linepos ≤ linelen) : breaks linelen linepos 0 = 0 := by
  by_cases hlen : linelen = 0
  · rw [breaks, if_pos hlen]
  · rw [breaks, if_neg hlen, Nat.add_zero, Nat.div_eq_of_lt (Nat.lt_succ_of_le h)]

theorem column_add (linelen linepos a b : Nat) :
    column linelen linepos (a + b) = column linelen (column linelen linepos a) b := by
  by_cases hlen : linelen = 0
  · simp only [column, hlen, ↓reduceIte]
  · simp only [column, hlen, ↓reduceIte]
    rw [Nat.mod_add_mod, Nat.add_assoc]

theorem breaks_add (linelen linepos a b : Nat) :
    breaks linelen linepos (a + b) =
      breaks linelen linepos a + breaks linelen (column linelen linepos a) b := by
  by_cases hlen : linelen = 0
  · simp only [breaks, hlen, ↓reduceIte]
  · simp only [breaks, column, hlen, ↓reduceIte]
    have hsplit : linepos + (a + b) =
        (linelen + 1) * ((linepos + a) / (linelen + 1)) + ((linepos + a) % (linelen + 1) + b) := by
      have hdiv := Nat.div_add_mod (linepos + a) (linelen + 1)
      omega
    rw [hsplit, Nat.mul_add_div (Nat.succ_pos linelen)]

/-- What is done from `s` to `t`: characters added to the lines, and the bytes
before `top` touched. -/
structure Filled (s t : ZCodeBase64Encode) (chars top : Nat) : Prop where
  linelen : t.linelen = s.linelen
  linepos : t.linepos = column s.linelen s.linepos chars
  used : t.super.bufUsed = usedAfter s chars
  len : t.super.bufLen = s.super.bufLen
  overrun : t.super.overrun = (s.super.overrun || decide (s.super.bufLen < top))

theorem overrun_max (overrun : Bool) (len a b : Nat) :
    ((overrun || decide (len < a)) || decide (len < b)) = (overrun || decide (len < max a b)) := by
  rw [Bool.or_assoc, ← Bool.decide_or]
  congr 1
  apply decide_eq_decide.mpr
  omega

theorem Filled.after_eq {s t : ZCodeBase64Encode} {a x : Nat} (h : Filled s t a x) (b : Nat) :
    usedAfter t b = usedAfter s (a + b) := by
  simp only [usedAfter, h.used, h.linelen, h.linepos, breaks_add]
  omega

theorem Filled.trans {s t u : ZCodeBase64Encode} {a b x y : Nat} (hst : Filled s t a x)
    (htu : Filled t u b y) : Filled s u (a + b) (max x y) := by
  refine ⟨htu.linelen.trans hst.linelen, ?_, htu.used.trans (hst.after_eq b), htu.len.trans hst.len, ?_⟩
  · rw [htu.linepos, hst.linelen, hst.linepos, column_add]
  · rw [htu.overrun, hst.overrun, hst.len, overrun_max]

theorem Filled.withPhase {s t : ZCodeBase64Encode} {chars top : Nat} (h : Filled s t chars top)
    (phase : Nat) : Filled s { t with phase := phase } chars top :=
  ⟨h.linelen, h.linepos, h.used, h.len, h.overrun⟩

theorem Filled.refl {s : ZCodeBase64Encode} (hs : s.linepos ≤ s.linelen) : Filled s s 0 0 := by
  refine ⟨rfl, (column_zero hs).symm, ?_, rfl, ?_⟩
  · rw [usedAfter, breaks_zero hs]
    rfl
  · simp

theorem encodePut_filled (b : UInt8) {s : ZCodeBase64Encode} (hs : s.linepos ≤ s.linelen) :
    Filled s (encodePut b s) 0 (s.super.bufUsed + 1) := by
  refine ⟨rfl, (column_zero hs).symm, ?_, rfl, rfl⟩
  rw [usedAfter, breaks_zero hs]
  rfl

theorem putCrlf_overrun (c : ZCode) :
    (putCrlf c).overrun = (c.overrun || decide (c.bufLen < c.bufUsed + 2)) := by
  have htouch : (putCrlf c).overrun = ((c.overrun || decide (c.bufLen < c.bufUsed + 1)) ||
      decide (c.bufLen < c.bufUsed + 1 + 1)) := rfl
  have htop : max (c.bufUsed + 1) (c.bufUsed + 1 + 1) = c.bufUsed + 2 := by omega
  rw [htouch, overrun_max, htop]

theorem encodeFix_filled (closure : Bool) {s : ZCodeBase64Encode} (hs : s.linepos ≤ s.linelen) :
    Filled s (encodeFix closure s) 1 (usedAfter s 1) := by
  by_cases hlen : s.linelen = 0
  · constructor
    · simp [encodeFix, hlen]
    · simp [encodeFix, hlen, column]
    · simp [encodeFix, hlen, usedAfter, breaks, ZCode.put, ZCode.advance, ZCode.touch]
    · simp [encodeFix, hlen, ZCode.put, ZCode.advance, ZCode.touch]
    · simp [encodeFix, hlen, usedAfter, breaks, ZCode.put, ZCode.advance, ZCode.touch]
  · by_cases hfull : s.linelen ≤ s.linepos
    · have hpos : s.linepos + 1 = s.linelen + 1 := by omega
      have hone : (s.linelen + 1) / (s.linelen + 1) = 1 := Nat.div_self (Nat.succ_pos _)
      constructor
      · simp [encodeFix, hlen, hfull]
      · simp [encodeFix, hlen, hfull, column, hpos]
      · simp [encodeFix, hlen, hfull, usedAfter, breaks, hpos, hone, putCrlf, ZCode.put, ZCode.advance,
          ZCode.touch]
      · simp [encodeFix, hlen, hfull, putCrlf, ZCode.put, ZCode.advance, ZCode.touch]
      · have hfix : (encodeFix closure s).super.overrun =
            ((s.super.overrun || decide (s.super.bufLen < s.super.bufUsed + 1)) ||
              decide (s.super.bufLen < s.super.bufUsed + 1 + 2)) := by
          simp only [encodeFix, hlen, hfull, ne_eq, not_false_eq_true, ↓reduceIte, putCrlf_overrun]
          rfl
        have hused : usedAfter s 1 = s.super.bufUsed + 1 + 2 := by
          simp only [usedAfter, breaks, hlen, ↓reduceIte, hpos, hone]
        have htop : max (s.super.bufUsed + 1) (s.super.bufUsed + 1 + 2) = s.super.bufUsed + 1 + 2 := by
          omega
        rw [hfix, overrun_max, htop, hused]
    · have hnone : (s.linepos + 1) / (s.linelen + 1) = 0 := Nat.div_eq_of_lt (by omega)
      have hnext : (s.linepos + 1) % (s.linelen + 1) = s.linepos + 1 := Nat.mod_eq_of_lt (by omega)
      constructor
      · simp [encodeFix, hlen, hfull]
      · simp [encodeFix, hlen, hfull, column, hnext]
      · simp [encodeFix, hlen, hfull, usedAfter, breaks, hnone, ZCode.put, ZCode.advance, ZCode.touch]
      · simp [encodeFix, hlen, hfull, ZCode.put, ZCode.advance, ZCode.touch]
      · simp [encodeFix, hlen, hfull, usedAfter, breaks, hnone, ZCode.put, ZCode.advance, ZCode.touch]

theorem Filled.linepos_le {s t : ZCodeBase64Encode} {chars top : Nat} (h : Filled s t chars top)
    (hs : s.linepos ≤ s.linelen) : t.linepos ≤ t.linelen := by
  rw [h.linepos, h.linelen]
  exact column_le hs chars

/-- A character is made in the partial byte and completed. -/
theorem encodeFix_put_filled (b : UInt8) {s : ZCodeBase64Encode} (hs : s.linepos ≤ s.linelen) :
    Filled s (encodeFix false (encodePut b s)) 1 (usedAfter s 1) := by
  have hput := encodePut_filled b hs
  have h := hput.trans (encodeFix_filled false (hput.linepos_le hs))
  have htop : max (s.super.bufUsed + 1) (usedAfter (encodePut b s) 1) = usedAfter s 1 := by
    have hsame : usedAfter (encodePut b s) 1 = usedAfter s 1 := rfl
    rw [hsame, usedAfter]
    omega
  rw [htop] at h
  exact h

/-- What a call has touched when it has used `used` bytes in the phase. -/
def topIn (phase used : Nat) : Nat := used + if phase = 0 then 0 else 1

theorem phase_cases {phase : Nat} (h : phase ≤ 2) : phase = 0 ∨ phase = 1 ∨ phase = 2 := by
  omega

theorem usedAfter_mono (s : ZCodeBase64Encode) {a b : Nat} (h : a ≤ b) : usedAfter s a + (b - a) ≤ usedAfter s b := by
  have hbreaks := breaks_add s.linelen s.linepos a (b - a)
  rw [Nat.add_sub_cancel' h] at hbreaks
  rw [usedAfter, usedAfter, hbreaks]
  omega

/-- The bits that are left are put behind a character. -/
theorem Filled.put {s t : ZCodeBase64Encode} {chars : Nat} (b : UInt8) (hs : s.linepos ≤ s.linelen)
    (h : Filled s t chars (usedAfter s chars)) :
    Filled s (encodePut b t) chars (usedAfter s chars + 1) := by
  have hput := h.trans (encodePut_filled b (h.linepos_le hs))
  have htop : max (usedAfter s chars) (t.super.bufUsed + 1) = usedAfter s chars + 1 := by
    rw [h.used]
    omega
  rw [htop] at hput
  exact hput

/-- A character behind others in the lines. -/
theorem Filled.char {s t u : ZCodeBase64Encode} {chars : Nat} (h : Filled s t chars (usedAfter s chars))
    (hchar : Filled t u 1 (usedAfter t 1)) :
    Filled s u (chars + 1) (usedAfter s (chars + 1)) := by
  have hboth := h.trans hchar
  have hmono := usedAfter_mono s (Nat.le_add_right chars 1)
  have htop : max (usedAfter s chars) (usedAfter t 1) = usedAfter s (chars + 1) := by
    rw [h.after_eq]
    omega
  rw [htop] at hboth
  exact hboth

theorem Filled.fix {s t : ZCodeBase64Encode} {chars : Nat} (b : UInt8) (hs : s.linepos ≤ s.linelen)
    (h : Filled s t chars (usedAfter s chars)) :
    Filled s (encodeFix false (encodePut b t)) (chars + 1) (usedAfter s (chars + 1)) :=
  h.char (encodeFix_put_filled b (h.linepos_le hs))

theorem Filled.pad {s t : ZCodeBase64Encode} {chars : Nat} (hs : s.linepos ≤ s.linelen)
    (h : Filled s t chars (usedAfter s chars)) :
    Filled s (encodeFix true t) (chars + 1) (usedAfter s (chars + 1)) :=
  h.char (encodeFix_filled true (h.linepos_le hs))

theorem encodeByte_filled {s : ZCodeBase64Encode} (hphase : s.phase ≤ 2) (hs : s.linepos ≤ s.linelen)
    (b : UInt8) :
    Filled s (encodeByte s b) (charsFor s.phase 1)
        (topIn ((s.phase + 1) % 3) (usedAfter s (charsFor s.phase 1))) ∧
      (encodeByte s b).phase = (s.phase + 1) % 3 := by
  have hencoding : Encoding s.linelen s := ⟨hphase, rfl⟩
  obtain ⟨t, ht, -, -⟩ := encodeByte_emits hencoding b
  refine ⟨?_, by rw [ht]⟩
  rcases phase_cases hphase with hp | hp | hp
  · have h := (encodeFix_put_filled (b >>> 2) hs).put ((b &&& 0x03) <<< 4) hs
    simp only [encodeByte, hp]
    exact h.withPhase _
  · have h := (encodeFix_put_filled (s.super.partialByte ||| b >>> 4) hs).put ((b &&& 0x0f) <<< 2) hs
    simp only [encodeByte, hp]
    exact h.withPhase _
  · have h := (encodeFix_put_filled (s.super.partialByte ||| b >>> 6) hs).fix (b &&& 0x3f) hs
    simp only [encodeByte, hp]
    exact h.withPhase _

theorem charsFor_succ {phase : Nat} (h : phase ≤ 2) (n : Nat) :
    charsFor phase (n + 1) = charsFor phase 1 + charsFor ((phase + 1) % 3) n := by
  rcases phase_cases h with rfl | rfl | rfl
  · simp only [charsFor]
    omega
  · simp only [charsFor]
    omega
  · simp only [charsFor]
    omega

theorem charsFor_pos {phase n : Nat} (h : 0 < n) : 0 < charsFor phase n := by
  rw [charsFor]
  omega

theorem encodeLoop_filled (bytes : List UInt8) (hne : bytes ≠ []) {s : ZCodeBase64Encode}
    (hphase : s.phase ≤ 2) (hs : s.linepos ≤ s.linelen) :
    Filled s (bytes.foldl encodeByte s) (charsFor s.phase bytes.length)
        (topIn ((s.phase + bytes.length) % 3) (usedAfter s (charsFor s.phase bytes.length))) ∧
      (bytes.foldl encodeByte s).phase = (s.phase + bytes.length) % 3 := by
  induction bytes generalizing s with
  | nil => cases hne rfl
  | cons b bytes ih =>
      obtain ⟨hbyte, hnext⟩ := encodeByte_filled hphase hs b
      cases bytes with
      | nil => exact ⟨hbyte, hnext⟩
      | cons c bytes =>
          have hphase' : (encodeByte s b).phase ≤ 2 := by rw [hnext]; omega
          obtain ⟨hrest, hlast⟩ := ih (by simp) hphase' (hbyte.linepos_le hs)
          have hchars := charsFor_succ hphase (c :: bytes).length
          have hmod : ((s.phase + 1) % 3 + (c :: bytes).length) % 3 = (s.phase + (b :: c :: bytes).length) % 3 := by
            rw [List.length_cons (a := b)]
            omega
          rw [hnext, hmod] at hlast hrest
          have hall := hbyte.trans hrest
          rw [List.length_cons (a := b), hchars]
          refine ⟨?_, hlast⟩
          have htop : ∀ a b used more : Nat, used < more →
              max (topIn a used) (topIn b more) = topIn b more := by
            intro a b used more hlt
            simp only [topIn]
            split <;> split <;> omega
          have hmore := usedAfter_mono s (Nat.le_add_right (charsFor s.phase 1)
            (charsFor ((s.phase + 1) % 3) (c :: bytes).length))
          have hpos := @charsFor_pos ((s.phase + 1) % 3) (c :: bytes).length (Nat.succ_pos _)
          rw [hbyte.after_eq, htop _ _ _ _ (by omega)] at hall
          exact hall

theorem charsFor_zero (phase : Nat) : charsFor phase 0 = 0 := Nat.sub_self _

theorem encodeLoop_top (bytes : List UInt8) {s : ZCodeBase64Encode} (hphase : s.phase ≤ 2)
    (hs : s.linepos ≤ s.linelen) :
    Filled s (bytes.foldl encodeByte s) (charsFor s.phase bytes.length)
        (transformTop false bytes.length s) ∧
      (bytes.foldl encodeByte s).phase ≤ 2 := by
  by_cases hne : bytes = []
  · subst hne
    refine ⟨?_, hphase⟩
    rw [List.length_nil, charsFor_zero]
    exact Filled.refl hs
  · obtain ⟨h, hnext⟩ := encodeLoop_filled bytes hne hphase hs
    have hlen : ¬bytes.length = 0 := fun h => hne (List.length_eq_zero_iff.mp h)
    refine ⟨?_, by rw [hnext]; omega⟩
    simp only [transformTop, Bool.false_eq_true, hlen, ↓reduceIte]
    exact h

theorem touchPartial_filled {s t : ZCodeBase64Encode} {chars top : Nat} (hs : s.linepos ≤ s.linelen)
    (h : Filled s t chars top) :
    Filled s (touchPartial true t) chars (max top (usedAfter s chars + 1)) := by
  have htouch : Filled t (touchPartial true t) 0 (t.super.bufUsed + 1) := by
    have hpos := h.linepos_le hs
    refine ⟨rfl, (column_zero hpos).symm, ?_, rfl, rfl⟩
    rw [usedAfter, breaks_zero hpos]
    rfl
  have hboth := h.trans htouch
  rw [h.used] at hboth
  exact hboth

theorem transformTop_le (n : Nat) (s : ZCodeBase64Encode) :
    transformTop false n s ≤ usedAfter s (charsFor s.phase n) + 1 := by
  simp only [transformTop, Bool.false_eq_true, ↓reduceIte]
  split
  · exact Nat.zero_le _
  · split <;> omega

theorem encodeLogged_filled (dump : Bool) (bytes : List UInt8) {s : ZCodeBase64Encode}
    (hphase : s.phase ≤ 2) (hs : s.linepos ≤ s.linelen) :
    Filled s (encodeLogged dump bytes s) (charsFor s.phase bytes.length)
        (transformTop dump bytes.length s) ∧
      (encodeLogged dump bytes s).phase ≤ 2 := by
  cases dump with
  | false => exact encodeLoop_top bytes hphase hs
  | true =>
      have hfirst := touchPartial_filled hs (Filled.refl hs)
      obtain ⟨hloop, hnext⟩ := encodeLoop_top bytes (s := touchPartial true s) hphase hs
      have hlast := touchPartial_filled hs (hfirst.trans hloop)
      refine ⟨?_, hnext⟩
      have hmono := usedAfter_mono s (Nat.zero_le (charsFor s.phase bytes.length))
      have hle : transformTop false bytes.length (touchPartial true s) ≤
          usedAfter s (charsFor s.phase bytes.length) + 1 := transformTop_le bytes.length s
      have hchars : 0 + charsFor (touchPartial true s).phase bytes.length = charsFor s.phase bytes.length :=
        Nat.zero_add _
      have htop : max (max (max 0 (usedAfter s 0 + 1))
          (transformTop false bytes.length (touchPartial true s)))
          (usedAfter s (charsFor s.phase bytes.length) + 1) = transformTop true bytes.length s := by
        have htrue : transformTop true bytes.length s =
          usedAfter s (charsFor s.phase bytes.length) + 1 := rfl
        rw [htrue]
        omega
      rw [hchars, htop] at hlast
      exact hlast

theorem encodeLast_filled {s : ZCodeBase64Encode} (hphase : s.phase ≤ 2) (hs : s.linepos ≤ s.linelen) :
    Filled s (encodeLast s) (lastChars s.phase)
      (if s.phase = 0 then 0 else usedAfter s (lastChars s.phase)) := by
  rcases phase_cases hphase with hp | hp | hp
  · simp only [encodeLast, hp]
    exact Filled.refl hs
  · simp only [encodeLast, hp]
    exact ((encodeFix_put_filled (s.super.partialByte &&& 0x30) hs).pad hs).pad hs
  · simp only [encodeLast, hp]
    exact (encodeFix_put_filled (s.super.partialByte &&& 0x3c) hs).pad hs

theorem encodeFinish_filled {s : ZCodeBase64Encode} (hphase : s.phase ≤ 2) (hs : s.linepos ≤ s.linelen) :
    (encodeFinish s).2.linelen = s.linelen ∧ (encodeFinish s).2.super.bufLen = s.super.bufLen ∧
      (encodeFinish s).2.super.overrun = (s.super.overrun || decide (s.super.bufLen < finishTop s)) := by
  have hlast := encodeLast_filled hphase hs
  have hcolumn := hlast.linepos
  rw [encodeFinish_eq]
  by_cases hpos : (encodeLast s).linepos = 0
  · have hzero := hcolumn.symm.trans hpos
    simp only [hpos, ↓reduceIte]
    refine ⟨hlast.linelen, hlast.len, hlast.overrun.trans ?_⟩
    by_cases hp : s.phase = 0
    · have hstart : s.linepos = 0 := by
        rw [hp] at hzero
        exact (column_zero hs).symm.trans hzero
      simp only [finishTop, hp, hstart, and_self, ↓reduceIte]
    · simp only [finishTop, hp, false_and, hzero, ↓reduceIte, Nat.add_zero]
  · have hzero : column s.linelen s.linepos (lastChars s.phase) ≠ 0 := fun h => hpos (hcolumn.trans h)
    simp only [hpos, ↓reduceIte]
    refine ⟨hlast.linelen, hlast.len, ?_⟩
    have htop : finishTop s = usedAfter s (lastChars s.phase) + 2 := by
      have hsome : ¬(s.phase = 0 ∧ s.linepos = 0) := by
        rintro ⟨hp, hstart⟩
        rw [hp, hstart] at hzero
        exact hzero (column_zero (Nat.zero_le _))
      simp only [finishTop, hsome, hzero, ↓reduceIte]
    have hmax : max (if s.phase = 0 then 0 else usedAfter s (lastChars s.phase))
        (usedAfter s (lastChars s.phase) + 2) = finishTop s := by
      rw [htop]
      split <;> omega
    rw [putCrlf_overrun, hlast.len, hlast.used, hlast.overrun, overrun_max, hmax]

theorem getResult_overrun (tolen : Nat) (c : ZCode) :
    (getResult tolen c).2.bufLen = c.bufLen ∧
      ((getResult tolen c).2.overrun = (c.overrun || decide (c.bufLen < c.bufUsed + 1)) ∧
          0 < min tolen c.bufUsed ∨
        (getResult tolen c).2.overrun = c.overrun ∧ min tolen c.bufUsed = 0) := by
  rw [getResult]
  by_cases hres : 0 < min tolen c.bufUsed
  · simp only [hres, ↓reduceIte]
    exact ⟨rfl, .inl ⟨rfl, trivial⟩⟩
  · simp only [hres, ↓reduceIte]
    exact ⟨trivial, .inr ⟨trivial, by omega⟩⟩

theorem encodeCall_kept {call : EncodeCall} {s t : ZCodeBase64Encode} (hs : Kept s)
    (h : encodeCall call s = some t) : Kept t := by
  cases call with
  | transform dump bytes =>
      obtain ⟨len, hlen, rfl⟩ := Option.map_eq_some_iff.mp h
      obtain ⟨k, hk, -, hgint, -⟩ := growLength_some hs.nonempty hs.gint hlen
      obtain ⟨hfilled, hphase⟩ := encodeLogged_filled dump bytes
        (s := encodeGrown (fun _ _ => len) bytes s) hs.phase hs.linepos
      have hsame : (encodeLogged dump bytes (encodeGrown (fun _ _ => len) bytes s)).super.bufLen = len :=
        hfilled.len
      refine ⟨hphase, hfilled.linepos_le hs.linepos, ?_, by rw [hsame]; exact hgint⟩
      rw [hsame, hk]
      exact Nat.mul_pos hs.nonempty (Nat.two_pow_pos k)
  | getResult tolen =>
      cases h
      obtain ⟨hlen, -⟩ := getResult_overrun tolen s.super
      exact ⟨hs.phase, hs.linepos, by rw [hlen]; exact hs.nonempty, by rw [hlen]; exact hs.gint⟩
  | finish =>
      cases h
      obtain ⟨-, hlen, -⟩ := encodeFinish_filled hs.phase hs.linepos
      exact ⟨Nat.zero_le 2, Nat.zero_le _, by rw [hlen]; exact hs.nonempty, by rw [hlen]; exact hs.gint⟩

/-- A call is safe if it fits. -/
theorem encodeCall_fits (call : EncodeCall) {s : ZCodeBase64Encode} (hs : Kept s) :
    (∃ t, encodeCall call s = some t ∧ t.super.overrun = false) ↔
      s.super.overrun = false ∧ Fits call s := by
  cases call with
  | transform dump bytes =>
      constructor
      · rintro ⟨t, ht, hover⟩
        obtain ⟨len, hlen, rfl⟩ := Option.map_eq_some_iff.mp ht
        obtain ⟨k, hk, hreach, hgint, hleast⟩ := growLength_some hs.nonempty hs.gint hlen
        obtain ⟨hfilled, -⟩ := encodeLogged_filled dump bytes
          (s := encodeGrown (fun _ _ => len) bytes s) hs.phase hs.linepos
        rw [hfilled.overrun, Bool.or_eq_false_iff, decide_eq_false_iff_not] at hover
        have htop : transformTop dump bytes.length s ≤ len := Nat.le_of_not_lt hover.2
        refine ⟨hover.1, ⟨k, hk ▸ hreach, hk ▸ hgint⟩, fun j hj => ?_⟩
        exact Nat.le_trans htop (hleast j hj)
      · rintro ⟨hover, ⟨k, hreach, hgint⟩, hall⟩
        obtain ⟨len, hlen⟩ := growLength_reaches hs.nonempty hreach hgint
        obtain ⟨j, hj, hreach', -, -⟩ := growLength_some hs.nonempty hs.gint hlen
        refine ⟨_, Option.map_eq_some_iff.mpr ⟨len, hlen, rfl⟩, ?_⟩
        obtain ⟨hfilled, -⟩ := encodeLogged_filled dump bytes
          (s := encodeGrown (fun _ _ => len) bytes s) hs.phase hs.linepos
        have htop : transformTop dump bytes.length s ≤ len := by
          rw [hj]
          exact hall j (hj ▸ hreach')
        rw [hfilled.overrun, Bool.or_eq_false_iff, decide_eq_false_iff_not]
        exact ⟨hover, Nat.not_lt_of_le htop⟩
  | getResult tolen =>
      obtain ⟨-, hsome | hnone⟩ := getResult_overrun tolen s.super
      · constructor
        · rintro ⟨t, ht, hover⟩
          cases ht
          rw [hsome.1, Bool.or_eq_false_iff, decide_eq_false_iff_not] at hover
          exact ⟨hover.1, .inr (.inr (by omega))⟩
        · rintro ⟨hover, hfits⟩
          refine ⟨_, rfl, ?_⟩
          rw [hsome.1, Bool.or_eq_false_iff, decide_eq_false_iff_not]
          refine ⟨hover, ?_⟩
          rcases hfits with hfits | hfits | hfits <;> omega
      · constructor
        · rintro ⟨t, ht, hover⟩
          cases ht
          rw [hnone.1] at hover
          refine ⟨hover, ?_⟩
          by_cases hzero : tolen = 0
          · exact .inl hzero
          · exact .inr (.inl (by omega))
        · rintro ⟨hover, -⟩
          exact ⟨_, rfl, hnone.1.trans hover⟩
  | finish =>
      obtain ⟨-, -, hfinish⟩ := encodeFinish_filled hs.phase hs.linepos
      constructor
      · rintro ⟨t, ht, hover⟩
        cases ht
        rw [hfinish, Bool.or_eq_false_iff, decide_eq_false_iff_not] at hover
        exact ⟨hover.1, Nat.le_of_not_lt hover.2⟩
      · rintro ⟨hover, hfits⟩
        refine ⟨_, rfl, ?_⟩
        rw [hfinish, Bool.or_eq_false_iff, decide_eq_false_iff_not]
        exact ⟨hover, Nat.not_lt_of_le hfits⟩

theorem runCalls_fits (calls : List EncodeCall) {s : ZCodeBase64Encode} (hs : Kept s) :
    (∃ t, runCalls calls s = some t ∧ t.super.overrun = false) ↔
      s.super.overrun = false ∧ AllFit calls s := by
  induction calls generalizing s with
  | nil =>
      constructor
      · rintro ⟨t, ht, hover⟩
        cases ht
        exact ⟨hover, trivial⟩
      · rintro ⟨hover, -⟩
        exact ⟨s, rfl, hover⟩
  | cons call calls ih =>
      constructor
      · rintro ⟨u, hu, hover⟩
        obtain ⟨t, ht, hrest⟩ := Option.bind_eq_some_iff.mp hu
        obtain ⟨hover', hfit⟩ := (ih (encodeCall_kept hs ht)).mp ⟨u, hrest, hover⟩
        obtain ⟨hstart, hcall⟩ := (encodeCall_fits call hs).mp ⟨t, ht, hover'⟩
        refine ⟨hstart, hcall, fun t' ht' => ?_⟩
        rw [ht] at ht'
        cases ht'
        exact hfit
      · rintro ⟨hover, hcall, hrest⟩
        obtain ⟨t, ht, hover'⟩ := (encodeCall_fits call hs).mpr ⟨hover, hcall⟩
        obtain ⟨u, hu, hlast⟩ := (ih (encodeCall_kept hs ht)).mpr ⟨hover', hrest t ht⟩
        exact ⟨u, Option.bind_eq_some_iff.mpr ⟨t, ht, hu⟩, hlast⟩

theorem encodeNew_kept {bufsize : Int} (h : bufsize < 2 ^ 31) (linelen : Nat) :
    Kept (encodeNew bufsize linelen) := by
  refine ⟨Nat.zero_le 2, Nat.zero_le _, ?_, ?_⟩
  · simp only [encodeNew, codeInit]
    split <;> omega
  · simp only [encodeNew, codeInit]
    split <;> omega

/-- The calls of an encoder stay in its buffer if each of them fits into the
buffer that it finds or makes. -/
theorem encoder_bounds {bufsize : Int} (h : bufsize < 2 ^ 31) (linelen : Nat) (calls : List EncodeCall) :
    (∃ t, runCalls calls (encodeNew bufsize linelen) = some t ∧ t.super.overrun = false) ↔
      AllFit calls (encodeNew bufsize linelen) := by
  rw [runCalls_fits calls (encodeNew_kept h linelen)]
  constructor
  · exact And.right
  · exact fun hfit => ⟨rfl, hfit⟩

/-- A buffer of eight bytes is enough for one byte and what is made at the end. -/
theorem encoder_bounds_eight :
    (∃ t, runCalls [.transform true [0], .finish, .getResult 3] (encodeNew 8 0) = some t ∧
      t.super.overrun = false) ↔
      AllFit [.transform true [0], .finish, .getResult 3] (encodeNew 8 0) :=
  encoder_bounds (by decide) 0 _

/-- The buffer is not grown for the padding. -/
theorem encoder_bounds_exceeded :
    ∃ t, runCalls [.transform false [0], .finish] (encodeNew 2 0) = some t ∧
      t.super.overrun = true := by
  decide +kernel

end Libzorpll.Base64Bounds
