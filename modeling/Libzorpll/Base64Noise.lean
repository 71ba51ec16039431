import Libzorpll.Base64Decode

/-! The error tolerant decoder leaves out what the strict one refuses. -/

namespace Libzorpll.Base64Noise

open Transducer Base64 Code CodeBase64 Base64Decode

/-- What is refused is skipped, apart from a character after the padding, with
which a quantum begins. -/
def decodeTolerant (c : UInt8) (s : Partial) : Option (List UInt8 × Partial) :=
  match decode c s, value c with
  | some r, _ => some r
  | none, some v => some ([], .one (v <<< 2))
  | none, none => some ([], s)

def tolerantEnd (_ : Partial) : Option (List UInt8 × Partial) := some ([], .start)

structure Tolerant (s : ZCodeBase64Decode) : Prop where
  phase : s.phase ≤ 4
  tolerant : s.errorTolerant = true

/-- The decoder with the mode changed. -/
def withTolerance (errorTolerant : Bool) (s : ZCodeBase64Decode) : ZCodeBase64Decode :=
  { s with errorTolerant := errorTolerant }

theorem decodeTolerant_some {c : UInt8} {s : Partial} {r : List UInt8 × Partial}
    (h : decode c s = some r) : decodeTolerant c s = some r := by
  simp only [decodeTolerant, h]

theorem decodeData_mode (v : UInt8) {s : ZCodeBase64Decode} (hphase : s.phase ≤ 4) (mode : Bool) :
    decodeData v (withTolerance mode s) = withTolerance mode (decodeData v s) := by
  obtain ⟨super, phase, errorTolerant⟩ := s
  rcases phase_of_le hphase with rfl | rfl | rfl | rfl | rfl
  · rfl
  · rfl
  · rfl
  · rfl
  · rfl

/-- A round that does not fail is the same in both modes. -/
theorem decodeByte_mode {c : UInt8} {s t : ZCodeBase64Decode} (hphase : s.phase ≤ 4)
    (h : decodeByte c (withTolerance false s) = (true, t)) :
    decodeByte c (withTolerance true s) = (true, withTolerance true t) := by
  have hdata := decodeData_mode (decodeValue c).toNat.toUInt8 hphase
  by_cases hspace : decodeValue c = -1
  · simp only [decodeByte, hspace, ↓reduceIte] at h ⊢
    cases h
    rfl
  · by_cases hpad : decodeValue c = -2
    · obtain ⟨super, phase, errorTolerant⟩ := s
      simp only [decodeByte, hpad, withTolerance] at h ⊢
      rcases phase_of_le hphase with rfl | rfl | rfl | rfl | rfl
      · cases h
      · cases h
      · cases h
        rfl
      · cases h
        rfl
      · cases h
        rfl
    · by_cases hbad : decodeValue c < 0 ∨ 0x3f < decodeValue c
      · simp only [decodeByte, hspace, hpad, hbad, ↓reduceIte, withTolerance, Bool.false_eq_true] at h
        cases h
      · by_cases hclosing : s.phase = 4
        · simp only [decodeByte, hspace, hpad, hbad, hclosing, ↓reduceIte, withTolerance,
            Bool.false_eq_true] at h
          cases h
        · have hsame : ∀ mode, decodeByte c (withTolerance mode s) =
              (true, withTolerance mode (decodeData (decodeValue c).toNat.toUInt8 s)) := by
            intro mode
            rw [← hdata mode, decodeByte]
            simp only [hspace, hpad, hbad, withTolerance, hclosing, ↓reduceIte]
          rw [hsame] at h
          cases h
          exact hsame true

/-- What a round does where the strict decoder fails. -/
theorem decodeByte_refused {c : UInt8} {s : ZCodeBase64Decode} (hs : Tolerant s)
    (h : decode c (decodeView s) = none) :
    decodeByte c s = match value c with
      | some v => (true, decodeData v { s with phase := 0 })
      | none => (true, s) := by
  have hspace : isSpace c = false := by
    cases hspace : isSpace c with
    | false => rfl
    | true => simp [decode, hspace] at h
  cases hv : value c with
  | some v =>
      have hphase : s.phase = 4 := by
        rw [decode_value hv] at h
        by_contra hne
        rcases phase_of_le hs.phase with hp | hp | hp | hp | hp
        · simp [decodeView, hp] at h
        · simp [decodeView, hp] at h
        · simp [decodeView, hp] at h
        · simp [decodeView, hp] at h
        · exact hne hp
      rw [decodeByte_value hv, if_pos hphase, hs.tolerant]
      rfl
  | none =>
      by_cases hpad : c = pad
      · subst hpad
        obtain ⟨super, phase, errorTolerant⟩ := s
        obtain rfl : errorTolerant = true := hs.tolerant
        rw [decode_pad] at h
        rcases phase_of_le hs.phase with rfl | rfl | rfl | rfl | rfl
        · rfl
        · rfl
        · cases h
        · cases h
        · cases h
      · have hclass : decodeValue c = -3 := by
          simp [decodeValue_eq, classValue, hspace, hpad, hv]
        simp [decodeByte, hclass, hs.tolerant]

variable (grow : Nat → Nat → Nat)

abbrev Accepted (s t : ZCodeBase64Decode) (out : List UInt8) (v : Partial) : Prop :=
  Passes (decoder grow) Tolerant decodeView s t [] out v

theorem strict_mode {s : ZCodeBase64Decode} (hs : Tolerant s) : Strict (withTolerance false s) :=
  ⟨hs.phase, rfl⟩

theorem tolerant_mode {s : ZCodeBase64Decode} (hs : Tolerant s) : withTolerance true s = s := by
  obtain ⟨super, phase, errorTolerant⟩ := s
  obtain rfl : errorTolerant = true := hs.tolerant
  rfl

/-- What a strict decoder takes, with the mode changed. -/
theorem accepted_mode {s t : ZCodeBase64Decode} {out : List UInt8} {v : Partial}
    (h : Taken grow (withTolerance false s) t out v) : Accepted grow s (withTolerance true t) out v :=
  ⟨⟨h.inv.phase, rfl⟩, h.view, h.contents, h.errors⟩

theorem decodeByte_accepted {s : ZCodeBase64Decode} (hs : Tolerant s) (c : UInt8) {out : List UInt8}
    {w : Partial} (h : decodeTolerant c (decodeView s) = some (out, w)) :
    ∃ t, decodeByte c s = (true, t) ∧ Accepted grow s t out w := by
  cases hstrict : decode c (decodeView s) with
  | some r =>
      rw [decodeTolerant_some hstrict] at h
      cases h
      obtain ⟨t, ht, htaken⟩ := decodeByte_taken grow (strict_mode hs) c hstrict
      have hbyte := decodeByte_mode hs.phase ht
      rw [tolerant_mode hs] at hbyte
      exact ⟨_, hbyte, accepted_mode grow htaken⟩
  | none =>
      have hbyte := decodeByte_refused hs hstrict
      cases hv : value c with
      | none =>
          simp only [decodeTolerant, hstrict, hv, Option.some.injEq, Prod.mk.injEq] at h
          obtain ⟨rfl, rfl⟩ := h
          rw [hv] at hbyte
          exact ⟨s, hbyte, hs, rfl, (List.append_nil _).symm, rfl⟩
      | some v =>
          simp only [decodeTolerant, hstrict, hv, Option.some.injEq, Prod.mk.injEq] at h
          obtain ⟨rfl, rfl⟩ := h
          rw [hv] at hbyte
          refine ⟨_, hbyte, ⟨?_, hs.tolerant⟩, ?_, ?_, rfl⟩
          · simp [decodeData, decodePut]
          · simp [decodeData, decodePut, decodeView]
          · simp [decodeData, decodePut, decoder]

theorem decodeLoop_tolerant (bytes : List UInt8) {s : ZCodeBase64Decode} (hs : Tolerant s)
    {out : List UInt8} {w : Partial} (h : runOut decodeTolerant bytes (decodeView s) = some (out, w)) :
    ∃ t, decodeLoop bytes s = (true, t) ∧ Accepted grow s t out w :=
  decodeLoop_passes grow (fun c _ _ _ hs h => decodeByte_accepted grow hs c h) bytes hs h

/-- The error tolerant decoder never refuses anything. -/
theorem runOut_tolerant (bytes : List UInt8) (s : Partial) :
    ∃ r, runOut decodeTolerant bytes s = some r := by
  induction bytes generalizing s with
  | nil => exact ⟨_, rfl⟩
  | cons c bytes ih =>
      have hstep : ∃ out t, decodeTolerant c s = some (out, t) := by
        cases hstrict : decode c s with
        | some r => exact ⟨r.1, r.2, decodeTolerant_some hstrict⟩
        | none =>
            cases hv : value c with
            | none => exact ⟨[], s, by simp only [decodeTolerant, hstrict, hv]⟩
            | some v => exact ⟨[], .one (v <<< 2), by simp only [decodeTolerant, hstrict, hv]⟩
      obtain ⟨out, t, hstep⟩ := hstep
      obtain ⟨r, hr⟩ := ih t
      exact ⟨_, by rw [runOut_cons hstep, hr, Option.map_some]⟩

theorem tolerant_implements :
    Implements (decoder grow) Tolerant decodeView decodeTolerant tolerantEnd where
  transform := by
    intro bytes s out v hs h
    have hgrown : Tolerant (decodeGrown grow bytes s) := ⟨hs.phase, hs.tolerant⟩
    obtain ⟨t, ht, htaken⟩ := decodeLoop_tolerant grow bytes hgrown h
    exact ⟨t, ht, htaken.inv, htaken.view, htaken.contents, htaken.errors⟩
  refused := by
    intro bytes s _ h
    obtain ⟨r, hr⟩ := runOut_tolerant bytes (decodeView s)
    rw [hr] at h
    cases h
  finish := by
    intro s out v hs h
    cases h
    by_cases hphase : s.phase = 0
    · have hfinish : decodeFinish s = (true, s) := by
        simp only [decodeFinish, hphase, ne_eq, not_true_eq_false, ↓reduceIte]
      refine ⟨s, hfinish, hs, ?_, (List.append_nil _).symm, rfl⟩
      simp only [decodeView, hphase]
    · have hfinish : decodeFinish s = (true, { s with phase := 0 }) := by
        simp only [decodeFinish, hphase, ne_eq, not_false_eq_true, ↓reduceIte, hs.tolerant]
      exact ⟨_, hfinish, ⟨Nat.zero_le 4, hs.tolerant⟩, rfl, (List.append_nil _).symm, rfl⟩
  unfinished := by
    intro s _ h
    cases h
  super := fun _ _ => rfl
  read := by
    intro c s hs hpart
    refine ⟨⟨hs.phase, hs.tolerant⟩, ?_⟩
    have hpart : c.partialByte = s.super.partialByte := hpart
    simp only [decodeView, decoder, hpart]

/-- A byte that is neither in the alphabet nor the padding. -/
def Noise (c : UInt8) : Prop := value c = none ∧ c ≠ pad

instance (c : UInt8) : Decidable (Noise c) := inferInstanceAs (Decidable (_ ∧ _))

theorem decodeTolerant_noise (c : UInt8) (s : Partial) (h : Noise c) : decodeTolerant c s = some ([], s) := by
  cases hspace : isSpace c with
  | true =>
      apply decodeTolerant_some
      simp only [decode, hspace, ↓reduceIte]
  | false =>
      have hstrict : decode c s = none := by
        simp only [decode, hspace, Bool.false_eq_true, ↓reduceIte, h.2, h.1]
      simp only [decodeTolerant, hstrict, h.1]

theorem message_noise {text noisy out : List UInt8} {v : Partial} (hnoise : Inserted Noise text noisy)
    (h : message decode decodeEnd text .start = some (out, v)) :
    message decodeTolerant tolerantEnd noisy .start = some (out, .start) := by
  obtain ⟨first, t, last, hfirst, hlast, rfl⟩ := message_some.mp h
  have hend : last = [] := by
    cases t <;> cases hlast
    rfl
  subst hend
  apply message_some.mpr
  refine ⟨first, t, [], ?_, rfl, rfl⟩
  rw [runOut_inserted decodeTolerant_noise hnoise]
  exact runOut_mono (fun _ _ _ => decodeTolerant_some) hfirst

/-- The text that the strict decoder accepts is decoded by the error tolerant
one to the same bytes with noise anywhere in it, in whatever calls. -/
theorem noise_ignored (growStrict growTolerant : Nat → Nat → Nat) {s t : ZCodeBase64Decode}
    (hs : s.phase = 0 ∧ s.errorTolerant = false) (ht : t.phase = 0 ∧ t.errorTolerant = true)
    {ops noisy : List CodeOp} (h : (runMessage (decoder growStrict) ops s).1 = true)
    (hnoise : Inserted Noise (input ops) (input noisy)) :
    ∃ read u, runMessage (decoder growTolerant) noisy t = (true, read, u) ∧
      u.super.errorCounter = t.super.errorCounter ∧
      produced (decoder growTolerant) noisy t = produced (decoder growStrict) ops s := by
  have hstrict : Strict s := ⟨hs.1 ▸ Nat.zero_le 4, hs.2⟩
  have htolerant : Tolerant t := ⟨ht.1 ▸ Nat.zero_le 4, ht.2⟩
  have hviewStrict : decodeView s = .start := by simp only [decodeView, hs.1]
  have hviewTolerant : decodeView t = .start := by simp only [decodeView, ht.1]
  cases hmsg : message decode decodeEnd (input ops) (decodeView s) with
  | none =>
      rw [runMessage_refused (decoder_implements growStrict) ops hstrict hmsg] at h
      cases h
  | some r =>
      obtain ⟨out, v⟩ := r
      obtain ⟨-, -, -, -, hout⟩ :=
        runMessage_accepted (decoder_implements growStrict) ops hstrict hmsg
      rw [hviewStrict] at hmsg
      have hnoisy := message_noise hnoise hmsg
      rw [← hviewTolerant] at hnoisy
      obtain ⟨read, u, hu, hpass, hproduced⟩ :=
        runMessage_accepted (tolerant_implements growTolerant) noisy htolerant hnoisy
      exact ⟨read, u, hu, hpass.errors, hproduced.trans hout.symm⟩

/-- Noise in a quantum, between the padding characters and between the calls. -/
theorem noise_ignored_quantum :
    ∃ read u, runMessage (decoder max) [.transform [81, 0, 81], .transform [255, 61, 42], .getResult 1,
        .transform [61, 33]] (decodeNew 1 true) = (true, read, u) ∧
      u.super.errorCounter = 0 ∧
      produced (decoder max) [.transform [81, 0, 81], .transform [255, 61, 42], .getResult 1,
        .transform [61, 33]] (decodeNew 1 true) =
        produced (decoder max) [.transform [81, 81, 61, 61]] (decodeNew 0 false) :=
  noise_ignored max max (t := decodeNew 1 true) ⟨rfl, rfl⟩ ⟨rfl, rfl⟩ (by decide +kernel)
    (.keep 81 (.insert (by decide +kernel) (.keep 81 (.insert (by decide +kernel) (.keep 61
      (.insert (by decide +kernel) (.keep 61 (.insert (by decide +kernel) .nil))))))))

end Libzorpll.Base64Noise
