import Libzorpll.Base64
import Libzorpll.CodeBase64

/-! The strict decoder accepts the grammar of base64. -/

namespace Libzorpll.Base64Decode

open Transducer Base64 Code CodeBase64

def decodeView (self : ZCodeBase64Decode) : Partial :=
  match self.phase with
  | 0 => .start
  | 1 => .one self.super.partialByte
  | 2 => .two self.super.partialByte
  | 3 => .three self.super.partialByte
  | _ => .closing

structure Strict (s : ZCodeBase64Decode) : Prop where
  phase : s.phase ≤ 4
  strict : s.errorTolerant = false

/-- The table by its classes of characters. -/
def classValue (b : UInt8) : Int :=
  if isSpace b then -1 else if b = pad then -2 else (value b).elim (-3) (fun v => v.toNat)

theorem decodeXlat_eq : decodeXlat = (List.range 256).map (fun n => classValue (UInt8.ofNat n)) := by
  decide +kernel

theorem decodeValue_eq (b : UInt8) : decodeValue b = classValue b := by
  have hb : b.toNat < 256 := b.toNat_lt
  rw [decodeValue, decodeXlat_eq, List.getD_eq_getElem?_getD, List.getElem?_map, List.getElem?_range hb,
    Option.map_some, Option.getD_some, UInt8.ofNat_toNat]

variable (grow : Nat → Nat → Nat)

abbrev Taken (s t : ZCodeBase64Decode) (out : List UInt8) (v : Partial) : Prop :=
  Passes (decoder grow) Strict decodeView s t [] out v

theorem decodeData_taken {s : ZCodeBase64Decode} (hs : Strict s) (hphase : s.phase < 4) (c v : UInt8)
    (hv : value c = some v) {out : List UInt8} {w : Partial}
    (h : decode c (decodeView s) = some (out, w)) : Taken grow s (decodeData v s) out w := by
  obtain ⟨super, phase, errorTolerant⟩ := s
  rw [decode_value hv] at h
  have hcases : phase = 0 ∨ phase = 1 ∨ phase = 2 ∨ phase = 3 := by
    have hlt : phase < 4 := hphase
    omega
  rcases hcases with rfl | rfl | rfl | rfl
  · cases h
    refine ⟨⟨by simp [decodeData, decodePut], hs.strict⟩, ?_, ?_, rfl⟩
    · simp [decodeData, decodePut, decodeView]
    · simp [decodeData, decodePut, decoder]
  · cases h
    refine ⟨⟨by simp [decodeData, decodeStore], hs.strict⟩, ?_, ?_, rfl⟩
    · simp [decodeData, decodeStore, decodeView]
    · simp [decodeData, decodeStore, decoder]
  · cases h
    refine ⟨⟨by simp [decodeData, decodeStore], hs.strict⟩, ?_, ?_, rfl⟩
    · simp [decodeData, decodeStore, decodeView]
    · simp [decodeData, decodeStore, decoder]
  · cases h
    refine ⟨⟨by simp [decodeData], hs.strict⟩, ?_, ?_, rfl⟩
    · simp [decodeData, decodeView]
    · simp [decodeData, decoder]

theorem phase_of_le {phase : Nat} (h : phase ≤ 4) :
    phase = 0 ∨ phase = 1 ∨ phase = 2 ∨ phase = 3 ∨ phase = 4 := by
  omega

theorem phase_cases {super : ZCode} {phase : Nat} {errorTolerant : Bool}
    (h : Strict ⟨super, phase, errorTolerant⟩) :
    phase = 0 ∨ phase = 1 ∨ phase = 2 ∨ phase = 3 ∨ phase = 4 :=
  phase_of_le h.phase

theorem classValue_data {b v : UInt8} (h : value b = some v) : classValue b = v.toNat := by
  have hspace : isSpace b = false := by
    cases hs : isSpace b with
    | false => rfl
    | true => rw [value_space hs] at h; cases h
  have hpad : b ≠ pad := by
    rintro rfl
    rw [value_pad] at h
    cases h
  simp [classValue, hspace, hpad, h]

/-- A character of the alphabet, in both modes. -/
theorem decodeByte_value {c v : UInt8} (hv : value c = some v) (s : ZCodeBase64Decode) :
    decodeByte c s =
      if s.phase = 4 then
        if s.errorTolerant then (true, decodeData v { s with phase := 0 }) else (false, decodeError s)
      else (true, decodeData v s) := by
  have hlt : v.toNat < 64 := UInt8.lt_iff_toNat_lt.mp (value_lt hv)
  have h1 : ¬((v.toNat : Int) = -1) := by omega
  have h2 : ¬((v.toNat : Int) = -2) := by omega
  have h3 : ¬((v.toNat : Int) < 0 ∨ 0x3f < (v.toNat : Int)) := by omega
  simp only [decodeByte, decodeValue_eq, classValue_data hv, h1, h2, h3, ↓reduceIte, Int.toNat_natCast,
    UInt8.ofNat_toNat]

theorem decodeByte_data {s : ZCodeBase64Decode} (hs : Strict s) {c v : UInt8} (hv : value c = some v) :
    decodeByte c s = if s.phase = 4 then (false, decodeError s) else (true, decodeData v s) := by
  rw [decodeByte_value hv, hs.strict]
  rfl

theorem decodeByte_taken {s : ZCodeBase64Decode} (hs : Strict s) (c : UInt8) {out : List UInt8}
    {w : Partial} (h : decode c (decodeView s) = some (out, w)) :
    ∃ t, decodeByte c s = (true, t) ∧ Taken grow s t out w := by
  cases hspace : isSpace c with
  | true =>
      simp only [decode, hspace, ↓reduceIte, Option.some.injEq, Prod.mk.injEq] at h
      obtain ⟨rfl, rfl⟩ := h
      refine ⟨s, ?_, hs, rfl, (List.append_nil _).symm, rfl⟩
      simp [decodeByte, decodeValue_eq, classValue, hspace]
  | false =>
      cases hv : value c with
      | some v =>
          have hphase : s.phase ≠ 4 := by
            intro h4
            rw [decode_value hv, decodeView, h4] at h
            cases h
          refine ⟨decodeData v s, ?_, decodeData_taken grow hs ?_ c v hv h⟩
          · rw [decodeByte_data hs hv, if_neg hphase]
          · exact Nat.lt_of_le_of_ne hs.phase hphase
      | none =>
          have hpad : c = pad := by
            by_contra hne
            simp [decode, hspace, hne, hv] at h
          subst hpad
          rw [decode_pad] at h
          obtain ⟨super, phase, errorTolerant⟩ := s
          rcases phase_cases hs with rfl | rfl | rfl | rfl | rfl
          · cases h
          · cases h
          · cases h
            exact ⟨_, rfl, ⟨by simp, hs.strict⟩, rfl, (List.append_nil _).symm, rfl⟩
          · cases h
            exact ⟨_, rfl, ⟨by simp, hs.strict⟩, rfl, (List.append_nil _).symm, rfl⟩
          · cases h
            exact ⟨_, rfl, ⟨by simp, hs.strict⟩, rfl, (List.append_nil _).symm, rfl⟩

/-- A loop whose rounds do what the machine does at each character. -/
theorem decodeLoop_passes {Inv : ZCodeBase64Decode → Prop} {step : UInt8 → Partial → Option (List UInt8 × Partial)}
    (hround : ∀ c s out w, Inv s → step c (decodeView s) = some (out, w) →
      ∃ t, decodeByte c s = (true, t) ∧ Passes (decoder grow) Inv decodeView s t [] out w)
    (bytes : List UInt8) {s : ZCodeBase64Decode} (hs : Inv s) {out : List UInt8} {w : Partial}
    (h : runOut step bytes (decodeView s) = some (out, w)) :
    ∃ t, decodeLoop bytes s = (true, t) ∧ Passes (decoder grow) Inv decodeView s t [] out w := by
  induction bytes generalizing s out with
  | nil =>
      cases h
      exact ⟨s, rfl, hs, rfl, (List.append_nil _).symm, rfl⟩
  | cons c bytes ih =>
      obtain ⟨first, v, rest, hfirst, hrest, rfl⟩ := runOut_cons_inv h
      obtain ⟨t, ht, htaken⟩ := hround c s first v hs hfirst
      obtain ⟨u, hu, hmore⟩ := ih htaken.inv (htaken.view ▸ hrest)
      refine ⟨u, by simp only [decodeLoop, ht, hu], hmore.inv, hmore.view, ?_,
        hmore.errors.trans htaken.errors⟩
      have hcontents : t.super.contents = s.super.contents ++ first := htaken.contents
      have hcontents' : u.super.contents = t.super.contents ++ rest := hmore.contents
      change u.super.contents = s.super.contents ++ (first ++ rest)
      rw [hcontents', hcontents, List.append_assoc]

theorem decodeLoop_accepted (bytes : List UInt8) {s : ZCodeBase64Decode} (hs : Strict s)
    {out : List UInt8} {w : Partial} (h : runOut decode bytes (decodeView s) = some (out, w)) :
    ∃ t, decodeLoop bytes s = (true, t) ∧ Taken grow s t out w :=
  decodeLoop_passes grow (fun c _ _ _ hs h => decodeByte_taken grow hs c h) bytes hs h

/-- A refused character adds nothing to the result. -/
theorem decodeByte_error {s : ZCodeBase64Decode} (hs : Strict s) (c : UInt8)
    (h : decode c (decodeView s) = none) : decodeByte c s = (false, decodeError s) := by
  have hspace : isSpace c = false := by
    cases hspace : isSpace c with
    | false => rfl
    | true => simp [decode, hspace] at h
  cases hv : value c with
  | some v =>
      rw [decodeByte_data hs hv]
      obtain ⟨super, phase, errorTolerant⟩ := s
      rw [decode_value hv] at h
      rcases phase_cases hs with rfl | rfl | rfl | rfl | rfl
      · cases h
      · cases h
      · cases h
      · cases h
      · rfl
  | none =>
      by_cases hpad : c = pad
      · subst hpad
        rw [decode_pad] at h
        obtain ⟨super, phase, errorTolerant⟩ := s
        obtain rfl : errorTolerant = false := hs.strict
        rcases phase_cases hs with rfl | rfl | rfl | rfl | rfl
        · rfl
        · rfl
        · cases h
        · cases h
        · cases h
      · have hclass : decodeValue c = -3 := by
          simp [decodeValue_eq, classValue, hspace, hpad, hv]
        simp [decodeByte, hclass, hs.strict]

include grow in
theorem decodeLoop_refused (bytes : List UInt8) {s : ZCodeBase64Decode} (hs : Strict s)
    (h : runOut decode bytes (decodeView s) = none) :
    ∃ t, decodeLoop bytes s = (false, t) ∧
      t.super.contents = s.super.contents ++ outUntil decode bytes (decodeView s) := by
  induction bytes generalizing s with
  | nil => cases h
  | cons c bytes ih =>
      cases hfirst : decode c (decodeView s) with
      | none =>
          refine ⟨decodeError s, ?_, ?_⟩
          · simp only [decodeLoop, decodeByte_error hs c hfirst]
          · simp only [outUntil, hfirst, List.append_nil]
            rfl
      | some p =>
          obtain ⟨first, v⟩ := p
          obtain ⟨t, ht, htaken⟩ := decodeByte_taken grow hs c hfirst
          rw [runOut_cons hfirst, Option.map_eq_none_iff] at h
          obtain ⟨u, hu, hcontents⟩ := ih htaken.inv (htaken.view ▸ h)
          refine ⟨u, by simp only [decodeLoop, ht, hu], ?_⟩
          have hfirstContents : t.super.contents = s.super.contents ++ first := htaken.contents
          have hview : decodeView t = v := htaken.view
          rw [hcontents, hfirstContents, hview, List.append_assoc]
          simp only [outUntil, hfirst]

/-- The decoder before its loop. -/
def decodeGrown (bytes : List UInt8) (s : ZCodeBase64Decode) : ZCodeBase64Decode :=
  { s with super := codeGrow grow (s.super.bufUsed + (bytes.length * 3 + 3) / 4 + 16) s.super }

theorem decoder_implements :
    Implements (decoder grow) Strict decodeView decode decodeEnd where
  transform := by
    intro bytes s out v hs h
    have hgrown : Strict (decodeGrown grow bytes s) := ⟨hs.phase, hs.strict⟩
    obtain ⟨t, ht, htaken⟩ := decodeLoop_accepted grow bytes hgrown h
    exact ⟨t, ht, htaken.inv, htaken.view, htaken.contents, htaken.errors⟩
  refused := by
    intro bytes s hs h
    have hgrown : Strict (decodeGrown grow bytes s) := ⟨hs.phase, hs.strict⟩
    obtain ⟨t, ht, -⟩ := decodeLoop_refused grow bytes hgrown h
    change (decodeLoop bytes (decodeGrown grow bytes s)).1 = false
    rw [ht]
  finish := by
    intro s out v hs h
    obtain ⟨super, phase, errorTolerant⟩ := s
    rcases phase_cases hs with rfl | rfl | rfl | rfl | rfl
    · cases h
      exact ⟨_, rfl, hs, rfl, (List.append_nil _).symm, rfl⟩
    · cases h
    · cases h
    · cases h
    · cases h
  unfinished := by
    intro s hs h
    obtain ⟨super, phase, errorTolerant⟩ := s
    obtain rfl : errorTolerant = false := hs.strict
    rcases phase_cases hs with rfl | rfl | rfl | rfl | rfl
    · cases h
    · rfl
    · rfl
    · rfl
    · rfl
  super := fun _ _ => rfl
  read := by
    intro c s hs hpart
    refine ⟨⟨hs.phase, hs.strict⟩, ?_⟩
    have hpart : c.partialByte = s.super.partialByte := hpart
    simp only [decodeView, decoder, hpart]

theorem decodeNew_strict (bufsize : Int) : Strict (decodeNew bufsize false) := ⟨Nat.zero_le 4, rfl⟩

/-- The calls of a text are made until one of them returns FALSE. -/
def transformsUntil : List (List UInt8) → ZCodeBase64Decode → Bool × ZCodeBase64Decode
  | [], s => (true, s)
  | bytes :: calls, s =>
      match decodeTransform grow bytes s with
      | (false, s) => (false, s)
      | (true, s) => transformsUntil calls s

theorem transformsUntil_contents (calls : List (List UInt8)) {s : ZCodeBase64Decode} (hs : Strict s) :
    (transformsUntil grow calls s).2.super.contents =
      s.super.contents ++ outUntil decode calls.flatten (decodeView s) := by
  induction calls generalizing s with
  | nil => simp [transformsUntil, outUntil]
  | cons bytes calls ih =>
      have hgrown : Strict (decodeGrown grow bytes s) := ⟨hs.phase, hs.strict⟩
      have hview : decodeView (decodeGrown grow bytes s) = decodeView s := rfl
      rw [List.flatten_cons]
      cases hrun : runOut decode bytes (decodeView s) with
      | none =>
          obtain ⟨t, ht, hcontents⟩ := decodeLoop_refused grow bytes hgrown (hview ▸ hrun)
          have htransform : decodeTransform grow bytes s = (false, t) := ht
          simp only [transformsUntil, htransform, outUntil_of_refused hrun]
          exact hcontents
      | some p =>
          obtain ⟨out, v⟩ := p
          obtain ⟨t, ht, htaken⟩ := (decoder_implements grow).transform bytes s out v hs hrun
          have htransform : decodeTransform grow bytes s = (true, t) := ht
          have hcontents : t.super.contents = s.super.contents ++ out := htaken.contents
          simp only [transformsUntil, htransform, outUntil_of_runOut hrun]
          rw [ih htaken.inv, hcontents, htaken.view, List.append_assoc]

def decodeCalls (bufsize : Int) (calls : List (List UInt8)) : Bool × List UInt8 × ZCodeBase64Decode :=
  runMessage (decoder grow) (calls.map .transform) (decodeNew bufsize false)

theorem input_transforms (calls : List (List UInt8)) : input (calls.map .transform) = calls.flatten := by
  induction calls with
  | nil => rfl
  | cons bytes calls ih =>
      rw [List.map_cons, input, List.flatMap_cons, ← input, ih]
      rfl

theorem runOps_transforms (codec : Codec ZCodeBase64Decode) (calls : List (List UInt8))
    (s : ZCodeBase64Decode) : (runOps codec (calls.map .transform) s).2.1 = [] := by
  induction calls generalizing s with
  | nil => rfl
  | cons bytes calls ih => exact ih (codec.transform bytes s).2

theorem decodeCalls_accepted (bufsize : Int) (calls : List (List UInt8)) {bytes : List UInt8}
    (h : Quanta (calls.flatten.filter (fun c => !isSpace c)) bytes) :
    (decodeCalls grow bufsize calls).1 = true ∧
      (decodeCalls grow bufsize calls).2.2.super.contents = bytes := by
  have hmsg := (decode_iff calls.flatten bytes).mpr h
  rw [← input_transforms] at hmsg
  obtain ⟨read, t, ht, hpass, -⟩ :=
    runMessage_accepted (decoder_implements grow) _ (decodeNew_strict bufsize) hmsg
  have hread : read = [] := by
    have hnone := runOps_transforms (decoder grow) calls (decodeNew bufsize false)
    have heq := congrArg (fun p => p.2.1) ht
    exact heq.symm.trans hnone
  subst hread
  have hcontents : t.super.contents = [] ++ bytes := hpass.contents
  rw [decodeCalls, ht]
  exact ⟨rfl, hcontents⟩

theorem decodeCalls_refused (bufsize : Int) (calls : List (List UInt8))
    (h : ∀ bytes, ¬Quanta (calls.flatten.filter (fun c => !isSpace c)) bytes) :
    (decodeCalls grow bufsize calls).1 = false := by
  apply runMessage_refused (decoder_implements grow) _ (decodeNew_strict bufsize)
  rw [input_transforms]
  cases hmsg : message decode decodeEnd calls.flatten .start with
  | none => exact hmsg
  | some p =>
      obtain ⟨out, v⟩ := p
      obtain rfl := decode_ends hmsg
      cases h out ((decode_iff _ _).mp hmsg)

/-- The strict decoder accepts what is made of quanta apart from spaces, and
gives what they stand for; the calls in which it gets a text do not matter. -/
theorem decoder_accepts (bufsize : Int) (calls : List (List UInt8)) :
    ((decodeCalls grow bufsize calls).1 = true ↔
      ∃ bytes, Quanta (calls.flatten.filter (fun c => !isSpace c)) bytes) ∧
    (∀ bytes, Quanta (calls.flatten.filter (fun c => !isSpace c)) bytes →
      (decodeCalls grow bufsize calls).2.2.super.contents = bytes) ∧
    ∀ calls' : List (List UInt8), calls'.flatten = calls.flatten →
      (decodeCalls grow bufsize calls').1 = (decodeCalls grow bufsize calls).1 ∧
      ((decodeCalls grow bufsize calls).1 = true →
        (decodeCalls grow bufsize calls').2.2.super.contents =
          (decodeCalls grow bufsize calls).2.2.super.contents) ∧
      (transformsUntil grow calls' (decodeNew bufsize false)).2.super.contents =
        (transformsUntil grow calls (decodeNew bufsize false)).2.super.contents := by
  have hiff : ∀ calls : List (List UInt8), (decodeCalls grow bufsize calls).1 = true ↔
      ∃ bytes, Quanta (calls.flatten.filter (fun c => !isSpace c)) bytes := by
    intro calls
    constructor
    · intro h
      by_contra hnone
      rw [decodeCalls_refused grow bufsize calls (not_exists.mp hnone)] at h
      cases h
    · rintro ⟨bytes, h⟩
      exact (decodeCalls_accepted grow bufsize calls h).1
  refine ⟨hiff calls, fun bytes h => (decodeCalls_accepted grow bufsize calls h).2, ?_⟩
  intro calls' hsame
  refine ⟨?_, ?_, ?_⟩
  · rw [Bool.eq_iff_iff, hiff, hiff, hsame]
  · intro h
    obtain ⟨bytes, hbytes⟩ := (hiff calls).mp h
    have hbytes' := hbytes
    rw [← hsame] at hbytes'
    rw [(decodeCalls_accepted grow bufsize calls hbytes).2,
      (decodeCalls_accepted grow bufsize calls' hbytes').2]
  · rw [transformsUntil_contents grow _ (decodeNew_strict bufsize),
      transformsUntil_contents grow _ (decodeNew_strict bufsize), hsame]

example : (decodeCalls (fun a _ => a) 0 [[81], [85, 74, 10], [67]]).1 = true := by decide +kernel

end Libzorpll.Base64Decode
