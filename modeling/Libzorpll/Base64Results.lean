import Libzorpll.Observe
import Libzorpll.Base64RoundTrip

/-! What the later calls of a base64 coder see of its results being read,
flushed and pushed back. -/

namespace Libzorpll.Base64Results

open Observe Transducer Base64 Base64Lines Base64Decode Base64RoundTrip Code CodeBase64

inductive CoderCall
  | transform (bytes : List UInt8)
  | finish
  | getResult (tolen : Nat)

inductive CoderAnswer
  | returned (ok : Bool)
  | result (bytes : List UInt8)
  deriving DecidableEq

variable {γ : Type}

def coderStep (codec : Codec γ) : CoderCall → γ → CoderAnswer × γ
  | .transform bytes, s =>
      let (ok, s) := codec.transform bytes s
      (.returned ok, s)
  | .finish, s =>
      let (ok, s) := codec.finish s
      (.returned ok, s)
  | .getResult tolen, s =>
      let (bytes, super) := getResult tolen (codec.super s)
      (.result bytes, codec.withSuper super s)

def readResult (codec : Codec γ) (n : Nat) (s : γ) : γ :=
  codec.withSuper (getResult n (codec.super s)).2 s

def flushed (codec : Codec γ) (n : Nat) (s : γ) : γ :=
  codec.withSuper (flushResult n (codec.super s)) s

/-- What is read is pushed back. -/
def restored (grow : Nat → Nat → Nat) (codec : Codec γ) (n : Nat) (s : γ) : γ :=
  let (bytes, super) := getResult n (codec.super s)
  codec.withSuper (ungetResult grow bytes super) s

theorem coderStep_getResult (codec : Codec γ) {tolen : Nat} {s : γ} {bytes : List UInt8} {super : ZCode}
    (h : getResult tolen (codec.super s) = (bytes, super)) :
    coderStep codec (.getResult tolen) s = (.result bytes, codec.withSuper super s) := by
  simp only [coderStep, h]

theorem coderStep_result (codec : Codec γ) (tolen : Nat) (s : γ) :
    (coderStep codec (.getResult tolen) s).1 = .result ((codec.super s).contents.take tolen) := by
  obtain ⟨c, hc, -⟩ := getResult_spec tolen (codec.super s)
  rw [coderStep_getResult codec hc]

/-- Coders that are alike have the same result. -/
theorem alike_contents {codec : Codec γ} {s t : γ} (h : Alike (coderStep codec) s t) :
    (codec.super s).contents = (codec.super t).contents := by
  let n := (codec.super s).contents.length + (codec.super t).contents.length
  have hout := h.output (.getResult n)
  rw [coderStep_result, coderStep_result, CoderAnswer.result.injEq] at hout
  rw [List.take_of_length_le (Nat.le_add_right _ _), List.take_of_length_le (Nat.le_add_left _ _)] at hout
  exact hout

/-- The bits of the partial byte that the encoder makes characters of. -/
def sixBits : Pending → Pending
  | .start => .start
  | .one bits => .one (bits &&& 0x3f)
  | .two bits => .two (bits &&& 0x3f)

/-- The flushed encoder has no bits left, or a byte of the result has them. -/
def EncoderKeeps (n : Nat) (s : ZCodeBase64Encode) : Prop :=
  s.phase = 0 ∨
    s.super.buf (s.super.bufUsed - n) &&& 0x3f = s.super.buf s.super.bufUsed &&& 0x3f

def DecoderKeeps (n : Nat) (s : ZCodeBase64Decode) : Prop :=
  s.phase = 0 ∨ s.phase = 4 ∨ s.super.buf (s.super.bufUsed - n) = s.super.buf s.super.bufUsed

/-! The encoder -/

theorem masked_six (x y : UInt8) :
    (x &&& 0x3f ||| y) &&& 0x3f = (x ||| y) &&& 0x3f ∧ x &&& 0x3f &&& 0x30 = x &&& 0x30 ∧
      x &&& 0x3f &&& 0x3c = x &&& 0x3c := by
  refine ⟨?_, ?_, ?_⟩
  · apply eq_of_bits
    intro i hi
    rcases bit_cases hi with rfl | rfl | rfl | rfl | rfl | rfl | rfl | rfl <;> simp
  · rw [UInt8.and_assoc]
    rfl
  · rw [UInt8.and_assoc]
    rfl

theorem letters_sixBits (b : UInt8) (p : Pending) : letters b (sixBits p) = letters b p := by
  cases p with
  | start => rfl
  | one bits => rw [sixBits, letters, letters, (masked_six bits _).1]
  | two bits => rw [sixBits, letters, letters, (masked_six bits _).1]

theorem lastLetters_sixBits (p : Pending) : lastLetters (sixBits p) = lastLetters p := by
  cases p with
  | start => rfl
  | one bits => rw [sixBits, lastLetters, lastLetters, (masked_six bits 0).2.1]
  | two bits => rw [sixBits, lastLetters, lastLetters, (masked_six bits 0).2.2]

/-- Encoders with the same result that are about to make the same of what
they get. -/
structure EncodeAlike (linelen : Nat) (s t : ZCodeBase64Encode) : Prop where
  left : Encoding linelen s
  right : Encoding linelen t
  contents : s.super.contents = t.super.contents
  linepos : s.linepos = t.linepos
  bits : sixBits (encodeView s).1 = sixBits (encodeView t).1

variable (grow : Nat → Nat → Nat)

theorem runOut_sixBits (linelen : Nat) (bytes : List UInt8) {v w : Pending × Nat} (hn : v.2 = w.2)
    (hbits : sixBits v.1 = sixBits w.1) :
    ∃ out v' w', runOut (encodeStep linelen) bytes v = some (out, v') ∧
      runOut (encodeStep linelen) bytes w = some (out, w') ∧ v'.2 = w'.2 ∧
      sixBits v'.1 = sixBits w'.1 := by
  cases bytes with
  | nil => exact ⟨[], v, w, rfl, rfl, hn, hbits⟩
  | cons b bytes =>
      have hletters : letters b v.1 = letters b w.1 := by
        rw [← letters_sixBits, hbits, letters_sixBits]
      have hstep : encodeStep linelen b v = encodeStep linelen b w := by
        simp only [encodeStep, hletters, hn]
      obtain ⟨⟨out, u⟩, hrun⟩ := runOut_encodeStep linelen (b :: bytes) w
      refine ⟨out, u, u, ?_, hrun, rfl, rfl⟩
      rw [← hrun, runOut, runOut, hstep]

theorem encoder_bisimulation (linelen : Nat) :
    Bisimulation (coderStep (encoder grow)) (EncodeAlike linelen) := by
  intro call s t h
  have himpl := encoder_implements grow linelen
  cases call with
  | transform bytes =>
      obtain ⟨out, v, w, hv, hw, hn, hbits⟩ := runOut_sixBits linelen bytes h.linepos h.bits
      obtain ⟨s', hs, hpass⟩ := himpl.transform bytes s out v h.left hv
      obtain ⟨t', ht, hpass'⟩ := himpl.transform bytes t out w h.right hw
      simp only [coderStep, hs, ht, true_and]
      have hcontents : s'.super.contents = s.super.contents ++ out := hpass.contents
      have hcontents' : t'.super.contents = t.super.contents ++ out := hpass'.contents
      refine ⟨hpass.inv, hpass'.inv, by rw [hcontents, hcontents', h.contents], ?_, ?_⟩
      · have hview := congrArg Prod.snd hpass.view
        have hview' := congrArg Prod.snd hpass'.view
        exact hview.trans (hn.trans hview'.symm)
      · rw [hpass.view, hpass'.view, hbits]
  | finish =>
      have hend : encodeEnd linelen (encodeView s) = encodeEnd linelen (encodeView t) := by
        have hlast : lastLetters (encodeView s).1 = lastLetters (encodeView t).1 := by
          rw [← lastLetters_sixBits, h.bits, lastLetters_sixBits]
        have hn : (encodeView s).2 = (encodeView t).2 := h.linepos
        simp only [encodeEnd, hlast, hn]
      obtain ⟨s', hs, hpass⟩ := himpl.finish s _ _ h.left rfl
      obtain ⟨t', ht, hpass'⟩ := himpl.finish t _ _ h.right (hend.symm.trans rfl)
      simp only [coderStep, hs, ht, true_and]
      have hcontents : s'.super.contents = s.super.contents ++ _ := hpass.contents
      have hcontents' : t'.super.contents = t.super.contents ++ _ := hpass'.contents
      refine ⟨hpass.inv, hpass'.inv, by rw [hcontents, hcontents', h.contents], ?_, ?_⟩
      · exact (congrArg Prod.snd hpass.view).trans (congrArg Prod.snd hpass'.view).symm
      · rw [hpass.view, hpass'.view]
  | getResult tolen =>
      obtain ⟨c, hc, hleft, hpart, -⟩ := getResult_spec tolen s.super
      obtain ⟨d, hd, hleft', hpart', -⟩ := getResult_spec tolen t.super
      obtain ⟨hinv, hview⟩ := himpl.read c s h.left hpart
      obtain ⟨hinv', hview'⟩ := himpl.read d t h.right hpart'
      rw [coderStep_getResult (encoder grow) hc, coderStep_getResult (encoder grow) hd,
        h.contents]
      refine ⟨rfl, hinv, hinv', ?_, h.linepos, ?_⟩
      · change c.contents = d.contents
        rw [hleft, hleft', h.contents]
      · exact (congrArg (fun v => sixBits v.1) hview).trans
          (h.bits.trans (congrArg (fun v => sixBits v.1) hview').symm)

theorem encoder_reachable {bufsize : Int} {linelen : Nat} {s : ZCodeBase64Encode}
    (h : Reachable (coderStep (encoder grow)) (encodeNew bufsize linelen) s) : Encoding linelen s := by
  apply reachable_induct (Encoding linelen) ?_ (encodeNew_encoding bufsize linelen) h
  intro call s hs
  have hsame : EncodeAlike linelen s s := ⟨hs, hs, rfl, rfl, rfl⟩
  exact (encoder_bisimulation grow linelen call s s hsame).2.left

/-- The character that the next byte completes shows the partial byte. -/
theorem encodeTransform_shows {linelen : Nat} {s : ZCodeBase64Encode} (hs : Encoding linelen s)
    (hphase : s.phase ≠ 0) :
    ((encodeTransform grow [0] s).2.super.contents).take (s.super.bufUsed + 1) =
      s.super.contents ++ [char (s.super.partialByte &&& 0x3f)] := by
  obtain ⟨⟨out, v⟩, hrun⟩ := runOut_encodeStep linelen [0] (encodeView s)
  obtain ⟨t, ht, hpass⟩ := (encoder_implements grow linelen).transform [0] s out v hs hrun
  have hcontents : t.super.contents = s.super.contents ++ out := hpass.contents
  have htransform : encodeTransform grow [0] s = (true, t) := ht
  have hbits : ∃ cs, (letters 0 (encodeView s).1).1 = char (s.super.partialByte &&& 0x3f) :: cs := by
    rcases encoding_phase hs with hp | hp | hp
    · exact absurd hp hphase
    · exact ⟨[], by simp [encodeView, hp, pending, letters]⟩
    · exact ⟨[char 0], by simp [encodeView, hp, pending, letters]⟩
  have hout : ∃ more, out = char (s.super.partialByte &&& 0x3f) :: more := by
    obtain ⟨cs, hcs⟩ := hbits
    obtain ⟨o, u, rest, hstep, -, rfl⟩ := runOut_cons_inv hrun
    simp only [encodeStep, hcs, Option.some.injEq, Prod.mk.injEq] at hstep
    obtain ⟨rfl, -⟩ := hstep
    rw [breakLines]
    split
    · exact ⟨_, rfl⟩
    · split
      · exact ⟨_, rfl⟩
      · exact ⟨_, rfl⟩
  obtain ⟨more, rfl⟩ := hout
  rw [htransform, hcontents, ← contents_length, List.take_length_add_append]
  rfl

theorem char_masked_inj {x y : UInt8} (h : char (x &&& 0x3f) = char (y &&& 0x3f)) :
    x &&& 0x3f = y &&& 0x3f := by
  have hvalue := congrArg value h
  rw [value_char (six_lt x), value_char (six_lt y)] at hvalue
  exact Option.some.inj hvalue

/-! The decoder -/

/-- Decoders with the same result, and with the same bits where these count. -/
structure DecodeAlike (s t : ZCodeBase64Decode) : Prop where
  phase : s.phase = t.phase
  small : s.phase ≤ 4
  mode : s.errorTolerant = t.errorTolerant
  contents : s.super.contents = t.super.contents
  bits : s.phase = 0 ∨ s.phase = 4 ∨ s.super.partialByte = t.super.partialByte

theorem decodeData_alike (v : UInt8) {s t : ZCodeBase64Decode} (h : DecodeAlike s t)
    (hphase : s.phase ≠ 4) : DecodeAlike (decodeData v s) (decodeData v t) := by
  obtain ⟨c, phase, mode⟩ := s
  obtain ⟨d, phase', mode'⟩ := t
  obtain ⟨hphases, hsmall, hmode, hcontents, hbits⟩ := h
  simp only at hphases hsmall hmode hcontents hbits hphase
  subst hphases hmode
  rcases phase_of_le hsmall with rfl | rfl | rfl | rfl | rfl
  · constructor <;> simp [decodeData, decodePut, hcontents]
  · have hold : c.partialByte = d.partialByte := by simpa using hbits
    constructor <;> simp [decodeData, decodeStore, hcontents, hold]
  · have hold : c.partialByte = d.partialByte := by simpa using hbits
    constructor <;> simp [decodeData, decodeStore, hcontents, hold]
  · have hold : c.partialByte = d.partialByte := by simpa using hbits
    constructor <;> simp [decodeData, hcontents, hold]
  · exact absurd rfl hphase

theorem decodeByte_alike (b : UInt8) {s t : ZCodeBase64Decode} (h : DecodeAlike s t) :
    (decodeByte b s).1 = (decodeByte b t).1 ∧ DecodeAlike (decodeByte b s).2 (decodeByte b t).2 := by
  have hfail : DecodeAlike (decodeError s) (decodeError t) :=
    ⟨h.phase, h.small, h.mode, h.contents, h.bits⟩
  by_cases hspace : decodeValue b = -1
  · simp only [decodeByte, hspace, ↓reduceIte, true_and]
    exact h
  · by_cases hpad : decodeValue b = -2
    · obtain ⟨c, phase, mode⟩ := s
      obtain ⟨d, phase', mode'⟩ := t
      obtain ⟨hphases, hsmall, hmode, hcontents, -⟩ := id h
      simp only at hphases hmode hsmall
      subst hphases hmode
      simp only [decodeByte, hpad]
      rcases phase_of_le hsmall with rfl | rfl | rfl | rfl | rfl
      · cases mode
        · exact ⟨rfl, hfail⟩
        · exact ⟨rfl, h⟩
      · cases mode
        · exact ⟨rfl, hfail⟩
        · exact ⟨rfl, h⟩
      · exact ⟨rfl, rfl, Nat.le_refl 4, rfl, hcontents, .inr (.inl rfl)⟩
      · exact ⟨rfl, rfl, Nat.zero_le 4, rfl, hcontents, .inl rfl⟩
      · exact ⟨rfl, rfl, Nat.zero_le 4, rfl, hcontents, .inl rfl⟩
    · simp only [decodeByte, hspace, hpad, ↓reduceIte, ← h.phase, ← h.mode]
      split
      · cases s.errorTolerant
        · exact ⟨rfl, hfail⟩
        · exact ⟨rfl, h⟩
      · split
        · have hreset : DecodeAlike { s with phase := 0 } { t with phase := 0 } :=
            ⟨rfl, Nat.zero_le 4, h.mode, h.contents, .inl rfl⟩
          cases hmode : s.errorTolerant
          · exact ⟨rfl, hfail⟩
          · rw [hmode, h.mode.symm.trans hmode] at hreset
            simp only [↓reduceIte, true_and]
            exact decodeData_alike _ hreset (by simp)
        · rename_i hphase
          exact ⟨rfl, decodeData_alike _ h hphase⟩

theorem decodeLoop_alike (bytes : List UInt8) {s t : ZCodeBase64Decode} (h : DecodeAlike s t) :
    (decodeLoop bytes s).1 = (decodeLoop bytes t).1 ∧
      DecodeAlike (decodeLoop bytes s).2 (decodeLoop bytes t).2 := by
  induction bytes generalizing s t with
  | nil => exact ⟨rfl, h⟩
  | cons b bytes ih =>
      obtain ⟨hanswer, halike⟩ := decodeByte_alike b h
      cases hs : decodeByte b s with
      | mk ok s' =>
          cases ht : decodeByte b t with
          | mk ok' t' =>
              rw [hs, ht] at hanswer halike
              obtain rfl : ok = ok' := hanswer
              simp only [decodeLoop, hs, ht]
              cases ok with
              | false => exact ⟨rfl, halike⟩
              | true => exact ih halike

theorem decoder_bisimulation : Bisimulation (coderStep (decoder grow)) DecodeAlike := by
  intro call s t h
  cases call with
  | transform bytes =>
      have hgrown : DecodeAlike (decodeGrown grow bytes s) (decodeGrown grow bytes t) :=
        ⟨h.phase, h.small, h.mode, h.contents, h.bits⟩
      obtain ⟨hanswer, halike⟩ := decodeLoop_alike bytes hgrown
      exact ⟨congrArg CoderAnswer.returned hanswer, halike⟩
  | finish =>
      change CoderAnswer.returned (decodeFinish s).1 = CoderAnswer.returned (decodeFinish t).1 ∧
        DecodeAlike (decodeFinish s).2 (decodeFinish t).2
      rw [decodeFinish, decodeFinish, ← h.phase, ← h.mode]
      split
      · split
        · exact ⟨rfl, rfl, Nat.zero_le 4, rfl, h.contents, .inl rfl⟩
        · exact ⟨rfl, rfl, Nat.zero_le 4, rfl, h.contents, .inl rfl⟩
      · exact ⟨rfl, h⟩
  | getResult tolen =>
      obtain ⟨c, hc, hleft, hpart, -⟩ := getResult_spec tolen s.super
      obtain ⟨d, hd, hleft', hpart', -⟩ := getResult_spec tolen t.super
      rw [coderStep_getResult (decoder grow) hc, coderStep_getResult (decoder grow) hd,
        h.contents]
      refine ⟨rfl, h.phase, h.small, h.mode, ?_, ?_⟩
      · change c.contents = d.contents
        rw [hleft, hleft', h.contents]
      · change s.phase = 0 ∨ s.phase = 4 ∨ c.partialByte = d.partialByte
        rw [hpart, hpart']
        exact h.bits

theorem decoder_reachable {bufsize : Int} {errorTolerant : Bool} {s : ZCodeBase64Decode}
    (h : Reachable (coderStep (decoder grow)) (decodeNew bufsize errorTolerant) s) : s.phase ≤ 4 := by
  apply reachable_induct (fun s => s.phase ≤ 4) ?_ (Nat.zero_le 4) h
  intro call s hs
  have halike := (decoder_bisimulation grow call s s ⟨rfl, hs, rfl, rfl, .inr (.inr rfl)⟩).2
  exact halike.small

/-- The byte that the next character completes shows the partial one. -/
theorem decodeTransform_shows {s : ZCodeBase64Decode} (hsmall : s.phase ≤ 4) (hzero : s.phase ≠ 0)
    (hclosing : s.phase ≠ 4) :
    (decodeTransform grow [65] s).2.super.contents = s.super.contents ++ [s.super.partialByte] := by
  obtain ⟨c, phase, mode⟩ := s
  have hvalue : decodeValue 65 = 0 := by decide
  rcases phase_of_le hsmall with rfl | rfl | rfl | rfl | rfl
  · exact absurd rfl hzero
  · simp [decodeTransform, decodeLoop, decodeByte, hvalue, decodeData, decodeStore]
  · simp [decodeTransform, decodeLoop, decodeByte, hvalue, decodeData, decodeStore]
  · simp [decodeTransform, decodeLoop, decodeByte, hvalue, decodeData]
  · exact absurd rfl hclosing

/-! Flushing -/

/-- The contents are those that a read leaves, but not the partial byte. -/
theorem flush_beside_read {n : Nat} {c : ZCode} (hpos : 0 < n) (hle : n ≤ c.bufUsed) :
    ∃ d, (getResult n c).2 = d ∧ (flushResult n c).contents = d.contents ∧
      (flushResult n c).partialByte = c.buf (c.bufUsed - n) ∧ d.partialByte = c.partialByte := by
  obtain ⟨hflush, hbits⟩ := flushResult_spec hpos hle
  obtain ⟨d, hd, hleft, hpart, -⟩ := getResult_spec n c
  exact ⟨d, congrArg Prod.snd hd, hflush.trans hleft.symm, hbits, hpart⟩

theorem encoder_flush {linelen n : Nat} {s : ZCodeBase64Encode} (hs : Encoding linelen s)
    (hpos : 0 < n) (hle : n ≤ s.super.bufUsed) :
    Alike (coderStep (encoder grow)) (flushed (encoder grow) n s) (readResult (encoder grow) n s) ↔
      EncoderKeeps n s := by
  obtain ⟨c, hc, hcontents, hbits, hpart⟩ := flush_beside_read hpos hle
  have hread : readResult (encoder grow) n s = { s with super := c } := by
    rw [← hc]
    rfl
  rw [hread]
  constructor
  · intro halike
    by_cases hphase : s.phase = 0
    · exact .inl hphase
    · have hshown := encodeTransform_shows grow (s := flushed (encoder grow) n s) ⟨hs.phase, hs.linelen⟩ hphase
      have hshown' := encodeTransform_shows grow (s := { s with super := c }) ⟨hs.phase, hs.linelen⟩ hphase
      have hsame : (encodeTransform grow [0] (flushed (encoder grow) n s)).2.super.contents =
          (encodeTransform grow [0] { s with super := c }).2.super.contents :=
        alike_contents (halike.next (.transform [0]))
      have hused : (flushResult n s.super).bufUsed = c.bufUsed := by
        rw [← contents_length, hcontents, contents_length]
      rw [hsame] at hshown
      have hboth := hshown.symm.trans ((congrArg (fun k => List.take (k + 1) _) hused).trans hshown')
      have hlast := List.append_inj_right hboth (congrArg List.length hcontents)
      have hchar := char_masked_inj (List.cons.inj hlast).1
      exact .inr ((congrArg (· &&& 0x3f) hbits).symm.trans (hchar.trans (congrArg (· &&& 0x3f) hpart)))
  · intro hkeeps
    apply (encoder_bisimulation grow linelen).alike
    refine ⟨⟨hs.phase, hs.linelen⟩, ⟨hs.phase, hs.linelen⟩, hcontents, rfl, ?_⟩
    change sixBits (pending (flushResult n s.super).partialByte s.phase) = sixBits (pending c.partialByte s.phase)
    rw [hbits, hpart]
    rcases encoding_phase hs with hp | hp | hp
    · rw [hp]
      rfl
    · have hsix := hkeeps.resolve_left (by omega)
      rw [hp]
      exact congrArg Pending.one hsix
    · have hsix := hkeeps.resolve_left (by omega)
      rw [hp]
      exact congrArg Pending.two hsix

theorem decoder_flush {n : Nat} {s : ZCodeBase64Decode} (hs : s.phase ≤ 4)
    (hpos : 0 < n) (hle : n ≤ s.super.bufUsed) :
    Alike (coderStep (decoder grow)) (flushed (decoder grow) n s) (readResult (decoder grow) n s) ↔
      DecoderKeeps n s := by
  obtain ⟨c, hc, hcontents, hbits, hpart⟩ := flush_beside_read hpos hle
  have hread : readResult (decoder grow) n s = { s with super := c } := by
    rw [← hc]
    rfl
  rw [hread]
  constructor
  · intro halike
    by_cases hzero : s.phase = 0
    · exact .inl hzero
    · by_cases hclosing : s.phase = 4
      · exact .inr (.inl hclosing)
      · have hsame : (decodeTransform grow [65] (flushed (decoder grow) n s)).2.super.contents =
            (decodeTransform grow [65] { s with super := c }).2.super.contents :=
          alike_contents (halike.next (.transform [65]))
        rw [decodeTransform_shows grow (s := flushed (decoder grow) n s) hs hzero hclosing,
          decodeTransform_shows grow (s := { s with super := c }) hs hzero hclosing] at hsame
        have hlast := List.append_inj_right hsame (congrArg List.length hcontents)
        exact .inr (.inr (hbits.symm.trans ((List.cons.inj hlast).1.trans hpart)))
  · intro hkeeps
    apply (decoder_bisimulation grow).alike
    refine ⟨rfl, hs, rfl, hcontents, ?_⟩
    change s.phase = 0 ∨ s.phase = 4 ∨ (flushResult n s.super).partialByte = c.partialByte
    rw [hbits, hpart]
    exact hkeeps

/-- Flushing is reading unless a coder is between two quanta's ends and the
byte that is left behind the result is not the partial one. -/
theorem flush_as_read :
    (∀ bufsize linelen s, Reachable (coderStep (encoder grow)) (encodeNew bufsize linelen) s →
      ∀ n, 0 < n → n ≤ s.super.bufUsed →
        (Alike (coderStep (encoder grow)) (flushed (encoder grow) n s) (readResult (encoder grow) n s) ↔
          EncoderKeeps n s)) ∧
    ∀ bufsize errorTolerant s,
      Reachable (coderStep (decoder grow)) (decodeNew bufsize errorTolerant) s →
      ∀ n, 0 < n → n ≤ s.super.bufUsed →
        (Alike (coderStep (decoder grow)) (flushed (decoder grow) n s) (readResult (decoder grow) n s) ↔
          DecoderKeeps n s) := by
  constructor
  · intro bufsize linelen s hs n hpos hle
    exact encoder_flush grow (encoder_reachable grow hs) hpos hle
  · intro bufsize errorTolerant s hs n hpos hle
    exact decoder_flush grow (decoder_reachable grow hs) hpos hle

/-- Whole quanta have been encoded, and the decoder has taken the padding. -/
theorem flush_as_read_whole :
    Alike (coderStep (encoder fun a _ => a))
        (flushed (encoder fun a _ => a) 1
          (after (coderStep (encoder fun a _ => a)) [.transform [77, 97, 110]] (encodeNew 0 0)))
        (readResult (encoder fun a _ => a) 1
          (after (coderStep (encoder fun a _ => a)) [.transform [77, 97, 110]] (encodeNew 0 0))) ∧
      Alike (coderStep (decoder fun a _ => a))
        (flushed (decoder fun a _ => a) 1
          (after (coderStep (decoder fun a _ => a)) [.transform [84, 81, 61]] (decodeNew 0 false)))
        (readResult (decoder fun a _ => a) 1
          (after (coderStep (decoder fun a _ => a)) [.transform [84, 81, 61]] (decodeNew 0 false))) := by
  have h := flush_as_read fun a _ => a
  constructor
  · exact (h.1 0 0 _ ⟨_, rfl⟩ 1 (by decide) (by decide)).mpr (.inl rfl)
  · exact (h.2 0 false _ ⟨_, rfl⟩ 1 (by decide) (by decide)).mpr (.inr (.inl rfl))

/-- After four bytes the last character is left behind the result, and the end
is made of its bits. -/
theorem flush_not_as_read :
    ¬∀ (grow : Nat → Nat → Nat) (bufsize : Int) (linelen : Nat) (s : ZCodeBase64Encode),
      Reachable (coderStep (encoder grow)) (encodeNew bufsize linelen) s →
      ∀ n, 0 < n → n ≤ s.super.bufUsed →
        Alike (coderStep (encoder grow)) (flushed (encoder grow) n s) (readResult (encoder grow) n s) := by
  intro h
  have halike := h (fun a _ => a) 0 0
    (after (coderStep (encoder fun a _ => a)) [.transform [65, 66, 67, 68]] (encodeNew 0 0)) ⟨_, rfl⟩ 1
    (by decide) (by decide)
  have hout := halike [.finish, .getResult 8]
  revert hout
  decide +kernel

/-! Pushing back -/

/-- What was read and is pushed back is as if it had not been read. -/
theorem unget_restores :
    (∀ bufsize linelen s, Reachable (coderStep (encoder grow)) (encodeNew bufsize linelen) s →
      ∀ n, Alike (coderStep (encoder grow)) (restored grow (encoder grow) n s) s) ∧
    ∀ bufsize errorTolerant s,
      Reachable (coderStep (decoder grow)) (decodeNew bufsize errorTolerant) s →
      ∀ n, Alike (coderStep (decoder grow)) (restored grow (decoder grow) n s) s := by
  constructor
  · intro bufsize linelen s hs n
    have henc := encoder_reachable grow hs
    obtain ⟨hcontents, hpart⟩ := ungetResult_read grow n s.super
    apply (encoder_bisimulation grow linelen).alike
    refine ⟨⟨henc.phase, henc.linelen⟩, henc, hcontents, rfl, ?_⟩
    exact congrArg (fun bits => sixBits (pending bits s.phase)) hpart
  · intro bufsize errorTolerant s hs n
    obtain ⟨hcontents, hpart⟩ := ungetResult_read grow n s.super
    have hsmall := decoder_reachable grow hs
    apply (decoder_bisimulation grow).alike
    exact ⟨rfl, hsmall, rfl, hcontents, .inr (.inr hpart)⟩

/-- In the middle of a quantum. -/
theorem unget_restores_partial :
    Alike (coderStep (encoder fun a _ => a))
        (restored (fun a _ => a) (encoder fun a _ => a) 3
          (after (coderStep (encoder fun a _ => a)) [.transform [65, 66, 67, 68]] (encodeNew 0 0)))
        (after (coderStep (encoder fun a _ => a)) [.transform [65, 66, 67, 68]] (encodeNew 0 0)) ∧
      Alike (coderStep (decoder fun a _ => a))
        (restored (fun a _ => a) (decoder fun a _ => a) 1
          (after (coderStep (decoder fun a _ => a)) [.transform [84, 81]] (decodeNew 0 false)))
        (after (coderStep (decoder fun a _ => a)) [.transform [84, 81]] (decodeNew 0 false)) := by
  have h := unget_restores fun a _ => a
  exact ⟨h.1 0 0 _ ⟨_, rfl⟩ 3, h.2 0 false _ ⟨_, rfl⟩ 1⟩

end Libzorpll.Base64Results
