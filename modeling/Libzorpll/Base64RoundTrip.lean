import Libzorpll.Base64Decode
import Libzorpll.Base64Lines

namespace Libzorpll.Base64RoundTrip

open Transducer Base64 Base64Lines Base64Decode Code CodeBase64

def pending (bits : UInt8) : Nat → Pending
  | 0 => .start
  | 1 => .one bits
  | _ => .two bits

def encodeView (self : ZCodeBase64Encode) : Pending × Nat :=
  (pending self.super.partialByte self.phase, self.linepos)

structure Encoding (linelen : Nat) (s : ZCodeBase64Encode) : Prop where
  phase : s.phase ≤ 2
  linelen : s.linelen = linelen

/-- The characters `cs` are added to the lines of the result. -/
structure Emits (s t : ZCodeBase64Encode) (cs : List UInt8) : Prop where
  phase : t.phase = s.phase
  linelen : t.linelen = s.linelen
  linepos : t.linepos = (breakLines s.linelen cs s.linepos).2
  contents : t.super.contents = s.super.contents ++ (breakLines s.linelen cs s.linepos).1
  errors : t.super.errorCounter = s.super.errorCounter

theorem encodeChar_eq (v : UInt8) : encodeChar (v &&& 0x3f) = char (v &&& 0x3f) :=
  forall_byte (P := fun v => encodeChar (v &&& 0x3f) = char (v &&& 0x3f)) (by decide +kernel) v

theorem masked_lt {x : UInt8} : x &&& 0x30 < 64 ∧ x &&& 0x3c < 64 :=
  forall_byte (P := fun x => x &&& 0x30 < 64 ∧ x &&& 0x3c < 64) (by decide +kernel) x

theorem Emits.trans {s t u : ZCodeBase64Encode} {cs ds : List UInt8} (hst : Emits s t cs)
    (htu : Emits t u ds) : Emits s u (cs ++ ds) := by
  refine ⟨htu.phase.trans hst.phase, htu.linelen.trans hst.linelen, ?_, ?_,
    htu.errors.trans hst.errors⟩
  · rw [htu.linepos, hst.linelen, hst.linepos, breakLines_append]
  · rw [htu.contents, hst.linelen, hst.linepos, hst.contents, breakLines_append, List.append_assoc]

/-- The partial byte is written over before it counts. -/
theorem Emits.put {s t : ZCodeBase64Encode} {cs : List UInt8} (h : Emits s t cs) (b : UInt8) :
    Emits s (encodePut b t) cs :=
  ⟨h.phase, h.linelen, h.linepos, (put_contents b t.super).trans h.contents, h.errors⟩

theorem putCrlf_contents (c : ZCode) : (putCrlf c).contents = c.contents ++ [13, 10] := by
  simp [putCrlf]

theorem encodeFix_emits (closure : Bool) (s : ZCodeBase64Encode) :
    Emits s (encodeFix closure s)
      [if closure then 61 else char (s.super.partialByte &&& 0x3f)] := by
  have hchar := encodeChar_eq s.super.partialByte
  by_cases hlen : s.linelen = 0
  · have hfix : encodeFix closure s = { s with super :=
        (s.super.put (if closure then 61 else char (s.super.partialByte &&& 0x3f))).advance } := by
      simp only [encodeFix, hlen, ne_eq, not_true_eq_false, ↓reduceIte, hchar]
    rw [hfix]
    constructor
    · rfl
    · rfl
    · simp only [breakLines, hlen, ↓reduceIte]
    · simp only [breakLines, hlen, ↓reduceIte, advance_contents, put_contents, put_partialByte]
    · rfl
  · by_cases hfull : s.linelen ≤ s.linepos
    · have hfix : encodeFix closure s = { s with
          super := putCrlf (s.super.put
            (if closure then 61 else char (s.super.partialByte &&& 0x3f))).advance,
          linepos := 0 } := by
        simp only [encodeFix, hlen, ne_eq, not_false_eq_true, ↓reduceIte, hfull, hchar]
      rw [hfix]
      constructor
      · rfl
      · rfl
      · simp only [breakLines, hlen, ↓reduceIte, hfull]
      · simp only [breakLines, hlen, ↓reduceIte, hfull, putCrlf_contents, advance_contents,
          put_contents, put_partialByte, List.append_assoc, List.cons_append, List.nil_append]
      · rfl
    · have hfix : encodeFix closure s = { s with
          super := (s.super.put
            (if closure then 61 else char (s.super.partialByte &&& 0x3f))).advance,
          linepos := s.linepos + 1 } := by
        simp only [encodeFix, hlen, ne_eq, not_false_eq_true, ↓reduceIte, hfull, hchar]
      rw [hfix]
      constructor
      · rfl
      · rfl
      · simp only [breakLines, hlen, ↓reduceIte, hfull]
      · simp only [breakLines, hlen, ↓reduceIte, hfull, advance_contents, put_contents,
          put_partialByte]
      · rfl

/-- A character made in the partial byte and completed. -/
theorem encodeFix_put (b : UInt8) {s t : ZCodeBase64Encode} {cs : List UInt8} (h : Emits s t cs) :
    Emits s (encodeFix false (encodePut b t)) (cs ++ [char (b &&& 0x3f)]) := by
  have hfix := encodeFix_emits false (encodePut b t)
  have hbits : (encodePut b t).super.partialByte = b := put_partialByte b t.super
  rw [hbits] at hfix
  exact (h.put b).trans hfix

theorem encodeFix_pad {s t : ZCodeBase64Encode} {cs : List UInt8} (h : Emits s t cs) :
    Emits s (encodeFix true t) (cs ++ [pad]) :=
  h.trans (encodeFix_emits true t)

theorem Emits.refl (s : ZCodeBase64Encode) : Emits s s [] :=
  ⟨rfl, rfl, rfl, (List.append_nil _).symm, rfl⟩

/-- A round of the loop is a step of the encoder if it adds the characters of
the byte and leaves the bits behind them. -/
theorem step_of_emits {s t : ZCodeBase64Encode} {b : UInt8} {phase : Nat}
    (h : Emits s t (letters b (encodeView s).1).1)
    (hphase : (letters b (encodeView s).1).2 = pending t.super.partialByte phase) :
    encodeStep s.linelen b (encodeView s) =
      some ((breakLines s.linelen (letters b (encodeView s).1).1 s.linepos).1,
        encodeView { t with phase := phase }) := by
  simp only [encodeStep, hphase]
  simp only [encodeView, h.linepos]

theorem encoding_phase {linelen : Nat} {s : ZCodeBase64Encode} (hs : Encoding linelen s) :
    s.phase = 0 ∨ s.phase = 1 ∨ s.phase = 2 := by
  have hle := hs.phase
  omega

theorem encodeByte_emits {linelen : Nat} {s : ZCodeBase64Encode} (hs : Encoding linelen s) (b : UInt8) :
    ∃ t, encodeByte s b = { t with phase := (s.phase + 1) % 3 } ∧
      Emits s t (letters b (encodeView s).1).1 ∧
      (letters b (encodeView s).1).2 = pending t.super.partialByte ((s.phase + 1) % 3) := by
  rcases encoding_phase hs with hphase | hphase | hphase
  · have h := (encodeFix_put (b >>> 2) (Emits.refl s)).put ((b &&& 0x03) <<< 4)
    rw [six_of_lt (high_lt b)] at h
    have hview : (encodeView s).1 = .start := by rw [encodeView, hphase]; rfl
    rw [hview, hphase]
    refine ⟨_, ?_, h, ?_⟩
    · simp only [encodeByte, hphase]
      rw [h.phase, hphase]
    · rw [encodePut, put_partialByte]
      rfl
  · have h := (encodeFix_put (s.super.partialByte ||| b >>> 4) (Emits.refl s)).put ((b &&& 0x0f) <<< 2)
    have hview : (encodeView s).1 = .one s.super.partialByte := by rw [encodeView, hphase]; rfl
    rw [hview, hphase]
    refine ⟨_, ?_, h, ?_⟩
    · simp only [encodeByte, hphase]
      rw [h.phase, hphase]
    · rw [encodePut, put_partialByte]
      rfl
  · have h := encodeFix_put (b &&& 0x3f)
      (encodeFix_put (s.super.partialByte ||| b >>> 6) (Emits.refl s))
    rw [six_of_lt (six_lt b)] at h
    have hview : (encodeView s).1 = .two s.super.partialByte := by rw [encodeView, hphase]; rfl
    rw [hview, hphase]
    refine ⟨_, ?_, h, rfl⟩
    simp only [encodeByte, hphase]
    rw [h.phase, hphase]

variable (grow : Nat → Nat → Nat)

abbrev Encoded (linelen : Nat) (s t : ZCodeBase64Encode) (out : List UInt8) (v : Pending × Nat) : Prop :=
  Passes (encoder grow) (Encoding linelen) encodeView s t [] out v

theorem encodeByte_encoded {linelen : Nat} {s : ZCodeBase64Encode} (hs : Encoding linelen s) (b : UInt8)
    {out : List UInt8} {v : Pending × Nat} (h : encodeStep linelen b (encodeView s) = some (out, v)) :
    Encoded grow linelen s (encodeByte s b) out v := by
  obtain ⟨t, ht, hemits, hbits⟩ := encodeByte_emits hs b
  have hstep := step_of_emits hemits hbits
  rw [hs.linelen, h] at hstep
  simp only [Option.some.injEq, Prod.mk.injEq] at hstep
  obtain ⟨rfl, rfl⟩ := hstep
  rw [ht]
  refine ⟨⟨?_, hemits.linelen.trans hs.linelen⟩, rfl, ?_, hemits.errors⟩
  · have hlt := Nat.mod_lt (s.phase + 1) (by decide : 0 < 3)
    change (s.phase + 1) % 3 ≤ 2
    omega
  · have hcontents := hemits.contents
    rw [hs.linelen] at hcontents
    exact hcontents

/-- The loop of the encoder over the bytes of a call. -/
theorem encodeLoop_encoded {linelen : Nat} (bytes : List UInt8) {s : ZCodeBase64Encode}
    (hs : Encoding linelen s) {out : List UInt8} {v : Pending × Nat}
    (h : runOut (encodeStep linelen) bytes (encodeView s) = some (out, v)) :
    Encoded grow linelen s (bytes.foldl encodeByte s) out v := by
  induction bytes generalizing s out with
  | nil =>
      cases h
      exact ⟨hs, rfl, (List.append_nil _).symm, rfl⟩
  | cons b bytes ih =>
      obtain ⟨first, w, rest, hfirst, hrest, rfl⟩ := runOut_cons_inv h
      have hbyte := encodeByte_encoded grow hs b hfirst
      have hmore := ih hbyte.inv (hbyte.view ▸ hrest)
      refine ⟨hmore.inv, hmore.view, ?_, hmore.errors.trans hbyte.errors⟩
      have hcontents : (encodeByte s b).super.contents = s.super.contents ++ first := hbyte.contents
      have hcontents' : (bytes.foldl encodeByte (encodeByte s b)).super.contents =
          (encodeByte s b).super.contents ++ rest := hmore.contents
      change (bytes.foldl encodeByte (encodeByte s b)).super.contents =
        s.super.contents ++ (first ++ rest)
      rw [hcontents', hcontents, List.append_assoc]

theorem runOut_encodeStep (linelen : Nat) (bytes : List UInt8) (v : Pending × Nat) :
    ∃ p, runOut (encodeStep linelen) bytes v = some p := by
  induction bytes generalizing v with
  | nil => exact ⟨_, rfl⟩
  | cons b bytes ih =>
      obtain ⟨p, hp⟩ := ih ((letters b v.1).2, (breakLines linelen (letters b v.1).1 v.2).2)
      have hstep : encodeStep linelen b v = some ((breakLines linelen (letters b v.1).1 v.2).1,
          ((letters b v.1).2, (breakLines linelen (letters b v.1).1 v.2).2)) := rfl
      exact ⟨_, by rw [runOut_cons hstep, hp]; rfl⟩

/-- What encodeFinish does for the phase. -/
def encodeLast (self : ZCodeBase64Encode) : ZCodeBase64Encode :=
  match self.phase with
  | 1 => encodeFix true (encodeFix true (encodeFix false (encodePut (self.super.partialByte &&& 0x30) self)))
  | 2 => encodeFix true (encodeFix false (encodePut (self.super.partialByte &&& 0x3c) self))
  | _ => self

theorem encodeLast_emits {linelen : Nat} {s : ZCodeBase64Encode} (hs : Encoding linelen s) :
    Emits s (encodeLast s) (lastLetters (encodeView s).1) := by
  rcases encoding_phase hs with hphase | hphase | hphase
  · simp only [encodeLast, encodeView, hphase]
    exact Emits.refl s
  · have hlt : s.super.partialByte &&& 0x30 < 64 := masked_lt.1
    have h := encodeFix_pad (encodeFix_pad (encodeFix_put (s.super.partialByte &&& 0x30) (Emits.refl s)))
    rw [six_of_lt hlt] at h
    simp only [encodeLast, encodeView, hphase]
    exact h
  · have hlt : s.super.partialByte &&& 0x3c < 64 := masked_lt.2
    have h := encodeFix_pad (encodeFix_put (s.super.partialByte &&& 0x3c) (Emits.refl s))
    rw [six_of_lt hlt] at h
    simp only [encodeLast, encodeView, hphase]
    exact h

theorem encodeFinish_eq (s : ZCodeBase64Encode) :
    encodeFinish s = (true, { encodeLast s with
      super := if (encodeLast s).linepos = 0 then (encodeLast s).super
        else putCrlf (encodeLast s).super
      linepos := 0
      phase := 0 }) := by
  change (true, { (if (encodeLast s).linepos ≠ 0 then
    { encodeLast s with super := putCrlf (encodeLast s).super } else encodeLast s) with
      linepos := 0, phase := 0 }) = _
  by_cases hpos : (encodeLast s).linepos = 0
  · simp only [hpos, ne_eq, not_true_eq_false, ↓reduceIte]
  · simp only [hpos, ne_eq, not_false_eq_true, ↓reduceIte]

/-- The encoder before its loop. -/
def encodeGrown (bytes : List UInt8) (s : ZCodeBase64Encode) : ZCodeBase64Encode :=
  { s with super := codeGrow grow (calculateGrowing s.super.bufUsed bytes.length s.linelen) s.super }

theorem encoder_implements (linelen : Nat) :
    Implements (encoder grow) (Encoding linelen) encodeView (encodeStep linelen) (encodeEnd linelen) where
  transform := by
    intro bytes s out v hs h
    have hgrown : Encoding linelen (encodeGrown grow bytes s) := ⟨hs.phase, hs.linelen⟩
    have hloop := encodeLoop_encoded grow bytes hgrown h
    exact ⟨_, rfl, hloop.inv, hloop.view, hloop.contents, hloop.errors⟩
  refused := by
    intro bytes s _ h
    obtain ⟨p, hp⟩ := runOut_encodeStep linelen bytes (encodeView s)
    rw [hp] at h
    cases h
  finish := by
    intro s out v hs h
    have hemits := encodeLast_emits hs
    cases h
    refine ⟨_, encodeFinish_eq s, ⟨Nat.zero_le 2, hemits.linelen.trans hs.linelen⟩, rfl, ?_, ?_⟩
    · have hcontents := hemits.contents
      have hpos := hemits.linepos
      rw [hs.linelen] at hcontents hpos
      by_cases hzero : (encodeLast s).linepos = 0
      · have hn : (breakLines linelen (lastLetters (encodeView s).1) (encodeView s).2).2 = 0 :=
          hpos.symm.trans hzero
        simp only [hzero, ↓reduceIte, hn, closeLine, List.append_nil, List.nil_append]
        exact hcontents
      · have hn : (breakLines linelen (lastLetters (encodeView s).1) (encodeView s).2).2 ≠ 0 :=
          fun h => hzero (hpos.trans h)
        simp only [hzero, ↓reduceIte, hn, closeLine, List.nil_append]
        change (putCrlf (encodeLast s).super).contents = _
        rw [putCrlf_contents, hcontents, List.append_assoc]
        rfl
    · by_cases hzero : (encodeLast s).linepos = 0
      · simp only [hzero, ↓reduceIte]
        exact hemits.errors
      · simp only [hzero, ↓reduceIte]
        exact hemits.errors
  unfinished := by
    intro s _ h
    cases h
  super := fun _ _ => rfl
  read := by
    intro c s hs hpart
    refine ⟨⟨hs.phase, hs.linelen⟩, ?_⟩
    have hpart : c.partialByte = s.super.partialByte := hpart
    simp only [encodeView, encoder, hpart]

/-- The text that each message of a session is encoded to. -/
theorem session_texts (linelen : Nat) (enc : List (List CodeOp)) :
    ∃ texts : List (List UInt8),
      List.Forall₂ (fun ops text => message (encodeStep linelen) (encodeEnd linelen) (input ops)
        (.start, 0) = some (text, (.start, 0))) enc texts ∧
      List.Forall₂ (fun text bytes => message decode decodeEnd text .start = some (bytes, .start))
        texts (enc.map input) := by
  induction enc with
  | nil => exact ⟨[], .nil, .nil⟩
  | cons ops enc ih =>
      obtain ⟨text, hencode, hdecode⟩ := decode_encoded linelen (input ops)
      obtain ⟨texts, hencodes, hdecodes⟩ := ih
      exact ⟨text :: texts, .cons hencode hencodes, .cons hdecode hdecodes⟩

theorem encodeNew_encoding (bufsize : Int) (linelen : Nat) :
    Encoding linelen (encodeNew bufsize linelen) :=
  ⟨Nat.zero_le 2, rfl⟩

/-- The messages that are encoded by one encoder come back from one decoder,
whatever the calls in which the bytes are given and the results read. -/
theorem encoded_session (growEncode growDecode : Nat → Nat → Nat) (bufsizeEncode bufsizeDecode : Int)
    (linelen : Nat) (enc dec : List (List CodeOp))
    (h : dec.map input = (session (encoder growEncode) enc (encodeNew bufsizeEncode linelen)).2.1) :
    ∃ texts readEncode s readDecode t,
      session (encoder growEncode) enc (encodeNew bufsizeEncode linelen) =
        (true, texts, readEncode, s) ∧
      readEncode ++ s.super.contents = texts.flatten ∧
      session (decoder growDecode) dec (decodeNew bufsizeDecode false) =
        (true, enc.map input, readDecode, t) ∧
      readDecode ++ t.super.contents = (enc.map input).flatten ∧
      t.super.errorCounter = 0 := by
  obtain ⟨texts, hencodes, hdecodes⟩ := session_texts linelen enc
  obtain ⟨readEncode, s, hs, hpassEncode⟩ :=
    session_accepted (encoder_implements growEncode linelen) enc texts hencodes
      (encodeNew_encoding bufsizeEncode linelen) rfl
  rw [hs] at h
  have hmessages : List.Forall₂ (fun ops bytes =>
      message decode decodeEnd (input ops) .start = some (bytes, .start)) dec (enc.map input) := by
    have hinputs : dec.map input = texts := h
    rw [← hinputs] at hdecodes
    exact List.forall₂_map_left_iff.mp hdecodes
  obtain ⟨readDecode, t, ht, hpassDecode⟩ :=
    session_accepted (decoder_implements growDecode) dec (enc.map input) hmessages
      (decodeNew_strict bufsizeDecode) rfl
  exact ⟨texts, readEncode, s, readDecode, t, hs, hpassEncode.contents, ht, hpassDecode.contents,
    hpassDecode.errors⟩

/-- Two messages, with lines of four characters and results read in between. -/
theorem encoded_session_lines :
    ∃ texts readEncode s readDecode t,
      session (encoder max) [[.transform [77], .getResult 1, .transform [97, 110, 33]], [.transform [0]]]
          (encodeNew 4 4) = (true, texts, readEncode, s) ∧
      readEncode ++ s.super.contents = texts.flatten ∧
      session (decoder max) [[.transform [84, 87, 70, 117, 73], .getResult 2,
          .transform [13, 10, 81, 61, 61, 13, 10]], [.transform [65, 65, 61, 61, 13, 10]]]
          (decodeNew 1 false) = (true, [[77, 97, 110, 33], [0]], readDecode, t) ∧
      readDecode ++ t.super.contents = [77, 97, 110, 33, 0] ∧
      t.super.errorCounter = 0 :=
  encoded_session max max 4 1 4 _ _ (by decide +kernel)

end Libzorpll.Base64RoundTrip
