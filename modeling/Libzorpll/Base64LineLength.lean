import Libzorpll.Base64RoundTrip

/-! The lines of the encoder are one character longer than asked. -/

namespace Libzorpll.Base64LineLength

open Transducer Base64 Base64Lines Base64RoundTrip Code CodeBase64

/-- Lines each ended by CR LF, of `len` characters apart from the last one, which
is not empty and not longer. -/
def LineFormat (len : Nat) (out : List UInt8) : Prop :=
  ∃ lines : List (List UInt8), out = lines.flatMap (· ++ [13, 10]) ∧
    (∀ line ∈ lines, 13 ∉ line ∧ 10 ∉ line) ∧
    (∀ line ∈ lines.dropLast, line.length = len) ∧
    ∀ line ∈ lines.getLast?, 1 ≤ line.length ∧ line.length ≤ len

/-- What a message of the encoder is made of, from the characters for it. -/
def wrap (linelen : Nat) (cs : List UInt8) : List UInt8 :=
  (breakLines linelen cs 0).1 ++ closeLine (breakLines linelen cs 0).2

theorem lineFormat_nil (len : Nat) : LineFormat len [] :=
  ⟨[], rfl, List.forall_mem_nil _, List.forall_mem_nil _, by simp⟩

theorem lineFormat_single {len : Nat} {line : List UInt8} (hplain : 13 ∉ line ∧ 10 ∉ line)
    (hlen : 1 ≤ line.length ∧ line.length ≤ len) : LineFormat len (line ++ [13, 10]) :=
  ⟨[line], by simp, by simp [hplain], by simp, by simp [hlen]⟩

theorem lineFormat_cons {len : Nat} {line out : List UInt8} (hplain : 13 ∉ line ∧ 10 ∉ line)
    (hlen : line.length = len) (hpos : 0 < len) (h : LineFormat len out) :
    LineFormat len (line ++ [13, 10] ++ out) := by
  obtain ⟨lines, rfl, hlines, hwhole, hlast⟩ := h
  cases lines with
  | nil =>
      rw [List.flatMap_nil, List.append_nil]
      exact lineFormat_single hplain ⟨by omega, by omega⟩
  | cons next lines =>
      refine ⟨line :: next :: lines, by simp, ?_, ?_, hlast⟩
      · exact List.forall_mem_cons.mpr ⟨hplain, hlines⟩
      · rw [List.dropLast_cons_cons]
        exact List.forall_mem_cons.mpr ⟨hlen, hwhole⟩

/-- The first line ends before the first CR. -/
theorem lineFormat_first {len : Nat} {out : List UInt8} (h : LineFormat len out) :
    (out.takeWhile (· ≠ 13)).length ≤ len := by
  obtain ⟨lines, rfl, hlines, hwhole, hlast⟩ := h
  cases lines with
  | nil => simp
  | cons line lines =>
      have hline : ∀ c ∈ line, decide (c ≠ 13) = true := by
        intro c hc
        rw [decide_eq_true_eq]
        rintro rfl
        exact (hlines line List.mem_cons_self).1 hc
      have hfirst : ((line :: lines).flatMap (· ++ [13, 10])).takeWhile (· ≠ 13) = line := by
        rw [List.flatMap_cons, List.append_assoc, List.takeWhile_append_of_pos hline]
        simp
      rw [hfirst]
      cases lines with
      | nil => exact (hlast line rfl).2
      | cons next lines => exact Nat.le_of_eq (hwhole line (by simp))

theorem breakLines_short {linelen : Nat} (hlen : 0 < linelen) {cs : List UInt8} {n : Nat}
    (h : n + cs.length ≤ linelen) : breakLines linelen cs n = (cs, n + cs.length) := by
  induction cs generalizing n with
  | nil => rfl
  | cons c cs ih =>
      rw [List.length_cons] at h
      have hzero : linelen ≠ 0 := by omega
      have hroom : ¬linelen ≤ n := by omega
      have hrest := ih (n := n + 1) (by omega)
      simp only [breakLines, hzero, hroom, ↓reduceIte, hrest, List.length_cons]
      rw [Nat.add_right_comm, Nat.add_assoc]

/-- A line is broken behind the character that goes beyond its length. -/
theorem breakLines_full {linelen : Nat} (hlen : 0 < linelen) {cs : List UInt8}
    (h : cs.length = linelen + 1) : breakLines linelen cs 0 = (cs ++ [13, 10], 0) := by
  have hne : cs ≠ [] := by
    rintro rfl
    cases h
  have hlast := List.dropLast_append_getLast hne
  have hinit : cs.dropLast.length = linelen := by rw [List.length_dropLast, h, Nat.add_sub_cancel]
  have hshort := @breakLines_short linelen hlen cs.dropLast 0 (by omega)
  have hzero : linelen ≠ 0 := by omega
  rw [← hlast, breakLines_append, hshort, hinit]
  simp [breakLines, hzero]

theorem wrap_short {linelen : Nat} (hlen : 0 < linelen) {cs : List UInt8} (hne : cs ≠ [])
    (h : cs.length ≤ linelen) : wrap linelen cs = cs ++ [13, 10] := by
  have hpos := List.length_pos_of_ne_nil hne
  have hzero : ¬(0 + cs.length = 0) := by omega
  rw [wrap, breakLines_short hlen (by omega), closeLine, if_neg hzero]

theorem wrap_long {linelen : Nat} (hlen : 0 < linelen) {cs : List UInt8} (h : linelen < cs.length) :
    wrap linelen cs = cs.take (linelen + 1) ++ [13, 10] ++ wrap linelen (cs.drop (linelen + 1)) := by
  have hfull := @breakLines_full linelen hlen (cs.take (linelen + 1)) (by rw [List.length_take]; omega)
  have hall : breakLines linelen cs 0 = _ :=
    (congrArg (breakLines linelen · 0) (List.take_append_drop (linelen + 1) cs).symm).trans
      (breakLines_append linelen _ _ 0)
  rw [wrap, hall, hfull, wrap, List.append_assoc]

/-- All the lines have one character more than asked. -/
theorem wrap_format {linelen : Nat} (hlen : 0 < linelen) (cs : List UInt8) (hplain : 13 ∉ cs ∧ 10 ∉ cs) :
    LineFormat (linelen + 1) (wrap linelen cs) := by
  induction hn : cs.length using Nat.strongRecOn generalizing cs with
  | ind n ih =>
      by_cases hne : cs = []
      · subst hne
        exact lineFormat_nil _
      · have hpos := List.length_pos_of_ne_nil hne
        by_cases hshort : cs.length ≤ linelen
        · rw [wrap_short hlen hne hshort]
          exact lineFormat_single hplain ⟨hpos, by omega⟩
        · rw [wrap_long hlen (by omega)]
          have htake : ∀ c, c ∉ cs → c ∉ cs.take (linelen + 1) := fun c h hc => h (List.mem_of_mem_take hc)
          have hdrop : ∀ c, c ∉ cs → c ∉ cs.drop (linelen + 1) := fun c h hc => h (List.mem_of_mem_drop hc)
          apply lineFormat_cons ⟨htake 13 hplain.1, htake 10 hplain.2⟩
          · rw [List.length_take]
            omega
          · omega
          · exact ih (cs.drop (linelen + 1)).length (by rw [List.length_drop]; omega) _
              ⟨hdrop 13 hplain.1, hdrop 10 hplain.2⟩ rfl

/-- The length asked is kept where one line is enough. -/
theorem wrap_format_iff {linelen : Nat} (hlen : 0 < linelen) {cs : List UInt8}
    (hplain : 13 ∉ cs ∧ 10 ∉ cs) : LineFormat linelen (wrap linelen cs) ↔ cs.length ≤ linelen := by
  constructor
  · intro h
    by_contra hlong
    have hfirst := lineFormat_first h
    have htake : ∀ c ∈ cs.take (linelen + 1), decide (c ≠ 13) = true := by
      intro c hc
      rw [decide_eq_true_eq]
      rintro rfl
      exact hplain.1 (List.mem_of_mem_take hc)
    rw [wrap_long hlen (by omega), List.append_assoc, List.takeWhile_append_of_pos htake,
      List.length_append, List.length_take] at hfirst
    omega
  · intro h
    by_cases hne : cs = []
    · subst hne
      exact lineFormat_nil _
    · rw [wrap_short hlen hne h]
      exact lineFormat_single hplain ⟨List.length_pos_of_ne_nil hne, h⟩

theorem encode_length (bytes : List UInt8) : (encode bytes).length = 4 * ((bytes.length + 2) / 3) := by
  induction bytes using encode.induct with
  | case1 => rfl
  | case2 x => simp [encode]
  | case3 x y => simp [encode]
  | case4 x y z rest ih =>
      simp only [encode, List.length_cons, ih]
      omega

theorem encode_plain (bytes : List UInt8) : 13 ∉ encode bytes ∧ 10 ∉ encode bytes := by
  constructor
  · intro h
    exact absurd (encode_visible bytes 13 h) (by decide)
  · intro h
    exact absurd (encode_visible bytes 10 h) (by decide)

variable (grow : Nat → Nat → Nat)

/-- A message adds its characters in lines to the result. -/
theorem produced_encode (bufsize : Int) (linelen : Nat) (ops : List CodeOp) :
    produced (encoder grow) ops (encodeNew bufsize linelen) = wrap linelen (encode (input ops)) := by
  have hmsg := encode_message linelen (input ops) .start 0
  rw [lettersOf_start] at hmsg
  obtain ⟨-, -, -, -, hproduced⟩ := runMessage_accepted (encoder_implements grow linelen) ops
    (encodeNew_encoding bufsize linelen) hmsg
  exact hproduced

theorem encoded_format (bufsize : Int) {linelen : Nat} (hlen : 0 < linelen) (ops : List CodeOp) :
    LineFormat (linelen + 1) (produced (encoder grow) ops (encodeNew bufsize linelen)) := by
  rw [produced_encode]
  exact wrap_format hlen _ (encode_plain _)

/-- The length of the lines is kept by the messages that fit into one of them. -/
theorem line_length_iff (bufsize : Int) {linelen : Nat} (hlen : 0 < linelen) (ops : List CodeOp) :
    (LineFormat linelen (produced (encoder grow) ops (encodeNew bufsize linelen)) ∧
      (input ops = [] → produced (encoder grow) ops (encodeNew bufsize linelen) = [])) ↔
    4 * (((input ops).length + 2) / 3) ≤ linelen := by
  rw [produced_encode, wrap_format_iff hlen (encode_plain _), encode_length]
  constructor
  · exact And.left
  · intro h
    refine ⟨h, fun hnone => ?_⟩
    rw [hnone]
    rfl

/-- Two bytes fit into a line of four characters. -/
theorem line_length_four :
    (LineFormat 4 (produced (encoder max) [.transform [1], .transform [2]] (encodeNew 0 4)) ∧
      (input [.transform [1], .transform [2]] = [] →
        produced (encoder max) [.transform [1], .transform [2]] (encodeNew 0 4) = [])) ↔
    4 * ((2 + 2) / 3) ≤ 4 :=
  line_length_iff max 0 (by decide) [.transform [1], .transform [2]]

/-- Of eight characters five are put into the first line of four. -/
theorem line_length_exceeded :
    ¬LineFormat 4 (produced (encoder max) [.transform [0, 0, 0, 0, 0, 0]] (encodeNew 0 4)) := by
  intro h
  have hfirst := lineFormat_first h
  revert hfirst
  decide +kernel

end Libzorpll.Base64LineLength
