import Libzorpll.Base64

/-! The encoder of base64 as a machine that breaks its output into lines. -/

namespace Libzorpll.Base64Lines

open Transducer Base64

/-- An encoder between two bytes, with the bits of the character it has begun. -/
inductive Pending
  | start
  | one (bits : UInt8)
  | two (bits : UInt8)
  deriving DecidableEq

/-- The characters that a byte completes. -/
def letters (b : UInt8) : Pending → List UInt8 × Pending
  | .start => ([char (b >>> 2)], .one ((b &&& 0x03) <<< 4))
  | .one bits => ([char ((bits ||| b >>> 4) &&& 0x3f)], .two ((b &&& 0x0f) <<< 2))
  | .two bits => ([char ((bits ||| b >>> 6) &&& 0x3f), char (b &&& 0x3f)], .start)

def lastLetters : Pending → List UInt8
  | .start => []
  | .one bits => [char (bits &&& 0x30), pad, pad]
  | .two bits => [char (bits &&& 0x3c), pad]

/-- A line end stands after the first character for which the line has the
length; `n` counts the characters of the line, and no lines are made for 0. -/
def breakLines (linelen : Nat) : List UInt8 → Nat → List UInt8 × Nat
  | [], n => ([], n)
  | c :: cs, n =>
      if linelen = 0 then (c :: (breakLines linelen cs n).1, (breakLines linelen cs n).2)
      else if linelen ≤ n then
        (c :: 13 :: 10 :: (breakLines linelen cs 0).1, (breakLines linelen cs 0).2)
      else (c :: (breakLines linelen cs (n + 1)).1, (breakLines linelen cs (n + 1)).2)

def closeLine (n : Nat) : List UInt8 := if n = 0 then [] else [13, 10]

def encodeStep (linelen : Nat) (b : UInt8) (s : Pending × Nat) :
    Option (List UInt8 × (Pending × Nat)) :=
  let (cs, p) := letters b s.1
  let (out, n) := breakLines linelen cs s.2
  some (out, (p, n))

def encodeEnd (linelen : Nat) (s : Pending × Nat) : Option (List UInt8 × (Pending × Nat)) :=
  let (out, n) := breakLines linelen (lastLetters s.1) s.2
  some (out ++ closeLine n, (.start, 0))

theorem breakLines_append (linelen : Nat) (cs ds : List UInt8) (n : Nat) :
    breakLines linelen (cs ++ ds) n =
      ((breakLines linelen cs n).1 ++ (breakLines linelen ds (breakLines linelen cs n).2).1,
        (breakLines linelen ds (breakLines linelen cs n).2).2) := by
  induction cs generalizing n with
  | nil => rfl
  | cons c cs ih =>
      by_cases hlen : linelen = 0
      · simp only [List.cons_append, breakLines, hlen, ↓reduceIte]
        rw [hlen] at ih
        rw [ih]
      · by_cases hfull : linelen ≤ n
        · simp only [List.cons_append, breakLines, hlen, ↓reduceIte, hfull, ih]
        · simp only [List.cons_append, breakLines, hlen, ↓reduceIte, hfull, ih]

abbrev visible (text : List UInt8) : List UInt8 := text.filter (fun c => !isSpace c)

/-- The line ends are all that is added to the characters. -/
theorem visible_breakLines (linelen : Nat) {cs : List UInt8} (h : ∀ c ∈ cs, isSpace c = false) (n : Nat) :
    visible (breakLines linelen cs n).1 = cs := by
  induction cs generalizing n with
  | nil => rfl
  | cons c cs ih =>
      rw [List.forall_mem_cons] at h
      have hcr : isSpace 13 = true := by decide
      have hlf : isSpace 10 = true := by decide
      by_cases hlen : linelen = 0
      · simp only [breakLines, hlen, ↓reduceIte]
        rw [hlen] at ih
        simp [visible, h.1, ih h.2]
      · by_cases hfull : linelen ≤ n
        · simp only [breakLines, hlen, ↓reduceIte, hfull]
          simp [visible, h.1, hcr, hlf, ih h.2]
        · simp only [breakLines, hlen, ↓reduceIte, hfull]
          simp [visible, h.1, ih h.2]

theorem visible_closeLine (n : Nat) : visible (closeLine n) = [] := by
  by_cases hn : n = 0
  · simp [closeLine, hn]
  · simp only [closeLine, hn, ↓reduceIte]
    decide

/-- The characters of bytes from a given state on. -/
def lettersOf : List UInt8 → Pending → List UInt8
  | [], p => lastLetters p
  | b :: bytes, p => (letters b p).1 ++ lettersOf bytes (letters b p).2

/-- A message is its characters broken into lines. -/
theorem encode_message (linelen : Nat) (bytes : List UInt8) (p : Pending) (n : Nat) :
    message (encodeStep linelen) (encodeEnd linelen) bytes (p, n) =
      some ((breakLines linelen (lettersOf bytes p) n).1 ++
        closeLine (breakLines linelen (lettersOf bytes p) n).2, (.start, 0)) := by
  induction bytes generalizing p n with
  | nil => rfl
  | cons b bytes ih =>
      have hstep : encodeStep linelen b (p, n) = some ((breakLines linelen (letters b p).1 n).1,
          ((letters b p).2, (breakLines linelen (letters b p).1 n).2)) := rfl
      have hrest := ih (letters b p).2 (breakLines linelen (letters b p).1 n).2
      obtain ⟨⟨out, t⟩, hrun, hend⟩ := Option.bind_eq_some_iff.mp hrest
      obtain ⟨⟨more, u⟩, hmore, heq⟩ := Option.map_eq_some_iff.mp hend
      rw [message, runOut_cons hstep, hrun, Option.map_some, Option.bind_some, hmore, Option.map_some,
        lettersOf, breakLines_append]
      simp only [Option.some.injEq, Prod.mk.injEq] at heq ⊢
      refine ⟨?_, heq.2⟩
      rw [List.append_assoc, heq.1, List.append_assoc]

theorem six_of_lt {v : UInt8} (h : v < 64) : v &&& 0x3f = v := by
  revert h
  exact forall_byte (P := fun v => v < 64 → v &&& 0x3f = v) (by decide +kernel) v

theorem low_bits (x : UInt8) : ((x &&& 0x03) <<< 4 : UInt8) &&& (0x30 : UInt8) = (x &&& 0x03) <<< 4 :=
  forall_byte (P := fun x => ((x &&& 0x03) <<< 4 : UInt8) &&& (0x30 : UInt8) = (x &&& 0x03) <<< 4)
    (by decide +kernel) x

theorem middle_bits (x : UInt8) : ((x &&& 0x0f) <<< 2 : UInt8) &&& (0x3c : UInt8) = (x &&& 0x0f) <<< 2 :=
  forall_byte (P := fun x => ((x &&& 0x0f) <<< 2 : UInt8) &&& (0x3c : UInt8) = (x &&& 0x0f) <<< 2)
    (by decide +kernel) x

theorem lettersOf_start (bytes : List UInt8) : lettersOf bytes .start = encode bytes := by
  induction bytes using encode.induct with
  | case1 => rfl
  | case2 x =>
      simp only [lettersOf, letters, lastLetters, encode, low_bits]
      rfl
  | case3 x y =>
      simp only [lettersOf, letters, lastLetters, encode, middle_bits, six_of_lt (second_lt x y)]
      rfl
  | case4 x y z rest ih =>
      simp only [lettersOf, letters, encode, six_of_lt (second_lt x y), six_of_lt (third_lt y z), ih]
      rfl

theorem encode_visible (bytes : List UInt8) : ∀ c ∈ encode bytes, isSpace c = false := by
  have hpad : isSpace pad = false := by decide
  induction bytes using encode.induct with
  | case1 => exact fun c hc => absurd hc List.not_mem_nil
  | case2 x =>
      simp only [encode, List.forall_mem_cons]
      exact ⟨char_visible (high_lt x), char_visible (low_lt x), hpad, hpad, List.forall_mem_nil _⟩
  | case3 x y =>
      simp only [encode, List.forall_mem_cons]
      exact ⟨char_visible (high_lt x), char_visible (second_lt x y), char_visible (middle_lt y), hpad,
        List.forall_mem_nil _⟩
  | case4 x y z rest ih =>
      simp only [encode, List.forall_mem_cons]
      exact ⟨char_visible (high_lt x), char_visible (second_lt x y), char_visible (third_lt y z),
        char_visible (six_lt z), ih⟩

/-- An encoded message is decoded to its bytes. -/
theorem decode_encoded (linelen : Nat) (bytes : List UInt8) :
    ∃ text, message (encodeStep linelen) (encodeEnd linelen) bytes (.start, 0) =
        some (text, (.start, 0)) ∧
      message decode decodeEnd text .start = some (bytes, .start) := by
  refine ⟨_, encode_message linelen bytes .start 0, ?_⟩
  apply (decode_iff _ _).mpr
  have hvisible := visible_breakLines linelen (encode_visible bytes) 0
  have hclose := visible_closeLine (breakLines linelen (encode bytes) 0).2
  have htext : visible ((breakLines linelen (encode bytes) 0).1 ++
      closeLine (breakLines linelen (encode bytes) 0).2) = encode bytes := by
    rw [visible, List.filter_append, ← visible, ← visible, hvisible, hclose, List.append_nil]
  rw [lettersOf_start, ← visible, htext]
  exact quanta_encode bytes

end Libzorpll.Base64Lines
