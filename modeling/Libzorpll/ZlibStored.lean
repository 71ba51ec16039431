import Libzorpll.Transducer
import Libzorpll.ZlibContract

/-! A zlib that puts what it is given into stored blocks. -/

namespace Libzorpll.ZlibStored

open Transducer StreamGzip ZlibContract

def block (bytes : List UInt8) : List UInt8 :=
  let lo := UInt8.ofNat bytes.length
  let hi := UInt8.ofNat (bytes.length / 256)
  [0, lo, hi, ~~~lo, ~~~hi] ++ bytes

/-- The blocks for the bytes of a call. -/
def blocks (bytes : List UInt8) : List UInt8 :=
  if bytes.length < 65536 then block bytes else bytes.flatMap (fun b => block [b])

/-- The header of the stream, and behind the blocks the empty one of a flush. -/
def storedText (started : Bool) (bytes : List UInt8) : List UInt8 :=
  (if started then [] else [0x78, 0x01]) ++ blocks bytes ++ block []

structure Deflate where
  started : Bool := false
  held : List UInt8 := []

/-- The parts of a stream, with what is left of them. -/
inductive Inflate
  | header (left : Nat)
  | block
  | length (final : Bool) (got : List UInt8)
  | data (final : Bool) (left : Nat)
  | check (left : Nat)
  | done
  deriving DecidableEq

def afterData (final : Bool) (left : Nat) : Inflate :=
  if 0 < left then .data final left else if final then .check 4 else .block

def feed (b : UInt8) : Inflate → Option (List UInt8 × Inflate)
  | .header left => some ([], if left ≤ 1 then .block else .header (left - 1))
  | .block => if b = 0 ∨ b = 1 then some ([], .length (b = 1) []) else none
  | .length final got =>
      if got.length < 3 then some ([], .length final (got ++ [b]))
      else some ([], afterData final ((got.getD 0 0).toNat + 256 * (got.getD 1 0).toNat))
  | .data final left => some ([b], afterData final (left - 1))
  | .check left => some ([], if left ≤ 1 then .done else .check (left - 1))
  | .done => none

def storedDeflate (input : List UInt8) (space : Nat) (z : Deflate) : ZCall Deflate :=
  let all := z.held ++ if input = [] then [] else storedText z.started input
  { ret := if input = [] ∧ all.take space = [] then .bufError else .ok
    consumed := input.length
    output := all.take space
    state := { started := z.started || input ≠ [], held := all.drop space } }

/-- Bytes are taken while there is space for what they give. -/
def storedRun : List UInt8 → Nat → Inflate → ZCall Inflate
  | [], _, x => { ret := if x = .done then .streamEnd else .ok, consumed := 0, output := [], state := x }
  | b :: input, space, x =>
      if x = .done then { ret := .streamEnd, consumed := 0, output := [], state := x }
      else
        match feed b x with
        | none => { ret := .error, consumed := 0, output := [], state := x }
        | some (out, y) =>
            if space < out.length then { ret := .ok, consumed := 0, output := [], state := x }
            else
              let c := storedRun input (space - out.length) y
              { c with consumed := c.consumed + 1, output := out ++ c.output }

def storedInflate (input : List UInt8) (space : Nat) (x : Inflate) : ZCall Inflate :=
  let c := storedRun input space x
  if c.ret = .ok ∧ c.consumed = 0 then { c with ret := .bufError } else c

theorem feed_length {b : UInt8} {x y : Inflate} {out : List UInt8} (h : feed b x = some (out, y)) :
    out.length ≤ 1 := by
  cases x with
  | header left => cases h; simp
  | block =>
      simp only [feed] at h
      split at h
      · cases h; simp
      · cases h
  | length final got =>
      simp only [feed] at h
      split at h
      · cases h; simp
      · cases h; simp
  | data final left => cases h; simp
  | check left => cases h; simp
  | done => cases h

theorem storedRun_bounds (input : List UInt8) (space : Nat) (x : Inflate) :
    (storedRun input space x).consumed ≤ input.length ∧
      (storedRun input space x).output.length ≤ space ∧
      ((storedRun input space x).consumed = 0 → (storedRun input space x).output = []) ∧
      ((storedRun input space x).ret = .streamEnd ↔ (storedRun input space x).state = .done) := by
  induction input generalizing space x with
  | nil => by_cases hdone : x = .done <;> simp [storedRun, hdone]
  | cons b input ih =>
      by_cases hdone : x = .done
      · simp [storedRun, hdone]
      · cases hfeed : feed b x with
        | none => simp [storedRun, hdone, hfeed]
        | some p =>
            obtain ⟨out, y⟩ := p
            by_cases hfull : space < out.length
            · simp [storedRun, hdone, hfeed, hfull]
            · obtain ⟨hconsumed, houtput, -, hend⟩ := ih (space - out.length) y
              have hrun : storedRun (b :: input) space x =
                  { storedRun input (space - out.length) y with
                    consumed := (storedRun input (space - out.length) y).consumed + 1
                    output := out ++ (storedRun input (space - out.length) y).output } := by
                simp only [storedRun, hdone, hfeed, hfull, ↓reduceIte]
              rw [hrun]
              refine ⟨?_, ?_, ?_, hend⟩
              · simp only [List.length_cons]
                omega
              · simp only [List.length_append]
                omega
              · simp

theorem storedInflate_fields (input : List UInt8) (space : Nat) (x : Inflate) :
    (storedInflate input space x).consumed = (storedRun input space x).consumed ∧
      (storedInflate input space x).output = (storedRun input space x).output ∧
      (storedInflate input space x).state = (storedRun input space x).state ∧
      ((storedInflate input space x).ret = .streamEnd ↔ (storedRun input space x).ret = .streamEnd) := by
  by_cases hstuck : (storedRun input space x).ret = .ok ∧ (storedRun input space x).consumed = 0
  · simp [storedInflate, hstuck]
  · simp [storedInflate, hstuck]

def zlib : Zlib Deflate Inflate where
  deflate := fun _ input space z => storedDeflate input space z
  deflateEnd := fun _ => .ok
  inflate := storedInflate
  inflateEnd := fun _ => .ok
  deflate_consumed := fun _ _ _ _ => Nat.le_refl _
  deflate_output := fun _ _ _ _ => List.length_take_le _ _
  inflate_consumed := fun input space x => by
    rw [(storedInflate_fields input space x).1]
    exact (storedRun_bounds input space x).1
  inflate_output := fun input space x => by
    rw [(storedInflate_fields input space x).2.1]
    exact (storedRun_bounds input space x).2.1

theorem progresses : Progresses zlib (fun z => z.held.length) (fun _ => 0) (· = .done) where
  deflate_progress := by
    intro input space z hok hnone
    have hinput : input = [] := List.length_eq_zero_iff.mp hnone
    intro hempty
    simp only [zlib, storedDeflate] at hok hempty
    rw [if_pos ⟨hinput, hempty⟩] at hok
    cases hok
  deflate_held := by
    intro input space z hnone
    have hinput : input = [] := List.length_eq_zero_iff.mp hnone
    simp only [zlib, storedDeflate, hinput, ↓reduceIte, List.append_nil, List.length_drop,
      List.length_take]
    omega
  deflate_open := by
    intro input space z hend
    rcases ite_eq_or_eq (input = [] ∧ (zlib.deflate .syncFlush input space z).output = []) ZRet.bufError
      ZRet.ok with h | h
    · cases h.symm.trans hend
    · cases h.symm.trans hend
  inflate_progress := by
    intro input space x _ hok hnone
    exfalso
    simp only [zlib, storedInflate] at hok hnone
    split at hok
    · cases hok
    · rename_i hstuck
      rw [if_neg hstuck] at hnone
      exact hstuck ⟨hok, hnone⟩
  inflate_owed := by
    intro input space x hnone
    obtain ⟨hconsumed, houtput, -, -⟩ := storedInflate_fields input space x
    have hzero : (storedRun input space x).consumed = 0 := hconsumed.symm.trans hnone
    have hempty := (storedRun_bounds input space x).2.2.1 hzero
    simp only [zlib, houtput, hempty, List.length_nil, Nat.le_refl]
  inflate_open := by
    intro input space x _ hopen hdone
    obtain ⟨-, -, hstate, hret⟩ := storedInflate_fields input space x
    exact hopen (hret.mpr ((storedRun_bounds input space x).2.2.2.mpr (hstate.symm.trans hdone)))
  inflate_end := by
    intro input space x hend
    obtain ⟨-, -, hstate, hret⟩ := storedInflate_fields input space x
    exact hstate.trans ((storedRun_bounds input space x).2.2.2.mp (hret.mp hend))
  inflate_ended := by
    rintro input space x rfl
    cases input <;> exact ⟨rfl, rfl, rfl⟩

/-! Its streams -/

theorem afterData_false (n : Nat) : afterData false n = if 0 < n then .data false n else .block := rfl

theorem feed_data (bytes : List UInt8) :
    runOut feed bytes (afterData false bytes.length) = some (bytes, .block) := by
  induction bytes with
  | nil => rfl
  | cons b bytes ih =>
      have hfeed : feed b (afterData false (b :: bytes).length) = some ([b], afterData false bytes.length) := by
        simp [afterData_false, feed]
      rw [runOut_cons hfeed, ih]
      rfl

theorem feed_block {bytes : List UInt8} (h : bytes.length < 65536) :
    runOut feed (block bytes) .block = some (bytes, .block) := by
  have hlen : (UInt8.ofNat bytes.length).toNat + 256 * (UInt8.ofNat (bytes.length / 256)).toNat =
      bytes.length := by
    simp only [UInt8.toNat_ofNat']
    omega
  have hheader : ∀ lo hi a b : UInt8, lo.toNat + 256 * hi.toNat = bytes.length →
      runOut feed ([0, lo, hi, a, b] ++ bytes) .block = some (bytes, .block) := by
    intro lo hi a b hn
    have hrun : runOut feed [0, lo, hi, a, b] .block = some ([], afterData false bytes.length) := by
      rw [← hn]
      rfl
    rw [runOut_append, hrun, Option.bind_some, feed_data]
    rfl
  exact hheader _ _ _ _ hlen

theorem feed_blocks (bytes : List UInt8) : runOut feed (blocks bytes) .block = some (bytes, .block) := by
  by_cases hlen : bytes.length < 65536
  · rw [blocks, if_pos hlen]
    exact feed_block hlen
  · rw [blocks, if_neg hlen]
    clear hlen
    induction bytes with
    | nil => rfl
    | cons b bytes ih =>
        rw [List.flatMap_cons, runOut_append, feed_block (by simp), Option.bind_some, ih]
        rfl

theorem feed_text (started : Bool) (bytes : List UInt8) :
    runOut feed (storedText started bytes) (if started then .block else .header 2) =
      some (bytes, .block) := by
  have hempty : runOut feed (block []) .block = some ([], .block) := feed_block (by decide)
  have hrest : runOut feed (blocks bytes ++ block []) .block = some (bytes, .block) := by
    rw [runOut_append, feed_blocks, Option.bind_some, hempty]
    simp
  cases started with
  | true => exact hrest
  | false =>
      have hheader : runOut feed [0x78, 0x01] (.header 2) = some ([], .block) := rfl
      rw [storedText, List.append_assoc]
      simp only [Bool.false_eq_true, ↓reduceIte]
      rw [runOut_append, hheader, Option.bind_some, hrest]
      rfl

/-- The text of a stream, taken or held back, stands for what was given. -/
def Deflating (z : Deflate) (given taken : List UInt8) : Prop :=
  runOut feed (taken ++ z.held) (.header 2) = some (given, if z.started then .block else .header 2) ∧
    (z.started = false → taken ++ z.held = [])

def Inflating (x : Inflate) (fed gave : List UInt8) : Prop :=
  runOut feed fed (.header 2) = some (gave, x)

def Stands (text bytes : List UInt8) : Prop := runOut feed text (.header 2) = some (bytes, .block)

theorem feed_open {text out : List UInt8} {x : Inflate} (h : runOut feed text x = some (out, .block)) :
    x ≠ .done := by
  rintro rfl
  cases text with
  | nil => cases h
  | cons b text => cases h

/-- The run over a beginning of the rest of a stream. -/
theorem storedRun_valid {input rest out : List UInt8} {x : Inflate} (space : Nat)
    (h : runOut feed (input ++ rest) x = some (out, .block)) :
    (storedRun input space x).ret = .ok ∧
      runOut feed (input.take (storedRun input space x).consumed) x =
        some ((storedRun input space x).output, (storedRun input space x).state) ∧
      ((storedRun input space x).output.length < space →
        (storedRun input space x).consumed = input.length) ∧
      (input ≠ [] → 0 < space → (storedRun input space x).consumed ≠ 0) := by
  induction input generalizing space x out with
  | nil =>
      have hopen := feed_open h
      simp [storedRun, hopen, runOut]
  | cons b input ih =>
      have hopen := feed_open h
      obtain ⟨o, y, more, hfeed, hmore, -⟩ := runOut_cons_inv h
      have hone := feed_length hfeed
      by_cases hfull : space < o.length
      · have hrun : storedRun (b :: input) space x = { ret := .ok, consumed := 0, output := [], state := x } := by
          simp only [storedRun, hopen, hfeed, hfull, ↓reduceIte]
        rw [hrun]
        refine ⟨rfl, rfl, ?_, ?_⟩
        · intro hlt
          have hlt : 0 < space := hlt
          omega
        · intro _ hpos
          omega
      · have hrun : storedRun (b :: input) space x =
            { storedRun input (space - o.length) y with
              consumed := (storedRun input (space - o.length) y).consumed + 1
              output := o ++ (storedRun input (space - o.length) y).output } := by
          simp only [storedRun, hopen, hfeed, hfull, ↓reduceIte]
        obtain ⟨hret, htake, hall, -⟩ := ih (space - o.length) hmore
        rw [hrun]
        refine ⟨hret, ?_, ?_, ?_⟩
        · rw [List.take_succ_cons, runOut_cons hfeed, htake]
          rfl
        · intro hlt
          rw [List.length_append] at hlt
          rw [hall (by omega), List.length_cons]
        · intro _ _
          exact Nat.succ_ne_zero _

/-- What is left of a stream is taken from where inflate is. -/
theorem inflating_rest {x : Inflate} {fed gave input rest given : List UInt8} {z : Deflate}
    (hfed : Inflating x fed gave) (hz : Deflating z given (fed ++ input ++ rest)) (hinput : input ≠ []) :
    ∃ out, runOut feed (input ++ (rest ++ z.held)) x = some (out, .block) := by
  obtain ⟨htext, hnone⟩ := hz
  have hstarted : z.started = true := by
    cases hstarted : z.started with
    | true => rfl
    | false =>
        have hempty := hnone hstarted
        simp only [List.append_eq_nil_iff] at hempty
        exact absurd hempty.1.1.2 hinput
  have hfed : runOut feed fed (.header 2) = some (gave, x) := hfed
  rw [hstarted, List.append_assoc, List.append_assoc, runOut_append, hfed, Option.bind_some] at htext
  obtain ⟨⟨out, y⟩, hout, heq⟩ := Option.map_eq_some_iff.mp htext
  cases heq
  exact ⟨out, hout⟩

theorem inflating_next {x : Inflate} {fed gave input rest given : List UInt8} {z : Deflate} (space : Nat)
    (hfed : Inflating x fed gave) (hz : Deflating z given (fed ++ input ++ rest)) (hinput : input ≠ []) :
    Inflating (storedInflate input space x).state (fed ++ input.take (storedInflate input space x).consumed)
        (gave ++ (storedInflate input space x).output) ∧
      ((storedInflate input space x).output.length < space →
        (storedInflate input space x).consumed = input.length) ∧
      (0 < space → (storedInflate input space x).ret = .ok) := by
  obtain ⟨out, hout⟩ := inflating_rest hfed hz hinput
  obtain ⟨hret, htake, hall, hsome⟩ := storedRun_valid space hout
  obtain ⟨hconsumed, houtput, hstate, -⟩ := storedInflate_fields input space x
  have hfed : runOut feed fed (.header 2) = some (gave, x) := hfed
  rw [hconsumed, houtput, hstate]
  refine ⟨?_, hall, ?_⟩
  · rw [Inflating, runOut_append, hfed, Option.bind_some, htake]
    rfl
  · intro hspace
    have hgoes : ¬((storedRun input space x).ret = .ok ∧ (storedRun input space x).consumed = 0) :=
      fun h => hsome hinput hspace h.2
    rw [storedInflate, if_neg hgoes]
    exact hret

theorem lossless : Lossless zlib {} (.header 2) Deflating Inflating Stands where
  deflate_start := ⟨rfl, fun _ => rfl⟩
  deflate_next := by
    rintro input space z given taken ⟨htext, hnone⟩ -
    have hconsumed : (zlib.deflate .syncFlush input space z).consumed = input.length := rfl
    have hall : (taken ++ (zlib.deflate .syncFlush input space z).output) ++
        (zlib.deflate .syncFlush input space z).state.held =
        (taken ++ z.held) ++ if input = [] then [] else storedText z.started input := by
      simp [zlib, storedDeflate, List.append_assoc]
    have hstarted : (zlib.deflate .syncFlush input space z).state.started =
        (z.started || decide (input ≠ [])) := rfl
    rw [hconsumed, List.take_length]
    refine ⟨?_, fun hfalse => ?_⟩
    · rw [hall, hstarted]
      by_cases hinput : input = []
      · simp only [hinput, ↓reduceIte, List.append_nil, ne_eq, not_true_eq_false, decide_false,
          Bool.or_false]
        exact htext
      · simp only [hinput, ↓reduceIte, ne_eq, not_false_eq_true, decide_true, Bool.or_true]
        rw [runOut_append, htext, Option.bind_some, feed_text]
        rfl
    · rw [hall]
      rw [hstarted, Bool.or_eq_false_iff, decide_eq_false_iff_not, not_not] at hfalse
      rw [hnone hfalse.1, if_pos hfalse.2, List.append_nil]
  deflate_flushed := by
    rintro input space z given taken ⟨htext, -⟩ hinput - hspace
    refine ⟨rfl, ?_⟩
    have hwhole : (zlib.deflate .syncFlush input space z).output =
        z.held ++ storedText z.started input := by
      simp only [zlib, storedDeflate, hinput, ↓reduceIte, List.length_take] at hspace ⊢
      exact List.take_of_length_le (by omega)
    rw [hwhole, Stands, ← List.append_assoc, runOut_append, htext, Option.bind_some, feed_text]
    rfl
  inflate_start := rfl
  inflate_next := by
    intro input space x fed gave z given rest hfed hz hinput hspace
    obtain ⟨hnext, -, hret⟩ := inflating_next space hfed hz hinput
    exact ⟨hret hspace, hnext⟩
  inflate_complete := by
    intro input space x fed gave z given rest hfed hz hinput hspace
    obtain ⟨hnext, hall, -⟩ := inflating_next space hfed hz hinput
    have hconsumed : (zlib.inflate input space x).consumed = input.length := hall hspace
    refine ⟨hconsumed, fun bytes hbytes => ?_⟩
    have hwhole : runOut feed (fed ++ input.take (zlib.inflate input space x).consumed) (.header 2) = _ :=
      hnext
    rw [hconsumed, List.take_length] at hwhole
    have hsame := hwhole.symm.trans hbytes
    rw [Option.some.injEq, Prod.mk.injEq] at hsame
    exact hsame.1

end Libzorpll.ZlibStored
