import Mathlib.Data.List.Forall2
import Mathlib.Logic.Function.Basic
import Libzorpll.Transducer

namespace Libzorpll.Code

open Transducer

/-- A ZCode over memory without bounds. `overrun` is set by an access to a
byte that is not in the first `bufLen`. -/
structure ZCode where
  buf : Nat → UInt8
  bufLen : Nat
  bufUsed : Nat := 0
  errorCounter : Nat := 0
  overrun : Bool := false

namespace ZCode

/-- The bytes before `n` are read or written. -/
def touch (n : Nat) (c : ZCode) : ZCode := { c with overrun := c.overrun || decide (c.bufLen < n) }

def put (b : UInt8) (c : ZCode) : ZCode :=
  { c.touch (c.bufUsed + 1) with buf := Function.update c.buf c.bufUsed b }

def advance (c : ZCode) : ZCode := { c with bufUsed := c.bufUsed + 1 }

/-- The byte behind the result, where a coder keeps what is not complete. -/
def partialByte (c : ZCode) : UInt8 := c.buf c.bufUsed

def contents (c : ZCode) : List UInt8 := (List.range c.bufUsed).map c.buf

end ZCode

def codeInit (bufsize : Int) : ZCode where
  buf := fun _ => 0
  bufLen := if bufsize ≤ 0 then 256 else bufsize.toNat

/-- The length that z_code_grow gives the buffer is a parameter, a function of
its length and the one required. -/
def codeGrow (grow : Nat → Nat → Nat) (reqlen : Nat) (c : ZCode) : ZCode :=
  { c with bufLen := grow c.bufLen reqlen }

def getResult (tolen : Nat) (c : ZCode) : List UInt8 × ZCode :=
  let res := min tolen c.bufUsed
  if 0 < res then
    let used := c.bufUsed - res
    (c.contents.take res,
      -- the byte behind the result is moved with it
      { c.touch (c.bufUsed + 1) with
        buf := fun i => if i < used + 1 then c.buf (i + res) else c.buf i
        bufUsed := used })
  else ([], c)

/-- The byte behind the result is left where it is. -/
def ungetResult (grow : Nat → Nat → Nat) (bytes : List UInt8) (c : ZCode) : ZCode :=
  if 0 < bytes.length then
    let c := codeGrow grow (c.bufUsed + bytes.length) c
    { c.touch (c.bufUsed + bytes.length) with
      buf := fun i =>
        if i < bytes.length then bytes.getD i 0
        else if i < c.bufUsed + bytes.length then c.buf (i - bytes.length)
        else c.buf i
      bufUsed := c.bufUsed + bytes.length }
  else c

def flushResult (flushLength : Nat) (c : ZCode) : ZCode :=
  if flushLength = 0 ∨ c.bufUsed < flushLength then { c with bufUsed := 0 }
  else
    let used := c.bufUsed - flushLength
    { c.touch c.bufUsed with
      buf := fun i => if i < used then c.buf (i + flushLength) else c.buf i
      bufUsed := used }

@[simp] theorem contents_length (c : ZCode) : c.contents.length = c.bufUsed := by
  simp [ZCode.contents]

theorem contents_congr {c d : ZCode} (hused : c.bufUsed = d.bufUsed)
    (h : ∀ i, i < d.bufUsed → c.buf i = d.buf i) : c.contents = d.contents := by
  rw [ZCode.contents, ZCode.contents, hused]
  apply List.map_congr_left
  intro i hi
  exact h i (List.mem_range.mp hi)

@[simp] theorem put_contents (b : UInt8) (c : ZCode) : (c.put b).contents = c.contents := by
  apply contents_congr
  · rfl
  · intro i hi
    exact Function.update_of_ne (Nat.ne_of_lt hi) _ _

@[simp] theorem put_partialByte (b : UInt8) (c : ZCode) : (c.put b).partialByte = b :=
  Function.update_self _ _ _

@[simp] theorem put_errorCounter (b : UInt8) (c : ZCode) : (c.put b).errorCounter = c.errorCounter := rfl

@[simp] theorem advance_contents (c : ZCode) : c.advance.contents = c.contents ++ [c.partialByte] := by
  simp [ZCode.contents, ZCode.advance, ZCode.partialByte, List.range_succ]

@[simp] theorem advance_errorCounter (c : ZCode) : c.advance.errorCounter = c.errorCounter := rfl

@[simp] theorem codeGrow_contents (grow : Nat → Nat → Nat) (reqlen : Nat) (c : ZCode) :
    (codeGrow grow reqlen c).contents = c.contents := rfl

@[simp] theorem codeGrow_partialByte (grow : Nat → Nat → Nat) (reqlen : Nat) (c : ZCode) :
    (codeGrow grow reqlen c).partialByte = c.partialByte := rfl

@[simp] theorem codeGrow_errorCounter (grow : Nat → Nat → Nat) (reqlen : Nat) (c : ZCode) :
    (codeGrow grow reqlen c).errorCounter = c.errorCounter := rfl

@[simp] theorem codeInit_contents (bufsize : Int) : (codeInit bufsize).contents = [] := rfl

/-- Reading takes the first bytes of the result and keeps the partial one. -/
theorem getResult_spec (tolen : Nat) (c : ZCode) :
    ∃ d, getResult tolen c = (c.contents.take tolen, d) ∧ d.contents = c.contents.drop tolen ∧
      d.partialByte = c.partialByte ∧ d.errorCounter = c.errorCounter := by
  rw [getResult]
  by_cases hres : 0 < min tolen c.bufUsed
  · simp only [hres, ↓reduceIte]
    have hle : min tolen c.bufUsed ≤ c.bufUsed := Nat.min_le_right _ _
    refine ⟨_, Prod.ext ?_ rfl, ?_, ?_, rfl⟩
    · simp [← contents_length, List.take_eq_take_iff]
    · apply List.ext_getElem?
      intro i
      by_cases hi : i < c.bufUsed - min tolen c.bufUsed
      · have hsum : i + min tolen c.bufUsed = tolen + i := by omega
        have hlt : tolen + i < c.bufUsed := by omega
        simp [ZCode.contents, hi, hsum, hlt, Nat.lt_succ_of_lt hi, Nat.le_of_lt hi]
      · have hge : ¬ tolen + i < c.bufUsed := by omega
        simp [ZCode.contents, hi, hge]
    · have hsum : c.bufUsed - min tolen c.bufUsed + min tolen c.bufUsed = c.bufUsed := by omega
      simp [ZCode.partialByte, hsum]
  · have hnone : tolen = 0 ∨ c.bufUsed = 0 := by omega
    simp only [hres, ↓reduceIte]
    refine ⟨c, Prod.ext ?_ rfl, ?_, rfl, rfl⟩
    · obtain rfl | hused := hnone
      · simp
      · simp [ZCode.contents, hused]
    · obtain rfl | hused := hnone
      · simp
      · simp [ZCode.contents, hused]

/-- Flushing drops what reading takes, but the byte behind what is left is
one of the result. -/
theorem flushResult_spec {n : Nat} {c : ZCode} (hpos : 0 < n) (hle : n ≤ c.bufUsed) :
    (flushResult n c).contents = c.contents.drop n ∧
      (flushResult n c).partialByte = c.buf (c.bufUsed - n) := by
  have hpart : ¬(n = 0 ∨ c.bufUsed < n) := by omega
  rw [flushResult, if_neg hpart]
  constructor
  · apply List.ext_getElem?
    intro i
    by_cases hi : i < c.bufUsed - n
    · simp [ZCode.contents, hi, Nat.add_comm i n]
    · simp [ZCode.contents, hi]
  · simp [ZCode.partialByte]

theorem ungetResult_contents (grow : Nat → Nat → Nat) (bytes : List UInt8) (c : ZCode) :
    (ungetResult grow bytes c).contents = bytes ++ c.contents := by
  by_cases hpos : 0 < bytes.length
  · rw [ungetResult, if_pos hpos]
    apply List.ext_getElem?
    intro i
    by_cases hfront : i < bytes.length
    · have hi : i < c.bufUsed + bytes.length := by omega
      rw [List.getElem?_append_left hfront]
      simp [ZCode.contents, codeGrow, hi, hfront]
    · by_cases hi : i < c.bufUsed + bytes.length
      · have hlt : i - bytes.length < c.bufUsed := by omega
        rw [List.getElem?_append_right (Nat.not_lt.mp hfront)]
        simp [ZCode.contents, codeGrow, hi, hfront, hlt]
      · have hge : ¬i - bytes.length < c.bufUsed := by omega
        rw [List.getElem?_append_right (Nat.not_lt.mp hfront)]
        simp [ZCode.contents, codeGrow, hi, hge]
  · have hnil : bytes = [] := List.length_eq_zero_iff.mp (by omega)
    rw [ungetResult, if_neg hpos, hnil, List.nil_append]

/-- What was read leaves a copy of the partial byte at its old place, and
pushing it back makes this the byte behind the result again. -/
theorem ungetResult_read (grow : Nat → Nat → Nat) (n : Nat) (c : ZCode) :
    (ungetResult grow (getResult n c).1 (getResult n c).2).contents = c.contents ∧
      (ungetResult grow (getResult n c).1 (getResult n c).2).partialByte = c.partialByte := by
  constructor
  · obtain ⟨d, hd, hleft, -, -⟩ := getResult_spec n c
    rw [hd, ungetResult_contents, hleft, List.take_append_drop]
  · by_cases hres : 0 < min n c.bufUsed
    · have hlen : (c.contents.take (min n c.bufUsed)).length = min n c.bufUsed := by simp
      have hsum : c.bufUsed - min n c.bufUsed + min n c.bufUsed = c.bufUsed := by omega
      have hfront : ¬c.bufUsed < min n c.bufUsed := by omega
      have hbehind : ¬c.bufUsed < c.bufUsed - min n c.bufUsed + 1 := by omega
      simp only [getResult, hres, ↓reduceIte, ungetResult, hlen, codeGrow, ZCode.partialByte, hsum,
        hfront, Nat.lt_irrefl, hbehind]
    · simp only [getResult, hres, ↓reduceIte, ungetResult, List.length_nil, Nat.lt_irrefl]

/-- The virtual methods of a coder, and the ZCode it extends. -/
structure Codec (γ : Type) where
  transform : List UInt8 → γ → Bool × γ
  finish : γ → Bool × γ
  super : γ → ZCode
  withSuper : ZCode → γ → γ

/-- What is done with a coder in the course of a message. -/
inductive CodeOp
  | transform (bytes : List UInt8)
  | getResult (tolen : Nat)

variable {γ σ : Type}

/-- Whether all calls return TRUE, and the bytes read. -/
def runOps (codec : Codec γ) : List CodeOp → γ → Bool × List UInt8 × γ
  | [], s => (true, [], s)
  | .transform bytes :: ops, s =>
      let (ok, s) := codec.transform bytes s
      let (oks, out, s) := runOps codec ops s
      (ok && oks, out, s)
  | .getResult tolen :: ops, s =>
      let (bytes, super) := getResult tolen (codec.super s)
      let (oks, out, s) := runOps codec ops (codec.withSuper super s)
      (oks, bytes ++ out, s)

def runMessage (codec : Codec γ) (ops : List CodeOp) (s : γ) : Bool × List UInt8 × γ :=
  let (oks, out, s) := runOps codec ops s
  let (ok, s) := codec.finish s
  (oks && ok, out, s)

/-- The bytes that a message adds to the result, read meanwhile or not. -/
def produced (codec : Codec γ) (ops : List CodeOp) (s : γ) : List UInt8 :=
  let (_, out, t) := runMessage codec ops s
  (out ++ (codec.super t).contents).drop (codec.super s).contents.length

/-- Messages one after another: whether all calls return TRUE, what each
message adds to the result, and the bytes read. -/
def session (codec : Codec γ) : List (List CodeOp) → γ → Bool × List (List UInt8) × List UInt8 × γ
  | [], s => (true, [], [], s)
  | ops :: msgs, s =>
      let (ok, out, t) := runMessage codec ops s
      let (oks, texts, outs, t) := session codec msgs t
      (ok && oks, produced codec ops s :: texts, out ++ outs, t)

/-- The bytes given to a coder. -/
def opInput : CodeOp → List UInt8
  | .transform bytes => bytes
  | .getResult _ => []

def input (ops : List CodeOp) : List UInt8 := ops.flatMap opInput

/-- The bytes `out` are added to the result, of which `read` have been read. -/
structure Passes (codec : Codec γ) (Inv : γ → Prop) (view : γ → σ) (s t : γ) (read out : List UInt8)
    (v : σ) : Prop where
  inv : Inv t
  view : view t = v
  contents : read ++ (codec.super t).contents = (codec.super s).contents ++ out
  errors : (codec.super t).errorCounter = (codec.super s).errorCounter

/-- A coder is a machine whose output is kept until it is read. -/
structure Implements (codec : Codec γ) (Inv : γ → Prop) (view : γ → σ)
    (step : UInt8 → σ → Option (List UInt8 × σ)) (stop : σ → Option (List UInt8 × σ)) : Prop where
  transform : ∀ bytes s out v, Inv s → runOut step bytes (view s) = some (out, v) →
    ∃ t, codec.transform bytes s = (true, t) ∧ Passes codec Inv view s t [] out v
  refused : ∀ bytes s, Inv s → runOut step bytes (view s) = none → (codec.transform bytes s).1 = false
  finish : ∀ s out v, Inv s → stop (view s) = some (out, v) →
    ∃ t, codec.finish s = (true, t) ∧ Passes codec Inv view s t [] out v
  unfinished : ∀ s, Inv s → stop (view s) = none → (codec.finish s).1 = false
  super : ∀ c s, codec.super (codec.withSuper c s) = c
  read : ∀ c s, Inv s → c.partialByte = (codec.super s).partialByte →
    Inv (codec.withSuper c s) ∧ view (codec.withSuper c s) = view s

section Implementation

variable {codec : Codec γ} {Inv : γ → Prop} {view : γ → σ}
  {step : UInt8 → σ → Option (List UInt8 × σ)} {stop : σ → Option (List UInt8 × σ)}

theorem runOps_accepted (h : Implements codec Inv view step stop) (ops : List CodeOp) {s : γ}
    (hs : Inv s) {out : List UInt8} {v : σ} (hrun : runOut step (input ops) (view s) = some (out, v)) :
    ∃ read t, runOps codec ops s = (true, read, t) ∧ Passes codec Inv view s t read out v := by
  induction ops generalizing s out with
  | nil =>
      cases hrun
      exact ⟨[], s, rfl, hs, rfl, by simp, rfl⟩
  | cons op ops ih =>
      cases op with
      | transform bytes =>
          rw [input, List.flatMap_cons, runOut_append, Option.bind_eq_some_iff] at hrun
          obtain ⟨⟨first, w⟩, hfirst, hrest⟩ := hrun
          obtain ⟨⟨more, v'⟩, hmore, heq⟩ := Option.map_eq_some_iff.mp hrest
          cases heq
          obtain ⟨t, ht, hadds⟩ := h.transform bytes s first w hs hfirst
          obtain ⟨read, u, hu, hpass⟩ := ih hadds.inv (hadds.view ▸ hmore)
          refine ⟨read, u, by simp only [runOps, ht, hu, Bool.and_self], hpass.inv, hpass.view, ?_,
            hpass.errors.trans hadds.errors⟩
          have hcontents : (codec.super t).contents = _ := hadds.contents
          rw [hpass.contents, hcontents, List.append_assoc]
      | getResult tolen =>
          obtain ⟨c, hc, hleft, hpart, herr⟩ := getResult_spec tolen (codec.super s)
          obtain ⟨hinv, hsame⟩ := h.read c s hs hpart
          have hsuper := h.super c s
          obtain ⟨read, u, hu, hpass⟩ := ih hinv (hsame ▸ hrun)
          refine ⟨(codec.super s).contents.take tolen ++ read, u, by simp only [runOps, hc, hu],
            hpass.inv, hpass.view, ?_, ?_⟩
          · rw [List.append_assoc, hpass.contents, hsuper, hleft, ← List.append_assoc,
              List.take_append_drop]
          · rw [hpass.errors, hsuper, herr]

theorem runOps_refused (h : Implements codec Inv view step stop) (ops : List CodeOp) {s : γ}
    (hs : Inv s) (hrun : runOut step (input ops) (view s) = none) : (runOps codec ops s).1 = false := by
  induction ops generalizing s with
  | nil => cases hrun
  | cons op ops ih =>
      cases op with
      | transform bytes =>
          rw [input, List.flatMap_cons, runOut_append] at hrun
          cases hfirst : runOut step bytes (view s) with
          | none => simp only [runOps, h.refused bytes s hs hfirst, Bool.false_and]
          | some p =>
              obtain ⟨first, w⟩ := p
              obtain ⟨t, ht, hadds⟩ := h.transform bytes s first w hs hfirst
              change runOut step (opInput (.transform bytes)) (view s) = _ at hfirst
              rw [hfirst, Option.bind_some, Option.map_eq_none_iff] at hrun
              simp only [runOps, ht, ih hadds.inv (hadds.view ▸ hrun), Bool.and_false]
      | getResult tolen =>
          obtain ⟨c, hc, -, hpart, -⟩ := getResult_spec tolen (codec.super s)
          obtain ⟨hinv, hsame⟩ := h.read c s hs hpart
          simp only [runOps, hc]
          exact ih hinv (hsame ▸ hrun)

theorem runMessage_accepted (h : Implements codec Inv view step stop) (ops : List CodeOp) {s : γ}
    (hs : Inv s) {out : List UInt8} {v : σ}
    (hrun : message step stop (input ops) (view s) = some (out, v)) :
    ∃ read t, runMessage codec ops s = (true, read, t) ∧ Passes codec Inv view s t read out v ∧
      produced codec ops s = out := by
  obtain ⟨first, w, more, hfirst, hmore, rfl⟩ := message_some.mp hrun
  obtain ⟨read, t, ht, hpass⟩ := runOps_accepted h ops hs hfirst
  obtain ⟨u, hu, hadds⟩ := h.finish t more v hpass.inv (hpass.view ▸ hmore)
  have hmsg : runMessage codec ops s = (true, read, u) := by
    simp only [runMessage, ht, hu, Bool.and_self]
  have hall : read ++ (codec.super u).contents = (codec.super s).contents ++ (first ++ more) := by
    have hcontents : (codec.super u).contents = _ := hadds.contents
    rw [hcontents, ← List.append_assoc, hpass.contents, List.append_assoc]
  refine ⟨read, u, hmsg, ⟨hadds.inv, hadds.view, hall, hadds.errors.trans hpass.errors⟩, ?_⟩
  simp only [produced, hmsg, hall, List.drop_left]

theorem runMessage_refused (h : Implements codec Inv view step stop) (ops : List CodeOp) {s : γ}
    (hs : Inv s) (hrun : message step stop (input ops) (view s) = none) :
    (runMessage codec ops s).1 = false := by
  rw [message] at hrun
  cases hfirst : runOut step (input ops) (view s) with
  | none => simp only [runMessage, runOps_refused h ops hs hfirst, Bool.false_and]
  | some p =>
      obtain ⟨first, w⟩ := p
      obtain ⟨read, t, ht, hpass⟩ := runOps_accepted h ops hs hfirst
      rw [hfirst, Option.bind_some, Option.map_eq_none_iff] at hrun
      simp only [runMessage, ht, h.unfinished t hpass.inv (hpass.view ▸ hrun), Bool.and_false]

/-- A session of messages that the machine accepts from its starting state,
to which each of them takes it back. -/
theorem session_accepted (h : Implements codec Inv view step stop) {start : σ}
    (msgs : List (List CodeOp)) (texts : List (List UInt8))
    (hmsgs : List.Forall₂ (fun ops text => message step stop (input ops) start = some (text, start))
      msgs texts)
    {s : γ} (hs : Inv s) (hview : view s = start) :
    ∃ read t, session codec msgs s = (true, texts, read, t) ∧
      Passes codec Inv view s t read texts.flatten start := by
  induction hmsgs generalizing s with
  | nil => exact ⟨[], s, rfl, hs, hview, by simp, rfl⟩
  | cons hmsg _ ih =>
      subst hview
      obtain ⟨read, t, ht, hpass, hproduced⟩ := runMessage_accepted h _ hs hmsg
      obtain ⟨more, u, hu, hpass'⟩ := ih hpass.inv hpass.view
      refine ⟨read ++ more, u, by simp only [session, ht, hu, hproduced, Bool.and_self],
        hpass'.inv, hpass'.view, ?_, hpass'.errors.trans hpass.errors⟩
      rw [List.append_assoc, hpass'.contents, ← List.append_assoc, hpass.contents,
        List.append_assoc, List.flatten_cons]

end Implementation

end Libzorpll.Code
