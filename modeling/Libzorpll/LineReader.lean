import Libzorpll.StreamLine

/-! The line stream without its buffer: the bytes that were read and not yet
delivered, and the modes that outlive a call. -/

namespace Libzorpll.LineReader

open ChildStream StreamLine

/-- What is known between two calls. `afterCr` tells that the byte before the
pending ones is still in the buffer and is a carriage return. -/
structure Reader where
  pending : List UInt8
  afterCr : Bool
  ignoring : Bool
  eof : Bool
  failed : Bool

/-- A delivered line: the bytes held from its start on, and its length. -/
structure Delivered where
  held : List UInt8
  length : Nat

def Delivered.line (d : Delivered) : List UInt8 := d.held.take d.length

def nulAllowed (f : LineFlags) (raw : List UInt8) : Bool :=
  f.eolNul || f.nulNonfatal || !decide (0 ∈ raw)

def endsCr (body : List UInt8) : Bool := body.getLast? == some 13

/-- Whether a carriage return stands before the end of line. For an empty
line that is the last byte of what was consumed earlier. -/
def crBefore (afterCr : Bool) (body : List UInt8) : Bool :=
  if body = [] then afterCr else endsCr body

/-- z_stream_line_get_from_buf. -/
inductive FromBuf (f : LineFlags) : Reader → LineResult Delivered → Reader → Prop
  | line {v : Reader} {body rest : List UInt8} {n : Nat} (heof : v.eof = false)
      (hv : v.pending = body ++ eolByte f :: rest) (hbody : eolByte f ∉ body)
      (hnul : nulAllowed f (body ++ [eolByte f]) = true)
      (hlen : lineLength f (crBefore v.afterCr body) (body.length + 1) = some n) :
      FromBuf f v (.normal ⟨v.pending, n⟩) { v with pending := rest, afterCr := false }
  | badCrlf {v : Reader} {body rest : List UInt8} (heof : v.eof = false)
      (hv : v.pending = body ++ eolByte f :: rest) (hbody : eolByte f ∉ body)
      (hnul : nulAllowed f (body ++ [eolByte f]) = true)
      (hlen : lineLength f (crBefore v.afterCr body) (body.length + 1) = none) :
      FromBuf f v (.error (.badCrlf body)) { v with pending := rest, afterCr := false }
  | embeddedNul {v : Reader} {body rest : List UInt8} (heof : v.eof = false)
      (hv : v.pending = body ++ eolByte f :: rest) (hbody : eolByte f ∉ body)
      (hnul : nulAllowed f (body ++ [eolByte f]) = false) :
      FromBuf f v (.error (.embeddedNul (body ++ [eolByte f])))
        { v with pending := rest, afterCr := false }
  | last {v : Reader} (cr : Bool) (heof : v.eof = true) (hnul : nulAllowed f v.pending = true) :
      FromBuf f v (.normal ⟨v.pending, v.pending.length⟩) { v with pending := [], afterCr := cr }
  | lastNul {v : Reader} (cr : Bool) (heof : v.eof = true)
      (hnul : nulAllowed f v.pending = false) :
      FromBuf f v (.error (.embeddedNul v.pending)) { v with pending := [], afterCr := cr }
  | more {v : Reader} (heof : v.eof = false) (hmore : eolByte f ∉ v.pending) :
      FromBuf f v (.again none) { v with afterCr := false }

theorem FromBuf.again_inv {f : LineFlags} {v w : Reader} {o : Option Delivered}
    (h : FromBuf f v (.again o) w) :
    o = none ∧ v.eof = false ∧ eolByte f ∉ v.pending ∧ w = { v with afterCr := false } := by
  cases h with
  | more heof hmore => exact ⟨rfl, heof, hmore, rfl⟩

theorem FromBuf.not_eof {f : LineFlags} {v w : Reader} : ¬FromBuf f v .eof w := by
  rintro ⟨⟩

theorem FromBuf.eof_eq {f : LineFlags} {v w : Reader} {r : LineResult Delivered}
    (h : FromBuf f v r w) : w.eof = v.eof := by
  cases h <;> rfl

theorem FromBuf.ignoring_eq {f : LineFlags} {v w : Reader} {r : LineResult Delivered}
    (h : FromBuf f v r w) : w.ignoring = v.ignoring := by
  cases h <;> rfl

/-- The dropping of the rest of a cut line before the next one. -/
inductive Another (f : LineFlags) : Reader → LineResult Delivered → Reader → Prop
  | keep {v w : Reader} {r : LineResult Delivered}
      (h : FromBuf f v r w) (hkeep : ∀ d, r = .normal d → v.ignoring = false) : Another f v r w
  | drop {v w u : Reader} {d : Delivered} {r : LineResult Delivered} (hign : v.ignoring = true)
      (h : FromBuf f v (.normal d) w) (h' : FromBuf f { w with ignoring := false } r u) :
      Another f v r u

theorem Another.again_inv {f : LineFlags} {v w : Reader} {o : Option Delivered}
    (h : Another f v (.again o) w) : o = none ∧ w.eof = false ∧ eolByte f ∉ w.pending := by
  cases h with
  | keep h =>
      obtain ⟨ho, heof, hmore, rfl⟩ := h.again_inv
      exact ⟨ho, heof, hmore⟩
  | drop _ _ h =>
      obtain ⟨ho, heof, hmore, rfl⟩ := h.again_inv
      exact ⟨ho, heof, hmore⟩

/-- An AGAIN after a read ends the call in the single read mode only. -/
def settle (f : LineFlags) : LineResult Delivered → Option (LineResult Delivered)
  | .again _ => if f.singleRead then some (.again none) else none
  | r => some r

theorem settle_none {f : LineFlags} {r : LineResult Delivered} (h : settle f r = none) :
    ∃ o, r = .again o := by
  cases r with
  | again o => exact ⟨o, rfl⟩
  | normal | eof | error => cases h

/-- A read of the child and what follows it. -/
inductive Fill (f : LineFlags) (cap : Nat) :
    Reader → Child → Option (LineResult Delivered) → Reader → Child → Prop
  | again {v : Reader} {c c' : Child}
      (hread : childRead (cap - v.pending.length) c = (.again, c')) :
      Fill f cap v c (some (.again none)) v c'
  | error {v : Reader} {c c' : Child}
      (hread : childRead (cap - v.pending.length) c = (.error, c')) :
      Fill f cap v c (some (.error .child)) { v with failed := true } c'
  | eof {v : Reader} {c c' : Child}
      (hread : childRead (cap - v.pending.length) c = (.eof, c')) (hempty : v.pending = []) :
      Fill f cap v c (some .eof) v c'
  | last {v w : Reader} {c c' : Child} {r : LineResult Delivered}
      (hread : childRead (cap - v.pending.length) c = (.eof, c')) (hne : v.pending ≠ [])
      (h : Another f { v with eof := true } r w) {o : Option (LineResult Delivered)}
      (ho : o = settle f r) : Fill f cap v c o w c'
  | data {v w : Reader} {c c' : Child} {data : List UInt8} {r : LineResult Delivered}
      (hread : childRead (cap - v.pending.length) c = (.normal data, c'))
      (h : Another f { v with pending := v.pending ++ data } r w)
      {o : Option (LineResult Delivered)} (ho : o = settle f r) : Fill f cap v c o w c'

theorem Fill.more_inv {f : LineFlags} {cap : Nat} {v w : Reader} {c c' : Child}
    (h : Fill f cap v c none w c') :
    (∃ data, childRead (cap - v.pending.length) c = (.normal data, c')) ∧ w.eof = false ∧
      eolByte f ∉ w.pending := by
  cases h with
  | last hread hne h ho =>
      obtain ⟨o, rfl⟩ := settle_none ho.symm
      have heof : w.eof = true := by
        cases h with
        | keep h => exact h.eof_eq
        | drop _ h h' => exact h'.eof_eq.trans h.eof_eq
      exact absurd (heof.symm.trans h.again_inv.2.1) (by simp)
  | data hread h ho =>
      obtain ⟨o, rfl⟩ := settle_none ho.symm
      exact ⟨⟨_, hread⟩, h.again_inv.2⟩

theorem Fill.size {f : LineFlags} {cap : Nat} {v w : Reader} {c c' : Child}
    (h : Fill f cap v c none w c') (hroom : v.pending.length < cap) :
    childSize c' < childSize c := by
  obtain ⟨data, hread⟩ := h.more_inv.1
  have hlt := childRead_size (Nat.sub_pos_of_lt hroom)
    (childRead_nonempty (by rw [hread]; simp) : c ≠ [])
  rwa [hread] at hlt

/-- The same for a child whose end is known: nothing of its stream is lost. -/
inductive Filled (f : LineFlags) (cap : Nat) (fails : Bool) (v : Reader) (c : Child) :
    Option (LineResult Delivered) → Reader → Child → Prop
  | again {c' : Child} (hends : Ends fails c') (hbytes : childBytes c' = childBytes c)
      (hsize : childSize c' < childSize c) : Filled f cap fails v c (some (.again none)) v c'
  | error {c' : Child} (hfails : fails = true) (hnone : childBytes c = []) :
      Filled f cap fails v c (some (.error .child)) { v with failed := true } c'
  | eof (hfails : fails = false) (hc : c = []) (hempty : v.pending = []) :
      Filled f cap fails v c (some .eof) v []
  | last {w : Reader} {r : LineResult Delivered} (hfails : fails = false) (hc : c = [])
      (hne : v.pending ≠ []) (h : Another f { v with eof := true } r w)
      {o : Option (LineResult Delivered)} (ho : o = settle f r) : Filled f cap fails v c o w []
  | data {w : Reader} {c' : Child} {data : List UInt8} {r : LineResult Delivered}
      (hread : childRead (cap - v.pending.length) c = (.normal data, c'))
      (hends : Ends fails c') (hbytes : data ++ childBytes c' = childBytes c)
      (hsize : data.length + 2 * childSize c' < 2 * childSize c)
      (hfits : (v.pending ++ data).length ≤ cap)
      (h : Another f { v with pending := v.pending ++ data } r w)
      {o : Option (LineResult Delivered)} (ho : o = settle f r) : Filled f cap fails v c o w c'

theorem Fill.filled {f : LineFlags} {cap : Nat} {fails : Bool} {v w : Reader} {c c' : Child}
    {o : Option (LineResult Delivered)} (hends : Ends fails c) (hroom : v.pending.length < cap)
    (h : Fill f cap v c o w c') : Filled f cap fails v c o w c' := by
  have hread := hends.read (cap - v.pending.length)
  have hbytes := childRead_bytes (cap - v.pending.length) c
  have hlength := childRead_length (cap - v.pending.length) c
  have htaken := childRead_taken (cap - v.pending.length) c
  have hsize : c ≠ [] → childSize (childRead (cap - v.pending.length) c).2 < childSize c :=
    childRead_size (by omega)
  cases h with
  | again hr =>
      rw [hr] at hread hbytes hsize
      obtain ⟨_, _, ha, _⟩ | ⟨_, ha, hends'⟩ | ⟨_, _, ha⟩ | ⟨_, _, ha⟩ := hread <;> cases ha
      exact .again hends' hbytes (hsize (childRead_nonempty (by rw [hr]; simp)))
  | error hr =>
      rw [hr] at hread
      obtain ⟨_, _, ha, _⟩ | ⟨_, ha, _⟩ | ⟨_, _, ha⟩ | ⟨hfails, hc, ha⟩ := hread <;> cases ha
      exact .error hfails hc
  | eof hr hempty =>
      rw [hr] at hread
      obtain ⟨_, _, ha, _⟩ | ⟨_, ha, _⟩ | ⟨hfails, hc, ha⟩ | ⟨_, _, ha⟩ := hread <;> cases ha
      exact .eof hfails hc hempty
  | last hr hne h ho =>
      rw [hr] at hread
      obtain ⟨_, _, ha, _⟩ | ⟨_, ha, _⟩ | ⟨hfails, hc, ha⟩ | ⟨_, _, ha⟩ := hread <;> cases ha
      exact .last hfails hc hne h ho
  | data hr h ho =>
      rename_i data r
      rw [hr] at hread hbytes hlength htaken hsize
      obtain ⟨_, _, ha, hends'⟩ | ⟨_, ha, _⟩ | ⟨_, _, ha⟩ | ⟨_, _, ha⟩ := hread <;> cases ha
      have hlt : childSize c' < childSize c := hsize (childRead_nonempty (by rw [hr]; simp))
      simp only [answerBytes] at hbytes hlength htaken
      refine .data hr hends' hbytes ?_ ?_ h ho
      · omega
      · rw [List.length_append]
        omega

/-- One round of the read loop. -/
inductive Round (f : LineFlags) (cap : Nat) :
    Reader → Child → Option (LineResult Delivered) → Reader → Child → Prop
  | cut {v : Reader} {c : Child} (hfull : v.pending.length = cap) (hign : v.ignoring = false)
      (hf : f.truncate = true) :
      Round f cap v c (some (.normal ⟨v.pending, cap⟩))
        { v with pending := [], ignoring := true } c
  | split {v : Reader} {c : Child} (hfull : v.pending.length = cap) (hign : v.ignoring = false)
      (hf : f.truncate = false ∧ f.split = true) :
      Round f cap v c (some (.again (some ⟨v.pending, cap⟩))) { v with pending := [] } c
  | tooLong {v : Reader} {c : Child} (hfull : v.pending.length = cap) (hign : v.ignoring = false)
      (hf : f.truncate = false ∧ f.split = false) :
      Round f cap v c (some (.error (.tooLong v.pending cap))) { v with failed := true } c
  | skip {v w : Reader} {c c' : Child} {r : Option (LineResult Delivered)}
      (hfull : v.pending.length = cap) (hign : v.ignoring = true)
      (h : Fill f cap { v with pending := [] } c r w c') : Round f cap v c r w c'
  | fill {v w : Reader} {c c' : Child} {r : Option (LineResult Delivered)}
      (hroom : v.pending.length < cap) (h : Fill f cap v c r w c') : Round f cap v c r w c'

theorem Round.more_inv {f : LineFlags} {cap : Nat} {v w : Reader} {c c' : Child}
    (h : Round f cap v c none w c') : w.eof = false ∧ eolByte f ∉ w.pending := by
  cases h with
  | skip _ _ h | fill _ h => exact h.more_inv.2

theorem Round.more_pos {f : LineFlags} {cap : Nat} {v w : Reader} {c c' : Child}
    (h : Round f cap v c none w c') (hcap : 0 < cap ∨ v.ignoring = false) : 0 < cap := by
  cases h with
  | skip _ hign => exact hcap.resolve_right (fun hf => absurd (hign.symm.trans hf) (by simp))
  | fill hroom => omega

theorem Round.size {f : LineFlags} {cap : Nat} {v w : Reader} {c c' : Child}
    (h : Round f cap v c none w c') (hcap : 0 < cap) : childSize c' < childSize c := by
  cases h with
  | skip _ _ h => exact h.size hcap
  | fill hroom h => exact h.size hroom

/-- The read loop, from its first round to the one that returns. -/
inductive Rounds (f : LineFlags) (cap : Nat) :
    Reader → Child → LineResult Delivered → Reader → Child → Prop
  | done {v w : Reader} {c c' : Child} {r : LineResult Delivered}
      (h : Round f cap v c (some r) w c') : Rounds f cap v c r w c'
  | next {v w u : Reader} {c c' c'' : Child} {r : LineResult Delivered}
      (h : Round f cap v c none w c') (h' : Rounds f cap w c' r u c'') : Rounds f cap v c r u c''

/-- z_stream_line_get_internal: a line that is buffered already is looked for
first, and its errors are remembered. -/
inductive Fetch (f : LineFlags) (cap : Nat) :
    Reader → Child → LineResult Delivered → Reader → Child → Prop
  | failed {v : Reader} {c : Child} (h : v.failed = true) :
      Fetch f cap v c (.error .previouslyStored) v c
  | atEof {v : Reader} {c : Child} (h : v.failed = false) (heof : v.eof = true) :
      Fetch f cap v c .eof v c
  | buffered {v w : Reader} {c : Child} {d : Delivered} (hf : v.failed = false)
      (heof : v.eof = false) (h : FromBuf f v (.normal d) w) : Fetch f cap v c (.normal d) w c
  | bad {v w : Reader} {c : Child} {e : LineError} (hf : v.failed = false)
      (heof : v.eof = false) (h : FromBuf f v (.error e) w) :
      Fetch f cap v c (.error e) { w with failed := true } c
  | read {v w : Reader} {c c' : Child} {r : LineResult Delivered} (hf : v.failed = false)
      (heof : v.eof = false) (hmore : eolByte f ∉ v.pending)
      (h : Rounds f cap { v with afterCr := false } c r w c') : Fetch f cap v c r w c'

end Libzorpll.LineReader
