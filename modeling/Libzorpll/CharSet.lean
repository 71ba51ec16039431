import Libzorpll.CString
import Libzorpll.Run
import Mathlib.Logic.Function.Basic

/-! Sets of characters, and how z_charset_parse reads a string. -/

namespace Libzorpll.CharSet

open CString

/-! The set -/

structure ZCharSet where
  enableMask : Fin 8 → BitVec 32

/-- z_charset_init -/
def empty : ZCharSet := ⟨fun _ => 0⟩

/-- The top three bits. -/
def ndx (chr : UInt8) : Fin 8 := Fin.ofNat 8 (chr.toNat / 2 ^ 5)

/-- The mask from the lower five bits. -/
def bit (chr : UInt8) : BitVec 32 := 1#32 <<< (chr.toNat % 2 ^ 5)

@[simps] def enable (self : ZCharSet) (chr : UInt8) : ZCharSet :=
  ⟨Function.update self.enableMask (ndx chr) (self.enableMask (ndx chr) ||| bit chr)⟩

def isEnabled (self : ZCharSet) (chr : UInt8) : Bool := self.enableMask (ndx chr) &&& bit chr != 0

/-- z_charset_is_string_valid, for a string and its length. -/
def isStringValid (self : ZCharSet) (str : List UInt8) : Bool := str.all (isEnabled self)

theorem isEnabled_eq (self : ZCharSet) (chr : UInt8) :
    isEnabled self chr = (self.enableMask (ndx chr)).getLsbD (chr.toNat % 2 ^ 5) := by
  have hlt : chr.toNat % 2 ^ 5 < 32 := Nat.mod_lt _ (by decide)
  have hmask := BitVec.and_twoPow (self.enableMask (ndx chr)) (chr.toNat % 2 ^ 5)
  have hone : bit chr ≠ 0 := by
    intro hzero
    have hbit := congrArg (fun x => x.getLsbD (chr.toNat % 2 ^ 5)) hzero
    change (BitVec.twoPow 32 _).getLsbD _ = _ at hbit
    rw [BitVec.getLsbD_twoPow] at hbit
    simp at hbit
    omega
  change (self.enableMask (ndx chr) &&& bit chr != 0) = _
  rw [bit] at hone ⊢
  rw [BitVec.twoPow] at hmask
  rw [hmask]
  split
  · rename_i hset
    rw [hset, bne_iff_ne]
    exact hone
  · rename_i hclear
    rw [Bool.not_eq_true] at hclear
    rw [hclear]
    rfl

theorem eq_of_ndx {c d : UInt8} (hndx : ndx c = ndx d) (hlow : c.toNat % 2 ^ 5 = d.toNat % 2 ^ 5) : c = d := by
  have hc := c.toNat_lt
  have hd := d.toNat_lt
  have hval := congrArg Fin.val hndx
  simp only [ndx, Fin.val_ofNat] at hval
  apply UInt8.toNat_inj.mp
  omega

theorem isEnabled_enable (self : ZCharSet) (c d : UInt8) :
    isEnabled (enable self c) d = (c == d || isEnabled self d) := by
  have hlt : c.toNat % 2 ^ 5 < 32 := Nat.mod_lt _ (by decide)
  rw [isEnabled_eq, isEnabled_eq]
  by_cases hndx : ndx c = ndx d
  · have hset : (bit c).getLsbD (d.toNat % 2 ^ 5) = (c == d) := by
      change (BitVec.twoPow 32 _).getLsbD _ = _
      rw [BitVec.getLsbD_twoPow, decide_eq_true hlt, Bool.true_and, Bool.eq_iff_iff, decide_eq_true_eq, beq_iff_eq]
      exact ⟨eq_of_ndx hndx, fun heq => by rw [heq]⟩
    rw [enable_enableMask, hndx, Function.update_self, BitVec.getLsbD_or, hset, Bool.or_comm]
  · have hne : (c == d) = false := by
      rw [beq_eq_false_iff_ne]
      rintro rfl
      exact hndx rfl
    rw [enable_enableMask, Function.update_of_ne (Ne.symm hndx), hne, Bool.false_or]

def backslash : UInt8 := 92

def hyphen : UInt8 := 45

inductive ParseState
  | start
  | dash
  | ending
  | escape
  deriving DecidableEq

/-- The variables of the call. While it is enabling, it is in the loop over a
range. -/
structure Parser where
  charset : ZCharSet
  i : Nat := 0
  j : UInt8 := 0
  state : ParseState := .start
  oldState : ParseState := .start
  startPos : UInt8 := 0
  endPos : UInt8 := 0
  enabling : Bool := false

inductive Halt
  | outOfBounds
  | endless
  deriving DecidableEq

/-- i is a guint. -/
def forth (i : Nat) : Nat := (i + 1) % 2 ^ 32

def back (i : Nat) : Nat := (i + (2 ^ 32 - 1)) % 2 ^ 32

/-- What a byte of the string does. -/
def parseByte (c : UInt8) (p : Parser) : Parser :=
  match p.state with
  | .start =>
      if c = backslash ∧ p.oldState ≠ .escape then { p with oldState := .start, state := .escape }
      else { p with startPos := c, state := .dash, oldState := .start, i := forth p.i }
  | .dash =>
      if c = backslash ∧ p.oldState ≠ .escape then { p with state := .ending, i := back p.i }
      else { p with state := .ending, oldState := .dash, i := if c = hyphen then forth p.i else back p.i }
  | .ending =>
      if c = backslash ∧ p.oldState ≠ .escape then { p with oldState := .ending, state := .escape }
      else { p with endPos := c, j := p.startPos, enabling := true }
  | .escape => { p with i := forth p.i, state := p.oldState, oldState := .escape }

/-- One round of the loop over the range, whose counter is a byte, or of the
loop over the string. -/
def parseRound (intervalStr : Ptr) (p : Parser) : Except Halt (Option Bool × Parser) :=
  if p.enabling then
    if p.j ≤ p.endPos then .ok (none, { p with charset := enable p.charset p.j, j := p.j + 1 })
    else .ok (none, { p with i := forth p.i, state := .start, oldState := .ending, enabling := false })
  else
    match intervalStr[p.i]? with
    | none => .error .outOfBounds
    | some c =>
        if c ≠ 0 then .ok (none, parseByte c p)
        else if p.state = .dash then
          .ok (some true, { p with charset := enable p.charset p.startPos, state := .start })
        else .ok (some (p.state == .start), p)

def zCharsetParse (fuel : Nat) (self : ZCharSet) (intervalStr : Ptr) : Except Halt (Bool × ZCharSet) :=
  (Run.loop (parseRound intervalStr) .endless fuel { charset := self }).map fun (r, p) => (r, p.charset)

/-! How a string is read -/

/-- The ranges that a string lists, and how it ends: between two of them,
inside one, or behind its first byte. -/
inductive Reading
  | done
  | opened
  | last (c : UInt8)
  | range (lo hi : UInt8) (rest : Reading)
  deriving DecidableEq

namespace Reading

def accepted : Reading → Bool
  | done => true
  | opened => false
  | last _ => true
  | range _ _ rest => rest.accepted

def Enables (b : UInt8) : Reading → Prop
  | done => False
  | opened => False
  | last c => b = c
  | range lo hi rest => (lo ≤ b ∧ b ≤ hi) ∨ rest.Enables b

/-- No range goes up to the last byte there is. -/
def Bounded : Reading → Prop
  | range _ hi rest => hi ≠ 255 ∧ rest.Bounded
  | _ => True

end Reading

/-- From the start of a range, or behind its first byte. That byte is read
again where no hyphen is behind it: as the end of its own range or, if it is a
backslash, as an escape of the byte behind it. -/
def read : Option UInt8 → List UInt8 → Reading
  | none, [] => .done
  | none, c :: s =>
      if c = backslash then
        match s with
        | [] => .done
        | d :: s => read (some d) s
      else read (some c) s
  | some lo, [] => .last lo
  | some lo, x :: s =>
      if x = hyphen then
        match s with
        | [] => .opened
        | y :: s =>
            if y = backslash then
              match s with
              | [] => .opened
              | z :: s => .range lo z (read none s)
            else .range lo y (read none s)
      else if lo = backslash then .range lo x (read none s)
      else .range lo lo (read none (x :: s))
termination_by mode s => 2 * s.length + mode.elim 0 fun _ => 1

variable {c lo x y z : UInt8} {s : List UInt8}

theorem read_end : read none [] = .done := by rw [read]

theorem read_backslash : read none [backslash] = .done := by rw [read, if_pos rfl]

theorem read_escaped : read none (backslash :: c :: s) = read (some c) s := by rw [read, if_pos rfl]

theorem read_plain (hc : c ≠ backslash) : read none (c :: s) = read (some c) s := by
  rw [read.eq_def]
  exact if_neg hc

theorem read_last : read (some lo) [] = .last lo := by rw [read]

theorem read_hyphen : read (some lo) [hyphen] = .opened := by rw [read, if_pos rfl]

theorem read_hyphen_backslash : read (some lo) [hyphen, backslash] = .opened := by rw [read, if_pos rfl, if_pos rfl]

theorem read_range_escaped : read (some lo) (hyphen :: backslash :: z :: s) = .range lo z (read none s) := by
  rw [read, if_pos rfl, if_pos rfl]

theorem read_range (hy : y ≠ backslash) : read (some lo) (hyphen :: y :: s) = .range lo y (read none s) := by
  rw [read.eq_def]
  simp only [if_true, if_neg hy]

theorem read_literal (hx : x ≠ hyphen) : read (some backslash) (x :: s) = .range backslash x (read none s) := by
  rw [read.eq_def]
  simp only [if_neg hx, if_true]

theorem read_single (hx : x ≠ hyphen) (hlo : lo ≠ backslash) :
    read (some lo) (x :: s) = .range lo lo (read none (x :: s)) := by
  rw [read.eq_def]
  simp only [if_neg hx, if_neg hlo]

end Libzorpll.CharSet
