import Libzorpll.CString

/-! The specification of what is logged. -/

namespace Libzorpll.LogSpec

open CString

/-- The bytes of a log tag before its NUL. -/
abbrev Tag := List UInt8

structure LogSpecItem where
  pattern : List UInt8
  verboseLevel : Int
  deriving DecidableEq

structure LogSpec where
  items : List LogSpecItem := []
  verboseLevel : Int
  deriving DecidableEq

/-! Matching -/

/-- The parts between the dots. -/
def parts : List UInt8 → List (List UInt8)
  | [] => [[]]
  | c :: p =>
      if c = 46 then [] :: parts p
      else
        match parts p with
        | [] => [[c]]
        | w :: ws => (c :: w) :: ws

/-- A part of a pattern is a star or just the part of the tag. -/
def partMatch (glob tag : List UInt8) : Bool := glob == [42] || glob == tag

/-- The loop goes on while there is a dot in both. At the end of one of them
there may be more of the tag, but not of the pattern. -/
def partsMatch : List (List UInt8) → List (List UInt8) → Bool
  | g :: g' :: gs, t :: t' :: ts => partMatch g t && partsMatch (g' :: gs) (t' :: ts)
  | g :: gs, t :: _ => partMatch g t && gs.isEmpty
  | _, _ => false

def logSpecGlobMatch (glob tag : List UInt8) : Bool := partsMatch (parts glob) (parts tag)

/-- The verbosity of the first pattern that matches. -/
def evalItems (verboseLevel : Int) (tag : Tag) : List LogSpecItem → Int
  | [] => verboseLevel
  | lsi :: l => if logSpecGlobMatch lsi.pattern tag then lsi.verboseLevel else evalItems verboseLevel tag l

def logSpecEval (self : LogSpec) (tag : Tag) : Int := evalItems self.verboseLevel tag self.items

/-! Parsing; the answer none is a specification that is not valid. -/

def isAlnum (c : UInt8) : Bool := isDigit c || (65 ≤ c && c ≤ 90) || (97 ≤ c && c ≤ 122)

def isGlobChar (c : UInt8) : Bool := isAlnum c || c == 46 || c == 42

def skipSeparators : Ptr → Option Ptr
  | [] => none
  | c :: p => if c = 44 ∨ c = 32 then skipSeparators p else some (c :: p)

/-- The pattern that begins here, and where it ends. -/
def globChars : Ptr → Option (List UInt8 × Ptr)
  | [] => none
  | c :: p => if isGlobChar c then (globChars p).map fun (w, q) => (c :: w, q) else some ([], c :: p)

/-- The loop over the items, each of which takes at least its colon. The
unsigned long that strtoul answers is stored in a gint. -/
def specLoop : Nat → Ptr → List LogSpecItem → Option (List LogSpecItem)
  | 0, _, _ => none
  | rounds + 1, src, items => do
      let first ← deref src
      if first = 0 then return items.reverse
      let glob ← skipSeparators src
      let (pattern, stop) ← globChars glob
      let colon ← deref stop
      if colon ≠ 58 then none
      let (newLevel, stop) ← strtoul stop.tail
      let src ← skip (· == 44) stop
      specLoop rounds src ({ pattern := pattern, verboseLevel := Int.bmod newLevel (2 ^ 32) } :: items)

def logSpecInit (logspecStr : List UInt8) (defaultVerbosity : Int) : Option LogSpec :=
  (specLoop (logspecStr.length + 1) (terminated logspecStr) []).map fun items =>
    { items := items, verboseLevel := defaultVerbosity }

theorem skipSeparators_suffix {p q : Ptr} (h : skipSeparators p = some q) : q <:+ p := by
  induction p with
  | nil => cases h
  | cons c p ih =>
      rw [skipSeparators] at h
      split at h
      · exact (ih h).trans (List.suffix_cons c p)
      · cases h
        exact List.suffix_refl _

theorem globChars_suffix {p q : Ptr} {w : List UInt8} (h : globChars p = some (w, q)) : q <:+ p := by
  induction p generalizing w with
  | nil => cases h
  | cons c p ih =>
      rw [globChars] at h
      split at h
      · obtain ⟨⟨v, r⟩, hrest, hsame⟩ := Option.map_eq_some_iff.mp h
        cases hsame
        exact (ih hrest).trans (List.suffix_cons c p)
      · cases h
        exact List.suffix_refl _

theorem specLoop_nil (rounds : Nat) (items : List LogSpecItem) : specLoop rounds [] items = none := by
  cases rounds with
  | zero => rfl
  | succ rounds => rfl

/-- Each round goes forward, so that as many rounds as there are bytes are
enough. -/
theorem specLoop_rounds {rounds rounds' : Nat} {src : Ptr} (h : src.length ≤ rounds) (h' : src.length ≤ rounds')
    (items : List LogSpecItem) : specLoop rounds src items = specLoop rounds' src items := by
  induction rounds generalizing rounds' src items with
  | zero =>
      obtain rfl := List.eq_nil_of_length_eq_zero (Nat.le_zero.mp h)
      rw [specLoop_nil, specLoop_nil]
  | succ rounds ih =>
      cases rounds' with
      | zero =>
          obtain rfl := List.eq_nil_of_length_eq_zero (Nat.le_zero.mp h')
          rw [specLoop_nil, specLoop_nil]
      | succ rounds' =>
          simp only [specLoop, Option.bind_eq_bind]
          refine Option.bind_congr fun first _ => ?_
          split
          · rfl
          · refine Option.bind_congr fun glob hglob => Option.bind_congr fun found hfound => ?_
            refine Option.bind_congr fun colon hcolon => ?_
            split
            · rfl
            · refine Option.bind_congr fun level hlevel => Option.bind_congr fun next hnext => ?_
              -- the colon at least is behind the next item
              have hstop : 0 < found.2.length := by
                rw [deref] at hcolon
                exact List.length_pos_of_mem (List.mem_of_mem_head? hcolon)
              have hbehind := (skip_suffix hnext).length_le
              have hnumber := (strtoul_suffix hlevel).length_le
              have hpattern := (globChars_suffix hfound).length_le
              have hseparators := (skipSeparators_suffix hglob).length_le
              rw [List.length_tail] at hnumber
              exact ih (by omega : next.length ≤ rounds) (by omega : next.length ≤ rounds') _

end Libzorpll.LogSpec
