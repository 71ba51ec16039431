import Libzorpll.LogCache
import Libzorpll.Run

/-! z_log_change_logspec with the string that it stores, and the strings that
it takes. -/

namespace Libzorpll.LogSpecParse

open CString LogSpec LogCache

variable {T : Type}

/-- The global variables and log_spec_str. -/
structure Logging (T : Type) where
  state : LogState T
  logSpecStr : Option (List UInt8) := none

/-- A message of z_log_change_logspec and the values in it. -/
inductive Message
  | changing (verboseLevel : Int) (logspec : List UInt8)
  | invalid (newLogspec : List UInt8)
  deriving DecidableEq

namespace Message

def tag : Message → Tag
  | changing _ _ => coreInfo
  | invalid _ => coreError

def format : Message → String
  | changing _ _ => "Changing logspec; verbose_level='%d', logspec='%s'"
  | invalid _ => "Invalid logspec, reverting to old logspec; new_logspec='%s'"

end Message

/-- What a call answers: its result, new_value where it is set, the variables
behind it and the message that it gives to z_log last. -/
structure Change (T : Type) where
  result : Bool
  newValue : Option (Option (List UInt8)) := none
  after : Logging T
  message : Option Message := none

def zLogChangeLogspec (newLogSpecStr : Option (List UInt8)) (s : Logging T) : Change T :=
  match newLogSpecStr with
  | none => { result := true, newValue := some s.logSpecStr, after := s }
  | some str =>
      match logSpecInit str s.state.logSpec.verboseLevel with
      | some newSpec =>
          { result := true
            newValue := some (some str)
            after := ⟨clearCaches { s.state with logSpec := newSpec }, some str⟩
            message := some (.changing newSpec.verboseLevel str) }
      | none => { result := false, after := s, message := some (.invalid str) }

/-- With its message it is the call of the decision whether a message is
logged. -/
theorem changeLogspec_eq (thread : T) (newLogSpecStr : Option (List UInt8)) (s : Logging T) :
    changeLogspec thread newLogSpecStr s.state =
      match (zLogChangeLogspec newLogSpecStr s).message with
      | none => .ok ((zLogChangeLogspec newLogSpecStr s).result, (zLogChangeLogspec newLogSpecStr s).after.state)
      | some m => (log thread m.tag 0 (zLogChangeLogspec newLogSpecStr s).after.state).map fun t =>
          ((zLogChangeLogspec newLogSpecStr s).result, t) := by
  cases newLogSpecStr with
  | none => rfl
  | some str =>
      rw [changeLogspec, zLogChangeLogspec]
      cases logSpecInit str s.state.logSpec.verboseLevel with
      | none => rfl
      | some newSpec => rfl

/-! Printed specifications -/

/-- A pattern with its level. -/
structure Entry where
  pattern : List UInt8
  level : Nat
  chars : ∀ c ∈ pattern, isGlobChar c = true
  small : level < 2 ^ 31

def Entry.item (e : Entry) : LogSpecItem := ⟨e.pattern, e.level⟩

variable {s t : LogState T} {thread : T} {tag : Tag} {level : Int}

end Libzorpll.LogSpecParse
