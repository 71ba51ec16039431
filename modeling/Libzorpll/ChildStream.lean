import Mathlib.Data.List.Basic

namespace Libzorpll.ChildStream

/-- What one z_stream_read answers: a GIOStatus, with the bytes of a NORMAL
one. -/
inductive ReadResult
  | normal (data : List UInt8)
  | again
  | eof
  | error
  deriving DecidableEq

/-- A child stream, by the answers it is going to give. A read takes from the
first of them what fits the space offered, and after the last of them the
child is at end of file. -/
abbrev Child := List ReadResult

def childRead (count : Nat) : Child → ReadResult × Child
  | [] => (.eof, [])
  | .normal data :: child =>
      if data.length ≤ count then (.normal data, child)
      else (.normal (data.take count), .normal (data.drop count) :: child)
  | answer :: child => (answer, child)

def answerBytes : ReadResult → List UInt8
  | .normal data => data
  | _ => []

/-- The bytes a child has still to deliver. -/
def childBytes (child : Child) : List UInt8 := child.flatMap answerBytes

def childSize : Child → Nat
  | [] => 0
  | answer :: child => (answerBytes answer).length + 1 + childSize child

@[simp] theorem childBytes_nil : childBytes [] = [] := rfl

@[simp] theorem childBytes_cons (answer : ReadResult) (child : Child) :
    childBytes (answer :: child) = answerBytes answer ++ childBytes child := rfl

/-- A read delivers the next bytes, no more than asked for. -/
theorem childRead_bytes (count : Nat) (child : Child) :
    answerBytes (childRead count child).1 ++ childBytes (childRead count child).2 =
      childBytes child := by
  cases child with
  | nil => rfl
  | cons answer child =>
      cases answer with
      | normal data =>
          by_cases h : data.length ≤ count
          · simp [childRead, h, answerBytes]
          · simp [childRead, h, answerBytes, ← List.append_assoc]
      | again | eof | error => rfl

theorem childRead_length (count : Nat) (child : Child) :
    (answerBytes (childRead count child).1).length ≤ count := by
  cases child with
  | nil => simp [childRead, answerBytes]
  | cons answer child =>
      cases answer with
      | normal data =>
          by_cases h : data.length ≤ count
          · simp [childRead, h, answerBytes]
          · simp [childRead, h, answerBytes, Nat.min_le_left]
      | again | eof | error => simp [childRead, answerBytes]

/-- A read with room for a byte comes nearer to the end of the child. -/
theorem childRead_size {count : Nat} (hcount : 0 < count) {child : Child} (hne : child ≠ []) :
    childSize (childRead count child).2 < childSize child := by
  cases child with
  | nil => exact absurd rfl hne
  | cons answer child =>
      cases answer with
      | normal data =>
          by_cases h : data.length ≤ count
          · simp [childRead, h, childSize]
          · simp only [childRead, h, ↓reduceIte, childSize, answerBytes, List.length_drop]
            omega
      | again | eof | error => simp [childRead, childSize]

theorem childRead_taken (count : Nat) (child : Child) :
    (answerBytes (childRead count child).1).length + childSize (childRead count child).2 ≤
      childSize child := by
  cases child with
  | nil => simp [childRead, answerBytes, childSize]
  | cons answer child =>
      cases answer with
      | normal data =>
          by_cases h : data.length ≤ count
          · simp only [childRead, h, ↓reduceIte, childSize, answerBytes]
            omega
          · simp only [childRead, h, ↓reduceIte, childSize, answerBytes, List.length_take,
              List.length_drop]
            omega
      | again | eof | error => simp [childRead, childSize, answerBytes]

/-- What a child delivers before its first AGAIN. -/
def promptBytes : Child → List UInt8
  | .normal data :: child => data ++ promptBytes child
  | _ => []

theorem childRead_prompt {count : Nat} {child child' : Child} {data : List UInt8}
    (h : childRead count child = (.normal data, child')) :
    data ++ promptBytes child' = promptBytes child ∧ (.again ∈ child ↔ .again ∈ child') := by
  cases child with
  | nil => cases h
  | cons answer child =>
      cases answer with
      | normal whole =>
          simp only [childRead] at h
          split at h
          · cases h
            simp [promptBytes]
          · cases h
            rw [promptBytes, promptBytes, ← List.append_assoc, List.take_append_drop]
            simp
      | again | eof | error => cases h

theorem childRead_nonempty {count : Nat} {child : Child} (h : (childRead count child).1 ≠ .eof) :
    child ≠ [] := by
  rintro rfl
  exact h rfl

/-- The child that delivers the given reads, where none is an AGAIN between
them, and then is at end of file. -/
def ofReads (reads : List (Option (List UInt8))) : Child :=
  reads.map (fun read => read.elim .again .normal)

/-- The bytes delivered by a list of reads. -/
def readBytes (reads : List (Option (List UInt8))) : List UInt8 :=
  reads.flatMap (fun read => read.getD [])

@[simp] theorem childBytes_ofReads (reads : List (Option (List UInt8))) :
    childBytes (ofReads reads) = readBytes reads := by
  rw [childBytes, ofReads, readBytes, List.flatMap_map]
  congr 1
  funext read
  cases read <;> rfl

/-- A child that delivers bytes, with AGAINs in between, and then fails or is
at end of file. -/
inductive Ends : Bool → Child → Prop
  | eof : Ends false []
  | error : Ends true [.error]
  | again {fails : Bool} {child : Child} (h : Ends fails child) : Ends fails (.again :: child)
  | normal {fails : Bool} {child : Child} (data : List UInt8) (h : Ends fails child) :
      Ends fails (.normal data :: child)

def ending (fails : Bool) : Child := if fails then [.error] else []

theorem ends_ofReads (reads : List (Option (List UInt8))) (fails : Bool) :
    Ends fails (ofReads reads ++ ending fails) := by
  induction reads with
  | nil => cases fails <;> constructor
  | cons read reads ih =>
      cases read with
      | none => exact .again ih
      | some data => exact .normal data ih

@[simp] theorem childBytes_append (a b : Child) : childBytes (a ++ b) = childBytes a ++ childBytes b := by
  simp [childBytes]

@[simp] theorem childBytes_ending (fails : Bool) : childBytes (ending fails) = [] := by
  cases fails <;> rfl

/-- What a read of such a child answers. -/
theorem Ends.read {fails : Bool} {child : Child} (h : Ends fails child) (count : Nat) :
    (∃ data child', childRead count child = (.normal data, child') ∧ Ends fails child') ∨
      (∃ child', childRead count child = (.again, child') ∧ Ends fails child') ∨
      (fails = false ∧ child = [] ∧ childRead count child = (.eof, [])) ∨
      (fails = true ∧ childBytes child = [] ∧ childRead count child = (.error, [])) := by
  cases h with
  | eof => exact .inr (.inr (.inl ⟨rfl, rfl, rfl⟩))
  | error => exact .inr (.inr (.inr ⟨rfl, rfl, rfl⟩))
  | again h => exact .inr (.inl ⟨_, rfl, h⟩)
  | normal data h =>
      refine .inl ?_
      by_cases hd : data.length ≤ count
      · exact ⟨data, _, by simp [childRead, hd], h⟩
      · exact ⟨data.take count, .normal (data.drop count) :: _, by simp [childRead, hd], .normal _ h⟩

end Libzorpll.ChildStream
