import Mathlib.Data.Fintype.Card
import Mathlib.Data.BitVec
import Libzorpll.Links

namespace Libzorpll.StreamStack

open Relation

/-- A stream as a member of a stack, with pointers to its neighbours. -/
structure Stream (ι : Type) where
  name : String
  timeout : Int := -2
  umbrellaState : BitVec 32
  umbrellaFlags : BitVec 32
  stackDepth : Nat := 0
  parent : Option ι := none
  child : Option ι := none

/-- The streams of a program, which keeps a reference to each of them. -/
abbrev Streams (ι : Type) := ι → Stream ι

inductive Abort
  | assertion
  | diverges
  deriving DecidableEq

def streamNew {ι : Type} (name : String) (umbrellaFlags : BitVec 32) : Stream ι where
  name := name
  umbrellaState := umbrellaFlags
  umbrellaFlags := umbrellaFlags

variable {ι : Type} [DecidableEq ι]

def modify (s : Streams ι) (p : ι) (f : Stream ι → Stream ι) : Streams ι :=
  Function.update s p (f (s p))

/-- The first half of z_stream_set_child_method. -/
def detachChild (self : ι) (s : Streams ι) : Except Abort (Streams ι) :=
  match (s self).child with
  | none => .ok s
  | some child =>
      if (s child).parent = some self then
        let s := modify s child (fun p => { p with umbrellaState := p.umbrellaFlags, parent := none })
        .ok (modify s self (fun p => { p with child := none }))
      else .error .assertion

/-- The loop that masks the streams below p. -/
def maskChildren (flags : BitVec 32) : Nat → ι → Streams ι → Except Abort (Streams ι)
  | 0, _, _ => .error .diverges
  | fuel + 1, p, s =>
      match (s p).child with
      | none => .ok s
      | some child =>
          maskChildren flags fuel child
            (modify s child (fun p => { p with umbrellaState := p.umbrellaState &&& ~~~flags }))

variable [Fintype ι]

/-- The second half. A walk that takes more steps than there are streams goes
round for ever. -/
def attachChild (self newChild : ι) (s : Streams ι) : Except Abort (Streams ι) :=
  if (s newChild).parent = none then
    let depth := (s newChild).stackDepth + 1
    let name := (s newChild).name
    let s := modify s self (fun p => { p with stackDepth := depth, name := name })
    let s := modify s newChild (fun p => { p with parent := some self })
    let timeout := (s newChild).timeout
    let s := modify s self (fun p => { p with child := some newChild, timeout := timeout })
    maskChildren (s self).umbrellaFlags (Fintype.card ι + 1) self s
  else .error .assertion

def setChild (self : ι) (newChild : Option ι) (s : Streams ι) : Except Abort (Streams ι) := do
  let s ← detachChild self s
  match newChild with
  | some newChild => attachChild self newChild s
  | none => return s

def push (self newTop : ι) (s : Streams ι) : Except Abort (Option ι × Streams ι) := do
  let s ← setChild newTop (some self) s
  return (some newTop, s)

def pop (self : ι) (s : Streams ι) : Except Abort (Option ι × Streams ι) :=
  match (s self).child with
  | none => .ok (none, s)
  | some newTop => do
      let s := modify s self (fun p => { p with umbrellaState := p.umbrellaFlags })
      let s ← setChild self none s
      return (some newTop, modify s newTop (fun p => { p with umbrellaState := p.umbrellaFlags }))

inductive StackOp (ι : Type)
  | push (self newTop : ι)
  | pop (self : ι)
  | setChild (self : ι) (newChild : Option ι)

/-- An operation, with the top of the stack that it returns. -/
def stackStep (op : StackOp ι) (s : Streams ι) : Except Abort (Option ι × Streams ι) :=
  match op with
  | .push self newTop => push self newTop s
  | .pop self => pop self s
  | .setChild self newChild => (setChild self newChild s).map (fun s => (none, s))

end Libzorpll.StreamStack
