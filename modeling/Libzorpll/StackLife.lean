import Mathlib.Data.Fintype.Option
import Mathlib.Logic.Function.Basic
import Libzorpll.Trace

/-! The end of a stream stack: the references to its streams and to its
structure, given back by the threads that close, detach and drop it and by the
main loop that calls its callbacks. -/

namespace Libzorpll.StackLife

/-- The parent of the stream i is i - 1 and its child is i + 1, where it has
them. Its ZStreamSource has a reference of its own. -/
structure Stream where
  refcnt : Int := 1
  structRef : Int := 1
  parent : Bool := false
  child : Bool := false
  source : Bool := false
  sourceRef : Bool := false
  deriving DecidableEq

abbrev Streams := Nat → Stream

def modify (i : Nat) (f : Stream → Stream) (s : Streams) : Streams := Function.update s i (f (s i))

def streamRef (i : Nat) : Streams → Streams := modify i fun p => { p with refcnt := p.refcnt + 1 }

def streamUnref (i : Nat) : Streams → Streams := modify i fun p => { p with refcnt := p.refcnt - 1 }

def structRef (i : Nat) : Streams → Streams := modify i fun p => { p with structRef := p.structRef + 1 }

/-- z_stream_set_child_method of the stream i, where it has no child. -/
def setChild (i : Nat) (s : Streams) : Streams :=
  let s := modify (i + 1) (fun p => { p with parent := true }) (streamRef i s)
  let s := modify i (fun p => { p with child := true }) (streamRef (i + 1) s)
  structRef (i + 1) s

/-- z_stream_push of the stream i. -/
def push (i : Nat) (s : Streams) : Streams := streamUnref (i + 1) (setChild i s)

/-- From the bottom to the top. -/
def pushes : Nat → Streams → Streams
  | 0, s => s
  | i + 1, s => pushes i (push i s)

/-- z_stream_attach_source_method of the stream i, with so many streams below. -/
def attach : Nat → Nat → Streams → Streams
  | below, i, s =>
      let s := structRef i (streamRef i s)
      let s := match below with
        | 0 => s
        | below + 1 => if (s i).child then attach below (i + 1) s else s
      let s := modify i (fun p => { p with source := true, sourceRef := true }) (streamRef i s)
      streamUnref i s

/-- What a call has yet to do, and the calls that wait for it. -/
inductive Frame
  | close (i : Nat)
  | detach (i : Nat)
  | descend (i : Nat)
  | structUnref (i : Nat)
  | unlink (i : Nat)
  | unref (i : Nat)
  | detached
  | grab (i : Nat) (poll : Bool)
  | callback (i top : Nat)
  | inCallback (i top : Nat)
  | release (i : Nat) (poll : Bool)
  deriving DecidableEq

inductive Event (T : Type)
  | touched (i : Nat)
  | freed (i : Nat)
  | aborted
  | called (i : Nat)
  | detached (a : Option T)
  deriving DecidableEq

/-- What is true of a stream on the way of z_stream_source_grab_ref; own is the
in_call of its caller. -/
def passes (inCall : Nat → Bool) (s : Streams) (p : Nat) (own : Bool) : Bool := (s p).source && (own || !inCall p)

/-- The top of the stack, where z_stream_source_grab_ref comes there. -/
def grabRef (inCall : Nat → Bool) (s : Streams) : Nat → Bool → Option Nat
  | 0, own => if passes inCall s 0 own then some 0 else none
  | p + 1, own =>
      if passes inCall s (p + 1) own then
        if (s (p + 1)).parent then grabRef inCall s p false else some (p + 1)
      else none

/-- The streams it looks at. -/
def walked (inCall : Nat → Bool) (s : Streams) : Nat → Bool → List Nat
  | 0, _ => [0]
  | p + 1, own =>
      if passes inCall s (p + 1) own && (s (p + 1)).parent then (p + 1) :: walked inCall s p false else [p + 1]

structure Outcome (T : Type) where
  streams : Streams
  frames : List Frame := []
  events : List (Event T) := []

variable {T : Type}

/-- z_stream_free_method asserts that there is no child. -/
def freeing (i : Nat) (s : Streams) : List (Event T) :=
  if (s i).refcnt - 1 = 0 then if (s i).child then [.aborted] else [.freed i] else []

/-- What the first frame of a thread does, with the frames that it leaves. The
callback itself comes back when it likes. -/
def exec (a : Option T) (inCall : Nat → Bool) (s : Streams) : Frame → Option (Outcome T)
  | .close i => some
      { streams := s
        frames := if (s i).child then [.close (i + 1), .structUnref i] else [.structUnref i]
        events := [.touched i] }
  | .detach i => some
      { streams := modify i (fun p => { p with source := false }) s
        frames := if (s i).source then [.descend i, .structUnref i] else [.descend i]
        events := [.touched i] }
  | .descend i => some { streams := s, frames := if (s i).child then [.detach (i + 1)] else [], events := [.touched i] }
  | .structUnref i =>
      let t := modify i (fun p => { p with structRef := p.structRef - 1 }) s
      if (s i).structRef - 1 = 0 ∧ (s i).child = true then some
        { streams := streamRef (i + 1) t
          frames := [.unlink i, .unref (i + 1)]
          events := [.touched i, .touched (i + 1)] }
      else some { streams := t, events := [.touched i] }
  | .unlink i =>
      if (s i).child then
        if (s (i + 1)).parent then some
          { streams := modify i (fun p => { p with child := false }) (modify (i + 1) (fun p => { p with parent := false }) s)
            frames := [.structUnref (i + 1), .unref (i + 1), .unref i]
            events := [.touched i, .touched (i + 1)] }
        else some { streams := s, events := [.touched i, .touched (i + 1), .aborted] }
      else some { streams := s, events := [.touched i] }
  | .unref i => some { streams := streamUnref i s, events := .touched i :: freeing i s }
  | .detached => some { streams := s, events := [.detached a] }
  | .grab i poll => some (
      match grabRef inCall s i (!poll) with
      | some top =>
          { streams := structRef top s
            frames := if poll then [.structUnref top] else [.callback i top, .structUnref top]
            events := (walked inCall s i (!poll)).map .touched }
      | none => { streams := s, events := (walked inCall s i (!poll)).map .touched })
  | .callback i top => some { streams := s, frames := [.inCallback i top], events := [.touched i, .called i] }
  | .inCallback _ _ => none
  | .release _ _ => some { streams := s }

/-- The thread of the main loop is none. A stack is open until it is closed,
and attached until it is detached, by z_stream_detach or by a callback that
returns FALSE. The references to its top belong to threads. -/
structure Stack (T : Type) where
  depth : Nat
  streams : Streams
  isOpen : Bool := true
  attached : Bool
  hold : Option T → Nat
  todo : Option T → List Frame := fun _ => []

/-- The source is in its dispatch. -/
def inCall (s : Stack T) (i : Nat) : Bool := decide (Frame.release i false ∈ s.todo none)

def AtHome (s : Stack T) (a : Option T) : Prop :=
  s.todo a = [] ∨ ∃ i top rest, s.todo a = .inCallback i top :: rest

def MayCall (s : Stack T) (a : Option T) : Prop := AtHome s a ∧ 0 < s.hold a

inductive Action
  | run
  | share
  | drop
  | close
  | detach
  | dispatch
  | comeBack (ret : Bool)
  | finalize

variable [DecidableEq T]

def setTodo (a : Option T) (todo : List Frame) (s : Stack T) : Stack T :=
  { s with todo := Function.update s.todo a todo }

def setHold (a : Option T) (n : Nat) (s : Stack T) : Stack T := { s with hold := Function.update s.hold a n }

inductive Step : Action → Stack T → List (Event T) → Stack T → Prop
  | run {s : Stack T} (a : Option T) {f rest out} (htodo : s.todo a = f :: rest)
      (hexec : exec a (inCall s) s.streams f = some out) :
      Step .run s out.events (setTodo a (out.frames ++ rest) { s with streams := out.streams })
  | share {s : Stack T} (a b : Option T) (hmay : MayCall s a) :
      Step .share s [.touched 0] (setHold b (s.hold b + 1) { s with streams := streamRef 0 s.streams })
  | drop {s : Stack T} (a : Option T) (hmay : MayCall s a) :
      Step .drop s [] (setTodo a (.unref 0 :: s.todo a) (setHold a (s.hold a - 1) s))
  | close {s : Stack T} (a : Option T) (hmay : MayCall s a) :
      Step .close s [] (setTodo a (.close 0 :: s.todo a) { s with isOpen := false })
  | detach {s : Stack T} (a : Option T) (hmay : MayCall s a) :
      Step .detach s [] (setTodo a (.detach 0 :: .detached :: s.todo a) { s with attached := false })
  | dispatch {s : Stack T} (i : Nat) (poll : Bool) (hhome : AtHome s none) (hsource : (s.streams i).source = true)
      (hcall : inCall s i = false) :
      Step .dispatch s [] (setTodo none (.grab i poll :: .release i poll :: s.todo none) s)
  | comeBack {s : Stack T} {i top rest} (htodo : s.todo none = .inCallback i top :: rest) :
      Step (.comeBack true) s [] (setTodo none rest s)
  | comeBackFalse {s : Stack T} {i top rest} (htodo : s.todo none = .inCallback i top :: rest) :
      Step (.comeBack false) s [.touched top] (setTodo none (.detach top :: .detached :: .unref top :: rest)
        { s with streams := streamRef top s.streams, attached := false })
  | finalize {s : Stack T} (i : Nat) (hgone : (s.streams i).source = false) (href : (s.streams i).sourceRef = true)
      (huse : ∀ poll, .release i poll ∉ s.todo none) :
      Step .finalize s (.touched i :: freeing i s.streams)
        { s with streams := modify i (fun p => { p with refcnt := p.refcnt - 1, sourceRef := false }) s.streams }

/-- A program closes a stack once, and detaches it once if it is attached. -/
def Once : Action → Stack T → Prop
  | .close, s => s.isOpen = true
  | .detach, s | .comeBack false, s => s.attached = true
  | _, _ => True

/-- A stack that a thread has made of new streams, and attached perhaps. -/
def made (user : Option T) (depth : Nat) (polled : Bool) : Stack T where
  depth := depth
  streams := if polled then attach depth 0 (pushes depth fun _ => {}) else pushes depth fun _ => {}
  attached := polled
  hold := fun a => if a = user then 1 else 0

def Run (user : Option T) (depth : Nat) (polled : Bool) (es : List (Event T)) (s : Stack T) : Prop :=
  Trace.Steps Step Once (made user depth polled) es s

end Libzorpll.StackLife
