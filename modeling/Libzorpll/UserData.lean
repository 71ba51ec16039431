import Libzorpll.Custody
import Libzorpll.StreamStack
import Libzorpll.Trace
import Libzorpll.ContextIdentity

/-! The user data that streams and contexts hold, over the calls that hand it
around. -/

namespace Libzorpll.UserData

open Word StreamContext StreamStack Custody

/-- A user data that came with a notify. The serial number tells apart the
calls that gave the same pointers; it is no part of what the code sees. -/
structure Registration (P D : Type) where
  notify : P
  data : D
  serial : Nat
  deriving DecidableEq

inductive Action (ι κ P D : Type)
  | setCallback (self : ι) (d : Direction) (cb : Option P) (data : Option D) (notify : Option P)
  | stack (op : StackOp ι)
  | dropCallbacks (self : ι)
  | saveContext (self : ι) (context : κ)
  | restoreContext (self : ι) (context : κ)
  | contextDestroy (context : κ)

inductive Event (P D : Type)
  | registered (r : Registration P D)
  | notified (notice : Notice P (D × Nat))
  | overwritten (r : Registration P D)
  deriving DecidableEq

/-- The streams of a program and its contexts, which are nothing before they
are saved to. -/
structure State (ι κ P D : Type) where
  streams : Streams ι
  watches : ι → Watch P (D × Nat) := fun _ => {}
  contexts : κ → Option (Context P (D × Nat)) := fun _ => none
  serial : Nat := 0

variable {ι κ P D : Type}

def registration (cb : SetCb P (D × Nat)) : Option (Registration P D) :=
  match cb.cbNotify, cb.cbData with
  | some notify, some (data, serial) => some ⟨notify, data, serial⟩
  | _, _ => none

/-- What is registered in a context that has not been restored. -/
def pending (context : Option (Context P (D × Nat))) (d : Direction) : Option (Registration P D) :=
  match context with
  | some context => if context.restored then none else registration (context.watch.callback d)
  | none => none

def registeredAs (cb : SetCb P (D × Nat)) : List (Event P D) :=
  (registration cb).toList.map .registered

def overwritten (context : Option (Context P (D × Nat))) : List (Event P D) :=
  [Direction.read, .write, .pri].flatMap (fun d => (pending context d).toList.map .overwritten)

/-- The child that an operation on a stack takes off its stream. -/
def droppedChild (op : StackOp ι) (s : Streams ι) : Option ι :=
  match op with
  | .push _ newTop => (s newTop).child
  | .pop self | .setChild self _ => (s self).child

variable [DecidableEq ι] [DecidableEq κ]

def dropWatch (child : Option ι) (watches : ι → Watch P (D × Nat)) :
    List (Notice P (D × Nat)) × (ι → Watch P (D × Nat)) :=
  match child with
  | none => ([], watches)
  | some child =>
      let (notified, watch) := dropCallbacks (watches child)
      (notified, Function.update watches child watch)

variable [Fintype ι]

/-- A call, with what it registers, notifies and overwrites. The other
settings of a stream and the streams below it are whatever they are. -/
inductive Step : Action ι κ P D → State ι κ P D → List (Event P D) → State ι κ P D → Prop
  | setCallback {s : State ι κ P D} (self : ι) (d : Direction) (cb : Option P) (data : Option D)
      (notify : Option P) {top u : ZStream P (D × Nat)} {below below' : Stack P (D × Nat)}
      {new : SetCb P (D × Nat)} {answer : Answer P (D × Nat)}
      (hnew : new = ⟨cb, data.map (fun data => (data, s.serial)), notify⟩)
      (htop : top.watch = s.watches self)
      (hctrl : ctrl (top :: below) false (.setCallback d) (.setCb new) = answer)
      (hanswer : answer.stack = u :: below') :
      Step (.setCallback self d cb data notify) s
        (answer.notified.map .notified ++ registeredAs new)
        { s with watches := Function.update s.watches self u.watch, serial := s.serial + 1 }
  | stack {s : State ι κ P D} (op : StackOp ι) {top : Option ι} {streams : Streams ι}
      (hstep : stackStep op s.streams = .ok (top, streams)) :
      Step (.stack op) s ((dropWatch (droppedChild op s.streams) s.watches).1.map .notified)
        { s with
          streams := streams
          watches := (dropWatch (droppedChild op s.streams) s.watches).2 }
  | dropCallbacks {s : State ι κ P D} (self : ι) :
      Step (.dropCallbacks self) s ((dropWatch (some self) s.watches).1.map .notified)
        { s with watches := (dropWatch (some self) s.watches).2 }
  | saveContext {s : State ι κ P D} (self : ι) (k : κ) (host : ByteOrder) (uninit : BitVec 32)
      {top saved : ZStream P (D × Nat)} {below : Stack P (D × Nat)} {context : Context P (D × Nat)}
      (htop : top.watch = s.watches self)
      (hsave : saveContext host uninit top below = .ok (saved, context)) :
      Step (.saveContext self k) s (overwritten (s.contexts k))
        { s with
          watches := Function.update s.watches self saved.watch
          contexts := Function.update s.contexts k (some context) }
  | restoreContext {s : State ι κ P D} (self : ι) (k : κ) (host : ByteOrder)
      {top u : ZStream P (D × Nat)} {below below' : Stack P (D × Nat)}
      {context : Context P (D × Nat)} {restored : Restored P (D × Nat)}
      (hcontext : s.contexts k = some context) (htop : top.watch = s.watches self)
      (hrestore : restoreContext host top below context = .ok restored)
      (hstack : restored.stack = u :: below') :
      Step (.restoreContext self k) s (restored.notified.map .notified)
        { s with
          watches := Function.update s.watches self u.watch
          contexts := Function.update s.contexts k (some restored.context) }
  | contextDestroy {s : State ι κ P D} (k : κ) {context : Context P (D × Nat)}
      (hcontext : s.contexts k = some context) :
      Step (.contextDestroy k) s ((contextDestroy context).1.map .notified)
        { s with contexts := Function.update s.contexts k (some (contextDestroy context).2) }

def start (streams : Streams ι) : State ι κ P D where
  streams := streams

end Libzorpll.UserData
