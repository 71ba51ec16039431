import Mathlib.Logic.Function.Basic
import Libzorpll.Region
import Libzorpll.Word

/-! The settings of the streams of a stack, and the saving and restoring of
those of its top. -/

namespace Libzorpll.StreamContext

open Region Word

inductive Direction
  | read
  | pri
  | write
  deriving DecidableEq

/-- A callback, its user data and the destroy notify of this. -/
structure SetCb (P D : Type) where
  cb : Option P := none
  cbData : Option D := none
  cbNotify : Option P := none
  deriving DecidableEq

/-- A call of a destroy notify, with what it was called on. -/
structure Notice (P D : Type) where
  notify : P
  data : Option D
  deriving DecidableEq

/-- The fields that a stream and a context have in common, for each
direction. -/
structure Watch (P D : Type) where
  want : Direction → BitVec 32 := fun _ => 0
  callback : Direction → SetCb P D := fun _ => {}

variable {P D : Type}

/-- The call of a notify that is there, whatever the user data is. -/
def notifyOld (old : SetCb P D) : List (Notice P D) :=
  match old.cbNotify with
  | some notify => [⟨notify, old.cbData⟩]
  | none => []

/-- The call of a notify if the user data is there, too. -/
def notifySet (old : SetCb P D) : List (Notice P D) :=
  match old.cbData, old.cbNotify with
  | some data, some notify => [⟨notify, some data⟩]
  | _, _ => []

/-- ZST_CTRL_SET_CALLBACK_READ and its siblings. -/
def setCallback (d : Direction) (cb : SetCb P D) (self : Watch P D) : List (Notice P D) × Watch P D :=
  (notifyOld (self.callback d), { self with callback := Function.update self.callback d cb })

def notifyAll (callback : Direction → SetCb P D) : List (Notice P D) :=
  notifySet (callback .read) ++ notifySet (callback .write) ++ notifySet (callback .pri)

/-- The notify fields are left as they are. -/
def dropCallbacks (self : Watch P D) : List (Notice P D) × Watch P D :=
  (notifyAll self.callback,
    { self with callback := fun d => { self.callback d with cb := none, cbData := none } })

inductive LineSetting
  | truncate
  | nulNonfatal
  | split
  | singleRead
  | pollPartial
  | returnEol
  deriving DecidableEq

def LineSetting.flag : LineSetting → BitVec 32
  | .truncate => 0x20
  | .nulNonfatal => 0x10
  | .split => 0x40
  | .singleRead => 0x80
  | .pollPartial => 0x100
  | .returnEol => 0x200

/-- The class of a stream, with the fields of its own that a context is
about. -/
inductive Class
  | fd (channelFlags : BitVec 32)
  | line (flags : BitVec 32)
  | buf
  | tee
  | gzip
  | ssl
  | blob
  deriving DecidableEq

structure ZStream (P D : Type) where
  own : Class
  timeout : BitVec 32 := -2
  watch : Watch P D := {}

/-- A stream and the streams below it. -/
abbrev Stack (P D : Type) := List (ZStream P D)

inductive CtrlFunction
  | getCond (d : Direction)
  | setCond (d : Direction)
  | getCallback (d : Direction)
  | setCallback (d : Direction)
  | setTimeoutBlock
  | setNonblock
  | getNonblock
  | lineSet (setting : LineSetting)
  | lineGet (setting : LineSetting)
  deriving DecidableEq

/-- What the value pointer of a control call points to; the length says which
of the two it is. -/
inductive Value (P D : Type)
  | int (v : BitVec 32)
  | setCb (cb : SetCb P D)

def gboolean (b : Bool) : BitVec 32 := if b then 1 else 0

/-- The answer of a stream itself to a control call. -/
structure Reply (P D : Type) where
  res : Bool
  value : Value P D
  notified : List (Notice P D) := []
  stream : ZStream P D

/-- The answer of a stack. -/
structure Answer (P D : Type) where
  res : Bool
  value : Value P D
  notified : List (Notice P D) := []
  stack : Stack P D

/-- The cases of z_stream_ctrl_method, but for the default one. -/
def baseReply (s : ZStream P D) : CtrlFunction → Value P D → Option (Reply P D)
  | .getCond d, .int _ => some { res := true, value := .int (s.watch.want d), stream := s }
  | .setCond d, .int v =>
      some { res := true, value := .int v
             stream := { s with watch.want := Function.update s.watch.want d v } }
  | .getCallback d, .setCb _ =>
      some { res := true, value := .setCb (s.watch.callback d), stream := s }
  | .setCallback d, .setCb cb =>
      let (notified, watch) := setCallback d cb s.watch
      some { res := true, value := .setCb cb, notified := notified, stream := { s with watch := watch } }
  | .setTimeoutBlock, .int v =>
      some { res := true, value := .int v, stream := { s with timeout := v } }
  | .setNonblock, _ | .getNonblock, _ | .lineSet _, _ | .lineGet _, _ => none
  | _, value => some { res := false, value := value, stream := s }

/-- A call that is passed on to the child keeps its flags. -/
def ctrlMethod (s : ZStream P D) (child : Stack P D) (ctrlChild : Value P D → Answer P D) (forward : Bool)
    (function : CtrlFunction) (value : Value P D) : Answer P D :=
  match baseReply s function value with
  | none =>
      if child = [] then { res := false, value := value, stack := [s] }
      else
        let a := ctrlChild value
        { a with stack := s :: a.stack }
  | some r =>
      if r.res && forward && !child.isEmpty then
        let a := ctrlChild r.value
        { a with notified := r.notified ++ a.notified, stack := r.stream :: a.stack }
      else { res := r.res, value := r.value, notified := r.notified, stack := r.stream :: child }

/-- G_IO_FLAG_NONBLOCK -/
def flagNonblock : BitVec 32 := 2

def fdReply (s : ZStream P D) (channelFlags : BitVec 32) : CtrlFunction → Value P D → Option (Reply P D)
  | .setNonblock, .int v =>
      let flags := if v ≠ 0 then channelFlags ||| flagNonblock else channelFlags &&& ~~~flagNonblock
      some { res := true, value := .int v, stream := { s with own := .fd flags } }
  | .getNonblock, .int _ =>
      let nonblock := gboolean (channelFlags &&& flagNonblock ≠ 0)
      some { res := true, value := .int nonblock, stream := s }
  | .setNonblock, value | .getNonblock, value => some { res := false, value := value, stream := s }
  | _, _ => none

def blobReply (s : ZStream P D) : CtrlFunction → Value P D → Option (Reply P D)
  | .setNonblock, .int v =>
      let timeout := if v ≠ 0 then 0 else -1
      some { res := true, value := .int v, stream := { s with timeout := timeout } }
  | .getNonblock, .int _ =>
      some { res := true, value := .int (gboolean (s.timeout = 0)), stream := s }
  | .setNonblock, value | .getNonblock, value => some { res := false, value := value, stream := s }
  | _, _ => none

def lineReply (s : ZStream P D) (flags : BitVec 32) : CtrlFunction → Value P D → Option (Reply P D)
  | .lineSet setting, .int v =>
      let flags := if v ≠ 0 then flags ||| setting.flag else flags &&& ~~~setting.flag
      some { res := true, value := .int v, stream := { s with own := .line flags } }
  | .lineGet setting, .int _ =>
      some { res := true, value := .int (gboolean (flags &&& setting.flag ≠ 0)), stream := s }
  | .lineSet _, value | .lineGet _, value => some { res := false, value := value, stream := s }
  | _, _ => none

/-- What the control method of a class answers before it calls that of
ZStream. -/
def classReply (s : ZStream P D) : CtrlFunction → Value P D → Option (Reply P D) :=
  match s.own with
  | .fd flags => fdReply s flags
  | .blob => blobReply s
  | .line flags => lineReply s flags
  | _ => fun _ _ => none

/-- Whether the control method of a class sets ZST_CTRL_MSG_FORWARD. -/
def setsForward : Class → CtrlFunction → Bool
  | .fd _, _ | .blob, _ => false
  | .buf, .setCond _ => false
  | _, .setCallback _ => false
  | _, _ => true

/-- z_stream_ctrl. There is always a stream. -/
def ctrl : Stack P D → Bool → CtrlFunction → Value P D → Answer P D
  | [], _, _, value => { res := false, value := value, stack := [] }
  | s :: child, forward, function, value =>
      match classReply s function value with
      | some r =>
          { res := r.res, value := r.value, notified := r.notified, stack := r.stream :: child }
      | none =>
          let forward := forward || setsForward s.own function
          ctrlMethod s child (ctrl child forward function) forward function value

def setNonblock (stack : Stack P D) (nonblock : BitVec 32) : Stack P D :=
  (ctrl stack false .setNonblock (.int nonblock)).stack

/-- The local variable is not initialised; it is what it was if no stream
answers. -/
def getNonblock (uninit : BitVec 32) (stack : Stack P D) : BitVec 32 :=
  match (ctrl stack false .getNonblock (.int uninit)).value with
  | .int v => v
  | .setCb _ => uninit

/-- ZRL_SAVED_FLAGS_MASK -/
def savedFlagsMask : BitVec 32 := 0x0000FFFF

def extraGetSize : Stack P D → Nat
  | [] => 0
  | s :: child =>
      match s.own with
      | .fd _ | .line _ => extraGetSize child + 4
      | _ => extraGetSize child

variable (host : ByteOrder)

/-- The offset and the block after the method of a class; the child has its
part of the block first. -/
def extraSave (uninit : BitVec 32) : Stack P D → List UInt8 → Except Abort (Nat × List UInt8)
  | [], extra => .ok (0, extra)
  | s :: child, extra => do
      let (ofs, extra) ← extraSave uninit child extra
      match s.own with
      | .fd _ =>
          let extra ← write extra ofs (encode host 4 (getNonblock uninit (s :: child)).toNat)
          return (ofs + 4, extra)
      | .line flags =>
          let extra ← write extra ofs (encode host 4 (flags &&& savedFlagsMask).toNat)
          return (ofs + 4, extra)
      | _ => return (ofs, extra)

def extraRestore (extra : List UInt8) : Stack P D → Except Abort (Nat × Stack P D)
  | [] => .ok (0, [])
  | s :: child => do
      let (ofs, child) ← extraRestore extra child
      match s.own with
      | .fd _ =>
          let bytes ← read extra ofs 4
          return (ofs + 4, setNonblock (s :: child) (BitVec.ofNat 32 (decode host bytes)))
      | .line flags =>
          let bytes ← read extra ofs 4
          let saved := BitVec.ofNat 32 (decode host bytes)
          let flags := (flags &&& ~~~savedFlagsMask) ||| (saved &&& savedFlagsMask)
          return (ofs + 4, { s with own := .line flags } :: child)
      | _ => return (ofs, s :: child)

structure Context (P D : Type) where
  restored : Bool
  watch : Watch P D
  timeout : BitVec 32
  nonblocking : BitVec 32
  streamExtra : Option (List UInt8)

/-- An allocation of no bytes is a NULL pointer. -/
def malloc0 (size : Nat) : Option (List UInt8) :=
  if size = 0 then none else some (List.replicate size 0)

def saveContext (uninit : BitVec 32) (self : ZStream P D) (child : Stack P D) :
    Except Abort (ZStream P D × Context P D) := do
  let nonblocking := getNonblock uninit (self :: child)
  let saved := { self with watch := {} }
  let (_, extra) ← extraSave host uninit (saved :: child)
    ((malloc0 (extraGetSize (saved :: child))).getD [])
  return (saved,
    { restored := false
      watch := self.watch
      timeout := self.timeout
      nonblocking := nonblocking
      streamExtra := (malloc0 (extraGetSize (saved :: child))).map (fun _ => extra) })

def restoreExtra (streamExtra : Option (List UInt8)) (stack : Stack P D) : Except Abort (Stack P D) :=
  match streamExtra with
  | some extra => (extraRestore host extra stack).map Prod.snd
  | none => .ok stack

/-- The result, the notifies called, the streams and the context after it. -/
structure Restored (P D : Type) where
  res : Bool
  notified : List (Notice P D)
  stack : Stack P D
  context : Context P D

def restoreContext (self : ZStream P D) (child : Stack P D) (context : Context P D) :
    Except Abort (Restored P D) :=
  if context.restored then
    .ok { res := false, notified := [], stack := self :: child, context := context }
  else do
    let (notified, _) := dropCallbacks self.watch
    let self := { self with watch := context.watch, timeout := context.timeout }
    let stack := setNonblock (self :: child) context.nonblocking
    let stack ← restoreExtra host context.streamExtra stack
    return {
      res := true
      notified := notified
      stack := stack
      context := { context with streamExtra := none, restored := true } }

/-- z_stream_context_destroy -/
def contextDestroy (context : Context P D) : List (Notice P D) × Context P D :=
  if context.restored then ([], context)
  else (notifyAll context.watch.callback, { context with streamExtra := none, restored := true })

end Libzorpll.StreamContext
