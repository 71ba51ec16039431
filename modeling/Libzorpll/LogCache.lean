import Libzorpll.LogSpec
import Mathlib.Logic.Function.Basic

/-! The decision whether a message is logged, and its caches. -/

namespace Libzorpll.LogCache

open LogSpec

/-- An assertion that fails, a gint that overflows or an access outside of an
array. -/
inductive Halt
  | assertion
  | overflow
  | memory
  deriving DecidableEq

/-- A lookup in the hash table answers NULL for what is not in it, which is
the number 0. -/
structure LogTagCache where
  emptyHash : Bool := false
  used : Bool := false
  tagHash : Tag → Int := fun _ => 0

/-- The global variables, with one current cache a thread. -/
structure LogState (T : Type) where
  logSpec : LogSpec
  logtagCaches : List LogTagCache := []
  currentLogtagCache : T → Option Nat := fun _ => none
  logMapTag : Option (Tag → Nat → Int) := none
  logMappedTagsVerb : List UInt8 := []

def gintMax : Int := 2 ^ 31 - 1

def gintMin : Int := -2 ^ 31

variable {T : Type}

def clearCaches (s : LogState T) : LogState T :=
  { s with
    logtagCaches := s.logtagCaches.map fun lc => { lc with emptyHash := true }
    logMappedTagsVerb := s.logMappedTagsVerb.map fun _ => 0 }

/-- The byte that is stored for a verbosity. -/
def verbByte (verbose : Int) : UInt8 := UInt8.ofNat ((verbose % 256).toNat + 1)

def enabledMapped (ndx : Int) (tag : Tag) (level : Int) (s : LogState T) :
    Except Halt (Bool × LogState T) :=
  if ndx < 0 then .error .memory
  else
    match s.logMappedTagsVerb[ndx.toNat]? with
    | none => .error .memory
    | some verb =>
        if verb ≠ 0 then .ok (level ≤ (verb.toNat : Int) - 1, s)
        else
          let verbose := logSpecEval s.logSpec tag
          .ok (level ≤ verbose,
            { s with logMappedTagsVerb := s.logMappedTagsVerb.set ndx.toNat (verbByte verbose) })

def enabledHashed (thread : T) (tag : Tag) (level : Int) (s : LogState T) :
    Except Halt (Bool × LogState T) :=
  match s.currentLogtagCache thread with
  | none => .ok (level ≤ s.logSpec.verboseLevel, s)
  | some i =>
      match s.logtagCaches[i]? with
      | none => .error .memory
      | some lc =>
          let lc := if lc.emptyHash then { lc with tagHash := fun _ => 0, emptyHash := false } else lc
          if lc.tagHash tag = 0 then
            let verbose := logSpecEval s.logSpec tag
            if verbose = gintMax then .error .overflow
            else
              let lc := { lc with tagHash := Function.update lc.tagHash tag (verbose + 1) }
              .ok (level ≤ verbose, { s with logtagCaches := s.logtagCaches.set i lc })
          else .ok (level ≤ lc.tagHash tag - 1, { s with logtagCaches := s.logtagCaches.set i lc })

def enabledLen (thread : T) (tag : Tag) (tagLen : Nat) (level : Int) (s : LogState T) :
    Except Halt (Bool × LogState T) :=
  if s.logSpec.items = [] then .ok (level ≤ s.logSpec.verboseLevel, s)
  else
    match s.logMapTag with
    | some mapTag =>
        let ndx := mapTag tag tagLen
        if ndx ≠ -1 then enabledMapped ndx tag level s else enabledHashed thread tag level s
    | none => enabledHashed thread tag level s

/-- "core.info" -/
def coreInfo : Tag := [0x63, 0x6f, 0x72, 0x65, 0x2e, 0x69, 0x6e, 0x66, 0x6f]

/-- "core.error" -/
def coreError : Tag := [0x63, 0x6f, 0x72, 0x65, 0x2e, 0x65, 0x72, 0x72, 0x6f, 0x72]

/-- A message, which is written or not. -/
def log (thread : T) (tag : Tag) (level : Int) (s : LogState T) : Except Halt (LogState T) :=
  (enabledLen thread tag tag.length level s).map Prod.snd

/-- The level that is asked for, before it is cut to what is allowed. -/
def changedLevel (direction value old : Int) : Int :=
  if direction < 0 then old - value else if direction = 0 then value else old + value

def changeVerboseLevel (thread : T) (direction value : Int) (s : LogState T) : Except Halt (LogState T) :=
  let old := s.logSpec.verboseLevel
  let level := changedLevel direction value old
  if level < gintMin ∨ gintMax < level then .error .overflow
  else
    let level := if level < 0 then 0 else level
    let level := if 10 < level then 10 else level
    let s := { s with logSpec := { s.logSpec with verboseLevel := level } }
    if old ≠ level then log thread coreInfo 0 (clearCaches s) else .ok s

def changeLogspec (thread : T) (newLogSpecStr : Option (List UInt8)) (s : LogState T) :
    Except Halt (Bool × LogState T) :=
  match newLogSpecStr with
  | none => .ok (true, s)
  | some str =>
      match logSpecInit str s.logSpec.verboseLevel with
      | some newSpec =>
          (log thread coreInfo 0 (clearCaches { s with logSpec := newSpec })).map fun s => (true, s)
      | none => (log thread coreError 0 s).map fun s => (false, s)

variable [DecidableEq T]

/-- The first cache that is not used, or a new one. -/
def grabCache (thread : T) (s : LogState T) : LogState T :=
  let i := s.logtagCaches.findIdx fun lc => !lc.used
  { s with
    logtagCaches :=
      match s.logtagCaches[i]? with
      | some lc => s.logtagCaches.set i { lc with used := true }
      | none => s.logtagCaches ++ [{ used := true }]
    currentLogtagCache := Function.update s.currentLogtagCache thread (some i) }

/-- The thread keeps its pointer to the cache. -/
def releaseCache (thread : T) (s : LogState T) : LogState T :=
  match s.currentLogtagCache thread with
  | none => s
  | some i => { s with logtagCaches := s.logtagCaches.modify i fun lc => { lc with used := false } }

def enableTagMapCache (mapTags : Tag → Nat → Int) (maxTag : Nat) (s : LogState T) :
    Except Halt (LogState T) :=
  if s.logMapTag.isSome then .error .assertion
  else .ok { s with logMapTag := some mapTags, logMappedTagsVerb := List.replicate maxTag 0 }

/-- The calls, each by a thread. -/
inductive LogOp (T : Type)
  | enabled (thread : T) (tag : Tag) (tagLen : Nat) (level : Int)
  | changeVerboseLevel (thread : T) (direction value : Int)
  | changeLogspec (thread : T) (newLogSpecStr : Option (List UInt8))
  | grabCache (thread : T)
  | releaseCache (thread : T)
  | enableTagMapCache (mapTags : Tag → Nat → Int) (maxTag : Nat)

def step (op : LogOp T) (s : LogState T) : Except Halt (Bool × LogState T) :=
  match op with
  | .enabled thread tag tagLen level => enabledLen thread tag tagLen level s
  | .changeVerboseLevel thread direction value =>
      (changeVerboseLevel thread direction value s).map fun s => (true, s)
  | .changeLogspec thread newLogSpecStr => changeLogspec thread newLogSpecStr s
  | .grabCache thread => .ok (true, grabCache thread s)
  | .releaseCache thread => .ok (true, releaseCache thread s)
  | .enableTagMapCache mapTags maxTag => (enableTagMapCache mapTags maxTag s).map fun s => (true, s)

end Libzorpll.LogCache
