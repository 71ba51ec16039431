import Libzorpll.LogDecision
import Libzorpll.Trace
import Libzorpll.Versions

/-! Threads that ask whether a message is logged, while others change what is
logged. -/

namespace Libzorpll.LogRace

open LogSpec LogCache

/-- A call of z_log_enabled_len, with the number of the specification that was
settled when it began, and whether its thread has a cache. -/
structure Query where
  tag : Tag
  level : Int
  since : Nat
  cached : Bool

/-- Where a thread is: in z_log_enabled_len, in z_log_change_verbose_level or
z_log_change_logspec, or in z_log_clear_caches with the number of the
specification that it has set. -/
inductive Pc
  | idle
  | stopped
  | entered (q : Query)
  | plain (q : Query)
  | mapping (q : Query)
  | unmapped (q : Query)
  | hashing (q : Query)
  | emptying (q : Query) (i : Nat)
  | looking (q : Query) (i : Nat)
  | missing (q : Query) (i : Nat)
  | storing (q : Query) (i : Nat) (verbose : Int)
  | parsed (newSpec : LogSpec)
  | levelRead (direction value old : Int)
  | levelSet (old : Int) (v : Nat)
  | waiting (v : Nat)
  | clearing (v i : Nat)
  | wiping (v j : Nat)

/-- The thread is in z_log_change_verbose_level, before it clears the caches. -/
def Pc.levels : Pc → Bool
  | .levelRead .. | .levelSet .. => true
  | _ => false

/-- The thread is changing what is logged. -/
def Pc.changes : Pc → Bool
  | .parsed _ | .levelRead .. | .levelSet .. | .waiting _ | .clearing .. | .wiping .. => true
  | _ => false

/-- The number of the specification that the thread has set. -/
def Pc.version : Pc → Option Nat
  | .levelSet _ v | .waiting v | .clearing v _ | .wiping v _ => some v
  | _ => none

/-- The thread has the lock of the caches for longer than one step. -/
def Pc.locks : Pc → Bool
  | .clearing .. => true
  | _ => false

/-- All specifications so far, the number of the last one whose change has
cleared the caches, and where the threads are. -/
structure Sys (T : Type) extends LogState T where
  history : List LogSpec
  settled : Nat := 0
  pc : T → Pc := fun _ => .idle

inductive Event (T : Type)
  | asked (t : T) (q : Query)
  | answered (t : T) (q : Query) (r : Bool)
  | changed (t : T) (v : Nat)

inductive Action
  | changeVerboseLevel
  | changeLogspec
  | other

variable {T : Type} [DecidableEq T]

def setPc (t : T) (pc : Pc) (s : Sys T) : Sys T := { s with pc := Function.update s.pc t pc }

def setCache (i : Nat) (lc : LogTagCache) (s : Sys T) : Sys T :=
  { s with logtagCaches := s.logtagCaches.set i lc }

def setSpec (spec : LogSpec) (s : Sys T) : Sys T :=
  { s with logSpec := spec, history := s.history ++ [spec] }

/-- The level of a z_log_change_verbose_level, cut to what is allowed. -/
def newLevel (direction value old : Int) : Int :=
  let level := changedLevel direction value old
  let level := if level < 0 then 0 else level
  if 10 < level then 10 else level

/-- The ID of a tag in the array. -/
def tagNdx (s : Sys T) (tag : Tag) : Option Int :=
  match s.logMapTag with
  | some mapTag => if mapTag tag tag.length = -1 then none else some (mapTag tag tag.length)
  | none => none

/-- The level is a gint before it is cut. -/
def LevelFits (direction value old : Int) : Prop :=
  gintMin ≤ changedLevel direction value old ∧ changedLevel direction value old ≤ gintMax

def CacheLockFree (s : Sys T) : Prop := ∀ u, (s.pc u).locks = false

/-- The steps of the threads, each of which reads or writes something that
others write or read, or holds the lock of the specification or of the caches.
A verbosity is compared with old outside of the lock. -/
inductive Step : T × Action → Sys T → List (Event T) → Sys T → Prop
  | enter {s t q} (hpc : s.pc t = .idle) (hsince : q.since = s.settled)
      (hcached : q.cached = (s.currentLogtagCache t).isSome) :
      Step (t, .other) s [.asked t q] (setPc t (.entered q) s)
  | noItems {s t q} (hpc : s.pc t = .entered q) (hitems : s.logSpec.items = []) :
      Step (t, .other) s [] (setPc t (.plain q) s)
  | items {s t q} (hpc : s.pc t = .entered q) (hitems : s.logSpec.items ≠ []) :
      Step (t, .other) s [] (setPc t (if (tagNdx s q.tag).isSome then .mapping q else .hashing q) s)
  | plain {s t q} (hpc : s.pc t = .plain q) :
      Step (t, .other) s [.answered t q (q.level ≤ s.logSpec.verboseLevel)] (setPc t .idle s)
  | mapped {s t q ndx verb} (hpc : s.pc t = .mapping q) (hndx : tagNdx s q.tag = some ndx) (hlow : 0 ≤ ndx)
      (hread : s.logMappedTagsVerb[ndx.toNat]? = some verb) (hverb : verb ≠ 0) :
      Step (t, .other) s [.answered t q (q.level ≤ (verb.toNat : Int) - 1)] (setPc t .idle s)
  | notMapped {s t q ndx} (hpc : s.pc t = .mapping q) (hndx : tagNdx s q.tag = some ndx) (hlow : 0 ≤ ndx)
      (hread : s.logMappedTagsVerb[ndx.toNat]? = some 0) :
      Step (t, .other) s [] (setPc t (.unmapped q) s)
  | map {s t q ndx} (hpc : s.pc t = .unmapped q) (hndx : tagNdx s q.tag = some ndx) (hlow : 0 ≤ ndx)
      (hhigh : ndx.toNat < s.logMappedTagsVerb.length) :
      Step (t, .other) s [.answered t q (q.level ≤ logSpecEval s.logSpec q.tag)]
        (setPc t .idle { s with
          logMappedTagsVerb := s.logMappedTagsVerb.set ndx.toNat (verbByte (logSpecEval s.logSpec q.tag)) })
  | noCache {s t q} (hpc : s.pc t = .hashing q) (hcurrent : s.currentLogtagCache t = none) :
      Step (t, .other) s [] (setPc t (.plain q) s)
  | empty {s t q i lc} (hpc : s.pc t = .hashing q) (hcurrent : s.currentLogtagCache t = some i)
      (hcache : s.logtagCaches[i]? = some lc) (hempty : lc.emptyHash = true) :
      Step (t, .other) s [] (setPc t (.emptying q i) (setCache i { lc with tagHash := fun _ => 0 } s))
  | emptied {s t q i lc} (hpc : s.pc t = .emptying q i) (hcache : s.logtagCaches[i]? = some lc) :
      Step (t, .other) s [] (setPc t (.looking q i) (setCache i { lc with emptyHash := false } s))
  | notEmpty {s t q i lc} (hpc : s.pc t = .hashing q) (hcurrent : s.currentLogtagCache t = some i)
      (hcache : s.logtagCaches[i]? = some lc) (hempty : lc.emptyHash = false) :
      Step (t, .other) s [] (setPc t (.looking q i) s)
  | hit {s t q i lc} (hpc : s.pc t = .looking q i) (hcache : s.logtagCaches[i]? = some lc)
      (hhit : lc.tagHash q.tag ≠ 0) :
      Step (t, .other) s [.answered t q (q.level ≤ lc.tagHash q.tag - 1)] (setPc t .idle s)
  | miss {s t q i lc} (hpc : s.pc t = .looking q i) (hcache : s.logtagCaches[i]? = some lc)
      (hmiss : lc.tagHash q.tag = 0) :
      Step (t, .other) s [] (setPc t (.missing q i) s)
  | eval {s t q i} (hpc : s.pc t = .missing q i) (hfits : logSpecEval s.logSpec q.tag ≠ gintMax) :
      Step (t, .other) s [] (setPc t (.storing q i (logSpecEval s.logSpec q.tag)) s)
  | store {s t q i verbose lc} (hpc : s.pc t = .storing q i verbose) (hcache : s.logtagCaches[i]? = some lc) :
      Step (t, .other) s [.answered t q (q.level ≤ verbose)]
        (setPc t .idle (setCache i { lc with tagHash := Function.update lc.tagHash q.tag (verbose + 1) } s))
  | parse {s t} (str : List UInt8) (newSpec : LogSpec) (hpc : s.pc t = .idle)
      (hparse : logSpecInit str s.logSpec.verboseLevel = some newSpec) :
      Step (t, .changeLogspec) s [] (setPc t (.parsed newSpec) s)
  | install {s t newSpec} (hpc : s.pc t = .parsed newSpec) :
      Step (t, .other) s [] (setPc t (.waiting s.history.length) (setSpec newSpec s))
  | readLevel {s t} (direction value : Int) (hpc : s.pc t = .idle) :
      Step (t, .changeVerboseLevel) s [] (setPc t (.levelRead direction value s.logSpec.verboseLevel) s)
  | setLevel {s t direction value old} (hpc : s.pc t = .levelRead direction value old)
      (hfits : LevelFits direction value s.logSpec.verboseLevel)
      (hnew : newLevel direction value s.logSpec.verboseLevel ≠ s.logSpec.verboseLevel) :
      Step (t, .other) s [] (setPc t (.levelSet old s.history.length) (setSpec
        { s.logSpec with verboseLevel := newLevel direction value s.logSpec.verboseLevel } s))
  | sameLevel {s t direction value old} (hpc : s.pc t = .levelRead direction value old)
      (hfits : LevelFits direction value s.logSpec.verboseLevel)
      (hnew : newLevel direction value s.logSpec.verboseLevel = s.logSpec.verboseLevel) :
      Step (t, .other) s [] (setPc t (.levelSet old (s.history.length - 1)) s)
  | changed {s t old v} (hpc : s.pc t = .levelSet old v) (hold : old ≠ s.logSpec.verboseLevel) :
      Step (t, .other) s [] (setPc t (.waiting v) s)
  | unchanged {s t old v} (hpc : s.pc t = .levelSet old v) (hold : old = s.logSpec.verboseLevel) :
      Step (t, .other) s [.changed t v] (setPc t .idle s)
  | lockCaches {s t v} (hpc : s.pc t = .waiting v) (hfree : CacheLockFree s) :
      Step (t, .other) s [] (setPc t (.clearing v 0) s)
  | clear {s t v i lc} (hpc : s.pc t = .clearing v i) (hcache : s.logtagCaches[i]? = some lc) :
      Step (t, .other) s [] (setPc t (.clearing v (i + 1)) (setCache i { lc with emptyHash := true } s))
  | unlockCaches {s t v i} (hpc : s.pc t = .clearing v i) (hend : s.logtagCaches[i]? = none) :
      Step (t, .other) s [] (setPc t (.wiping v 0) s)
  | wipe {s t v j} (hpc : s.pc t = .wiping v j) (hj : j < s.logMappedTagsVerb.length) :
      Step (t, .other) s [] (setPc t (.wiping v (j + 1)) { s with logMappedTagsVerb := s.logMappedTagsVerb.set j 0 })
  | cleared {s t v j} (hpc : s.pc t = .wiping v j) (hj : s.logMappedTagsVerb.length ≤ j) :
      Step (t, .other) s [.changed t v] (setPc t .idle { s with settled := max s.settled v })
  | started {s t} (hpc : s.pc t = .idle) (hcurrent : s.currentLogtagCache t = none) (hfree : CacheLockFree s) :
      Step (t, .other) s [] { s with toLogState := grabCache t s.toLogState }
  | stopped {s t} (hpc : s.pc t = .idle) (hfree : CacheLockFree s) :
      Step (t, .other) s [] (setPc t .stopped { s with toLogState := releaseCache t s.toLogState })

/-- A change of the verbosity and another change do not overlap: what the
first compares with old could be the work of the other. -/
def Apart : T × Action → Sys T → Prop
  | (_, .changeVerboseLevel), s => ∀ u, (s.pc u).changes = false
  | (_, .changeLogspec), s => ∀ u, (s.pc u).levels = false
  | (_, .other), _ => True

def initial (T : Type) (spec : LogSpec) (mapTag : Option (Tag → Nat → Int)) (maxTag : Nat) : Sys T where
  logSpec := spec
  logMapTag := mapTag
  logMappedTagsVerb := List.replicate maxTag 0
  history := [spec]

def Run (spec : LogSpec) (mapTag : Option (Tag → Nat → Int)) (maxTag : Nat) (es : List (Event T)) (s : Sys T) : Prop :=
  Trace.Steps Step Apart (initial T spec mapTag maxTag) es s

end Libzorpll.LogRace
