import Mathlib.Data.List.Basic

/-! The supervisor of a daemon and its window of restart times. -/

namespace Libzorpll.Supervise

def procRestartMax : Nat := 30

structure ProcessOpts where
  restartMax : Int
  restartInterval : Int
  deriving DecidableEq

/-- What z_process_perform_supervise makes of the options before its loop. -/
def normalise (opts : ProcessOpts) : ProcessOpts :=
  let opts := if procRestartMax < opts.restartMax then { opts with restartMax := procRestartMax } else opts
  let opts := if opts.restartMax < 2 then { opts with restartMax := 5 } else opts
  let restartIntervalMin := max 5 (3 * opts.restartMax)
  if opts.restartInterval < restartIntervalMin then { opts with restartInterval := 5 } else opts

/-- What comes of a child: none can be started, its initialization fails, it
is killed as deadlocked, dies of a signal or exits with a code. -/
inductive Outcome
  | noChild
  | initFailed
  | deadlock
  | signalled (signal : Nat)
  | exited (code : Nat)
  deriving DecidableEq

/-- One iteration of the loop sees two answers of time. -/
structure Iteration where
  now : Int
  time : Int
  outcome : Outcome

/-- The array is not initialised. -/
structure Supervisor where
  opts : ProcessOpts
  restartTime : Vector Int procRestartMax
  restartTimeCount : Nat := 0
  first : Bool := true

/-! In the answers below, none is an access outside of the array. -/

def memmove (restartTime : Vector Int procRestartMax) (dst src n : Nat) :
    Option (Vector Int procRestartMax) :=
  if h : dst + n ≤ procRestartMax ∧ src + n ≤ procRestartMax then
    some (Vector.ofFn fun i =>
      if hi : dst ≤ i ∧ i < dst + n then restartTime[src + (i - dst)] else restartTime[i])
  else none

def sizeofTimeT : Nat := 8

/-- The source of the move is a pointer to numbers of type time_t, to which
the size of one of them is added. -/
def freeSlot (self : Supervisor) : Option Supervisor :=
  if self.restartTimeCount = procRestartMax then
    (memmove self.restartTime 0 sizeofTimeT (procRestartMax - 1)).map fun restartTime =>
      { self with restartTime := restartTime, restartTimeCount := self.restartTimeCount - 1 }
  else some self

/-- The loop over i from the last time down, with i + 1 to go. -/
def countLoop (restartTime : Vector Int procRestartMax) (fromTime : Int) : Nat → Nat → Option Nat
  | 0, restartCount => some restartCount
  | i + 1, restartCount =>
      match restartTime[i]? with
      | none => none
      | some time => if fromTime ≤ time then countLoop restartTime fromTime i (restartCount + 1) else some restartCount

/-- The part of an iteration before the child is started, which sets
restart_count. -/
def record (now time : Int) (self : Supervisor) : Option (Nat × Supervisor) :=
  match freeSlot self with
  | none => none
  | some self =>
      if h : self.restartTimeCount < procRestartMax then
        let self := { self with
          restartTime := self.restartTime.set self.restartTimeCount time h
          restartTimeCount := self.restartTimeCount + 1 }
        (countLoop self.restartTime (now - self.opts.restartInterval) self.restartTimeCount 1).map
          fun restartCount => (restartCount, self)
      else none

def sigKill : Nat := 9

/-- Whether the loop goes on behind a child. -/
def restarts (restartMax : Int) (first : Bool) (restartCount : Nat) : Outcome → Bool
  | .noChild => false
  | .initFailed => !first && decide (restartCount ≤ restartMax)
  | .deadlock => decide (restartCount ≤ restartMax)
  | .signalled signal => decide (signal ≠ sigKill) && decide (restartCount ≤ restartMax)
  | .exited code => decide (code ≠ 0) && decide (restartCount ≤ restartMax)

/-- The loop, with what each iteration has recorded. -/
def superviseLoop : List Iteration → Supervisor → Option (List (Nat × Supervisor))
  | [], _ => some []
  | i :: is, self =>
      match record i.now i.time self with
      | none => none
      | some (restartCount, self) =>
          if restarts self.opts.restartMax self.first restartCount i.outcome then
            (superviseLoop is { self with first := false }).map fun rest => (restartCount, self) :: rest
          else some [(restartCount, self)]

def performSupervise (opts : ProcessOpts) (uninitialised : Vector Int procRestartMax)
    (is : List Iteration) : Option (List (Nat × Supervisor)) :=
  superviseLoop is { opts := normalise opts, restartTime := uninitialised }

end Libzorpll.Supervise
