import Mathlib.Logic.Function.Basic
import Libzorpll.StartupResult
import Libzorpll.Supervise
import Libzorpll.Trace

/-! The startup process, the supervisor and its daemons, and the pipes through
which they tell each other how the start went. -/

namespace Libzorpll.StartupSystem

open StartupResult
open Supervise (Outcome restarts)

inductive Halt
  | assertion
  | memory

/-- ZProcessMode -/
inductive Mode
  | foreground
  | background
  | safeBackground
  deriving DecidableEq

/-- ZProcessKind -/
inductive Kind
  | startup
  | supervisor
  | daemon
  deriving DecidableEq

/-- Daemons have the number of the fork that they come from. -/
inductive Party
  | startup
  | supervisor
  | daemon (k : Nat)
  deriving DecidableEq

/-- init_result_pipe is another pipe for each daemon. -/
inductive PipeId
  | startupResult
  | initResult (k : Nat)
  deriving DecidableEq

/-- What is in a pipe, and the processes that have its write end open. -/
structure Pipe where
  data : List UInt8 := []
  writers : List Party := []

/-- The two descriptors of a pipe, none where they are -1. -/
structure Fds where
  read : Option PipeId := none
  write : Option PipeId := none

/-- Where a process is: a startup process before and in
z_process_perform_startup, a supervisor at the top of its loop, in
z_process_recv_result, with the result and with its child, and a daemon behind
z_process_start. -/
inductive Phase
  | unborn
  | starting
  | performingStartup
  | spawning
  | receiving
  | received (rc : Int)
  | supervising (rc : Int)
  | serving
  | exited (status : Nat)
  | killed (signal : Nat)

/-- The phases in which a process takes steps. -/
def Phase.alive : Phase → Bool
  | .unborn | .exited _ | .killed _ => false
  | _ => true

structure Process where
  phase : Phase := .unborn
  processKind : Kind := .startup
  startupResultPipe : Fds := {}
  initResultPipe : Fds := {}

/-- `first` is a variable of the supervisor, `forks` the number of daemons. -/
structure System where
  mode : Mode
  restartMax : Int
  process : Party → Process
  pipe : PipeId → Pipe
  first : Bool := true
  forks : Nat := 0

inductive Event
  | told (p : Party) (retNum : Int)
  | startFailed (p : Party)

/-! System calls -/

def setProcess (p : Party) (process : Process) (s : System) : System :=
  { s with process := Function.update s.process p process }

def setPipe (id : PipeId) (pipe : Pipe) (s : System) : System :=
  { s with pipe := Function.update s.pipe id pipe }

def closeWrite (id : PipeId) (p : Party) (s : System) : System :=
  setPipe id { s.pipe id with writers := (s.pipe id).writers.filter (· ≠ p) } s

/-- A process that ends closes all that it has open. -/
def endProcess (p : Party) (phase : Phase) (s : System) : System :=
  { setProcess p { s.process p with phase := phase } s with
    pipe := fun id => { s.pipe id with writers := (s.pipe id).writers.filter (· ≠ p) } }

/-- The child gets the variables of its parent and all that it has open. -/
def fork (parent child : Party) (s : System) : System :=
  { setProcess child (s.process parent) s with
    pipe := fun id =>
      if parent ∈ (s.pipe id).writers then { s.pipe id with writers := child :: (s.pipe id).writers } else s.pipe id }

/-! Results -/

/-- The descriptor that z_process_send_result writes to. -/
def sendFd (self : Process) : Except Halt (Option PipeId) :=
  match self.processKind with
  | .supervisor => .ok self.startupResultPipe.write
  | .daemon => .ok self.initResultPipe.write
  | .startup => .error .assertion

def dropSendFd (self : Process) : Process :=
  match self.processKind with
  | .supervisor => { self with startupResultPipe := { self.startupResultPipe with write := none } }
  | _ => { self with initResultPipe := { self.initResultPipe with write := none } }

def sendResult (p : Party) (retNum : Int) (s : System) : Except Halt (List Event × System) :=
  match sendFd (s.process p) with
  | .error halt => .error halt
  | .ok none => .ok ([], s)
  | .ok (some id) =>
      match resultText retNum with
      | none => .error .memory
      | some text =>
          let s := setPipe id { s.pipe id with data := (s.pipe id).data ++ text } s
          .ok ([.told p retNum], setProcess p (dropSendFd (s.process p)) (closeWrite id p s))

/-- The descriptor that z_process_recv_result reads from. -/
def recvFd (self : Process) : Except Halt (Option PipeId) :=
  match self.processKind with
  | .supervisor => .ok self.initResultPipe.read
  | .startup => .ok self.startupResultPipe.read
  | .daemon => .error .assertion

def dropRecvFd (self : Process) : Process :=
  match self.processKind with
  | .supervisor => { self with initResultPipe := { self.initResultPipe with read := none } }
  | _ => { self with startupResultPipe := { self.startupResultPipe with read := none } }

/-- A read that finds nothing waits as long as somebody could write. -/
def waits (pipe : Pipe) : Prop := pipe.data = [] ∧ pipe.writers ≠ []

instance (pipe : Pipe) : Decidable (waits pipe) := inferInstanceAs (Decidable (_ ∧ _))

/-- The result, none as long as the read waits. -/
def recvResult (p : Party) (s : System) : Except Halt (Option (Int × System)) :=
  match recvFd (s.process p) with
  | .error halt => .error halt
  | .ok none => .ok (some (1, s))
  | .ok (some id) =>
      if waits (s.pipe id) then .ok none
      else
        match resultOf ((s.pipe id).data.take retBufSize) with
        | none => .error .memory
        | some rc =>
            .ok (some (rc, setProcess p (dropRecvFd (s.process p))
              (setPipe id { s.pipe id with data := (s.pipe id).data.drop retBufSize } s)))

/-! z_process_start. What a process closes right behind a fork nobody else
sees open. -/

/-- The descriptor of the write end is closed and stays in its variable. -/
def startBackground (s : System) : System :=
  let id := PipeId.initResult 0
  let s := setPipe id { writers := [.startup] } s
  let s := setProcess .startup { s.process .startup with initResultPipe := ⟨some id, some id⟩ } s
  let s := closeWrite id .startup (fork .startup (.daemon 0) s)
  let startup := s.process .startup
  let daemon := s.process (.daemon 0)
  let s := setProcess .startup { startup with
    phase := .performingStartup
    startupResultPipe := { startup.startupResultPipe with read := startup.initResultPipe.read }
    initResultPipe := { startup.initResultPipe with read := none } } s
  { setProcess (.daemon 0) { daemon with
      phase := .serving
      processKind := .daemon
      initResultPipe := { daemon.initResultPipe with read := none } } s with forks := 1 }

def startSafeBackground (s : System) : System :=
  let id := PipeId.startupResult
  let s := setPipe id { writers := [.startup] } s
  let s := setProcess .startup { s.process .startup with startupResultPipe := ⟨some id, some id⟩ } s
  let s := closeWrite id .startup (fork .startup .supervisor s)
  let startup := s.process .startup
  let supervisor := s.process .supervisor
  let s := setProcess .startup { startup with
    phase := .performingStartup
    startupResultPipe := { startup.startupResultPipe with write := none } } s
  setProcess .supervisor { supervisor with
    phase := .spawning
    processKind := .supervisor
    startupResultPipe := { supervisor.startupResultPipe with read := none } } s

def processStart (s : System) : System :=
  match s.mode with
  | .foreground => setProcess .startup { s.process .startup with phase := .serving, processKind := .daemon } s
  | .background => startBackground s
  | .safeBackground => startSafeBackground s

/-- The pipe and the fork of an iteration of z_process_perform_supervise. -/
def spawn (s : System) : System :=
  let id := PipeId.initResult s.forks
  let s := setPipe id { writers := [.supervisor] } s
  let s := setProcess .supervisor { s.process .supervisor with initResultPipe := ⟨some id, some id⟩ } s
  let s := closeWrite id .supervisor (fork .supervisor (.daemon s.forks) s)
  let supervisor := s.process .supervisor
  let daemon := s.process (.daemon s.forks)
  let s := setProcess .supervisor { supervisor with
    phase := .receiving
    initResultPipe := { supervisor.initResultPipe with write := none } } s
  { setProcess (.daemon s.forks) { daemon with
      phase := .serving
      processKind := .daemon
      initResultPipe := { daemon.initResultPipe with read := none } } s with forks := s.forks + 1 }

/-- What the supervisor finds when it stops waiting for its child. A child
whose initialization failed or that is deadlocked may have survived. -/
def Ends (rc : Int) (child : Phase) : Outcome → Prop
  | .noChild => False
  | .initFailed => rc ≠ 0
  | .deadlock => rc = 0
  | .signalled signal => rc = 0 ∧ child = .killed signal
  | .exited code => rc = 0 ∧ child = .exited code

inductive Action
  | start
  | startFails
  | await
  | spawn
  | spawnFails
  | receive
  | report
  | collect (restartCount : Nat) (outcome : Outcome)
  | startupOk (p : Party)
  | startupFailed (p : Party) (retNum : Int) (mayExit : Bool)
  | exit (p : Party) (retNum : Int)
  | kill (p : Party) (signal : Nat)

/-- What is done in one piece: system calls with what a process does for
itself behind them. -/
inductive Step : Action → System → List Event → System → Prop
  | start {s} (hphase : (s.process .startup).phase = .starting) : Step .start s [] (processStart s)
  | startFails {s} (hphase : (s.process .startup).phase = .starting) (hmode : s.mode ≠ .foreground) :
      Step .startFails s [.startFailed .startup] (endProcess .startup (.exited (exitStatus 1)) s)
  | await {s rc t} (hphase : (s.process .startup).phase = .performingStartup)
      (hrecv : recvResult .startup s = .ok (some (rc, t))) :
      Step .await s [] (endProcess .startup (.exited (exitStatus rc)) t)
  | spawn {s} (hphase : (s.process .supervisor).phase = .spawning) : Step .spawn s [] (spawn s)
  | spawnFails {s told t} (hphase : (s.process .supervisor).phase = .spawning)
      (hsend : sendResult .supervisor 1 s = .ok (told, t)) :
      Step .spawnFails s (.startFailed .supervisor :: told) (endProcess .supervisor (.exited (exitStatus 1)) t)
  | receive {s rc t} (hphase : (s.process .supervisor).phase = .receiving)
      (hrecv : recvResult .supervisor s = .ok (some (rc, t))) :
      Step .receive s [] (setProcess .supervisor { t.process .supervisor with phase := .received rc } t)
  | report {s rc told t} (hphase : (s.process .supervisor).phase = .received rc) (hfirst : s.first = true)
      (hsend : sendResult .supervisor rc s = .ok (told, t)) :
      Step .report s told
        (if rc ≠ 0 then endProcess .supervisor (.exited (exitStatus 0)) t
        else { setProcess .supervisor { t.process .supervisor with phase := .supervising rc } t with first := false })
  | reportLater {s rc} (hphase : (s.process .supervisor).phase = .received rc) (hfirst : s.first = false) :
      Step .report s [] (setProcess .supervisor { s.process .supervisor with phase := .supervising rc } s)
  | collect {s rc} (restartCount : Nat) (outcome : Outcome)
      (hphase : (s.process .supervisor).phase = .supervising rc)
      (hends : Ends rc (s.process (.daemon (s.forks - 1))).phase outcome) :
      Step (.collect restartCount outcome) s []
        (if restarts s.restartMax false restartCount outcome then
          setProcess .supervisor { s.process .supervisor with phase := .spawning } s
        else endProcess .supervisor (.exited (exitStatus 0)) s)
  | startupOk {s told t} (p : Party) (hphase : (s.process p).phase = .serving)
      (hsend : sendResult p 0 s = .ok (told, t)) : Step (.startupOk p) s told t
  | startupFailed {s told t} (p : Party) (retNum : Int) (mayExit : Bool)
      (hphase : (s.process p).phase = .serving) (hsend : sendResult p retNum s = .ok (told, t)) :
      Step (.startupFailed p retNum mayExit) s told
        (if mayExit then endProcess p (.exited (exitStatus retNum)) t else t)
  | exit {s} (p : Party) (retNum : Int) (hphase : (s.process p).phase = .serving) :
      Step (.exit p retNum) s [] (endProcess p (.exited (exitStatus retNum)) s)
  | kill {s} (p : Party) (signal : Nat) (halive : (s.process p).phase.alive = true) :
      Step (.kill p signal) s [] (endProcess p (.killed signal) s)

/-- The results that the program gives itself. -/
def Allowed : Action → System → Prop
  | .startupFailed _ retNum _, _ => ShortResult retNum
  | _, _ => True

def initial (mode : Mode) (restartMax : Int) : System where
  mode := mode
  restartMax := restartMax
  process := Function.update (fun _ => {}) .startup { phase := .starting }
  pipe := fun _ => {}

/-- All runs from the call of z_process_start on. -/
def Run (mode : Mode) (restartMax : Int) (es : List Event) (s : System) : Prop :=
  Trace.Steps Step Allowed (initial mode restartMax) es s

end Libzorpll.StartupSystem
