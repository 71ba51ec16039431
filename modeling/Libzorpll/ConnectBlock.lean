import Libzorpll.Connector
import Libzorpll.Signed

/-! z_connector_start_block beside the connection that the main loop waits
for. -/

namespace Libzorpll.ConnectBlock

open Connector (errorNum)
open Signed

/-- What z_connect comes to; an error can be EINPROGRESS. -/
inductive ConnectStatus
  | normal
  | error (inProgress : Bool)
  deriving DecidableEq

/-- What an attempt meets: the status of z_connect, the address that
z_getsockname finds, when the socket is writable, and its SO_ERROR then, if
getsockopt does not fail. -/
structure Attempt (A : Type) where
  connect : ConnectStatus
  sockname : Option A
  answered : Option Int
  soError : Option Int

/-- The descriptor -1 is none, and user data is there if it has a destroy
function. -/
structure ZConnector (A D : Type) where
  fd : Option D
  localAddr : Option A
  timeout : Int := 30
  userData : Bool

variable {A D : Type}

/-- The answer, the address for local_addr and the connector. -/
def zConnectorStartInternal (a : Attempt A) (self : ZConnector A D) : Bool × Option A × ZConnector A D :=
  if a.connect = .error false then (false, none, self)
  else (true, a.sockname, { self with localAddr := a.sockname.or self.localAddr })

/-! The blocking call -/

inductive PollResult
  | ready
  | timedOut
  | interrupted
  deriving DecidableEq

def pollTimeout (timeoutLeft : Int) : Int := narrow 32 (if timeoutLeft < 0 then 0 else timeoutLeft * 1000)

/-- The loop, by the results of poll and the times at which they come. -/
def pollLoop : List (PollResult × Int) → Option Int
  | [] => none
  | r :: polls => if r.1 = .interrupted then pollLoop polls else some r.2

structure Blocked (A D : Type) where
  success : Bool
  localAddr : Option A
  stream : Option D
  self : ZConnector A D
  later : Int

def zConnectorStartBlock (a : Attempt A) (polls : List (PollResult × Int)) (now : Int) (self : ZConnector A D) :
    Option (Blocked A D) :=
  let started := zConnectorStartInternal a self
  if started.1 then
    (pollLoop polls).map fun later => {
      success := true
      localAddr := started.2.1
      stream := started.2.2.fd
      self := { started.2.2 with fd := none, userData := false }
      later := later }
  else some { success := false, localAddr := none, stream := none, self := started.2.2, later := now }

/-- When a poll can come back, and with what: not after its timeout, and not
after the answer. -/
structure PollReturns (answered : Option Int) (timeout now : Int) (r : PollResult × Int) : Prop where
  after : now ≤ r.2
  inTime : 0 ≤ timeout → r.2 ≤ now + (timeout + 999) / 1000
  atAnswer : ∀ t, answered = some t → r.2 ≤ max now t
  ready : r.1 = .ready → ∃ t, answered = some t ∧ t ≤ r.2
  timedOut : r.1 = .timedOut → 0 ≤ timeout ∧ now + timeout / 1000 ≤ r.2

/-- The polls of a loop, each for what is left of the time. -/
def Polls (answered : Option Int) (timeoutTarget : Int) : Int → List (PollResult × Int) → Prop
  | _, [] => True
  | now, r :: polls =>
      PollReturns answered (pollTimeout (timeoutTarget - now)) now r ∧ Polls answered timeoutTarget r.2 polls

/-! The main loop -/

def timeoutTime (timeout now : Int) : Int := if timeout ≠ -1 then now + timeout else -1

/-- Whether the source has timed out, and whether it is dispatched. -/
def zSocketSourceCheck (timeoutTime now : Int) (revents : Bool) : Bool × Bool :=
  if 0 < timeoutTime ∧ timeoutTime ≤ now then (true, true) else (false, revents)

/-- What the callback gets from a connector that is not cancelled. -/
def zConnectorConnected (timedOut : Bool) (soError : Option Int) (self : ZConnector A D) : Option D × ZConnector A D :=
  if errorNum timedOut soError ≠ 0 then (none, self) else (self.fd, { self with fd := none })

/-- When the main loop has something to dispatch. -/
def wakes (answered : Option Int) (timeoutTime now : Int) : Option Int :=
  match answered with
  | some t => some (if 0 < timeoutTime then min (max now t) (max now timeoutTime) else max now t)
  | none => if 0 < timeoutTime then some (max now timeoutTime) else none

/-- The stream that z_connector_start gets its callback called with. -/
def asyncStream (a : Attempt A) (now : Int) (self : ZConnector A D) : Option D :=
  let started := zConnectorStartInternal a self
  if started.1 then
    (wakes a.answered (timeoutTime self.timeout now) now).bind fun t =>
      let checked := zSocketSourceCheck (timeoutTime self.timeout now) t (a.answered.any (· ≤ t))
      if checked.2 then (zConnectorConnected checked.1 a.soError started.2.2).1 else none
  else none

/-- The blocking call comes back, not after the timeout, with the stream that
the callback would get, and with TRUE if there is one. -/
def Agrees (a : Attempt A) (now : Int) (self : ZConnector A D) : Prop :=
  (∃ polls b, Polls a.answered (now + self.timeout) now polls ∧ zConnectorStartBlock a polls now self = some b) ∧
    ∀ polls b, Polls a.answered (now + self.timeout) now polls → zConnectorStartBlock a polls now self = some b →
      b.stream = asyncStream a now self ∧ b.success = b.stream.isSome ∧
        (self.timeout ≠ -1 → b.later ≤ now + max 0 self.timeout)

/-- The connection is established before the timeout, as far as SO_ERROR can
be found out. -/
def Established (a : Attempt A) (now timeout : Int) : Prop :=
  (∃ t, a.answered = some t ∧ ¬(0 < timeoutTime timeout now ∧ timeoutTime timeout now ≤ max now t)) ∧
    a.soError.getD 0 = 0

variable {a : Attempt A} {self : ZConnector A D} {polls : List (PollResult × Int)} {now later target t : Int} {d : D}

theorem pollTimeout_negative {left : Int} (h : left < 0) : pollTimeout left = 0 := by
  rw [pollTimeout, if_pos h]
  rfl

theorem pollLoop_answered (hanswered : a.answered = some t) (hpolls : Polls a.answered target now polls)
    (hloop : pollLoop polls = some later) : later ≤ max now t := by
  induction polls generalizing now with
  | nil => cases hloop
  | cons r polls ih =>
      obtain ⟨hreturns, hrest⟩ := hpolls
      have hnext := hreturns.atAnswer t hanswered
      rw [pollLoop] at hloop
      split at hloop
      · have hlast := ih hrest hloop
        omega
      · cases hloop
        exact hnext

/-- The loop ends at once when there was no time to begin with. -/
theorem pollLoop_expired (hexpired : target < now) (hpolls : Polls a.answered target now polls)
    (hloop : pollLoop polls = some later) : later ≤ now := by
  induction polls generalizing now with
  | nil => cases hloop
  | cons r polls ih =>
      obtain ⟨hreturns, hrest⟩ := hpolls
      have hafter := hreturns.after
      have hnext := hreturns.inTime
      rw [pollTimeout_negative (by omega)] at hnext
      rw [pollLoop] at hloop
      split at hloop
      · have hlast := ih (by omega) hrest hloop
        omega
      · cases hloop
        omega

theorem polls_end (hanswered : a.answered = some t) (target now : Int) :
    ∃ polls later, Polls a.answered target now polls ∧ pollLoop polls = some later := by
  by_cases hready : 0 ≤ pollTimeout (target - now) → max now t ≤ now + (pollTimeout (target - now) + 999) / 1000
  · refine ⟨[(.ready, max now t)], max now t, ⟨⟨?_, hready, ?_, ?_, by rintro ⟨⟩⟩, trivial⟩, rfl⟩
    · change now ≤ max now t
      omega
    · intro u hu
      cases hanswered.symm.trans hu
      exact Int.le_refl _
    · exact fun _ => ⟨t, hanswered, Int.le_max_right now t⟩
  · rw [Classical.not_imp] at hready
    obtain ⟨hpos, hlate⟩ := hready
    refine ⟨[(.timedOut, now + (pollTimeout (target - now) + 999) / 1000)], _,
      ⟨⟨?_, fun _ => Int.le_refl _, ?_, by rintro ⟨⟩, fun _ => ⟨hpos, ?_⟩⟩, trivial⟩, rfl⟩
    · change now ≤ now + (pollTimeout (target - now) + 999) / 1000
      omega
    · intro u hu
      cases hanswered.symm.trans hu
      change now + (pollTimeout (target - now) + 999) / 1000 ≤ max now t
      omega
    · change now + pollTimeout (target - now) / 1000 ≤ now + (pollTimeout (target - now) + 999) / 1000
      omega

theorem startBlock_refused (h : a.connect = .error false) (polls : List (PollResult × Int)) (now : Int) :
    zConnectorStartBlock a polls now self =
      some { success := false, localAddr := none, stream := none, self := self, later := now } := by
  rw [zConnectorStartBlock, zConnectorStartInternal, if_pos h]
  rfl

theorem startBlock_started (h : a.connect ≠ .error false) {b : Blocked A D}
    (hblock : zConnectorStartBlock a polls now self = some b) :
    pollLoop polls = some b.later ∧ b.success = true ∧ b.stream = self.fd := by
  rw [zConnectorStartBlock, zConnectorStartInternal, if_neg h] at hblock
  obtain ⟨later, hlater, rfl⟩ := Option.map_eq_some_iff.mp hblock
  exact ⟨hlater, rfl, rfl⟩

theorem startBlock_ends (h : a.connect ≠ .error false) (hloop : pollLoop polls = some later) :
    ∃ b, zConnectorStartBlock a polls now self = some b := by
  rw [zConnectorStartBlock, zConnectorStartInternal, if_neg h, hloop]
  exact ⟨_, rfl⟩

theorem asyncStream_refused (h : a.connect = .error false) : asyncStream a now self = none := by
  rw [asyncStream, zConnectorStartInternal, if_pos h]
  rfl

theorem connected_timedOut (soError : Option Int) (self : ZConnector A D) :
    (zConnectorConnected true soError self).1 = none := rfl

theorem connected_answered (soError : Option Int) (hfd : self.fd = some d) :
    (zConnectorConnected false soError self).1 = some d ↔ soError.getD 0 = 0 := by
  have herror : errorNum false soError = soError.getD 0 := rfl
  rw [zConnectorConnected, herror]
  split
  · rename_i hne
    exact iff_of_false (by rintro ⟨⟩) hne
  · rename_i heq
    exact iff_of_true hfd (not_not.mp heq)

/-- The source is dispatched for the earlier of the answer and the timeout. -/
theorem wakes_some (tt now : Int) (hanswered : a.answered = some t) :
    ∃ w, wakes a.answered tt now = some w ∧ w = if 0 < tt ∧ tt ≤ max now t then max now tt else max now t := by
  rw [hanswered]
  refine ⟨_, rfl, ?_⟩
  by_cases hpos : 0 < tt
  · rw [if_pos hpos]
    by_cases hle : tt ≤ max now t
    · rw [if_pos ⟨hpos, hle⟩]
      omega
    · rw [if_neg fun h => hle h.2]
      omega
  · rw [if_neg hpos, if_neg fun h => hpos h.1]

theorem asyncStream_eq (h : a.connect ≠ .error false) : asyncStream a now self =
    (wakes a.answered (timeoutTime self.timeout now) now).bind fun t =>
      if (zSocketSourceCheck (timeoutTime self.timeout now) t (a.answered.any (· ≤ t))).2 then
        (zConnectorConnected (zSocketSourceCheck (timeoutTime self.timeout now) t (a.answered.any (· ≤ t))).1
          a.soError { self with localAddr := a.sockname.or self.localAddr }).1
      else none := by
  rw [asyncStream, zConnectorStartInternal, if_neg h]
  rfl

theorem asyncStream_started (h : a.connect ≠ .error false) (hfd : self.fd = some d) :
    asyncStream a now self = some d ↔ Established a now self.timeout := by
  have hexpired {w : Int} (b : Bool) (hw : 0 < timeoutTime self.timeout now ∧ timeoutTime self.timeout now ≤ w) :
      zSocketSourceCheck (timeoutTime self.timeout now) w b = (true, true) := if_pos hw
  rw [asyncStream_eq h]
  cases hanswered : a.answered with
  | none =>
      have hnot : ¬Established a now self.timeout := by
        rintro ⟨⟨t, ht, -⟩, -⟩
        cases hanswered.symm.trans ht
      refine iff_of_false ?_ hnot
      rw [wakes]
      split
      · rename_i hpos
        rw [Option.bind_some, hexpired _ ⟨hpos, Int.le_max_right _ _⟩, if_pos rfl, connected_timedOut]
        rintro ⟨⟩
      · rintro ⟨⟩
  | some t =>
      obtain ⟨w, hwakes, hw⟩ := wakes_some (timeoutTime self.timeout now) now hanswered
      rw [← hanswered, hwakes, Option.bind_some, hanswered]
      by_cases hlate : 0 < timeoutTime self.timeout now ∧ timeoutTime self.timeout now ≤ max now t
      · rw [if_pos hlate] at hw
        have hnot : ¬Established a now self.timeout := by
          rintro ⟨⟨u, hu, hearly⟩, -⟩
          cases hanswered.symm.trans hu
          exact hearly hlate
        rw [hexpired _ ⟨hlate.1, by omega⟩, if_pos rfl, connected_timedOut]
        exact iff_of_false (by rintro ⟨⟩) hnot
      · rw [if_neg hlate] at hw
        have hready : (some t).any (fun u => decide (u ≤ w)) = true := by
          rw [Option.any_some, decide_eq_true_iff]
          omega
        have hcheck : zSocketSourceCheck (timeoutTime self.timeout now) w true = (false, true) :=
          if_neg (hw ▸ hlate)
        rw [hready, hcheck, if_pos rfl]
        have hstarted : ({ self with localAddr := a.sockname.or self.localAddr } : ZConnector A D).fd = some d := hfd
        have hearly : ∃ t, a.answered = some t ∧
            ¬(0 < timeoutTime self.timeout now ∧ timeoutTime self.timeout now ≤ max now t) :=
          ⟨t, hanswered, hlate⟩
        exact (connected_answered a.soError hstarted).trans (and_iff_right hearly).symm

theorem agrees_refused (h : a.connect = .error false) : Agrees a now self := by
  refine ⟨⟨[], _, trivial, startBlock_refused h [] now⟩, fun polls b _ hblock => ?_⟩
  rw [startBlock_refused h] at hblock
  cases hblock
  refine ⟨(asyncStream_refused h).symm, rfl, fun _ => ?_⟩
  change now ≤ _
  omega

theorem agrees_established (hstart : a.connect ≠ .error false) (hfd : self.fd = some d) (hnow : 0 < now)
    (h : Established a now self.timeout) : Agrees a now self := by
  obtain ⟨t, hanswered, hearly⟩ := h.1
  refine ⟨?_, fun polls b hpolls hblock => ?_⟩
  · obtain ⟨polls, later, hpolls, hloop⟩ := polls_end hanswered (now + self.timeout) now
    obtain ⟨b, hblock⟩ := startBlock_ends hstart hloop
    exact ⟨polls, b, hpolls, hblock⟩
  · obtain ⟨hloop, hsuccess, hstream⟩ := startBlock_started hstart hblock
    refine ⟨?_, ?_, fun htimeout => ?_⟩
    · rw [hstream, hfd, (asyncStream_started hstart hfd).mpr h]
    · rw [hsuccess, hstream, hfd]
      rfl
    · by_cases hneg : self.timeout < 0
      · have hlater := pollLoop_expired (by omega) hpolls hloop
        omega
      · have hlater := pollLoop_answered hanswered hpolls hloop
        rw [timeoutTime, if_pos htimeout] at hearly
        omega

theorem established_of_agrees (hstart : a.connect ≠ .error false) (hfd : self.fd = some d) (h : Agrees a now self) :
    Established a now self.timeout := by
  obtain ⟨⟨polls, b, hpolls, hblock⟩, hall⟩ := h
  have hstream := (hall polls b hpolls hblock).1
  rw [(startBlock_started hstart hblock).2.2, hfd] at hstream
  exact (asyncStream_started hstart hfd).mp hstream.symm

/-- The blocking call is right about connections that fail at once or are
established, and about no others. -/
theorem start_block_agrees_iff (a : Attempt A) (now : Int) (self : ZConnector A D) (d : D) (hfd : self.fd = some d)
    (hnow : 0 < now) :
    Agrees a now self ↔ a.connect = .error false ∨ Established a now self.timeout := by
  by_cases hstart : a.connect = .error false
  · exact iff_of_true (agrees_refused hstart) (.inl hstart)
  · rw [or_iff_right hstart]
    exact ⟨established_of_agrees hstart hfd, agrees_established hstart hfd hnow⟩

/-- A connection that takes two seconds. -/
theorem start_block_agrees_iff_slow :
    Agrees { connect := .error true, sockname := some 7, answered := some 102, soError := some 0 } 100
        { fd := some 3, localAddr := none, userData := true } ↔
      ConnectStatus.error true = .error false ∨
        Established { connect := .error true, sockname := some 7, answered := some 102, soError := some 0 } 100 30 :=
  start_block_agrees_iff _ 100 _ (3 : Nat) rfl (by decide)

/-- A connection that is refused after a second is a stream. -/
theorem start_block_not_agrees :
    ¬Agrees { connect := .error true, sockname := some 7, answered := some 101, soError := some 111 } 100
      { fd := some 3, localAddr := none, userData := true } := by
  intro h
  have hestablished := established_of_agrees (by rintro ⟨⟩) rfl h
  exact absurd hestablished.2 (by decide)

end Libzorpll.ConnectBlock
