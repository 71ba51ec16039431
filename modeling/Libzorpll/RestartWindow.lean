import Libzorpll.Supervise

namespace Libzorpll.RestartWindow

open Supervise

/-! What the window should be -/

/-- The most recent restart times, as many as there is space for. -/
def window (is : List Iteration) : List Int := (is.map Iteration.time).drop (is.length - procRestartMax)

def recent (restartInterval now : Int) (times : List Int) : Nat :=
  times.countP fun time => now - restartInterval ≤ time

/-- No answer of the clock is before an earlier one. -/
def Clock (is : List Iteration) : Prop := (is.flatMap fun i => [i.now, i.time]).Pairwise (· ≤ ·)

/-- The array has the most recent times of the iterations, of which the last
one is `i`, and the count is of those that are not older than the interval. -/
def Right (is : List Iteration) (i : Iteration) (restartCount : Nat) (self : Supervisor) : Prop :=
  self.restartTimeCount = min is.length procRestartMax ∧
    self.restartTime.toList.take self.restartTimeCount = window is ∧
    restartCount = 1 + recent self.opts.restartInterval i.now (window is)

/-- The loop goes on behind the last of the iterations. -/
def GoesOn (opts : ProcessOpts) (is : List Iteration) : Prop :=
  ∃ i, is.getLast? = some i ∧
    restarts opts.restartMax (is.length = 1) (1 + recent opts.restartInterval i.now (window is)) i.outcome = true

/-- There is one more iteration than there is space for. -/
def Overfull (opts : ProcessOpts) (is : List Iteration) : Prop :=
  procRestartMax < is.length ∧ ∀ k, 0 < k → k ≤ procRestartMax → GoesOn opts (is.take k)

theorem clock_times {is : List Iteration} (h : Clock is) : (is.map Iteration.time).Pairwise (· ≤ ·) := by
  have hsub : (is.map Iteration.time).Sublist (is.flatMap fun i => [i.now, i.time]) := by
    induction is with
    | nil => exact List.Sublist.slnil
    | cons i is ih =>
        rw [Clock, List.flatMap_cons, List.pairwise_append] at h
        rw [List.flatMap_cons, List.map_cons]
        exact ((ih h.2.1).cons_cons i.time).cons i.now
  exact h.sublist hsub

theorem window_short {is : List Iteration} (h : is.length ≤ procRestartMax) :
    window is = is.map Iteration.time := by
  rw [window, Nat.sub_eq_zero_of_le h, List.drop_zero]

/-! The options -/

/-- The first two corrections, which leave the interval as it is. -/
theorem normalise_eq (opts : ProcessOpts) :
    ∃ restartMax : Int, 2 ≤ restartMax ∧ restartMax ≤ procRestartMax ∧
      normalise opts = if opts.restartInterval < max 5 (3 * restartMax) then ⟨restartMax, 5⟩
        else ⟨restartMax, opts.restartInterval⟩ := by
  by_cases hlarge : (procRestartMax : Int) < opts.restartMax
  · have hnotSmall : ¬(procRestartMax : Int) < 2 := by decide
    refine ⟨procRestartMax, by decide, by decide, ?_⟩
    simp only [normalise, hlarge, hnotSmall, ↓reduceIte]
  · by_cases hsmall : opts.restartMax < 2
    · refine ⟨5, by decide, by decide, ?_⟩
      simp only [normalise, hlarge, hsmall, ↓reduceIte]
    · refine ⟨opts.restartMax, by omega, by omega, ?_⟩
      simp only [normalise, hlarge, hsmall, ↓reduceIte]

/-- An interval that is too short is made 5, which is too short as well. -/
theorem normalise_restartInterval (opts : ProcessOpts) :
    max 5 (3 * (normalise opts).restartMax) ≤ (normalise opts).restartInterval ↔
      max 5 (3 * (normalise opts).restartMax) ≤ opts.restartInterval := by
  obtain ⟨restartMax, hlow, -, hopts⟩ := normalise_eq opts
  rw [hopts]
  split
  · simp only
    omega
  · rfl

/-! Recording a restart -/

/-- As many times as the iterations are in the array. -/
structure Recorded (opts : ProcessOpts) (is : List Iteration) (s : Supervisor) : Prop where
  opts : s.opts = opts
  count : s.restartTimeCount = is.length
  room : is.length ≤ procRestartMax
  times : s.restartTime.toList.take is.length = is.map Iteration.time

/-- From behind, the loop stops at the first time that is too old, before
which all are. -/
theorem countLoop_spec {restartTime : Vector Int procRestartMax} {times : List Int}
    (htimes : restartTime.toList.take times.length = times) (hsorted : times.Pairwise (· ≤ ·))
    (fromTime : Int) {k : Nat} (hk : k ≤ times.length) (restartCount : Nat) :
    countLoop restartTime fromTime k restartCount =
      some (restartCount + (times.take k).countP fun time => fromTime ≤ time) := by
  induction k generalizing restartCount with
  | zero => rfl
  | succ k ih =>
      have hread : restartTime[k]? = some times[k] := by
        have hsame : restartTime.toList[k]? = (restartTime.toList.take times.length)[k]? := by
          rw [List.getElem?_take, if_pos (Nat.lt_of_succ_le hk)]
        rw [← Vector.getElem?_toList, hsame, htimes, List.getElem?_eq_getElem hk]
      have htake : times.take (k + 1) = times.take k ++ [times[k]] := List.take_succ_eq_append_getElem hk
      simp only [countLoop, hread]
      by_cases hrecent : fromTime ≤ times[k]
      · rw [if_pos hrecent, ih (Nat.le_of_succ_le hk), htake, List.countP_append]
        simp only [List.countP_singleton, hrecent, decide_true, ↓reduceIte, Nat.add_assoc, Nat.add_comm]
      · have hold : ∀ time ∈ times.take (k + 1), ¬(decide (fromTime ≤ time)) = true := by
          intro time hmem
          have hfirst : (times.take (k + 1)).Pairwise (· ≤ ·) := hsorted.sublist (List.take_sublist _ _)
          have hle : time ≤ times[k] := by
            rw [htake, List.pairwise_append] at hfirst
            rw [htake] at hmem
            rcases List.mem_append.mp hmem with hearlier | hlast
            · exact hfirst.2.2 time hearlier _ (List.mem_singleton_self _)
            · exact Int.le_of_eq (List.mem_singleton.mp hlast)
          rw [decide_eq_true_eq]
          omega
        rw [if_neg hrecent, List.countP_eq_zero.mpr hold, Nat.add_zero]

theorem record_spec {opts : ProcessOpts} {is : List Iteration} {self : Supervisor}
    (h : Recorded opts is self) (hroom : is.length < procRestartMax) {i : Iteration}
    (hclock : Clock (is ++ [i])) :
    ∃ next, record i.now i.time self =
        some (1 + recent opts.restartInterval i.now (window (is ++ [i])), next) ∧
      Recorded opts (is ++ [i]) next ∧ next.first = self.first := by
  have hcount : self.restartTimeCount < procRestartMax := h.count.symm ▸ hroom
  have hnotFull : ¬self.restartTimeCount = procRestartMax := Nat.ne_of_lt hcount
  have hlen : (is ++ [i]).length = is.length + 1 := by rw [List.length_append, List.length_singleton]
  have htimes : (self.restartTime.set self.restartTimeCount i.time hcount).toList.take (is.length + 1) =
      (is ++ [i]).map Iteration.time := by
    have hin : is.length < (self.restartTime.toList.set is.length i.time).length := by
      rw [List.length_set, Vector.length_toList]
      exact hroom
    rw [Vector.toList_set]
    simp only [h.count]
    rw [List.take_succ_eq_append_getElem hin, List.getElem_set_self, List.take_set_of_le (Nat.le_refl _),
      h.times, List.map_append, List.map_singleton]
  have hscan := @countLoop_spec _ ((is ++ [i]).map Iteration.time)
    (by rw [List.length_map, hlen]; exact htimes) (clock_times hclock) (i.now - opts.restartInterval)
    _ (Nat.le_refl _) 1
  rw [List.take_length, List.length_map, hlen, ← h.count] at hscan
  have hfree : freeSlot self = some self := if_neg hnotFull
  refine ⟨{ self with
    restartTime := self.restartTime.set self.restartTimeCount i.time hcount
    restartTimeCount := self.restartTimeCount + 1 }, ?_, ⟨h.opts, ?_, ?_, ?_⟩, rfl⟩
  · rw [window_short (by omega), recent]
    simp only [record, hfree, hcount, ↓reduceDIte, h.opts, hscan, Option.map_some]
  · rw [hlen, ← h.count]
  · rw [hlen]
    exact hroom
  · rw [hlen]
    exact htimes

/-- The move for the thirty-first restart begins eight times behind the first
one and ends behind the array. -/
theorem record_full {opts : ProcessOpts} {is : List Iteration} {self : Supervisor}
    (h : Recorded opts is self) (hfull : is.length = procRestartMax) (now time : Int) :
    record now time self = none := by
  have hcount : self.restartTimeCount = procRestartMax := h.count.trans hfull
  have hmove : memmove self.restartTime 0 sizeofTimeT (procRestartMax - 1) = none := by
    rw [memmove, dif_neg (by decide)]
  rw [record, freeSlot, if_pos hcount, hmove]
  rfl

theorem recorded_right {opts : ProcessOpts} {is : List Iteration} {self : Supervisor}
    (h : Recorded opts is self) (i : Iteration) :
    Right is i (1 + recent opts.restartInterval i.now (window is)) self := by
  refine ⟨?_, ?_, by rw [h.opts]⟩
  · rw [h.count, Nat.min_eq_left h.room]
  · rw [h.count, h.times, window_short h.room]

/-! The loop -/

theorem goesOn_append {opts : ProcessOpts} (before : List Iteration) (i : Iteration) :
    GoesOn opts (before ++ [i]) ↔
      restarts opts.restartMax (decide (before.length = 0))
        (1 + recent opts.restartInterval i.now (window (before ++ [i]))) i.outcome = true := by
  have hfirst : decide ((before ++ [i]).length = 1) = decide (before.length = 0) := by
    simp only [List.length_append, List.length_singleton, Nat.add_eq_right]
  rw [GoesOn, hfirst]
  constructor
  · rintro ⟨j, hj, hrestarts⟩
    rw [List.getLast?_concat] at hj
    cases hj
    exact hrestarts
  · intro hrestarts
    exact ⟨i, List.getLast?_concat, hrestarts⟩

theorem rights_cons {before is : List Iteration} {i : Iteration} {restartCount : Nat} {next : Supervisor}
    {records : List (Nat × Supervisor)} (hright : Right (before ++ [i]) i restartCount next)
    (hrights : ∀ k j, is[k]? = some j → ∀ restartCount s, records[k]? = some (restartCount, s) →
      Right (before ++ [i] ++ is.take (k + 1)) j restartCount s) :
    ∀ k j, (i :: is)[k]? = some j → ∀ count s, ((restartCount, next) :: records)[k]? = some (count, s) →
      Right (before ++ (i :: is).take (k + 1)) j count s := by
  intro k j hj count s hs
  cases k with
  | zero =>
      cases hj
      cases hs
      exact hright
  | succ k =>
      rw [List.take_succ_cons, List.append_cons]
      exact hrights k j hj count s hs

/-- Behind the iterations `before` the loop either comes to a move, or all
that it records is right and it is over before. -/
theorem superviseLoop_spec {opts : ProcessOpts} {before : List Iteration} {self : Supervisor}
    (h : Recorded opts before self) (hfirst : self.first = decide (before.length = 0))
    {is : List Iteration} (hclock : Clock (before ++ is)) :
    (superviseLoop is self = none ∧ procRestartMax < before.length + is.length ∧
        ∀ k, before.length < k → k ≤ procRestartMax → GoesOn opts ((before ++ is).take k)) ∨
      ∃ records, superviseLoop is self = some records ∧
        (∀ k i, is[k]? = some i → ∀ restartCount next, records[k]? = some (restartCount, next) →
          Right (before ++ is.take (k + 1)) i restartCount next) ∧
        (procRestartMax < before.length + is.length →
          ∃ k, before.length < k ∧ k ≤ procRestartMax ∧ ¬GoesOn opts ((before ++ is).take k)) := by
  induction is generalizing before self with
  | nil =>
      right
      refine ⟨[], rfl, fun k i hi => ?_, fun hmore => absurd hmore (Nat.not_lt.mpr h.room)⟩
      rw [List.getElem?_nil] at hi
      cases hi
  | cons i is ih =>
      have hsplit : before ++ i :: is = (before ++ [i]) ++ is := List.append_cons before i is
      have hlen : (before ++ [i]).length = before.length + 1 := by
        rw [List.length_append, List.length_singleton]
      by_cases hfull : before.length = procRestartMax
      · left
        refine ⟨?_, ?_, fun k hk hle => ?_⟩
        · rw [superviseLoop, record_full h hfull]
        · rw [hfull, List.length_cons]
          omega
        · omega
      · have hroom : before.length < procRestartMax := Nat.lt_of_le_of_ne h.room hfull
        rw [hsplit] at hclock
        have hhead : Clock (before ++ [i]) := by
          rw [Clock, List.flatMap_append] at hclock
          exact (List.pairwise_append.mp hclock).1
        obtain ⟨next, hrecord, hnext, hnextFirst⟩ := record_spec h hroom hhead
        have hright := recorded_right hnext i
        have htake : ((before ++ [i]) ++ is).take (before.length + 1) = before ++ [i] := by
          rw [← hlen, List.take_left]
        have hdecides : restarts next.opts.restartMax next.first
            (1 + recent opts.restartInterval i.now (window (before ++ [i]))) i.outcome = true ↔
            GoesOn opts (before ++ [i]) := by
          rw [goesOn_append, hnext.opts, hnextFirst, hfirst]
        simp only [superviseLoop, hrecord]
        by_cases hgoes : GoesOn opts (before ++ [i])
        · rw [if_pos (hdecides.mpr hgoes)]
          have hother : Recorded opts (before ++ [i]) { next with first := false } :=
            ⟨hnext.opts, hnext.count, hnext.room, hnext.times⟩
          have hnot : false = decide ((before ++ [i]).length = 0) := by
            rw [hlen]
            rfl
          rcases ih hother hnot hclock with ⟨hnone, hmore, hall⟩ | ⟨records, hsome, hrights, hover⟩
          · left
            refine ⟨by rw [hnone]; rfl, by rw [List.length_cons]; omega, fun k hk hle => ?_⟩
            rw [hsplit]
            by_cases hhere : k = before.length + 1
            · rw [hhere, htake]
              exact hgoes
            · exact hall k (by omega) hle
          · right
            refine ⟨(_, next) :: records, by rw [hsome]; rfl, rights_cons hright hrights, fun hmore => ?_⟩
            · rw [hsplit]
              obtain ⟨k, hk, hle, hstops⟩ := hover (by rw [List.length_cons] at hmore; omega)
              exact ⟨k, by omega, hle, hstops⟩
        · rw [if_neg fun hrestarts => hgoes (hdecides.mp hrestarts)]
          right
          refine ⟨_, rfl, rights_cons hright fun k j _ restartCount s hs => ?_, fun _ => ?_⟩
          · rw [List.getElem?_nil] at hs
            cases hs
          · refine ⟨before.length + 1, Nat.lt_succ_self _, hroom, ?_⟩
            rw [hsplit, htake]
            exact hgoes

/-- The window is right just if there is no restart for which it has no space,
and the interval is long enough just if it was before. -/
theorem restart_window (opts : ProcessOpts) (uninitialised : Vector Int procRestartMax)
    (is : List Iteration) (hclock : Clock is) :
    (2 ≤ (normalise opts).restartMax ∧ (normalise opts).restartMax ≤ procRestartMax) ∧
    (max 5 (3 * (normalise opts).restartMax) ≤ (normalise opts).restartInterval ↔
      max 5 (3 * (normalise opts).restartMax) ≤ opts.restartInterval) ∧
    ((∃ records, performSupervise opts uninitialised is = some records ∧
        ∀ k i, is[k]? = some i → ∀ restartCount self, records[k]? = some (restartCount, self) →
          Right (is.take (k + 1)) i restartCount self) ↔
      ¬Overfull (normalise opts) is) := by
  refine ⟨?_, normalise_restartInterval opts, ?_⟩
  · obtain ⟨restartMax, hlow, hhigh, hopts⟩ := normalise_eq opts
    rw [hopts]
    split
    · exact ⟨hlow, hhigh⟩
    · exact ⟨hlow, hhigh⟩
  · have hstart : Recorded (normalise opts) [] { opts := normalise opts, restartTime := uninitialised } :=
      ⟨rfl, rfl, Nat.zero_le _, rfl⟩
    have hloop := @superviseLoop_spec _ _ _ hstart rfl is hclock
    simp only [List.nil_append, List.length_nil, Nat.zero_add] at hloop
    rcases hloop with ⟨hnone, hmore, hall⟩ | ⟨records, hsome, hrights, hover⟩
    · have hoverfull : Overfull (normalise opts) is := ⟨hmore, fun k hk hle => hall k hk hle⟩
      refine ⟨?_, fun hnot => absurd hoverfull hnot⟩
      rintro ⟨records, hrecords, -⟩
      rw [performSupervise, hnone] at hrecords
      cases hrecords
    · refine ⟨fun _ hoverfull => ?_, fun _ => ⟨records, hsome, hrights⟩⟩
      obtain ⟨k, hk, hle, hstops⟩ := hover hoverfull.1
      exact hstops (hoverfull.2 k hk hle)

/-- A daemon that exits at once, and again a minute later. -/
theorem restart_window_twice :
    (2 ≤ (normalise ⟨40, 100⟩).restartMax ∧ (normalise ⟨40, 100⟩).restartMax ≤ procRestartMax) ∧
    (max 5 (3 * (normalise ⟨40, 100⟩).restartMax) ≤ (normalise ⟨40, 100⟩).restartInterval ↔
      max 5 (3 * (normalise ⟨40, 100⟩).restartMax) ≤ 100) ∧
    ((∃ records, performSupervise ⟨40, 100⟩ (Vector.replicate procRestartMax 7)
        [⟨1, 1, .exited 1⟩, ⟨60, 61, .exited 1⟩] = some records ∧
        ∀ k i, [⟨1, 1, .exited 1⟩, ⟨60, 61, .exited 1⟩][k]? = some i →
          ∀ restartCount self, records[k]? = some (restartCount, self) →
            Right ([⟨1, 1, .exited 1⟩, ⟨60, 61, .exited 1⟩].take (k + 1)) i restartCount self) ↔
      ¬Overfull (normalise ⟨40, 100⟩) [⟨1, 1, .exited 1⟩, ⟨60, 61, .exited 1⟩]) :=
  restart_window ⟨40, 100⟩ (Vector.replicate procRestartMax 7)
    [⟨1, 1, .exited 1⟩, ⟨60, 61, .exited 1⟩] (by unfold Clock; decide)

/-- An interval that is made too short, and thirty restarts, all of them long
apart. -/
theorem restart_window_wrong :
    (¬∀ opts : ProcessOpts, max 5 (3 * (normalise opts).restartMax) ≤ (normalise opts).restartInterval) ∧
    ¬∀ (opts : ProcessOpts) (uninitialised : Vector Int procRestartMax) (is : List Iteration), Clock is →
      ∃ records, performSupervise opts uninitialised is = some records := by
  refine ⟨fun h => absurd (h ⟨5, 10⟩) (by decide), fun h => ?_⟩
  obtain ⟨records, hrecords⟩ := h ⟨5, 60⟩ (Vector.replicate procRestartMax 0)
    ((List.range 31).map fun k => ⟨100 * k, 100 * k, .exited 1⟩) (by unfold Clock; decide +kernel)
  have hnone : (performSupervise ⟨5, 60⟩ (Vector.replicate procRestartMax 0)
      ((List.range 31).map fun k => ⟨100 * k, 100 * k, .exited 1⟩)).isNone = true := by decide +kernel
  rw [hrecords] at hnone
  cases hnone

end Libzorpll.RestartWindow
