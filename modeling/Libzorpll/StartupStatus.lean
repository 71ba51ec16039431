import Libzorpll.StartupRun

/-! What the startup process makes of the start of the daemon. -/

namespace Libzorpll.StartupStatus

open StartupResult StartupSystem StartupWiring StartupRun

variable {es : List Event} {s : System} {mode : Mode} {restartMax : Int} {p : Party} {id : PipeId} {retNum rc : Int}

/-- Why the startup process may have been told nothing by the first daemon. -/
def NotTold (es : List Event) (s : System) : Prop :=
  .startFailed .startup ∈ es ∨ .startFailed .supervisor ∈ es ∨
    (tells (.daemon 0) es = [] ∧ Phase.gone (s.process (.daemon 0)).phase = true) ∨
    (tells .supervisor es = [] ∧ ∃ signal, (s.process .supervisor).phase = .killed signal)

theorem first_result (h : Heard es s (.initResult 0) rc) :
    tells (.daemon 0) es = [rc] ∨ (rc = 1 ∧ NotTold es s) := by
  rcases h with htold | ⟨hrc, hnone, hgone⟩
  · exact .inl htold
  · exact .inr ⟨hrc, .inr (.inr (.inl ⟨hnone, hgone⟩))⟩

theorem result_cases (h : Rounds es s) (hresult : Result es s rc) :
    tells (.daemon 0) es = [rc] ∨ (rc = 1 ∧ NotTold es s) := by
  rcases hresult with hheard | ⟨hrc, hmem⟩
  · cases hmode : s.mode with
    | foreground | background =>
        rw [hmode] at hheard
        exact first_result hheard
    | safeBackground =>
        rw [hmode] at hheard
        rcases hheard with htold | ⟨hrc, hnone, hgone⟩
        · rcases h.supervisor.passed rc htold with hfirst | ⟨hrc, hmem⟩
          · exact first_result hfirst
          · exact .inr ⟨hrc, .inr (.inl hmem)⟩
        · refine .inr ⟨hrc, .inr (.inr (.inr ⟨hnone, ?_⟩))⟩
          have hplace := h.supervisor.place
          change Phase.gone (s.process .supervisor).phase = true at hgone
          generalize (s.process .supervisor).phase = phase at hgone hplace
          cases phase with
          | exited status => exact absurd hnone hplace
          | killed signal => exact ⟨signal, rfl⟩
          | _ => cases hgone
  · exact .inr ⟨hrc, .inl hmem⟩

/-- In the background the startup process exits with the one result that the
first daemon has told, and with 1 where it has been told nothing: no status but
that of a result, whatever the others do. -/
theorem startup_status (h : Run mode restartMax es s) (hmode : mode ≠ .foreground) {status : Nat}
    (hphase : (s.process .startup).phase = .exited status) :
    (∃ rc, ShortResult rc ∧ tells (.daemon 0) es = [rc] ∧ status = exitStatus rc) ∨ (status = 1 ∧ NotTold es s) := by
  have hinv := inv_run h
  have hplace := hinv.rounds.startup
  rw [hphase] at hplace
  obtain ⟨rc, hstatus, hresult⟩ := hplace.resolve_left fun heq => hmode ((run_mode h).symm.trans heq)
  rcases result_cases hinv.rounds hresult with htold | ⟨rfl, hwhy⟩
  · refine .inl ⟨rc, ?_, htold, hstatus⟩
    have hheard : Heard es s (.initResult 0) rc := .inl htold
    exact hinv.wired.short hheard
  · exact .inr ⟨hstatus, hwhy⟩

/-- A daemon that could be started tells its parent so. -/
theorem startup_status_ok :
    ∃ es s, Run .background 5 es s ∧ (s.process .startup).phase = .exited 0 ∧
      ((∃ rc, ShortResult rc ∧ tells (.daemon 0) es = [rc] ∧ 0 = exitStatus rc) ∨ (0 = 1 ∧ NotTold es s)) := by
  have hstarted : Run .background 5 [] (processStart (initial .background 5)) := .snoc (.nil _) (.start rfl) trivial
  have htold := Trace.Steps.snoc hstarted (Step.startupOk (.daemon 0) rfl rfl) trivial
  have hexited := Trace.Steps.snoc htold (Step.await rfl rfl) trivial
  exact ⟨_, _, hexited, rfl, startup_status hexited (by decide) rfl⟩

/-! What the startup process waits for -/

theorem recv_ready (h : Wired es s) (hlive : (s.process p).phase.alive = true)
    (hfd : recvFd (s.process p) = .ok (some id)) (hready : ¬waits (s.pipe id)) :
    ∃ rc t, recvResult p s = .ok (some (rc, t)) := by
  have hresult : ∃ rc, resultOf ((s.pipe id).data.take retBufSize) = some rc := by
    obtain ⟨-, hempty⟩ | ⟨retNum, htold, htext⟩ := (h.reads p id hlive hfd).2
    · rw [hempty]
      exact ⟨1, rfl⟩
    · have htells : Heard es s id retNum := .inl htold
      obtain ⟨text, htext', -, hheard⟩ := result_told (h.short htells)
      rw [htext] at htext'
      cases htext'
      exact ⟨retNum, hheard⟩
  obtain ⟨rc, hrc⟩ := hresult
  rw [recvResult, hfd]
  simp only [if_neg hready, hrc]
  exact ⟨rc, _, rfl⟩

theorem send_ready (hkind : (s.process p).processKind ≠ .startup) (hshort : ShortResult retNum) :
    ∃ told t, sendResult p retNum s = .ok (told, t) := by
  obtain ⟨fd, hfd⟩ := sendFd_ok hkind
  rw [sendResult, hfd]
  cases fd with
  | none => exact ⟨_, _, rfl⟩
  | some id =>
      simp only [resultText_short hshort]
      exact ⟨_, _, rfl⟩

/-- Who somebody that waits is waiting for. -/
theorem waits_for (h : Inv es s) (hwaits : waits (s.pipe id)) :
    ((s.process (teller id)).phase.alive = true ∧ tells (teller id) es = []) ∨
      (id = .startupResult ∧ (s.process (.daemon 0)).phase.alive = true) := by
  obtain ⟨q, hq⟩ := List.exists_mem_of_ne_nil _ hwaits.2
  obtain ⟨hlive, ⟨hown, hnone⟩ | ⟨rfl, hid⟩⟩ := h.wired.writers q id hq
  · rw [teller_of_tellPipe hown]
    exact .inl ⟨hlive, hnone⟩
  · exact .inr ⟨hid, hlive⟩

theorem daemon_serves (h : Rounds es s) {k : Nat} (hlive : (s.process (.daemon k)).phase.alive = true) :
    (s.process (.daemon k)).phase = .serving := by
  rcases h.daemon k with hunborn | hserving | hgone
  · rw [hunborn] at hlive
    cases hlive
  · exact hserving
  · exact Bool.noConfusion ((not_alive_of_gone hgone).symm.trans hlive)

/-- The supervisor does not wait for anything but the first daemon before it
tells the startup process. -/
theorem supervisor_goes_on (h : Inv es s) (hlive : (s.process .supervisor).phase.alive = true)
    (hnone : tells .supervisor es = []) :
    (∃ a new t, (a = .spawn ∨ a = .receive ∨ a = .report) ∧ Step a s new t) ∨
      ((s.process (.daemon 0)).phase = .serving ∧ tells (.daemon 0) es = []) := by
  obtain ⟨hkind, -, hplace, -, -, htold, -⟩ := h.rounds.supervisor
  have hfirst : s.first = true := by
    refine Bool.eq_true_of_not_eq_false fun hno => ?_
    rw [htold hno] at hnone
    cases hnone
  cases hphase : (s.process .supervisor).phase with
  | spawning => exact .inl ⟨.spawn, _, _, .inl rfl, .spawn hphase⟩
  | receiving =>
      rw [hphase] at hplace
      obtain ⟨-, hfd, hone⟩ := hplace
      rw [hone hfirst] at hfd
      by_cases hwaits : waits (s.pipe (.initResult 0))
      · obtain ⟨hdaemon, hnot⟩ | ⟨hid, -⟩ := waits_for h hwaits
        · exact .inr ⟨daemon_serves h.rounds hdaemon, hnot⟩
        · cases hid
      · obtain ⟨rc, t, hrecv⟩ := recv_ready h.wired hlive hfd hwaits
        exact .inl ⟨.receive, _, _, .inr (.inl rfl), .receive hphase hrecv⟩
  | received rc =>
      rw [hphase] at hplace
      have hnotStartup : (s.process .supervisor).processKind ≠ .startup := by rw [hkind hlive]; rintro ⟨⟩
      obtain ⟨told, t, hsend⟩ := send_ready hnotStartup (h.wired.short hplace.2.1)
      exact .inl ⟨.report, _, _, .inr (.inr rfl), .report hphase hfirst hsend⟩
  | supervising rc =>
      rw [hphase] at hplace
      exact Bool.noConfusion (hfirst.symm.trans hplace)
  | unborn | exited | killed =>
      rw [hphase] at hlive
      cases hlive
  | starting | performingStartup | serving =>
      rw [hphase] at hplace
      exact hplace.elim

/-- The startup process is never stuck: it can read, or the supervisor can go
on, or the first daemon is at work and has either not told its result or lost
its supervisor. -/
theorem startup_waits (h : Run mode restartMax es s) (hphase : (s.process .startup).phase = .performingStartup) :
    (∃ rc t, recvResult .startup s = .ok (some (rc, t))) ∨
      (∃ a new t, (a = .spawn ∨ a = .receive ∨ a = .report) ∧ Step a s new t) ∨
      ((s.process (.daemon 0)).phase = .serving ∧
        (tells (.daemon 0) es = [] ∨ ∃ signal, (s.process .supervisor).phase = .killed signal)) := by
  have hinv := inv_run h
  have hplace := hinv.rounds.startup
  rw [hphase] at hplace
  obtain ⟨hfd, hborn⟩ := hplace
  have hlive := alive_of_phase hphase rfl
  by_cases hwaits : waits (s.pipe (heardPipe s.mode))
  · right
    have hnone : tells (teller (heardPipe s.mode)) es = [] := by
      obtain ⟨hnone, -⟩ | ⟨retNum, htold, htext⟩ := (hinv.wired.reads _ _ hlive hfd).2
      · exact hnone
      · have htells : Heard es s (heardPipe s.mode) retNum := .inl htold
        obtain ⟨text, htext', hsome, -⟩ := result_told (hinv.wired.short htells)
        rw [htext] at htext'
        cases htext'
        rw [hwaits.1] at hsome
        exact absurd rfl hsome
    cases hmode : s.mode with
    | foreground | background =>
        rw [hmode] at hwaits
        obtain ⟨hdaemon, hnot⟩ | ⟨hid, -⟩ := waits_for hinv hwaits
        · exact .inr ⟨daemon_serves hinv.rounds hdaemon, .inl hnot⟩
        · cases hid
    | safeBackground =>
        rw [hmode] at hwaits hnone hborn
        by_cases halive : (s.process .supervisor).phase.alive = true
        · exact (supervisor_goes_on hinv halive hnone).imp_right fun ⟨hserving, hnot⟩ => ⟨hserving, .inl hnot⟩
        · obtain ⟨hdaemon, -⟩ | ⟨-, hdaemon⟩ := waits_for hinv hwaits
          · exact absurd hdaemon halive
          · refine .inr ⟨daemon_serves hinv.rounds hdaemon, .inr ?_⟩
            have hwhere := hinv.rounds.supervisor.place
            change (s.process .supervisor).phase ≠ .unborn at hborn
            generalize (s.process .supervisor).phase = phase at hborn hwhere halive
            cases phase with
            | exited status => exact absurd hnone hwhere
            | killed signal => exact ⟨signal, rfl⟩
            | unborn => exact absurd rfl hborn
            | _ => exact absurd rfl halive
  · exact .inl (recv_ready hinv.wired hlive hfd hwaits)

theorem startup_waits_started :
    ∃ es s, Run .background 5 es s ∧ (s.process .startup).phase = .performingStartup ∧
      ((∃ rc t, recvResult .startup s = .ok (some (rc, t))) ∨
        (∃ a new t, (a = .spawn ∨ a = .receive ∨ a = .report) ∧ Step a s new t) ∨
        ((s.process (.daemon 0)).phase = .serving ∧
          (tells (.daemon 0) es = [] ∨ ∃ signal, (s.process .supervisor).phase = .killed signal))) := by
  have hstarted : Run .background 5 [] (processStart (initial .background 5)) := .snoc (.nil _) (.start rfl) trivial
  exact ⟨_, _, hstarted, rfl, startup_waits hstarted rfl⟩

/-! Restarts -/

/-- The supervisor starts another daemon only after the first has told that it
is fine and the startup process has been told so, which exits with 0 then. -/
theorem restarted_after_told (h : Run mode restartMax es s) {k : Nat} (hk : 0 < k)
    (hborn : (s.process (.daemon k)).phase ≠ .unborn) :
    mode = .safeBackground ∧ tells (.daemon 0) es = [0] ∧ tells .supervisor es = [0] ∧
      ∀ status, (s.process .startup).phase = .exited status → status = 0 := by
  obtain ⟨hwired, hrounds⟩ := inv_run h
  have hmany : 1 < s.forks := by
    rw [Ne, hrounds.forks k] at hborn
    omega
  have htold := hrounds.supervisor.told (hrounds.supervisor.restarted hmany)
  have hmode : s.mode = .safeBackground := by
    refine hrounds.supervisor.mode fun hunborn => ?_
    rw [hwired.unborn _ hunborn] at htold
    cases htold
  have hfirst : tells (.daemon 0) es = [0] := by
    rcases hrounds.supervisor.passed 0 htold with hheard | ⟨hno, -⟩
    · exact hheard.resolve_right fun hno => Int.zero_ne_one hno.1
    · cases hno
  refine ⟨(run_mode h).symm.trans hmode, hfirst, htold, fun status hphase => ?_⟩
  have hplace := hrounds.startup
  rw [hphase] at hplace
  rcases hplace with hno | ⟨rc, hstatus, hheard | ⟨-, hmem⟩⟩
  · rw [hmode] at hno
    cases hno
  · rw [hmode] at hheard
    rcases hheard with hrc | ⟨-, hnone, -⟩
    · change tells .supervisor es = [rc] at hrc
      rw [htold] at hrc
      cases hrc
      exact hstatus
    · change tells .supervisor es = [] at hnone
      rw [htold] at hnone
      cases hnone
  · rw [(failed_run h hmem .supervisor).2] at htold
    cases htold

theorem restarted_after_told_once :
    ∃ es s, Run .safeBackground 5 es s ∧ (s.process (.daemon 1)).phase ≠ .unborn ∧
      (.safeBackground = Mode.safeBackground ∧ tells (.daemon 0) es = [0] ∧ tells .supervisor es = [0] ∧
        ∀ status, (s.process .startup).phase = .exited status → status = 0) := by
  have hstarted : Run .safeBackground 5 [] (processStart (initial .safeBackground 5)) :=
    .snoc (.nil _) (.start rfl) trivial
  have hspawned := Trace.Steps.snoc hstarted (Step.spawn rfl) trivial
  have htold := Trace.Steps.snoc hspawned (Step.startupOk (.daemon 0) rfl rfl) trivial
  have hreceived := Trace.Steps.snoc htold (Step.receive rfl rfl) trivial
  have hreported := Trace.Steps.snoc hreceived (Step.report rfl rfl rfl) trivial
  have hkilled := Trace.Steps.snoc hreported (Step.kill (.daemon 0) 11 rfl) trivial
  have hcollected := Trace.Steps.snoc hkilled (Step.collect 2 (.signalled 11) rfl ⟨rfl, rfl⟩) trivial
  have hagain := Trace.Steps.snoc hcollected (Step.spawn rfl) trivial
  refine ⟨_, _, hagain, ?_, restarted_after_told hagain Nat.one_pos ?_⟩
  · rintro ⟨⟩
  · rintro ⟨⟩

end Libzorpll.StartupStatus
