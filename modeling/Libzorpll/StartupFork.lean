import Libzorpll.StartupWiring

/-! The pipes and the processes behind z_process_start, and behind a fork of
the supervisor. -/

namespace Libzorpll.StartupFork

open StartupResult StartupSystem StartupWiring

variable {mode : Mode} {restartMax : Int} {es : List Event} {s : System}

/-! z_process_start -/

/-- The processes that z_process_start leaves. -/
def started : Mode → Party → Process
  | .foreground, .startup => { phase := .serving, processKind := .daemon }
  | .background, .startup =>
      { phase := .performingStartup, startupResultPipe := ⟨some (.initResult 0), none⟩,
        initResultPipe := ⟨none, some (.initResult 0)⟩ }
  | .background, .daemon 0 =>
      { phase := .serving, processKind := .daemon, initResultPipe := ⟨none, some (.initResult 0)⟩ }
  | .safeBackground, .startup => { phase := .performingStartup, startupResultPipe := ⟨some .startupResult, none⟩ }
  | .safeBackground, .supervisor =>
      { phase := .spawning, processKind := .supervisor, startupResultPipe := ⟨none, some .startupResult⟩ }
  | _, _ => {}

/-- The pipes that it leaves. -/
def opened : Mode → PipeId → Pipe
  | .background, .initResult 0 => { writers := [.daemon 0] }
  | .safeBackground, .startupResult => { writers := [.supervisor] }
  | _, _ => {}

theorem processStart_process (mode : Mode) (restartMax : Int) (p : Party) :
    (processStart (initial mode restartMax)).process p = started mode p := by
  cases mode <;> rcases p with _ | _ | _ | k <;> rfl

theorem processStart_pipe (mode : Mode) (restartMax : Int) (id : PipeId) :
    (processStart (initial mode restartMax)).pipe id = opened mode id := by
  cases mode <;> rcases id with _ | _ | k <;> rfl

theorem wired_initial (mode : Mode) (restartMax : Int) : Wired [] (initial mode restartMax) := by
  have hphase {p : Party} (hp : ((initial mode restartMax).process p).phase.alive = true) : p = .startup := by
    by_contra hne
    have hother : (initial mode restartMax).process p = {} := by simp only [initial, Function.update_of_ne hne]
    rw [hother] at hp
    cases hp
  refine ⟨fun _ => .inl rfl, fun _ _ => rfl, fun p hp hne => absurd (hphase hp) hne, fun p fd hp hfd => ?_,
    fun p id hp hfd => ?_, fun p id hp => (List.not_mem_nil hp).elim, fun p id hp hfd => ?_⟩
  · rw [hphase hp] at hfd
    cases hfd
  · rw [hphase hp] at hfd
    cases hfd
  · rw [hphase hp] at hfd
    cases hfd

theorem wired_processStart (mode : Mode) (restartMax : Int) : Wired [] (processStart (initial mode restartMax)) := by
  have hmode : (processStart (initial mode restartMax)).mode = mode := by cases mode <;> rfl
  refine ⟨fun _ => .inl rfl, fun _ _ => rfl, fun p => ?_, fun p fd => ?_, fun p id => ?_, fun p id => ?_,
    fun p id => ?_⟩
  · rw [processStart_process]
    cases mode <;> rcases p with _ | _ | _ | k <;> simp [started, Phase.alive]
  · rw [processStart_process]
    cases mode <;> rcases p with _ | _ | _ | k <;> simp [started, Phase.alive, sendFd, tells, tellPipe, eq_comm]
  · rw [processStart_process, processStart_pipe]
    cases mode <;> rcases p with _ | _ | _ | k <;> simp [started, Phase.alive, sendFd]
    all_goals rintro rfl; simp [opened]
  · rw [processStart_process, processStart_pipe]
    cases mode <;> rcases id with _ | _ | k <;> simp [opened]
    all_goals rintro rfl; simp [started, Phase.alive, tells, tellPipe]
  · rw [processStart_process, processStart_pipe, hmode]
    cases mode <;> rcases p with _ | _ | _ | k <;> simp [started, Phase.alive, recvFd]
    all_goals rintro rfl; simp [opened, readBy, DataOf, tells]

/-! The supervisor's fork -/

theorem spawn_supervisor (s : System) : (spawn s).process .supervisor =
    { s.process .supervisor with
      phase := .receiving, initResultPipe := ⟨some (.initResult s.forks), none⟩ } := rfl

theorem spawn_first (s : System) : (spawn s).first = s.first := rfl

theorem spawn_forks (s : System) : (spawn s).forks = s.forks + 1 := rfl

theorem spawn_daemon (s : System) : (spawn s).process (.daemon s.forks) =
    { s.process .supervisor with
      phase := .serving, processKind := .daemon, initResultPipe := ⟨none, some (.initResult s.forks)⟩ } := by
  simp [spawn, setProcess, fork, closeWrite, setPipe]

theorem spawn_other {p : Party} (hsup : p ≠ .supervisor) (hdaemon : p ≠ .daemon s.forks) :
    (spawn s).process p = s.process p := by
  simp [spawn, setProcess, fork, closeWrite, setPipe, hsup, hdaemon]

theorem spawn_initResult (s : System) : (spawn s).pipe (.initResult s.forks) = { writers := [.daemon s.forks] } := by
  simp [spawn, setProcess, fork, closeWrite, setPipe]

theorem spawn_pipe {id : PipeId} (h : id ≠ .initResult s.forks) : (spawn s).pipe id =
    if Party.supervisor ∈ (s.pipe id).writers then
      { s.pipe id with writers := .daemon s.forks :: (s.pipe id).writers } else s.pipe id := by
  simp [spawn, setProcess, fork, closeWrite, setPipe, h]

/-- The daemon has the write end of its own pipe, and the supervisor the read
end. The first daemon may have the pipe of the supervisor as well. -/
theorem wired_spawn (h : Wired es s) (hphase : (s.process .supervisor).phase = .spawning)
    (hkind : (s.process .supervisor).processKind = .supervisor) (hmode : s.mode = .safeBackground)
    (hunborn : (s.process (.daemon s.forks)).phase = .unborn)
    (hfirst : s.forks = 0 ∨ tells .supervisor es ≠ []) : Wired es (spawn s) := by
  have hsup : (s.process .supervisor).phase.alive = true := by rw [hphase]; rfl
  have hsends : sendFd ((spawn s).process .supervisor) = sendFd (s.process .supervisor) := by
    rw [spawn_supervisor, sendFd, sendFd, hkind]
  have hnone := h.unborn _ hunborn
  have hnew {q : Party} {id : PipeId} (hq : (s.process q).phase.alive = true)
      (hfd : sendFd (s.process q) = .ok (some id)) : id ≠ .initResult s.forks := by
    rintro rfl
    have hown := h.sends q _ hq hfd
    by_cases hq0 : tells q es = []
    · rw [if_pos hq0] at hown
      have hdaemon := teller_of_tellPipe hown.symm
      rw [← hdaemon, teller, hunborn] at hq
      cases hq
    · rw [if_neg hq0] at hown
      cases hown
  have hgrow {q : Party} {id : PipeId} (hid : id ≠ .initResult s.forks) (hq : q ∈ (s.pipe id).writers) :
      q ∈ ((spawn s).pipe id).writers := by
    rw [spawn_pipe hid]
    split
    · exact List.mem_cons_of_mem _ hq
    · exact hq
  have hlive {q : Party} (hq : q ≠ .daemon s.forks) (hq' : ((spawn s).process q).phase.alive = true) :
      (s.process q).phase.alive = true ∧ sendFd ((spawn s).process q) = sendFd (s.process q) ∧
        ((spawn s).process q).processKind = (s.process q).processKind := by
    by_cases hqs : q = .supervisor
    · rw [hqs]
      exact ⟨hsup, hsends, by rw [spawn_supervisor]⟩
    · rw [spawn_other hqs hq] at hq' ⊢
      exact ⟨hq', rfl, rfl⟩
  refine ⟨h.once, fun q hq => ?_, fun q hq hne => ?_, fun q fd hq hfd => ?_, fun q id hq hfd => ?_,
    fun q id hq => ?_, fun q id hq hfd => ?_⟩
  · by_cases hqd : q = .daemon s.forks
    · rw [hqd]
      exact hnone
    · by_cases hqs : q = .supervisor
      · rw [hqs, spawn_supervisor] at hq
        cases hq
      · rw [spawn_other hqs hqd] at hq
        exact h.unborn q hq
  · by_cases hqd : q = .daemon s.forks
    · rw [hqd, spawn_daemon]
      rintro ⟨⟩
    · obtain ⟨hold, -, hkinds⟩ := hlive hqd hq
      rw [hkinds]
      exact h.kind q hold hne
  · by_cases hqd : q = .daemon s.forks
    · rw [hqd, spawn_daemon] at hfd
      cases hfd
      rw [hqd, if_pos hnone]
      rfl
    · obtain ⟨hold, hsame, -⟩ := hlive hqd hq
      exact h.sends q fd hold (hsame ▸ hfd)
  · by_cases hqd : q = .daemon s.forks
    · rw [hqd, spawn_daemon] at hfd
      cases hfd
      rw [spawn_initResult, hqd]
      exact List.mem_singleton_self _
    · obtain ⟨hold, hsame, -⟩ := hlive hqd hq
      rw [hsame] at hfd
      exact hgrow (hnew hold hfd) (h.holds q id hold hfd)
  · by_cases hid : id = .initResult s.forks
    · rw [hid, spawn_initResult] at hq
      rw [List.mem_singleton.mp hq, spawn_daemon, hid]
      exact ⟨rfl, .inl ⟨rfl, hnone⟩⟩
    · have hcases : q ∈ (s.pipe id).writers ∨ (q = .daemon s.forks ∧ .supervisor ∈ (s.pipe id).writers) := by
        rw [spawn_pipe hid] at hq
        split at hq
        next hmem => exact (List.mem_cons.mp hq).symm.imp_right fun hq => ⟨hq, hmem⟩
        next => exact .inl hq
      rcases hcases with hold | ⟨rfl, hmem⟩
      · obtain ⟨hqlive, hwhy⟩ := h.writers q id hold
        refine ⟨?_, hwhy⟩
        have hqd : q ≠ .daemon s.forks := by
          rintro rfl
          rw [hunborn] at hqlive
          cases hqlive
        by_cases hqs : q = .supervisor
        · rw [hqs, spawn_supervisor]
          rfl
        · rw [spawn_other hqs hqd]
          exact hqlive
      · obtain ⟨-, ⟨hown, hnot⟩ | ⟨⟨⟩, -⟩⟩ := h.writers _ id hmem
        have hzero := hfirst.resolve_right (fun hne => hne hnot)
        cases hown
        rw [spawn_daemon]
        exact ⟨rfl, .inr ⟨by rw [hzero], rfl⟩⟩
  · by_cases hqd : q = .daemon s.forks
    · rw [hqd, spawn_daemon] at hfd
      cases hfd
    · by_cases hqs : q = .supervisor
      · rw [hqs, spawn_supervisor, recvFd, hkind] at hfd
        cases hfd
        refine ⟨?_, .inl ⟨hnone, by rw [spawn_initResult]⟩⟩
        rw [hqs]
        change _ = readBy s.mode _
        rw [hmode, readBy, if_neg (by decide)]
      · rw [spawn_other hqs hqd] at hq hfd
        obtain ⟨hreader, hdata⟩ := h.reads q id hq hfd
        refine ⟨hreader, ?_⟩
        have hid : id ≠ .initResult s.forks := by
          rintro rfl
          rw [hmode, readBy, if_neg (by decide)] at hreader
          exact hqs hreader
        rw [spawn_pipe hid]
        split
        · exact hdata
        · exact hdata

end Libzorpll.StartupFork
