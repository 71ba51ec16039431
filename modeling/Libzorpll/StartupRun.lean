import Libzorpll.StartupFork

/-! What the startup process and the supervisor have heard, in all runs from
z_process_start on. -/

namespace Libzorpll.StartupRun

open StartupResult StartupSystem StartupWiring StartupFork

variable {es new told : List Event} {s t u : System} {p : Party} {id : PipeId} {retNum rc : Int} {phase : Phase}
variable {mode : Mode} {restartMax : Int}

/-! What one process does -/

/-- What a step of a process does to everybody else, but for z_process_start. -/
structure Acts (p : Party) (s : System) (new : List Event) (t : System) : Prop where
  live : (s.process p).phase.alive = true
  born : (t.process p).phase ≠ .unborn
  mode : t.mode = s.mode
  others : ∀ q, q ≠ p → t.process q = s.process q ∨
    ∃ k, q = .daemon k ∧ (s.process q).phase = .unborn ∧ (t.process q).phase = .serving
  silent : ∀ q, q ≠ p → tells q new = []
  once : tells p new = [] ∨ ∃ id, sendFd (s.process p) = .ok (some id)
  counts : p ≠ .supervisor → t.first = s.first ∧ t.forks = s.forks

theorem acts_setProcess {self : Process} (hlive : (s.process p).phase.alive = true) (hborn : self.phase ≠ .unborn) :
    Acts p s [] (setProcess p self s) where
  live := hlive
  born := by
    rw [setProcess_self]
    exact hborn
  mode := rfl
  others q hq := .inl (setProcess_other hq self s)
  silent _ _ := rfl
  once := .inl rfl
  counts _ := ⟨rfl, rfl⟩

theorem acts_endProcess (hlive : (s.process p).phase.alive = true) (hgone : Phase.gone phase = true) :
    Acts p s [] (endProcess p phase s) where
  live := hlive
  born := by
    rw [endProcess_self]
    rintro rfl
    cases hgone
  mode := rfl
  others q hq := .inl (endProcess_other hq phase s)
  silent _ _ := rfl
  once := .inl rfl
  counts _ := ⟨rfl, rfl⟩

theorem acts_sendResult (hlive : (s.process p).phase.alive = true) (hsend : sendResult p retNum s = .ok (told, t)) :
    Acts p s told t ∧ (t.process p).phase = (s.process p).phase := by
  obtain ⟨-, rfl, rfl⟩ | ⟨id, text, hfd, -, rfl, rfl⟩ := sendResult_cases hsend
  · refine ⟨⟨hlive, ?_, rfl, fun _ _ => .inl rfl, fun _ _ => rfl, .inl rfl, fun _ => ⟨rfl, rfl⟩⟩, rfl⟩
    intro hunborn
    rw [hunborn] at hlive
    cases hlive
  · have hphase : ((setProcess p (dropSendFd (s.process p))
        (closeWrite id p (setPipe id { s.pipe id with data := (s.pipe id).data ++ text } s))).process p).phase =
        (s.process p).phase := by
      rw [setProcess_self, phase_dropSendFd]
    refine ⟨⟨hlive, ?_, rfl, fun q hq => .inl (setProcess_other hq _ _), fun q hq => ?_, .inr ⟨id, hfd⟩,
      fun _ => ⟨rfl, rfl⟩⟩, hphase⟩
    · intro hunborn
      rw [← hphase, hunborn] at hlive
      cases hlive
    · rw [tells_told, if_neg (Ne.symm hq)]

theorem acts_recvResult {r : Int × System} (hlive : (s.process p).phase.alive = true)
    (hfd : recvFd (s.process p) = .ok (some id)) (hrecv : recvResult p s = .ok (some r)) :
    Acts p s [] r.2 ∧ r.2.process p = dropRecvFd (s.process p) := by
  obtain ⟨-, -, hr⟩ := recvResult_cases hrecv hfd
  have hself : r.2.process p = dropRecvFd (s.process p) := by rw [hr, setProcess_self]
  refine ⟨⟨hlive, ?_, by rw [hr]; rfl, fun q hq => .inl ?_, fun _ _ => rfl, .inl rfl, fun _ => by rw [hr]; exact ⟨rfl, rfl⟩⟩,
    hself⟩
  · rw [hself, phase_dropRecvFd]
    intro hunborn
    rw [hunborn] at hlive
    cases hlive
  · rw [hr]
    exact setProcess_other hq _ _

theorem acts_spawn (hphase : (s.process .supervisor).phase = .spawning)
    (hunborn : (s.process (.daemon s.forks)).phase = .unborn) : Acts .supervisor s [] (spawn s) where
  live := by rw [hphase]; rfl
  born := by rw [spawn_supervisor]; rintro ⟨⟩
  mode := rfl
  others q hq := by
    by_cases hqd : q = .daemon s.forks
    · exact .inr ⟨s.forks, hqd, hqd ▸ hunborn, by rw [hqd, spawn_daemon]⟩
    · exact .inl (spawn_other hq hqd)
  silent _ _ := rfl
  once := .inl rfl
  counts h := absurd rfl h

/-- More of the same process, without another word. -/
theorem Acts.trans (h : Acts p s new t) (h' : Acts p t [] u) : Acts p s new u where
  live := h.live
  born := h'.born
  mode := h'.mode.trans h.mode
  others q hq := by
    rcases h'.others q hq with hsame | ⟨k, hk, hunborn, hserving⟩
    · rw [hsame]
      exact h.others q hq
    · rcases h.others q hq with hsame | ⟨k', hk', hunborn', hserving'⟩
      · exact .inr ⟨k, hk, hsame ▸ hunborn, hserving⟩
      · rw [hserving'] at hunborn
        cases hunborn
  silent := h.silent
  once := h.once
  counts hp := ⟨(h'.counts hp).1.trans (h.counts hp).1, (h'.counts hp).2.trans (h.counts hp).2⟩

theorem tells_startFailed (p q : Party) (es : List Event) : tells p (.startFailed q :: es) = tells p es := rfl

theorem Acts.startFailed (h : Acts p s new t) (q : Party) : Acts p s (.startFailed q :: new) t :=
  { h with }

/-- Those that are born stay so. -/
theorem Acts.stays_born (h : Acts p s new t) {q : Party} (hq : (s.process q).phase ≠ .unborn) :
    (t.process q).phase ≠ .unborn := by
  by_cases hqp : q = p
  · rw [hqp]
    exact h.born
  · rcases h.others q hqp with hsame | ⟨-, -, hunborn, -⟩
    · rwa [hsame]
    · exact absurd hunborn hq

theorem Acts.stays_gone (h : Acts p s new t) {q : Party} (hq : Phase.gone (s.process q).phase = true) :
    q ≠ p ∧ t.process q = s.process q := by
  have hqp : q ≠ p := by
    rintro rfl
    exact Bool.noConfusion ((not_alive_of_gone hq).symm.trans h.live)
  refine ⟨hqp, (h.others q hqp).resolve_right ?_⟩
  rintro ⟨-, -, hunborn, -⟩
  rw [hunborn] at hq
  cases hq

/-- What somebody has told is the last that he tells. -/
theorem Acts.tells_told (hw : Wired es s) (h : Acts p s new t) {q : Party} (hq : tells q es ≠ []) :
    tells q (es ++ new) = tells q es := by
  rw [tells_append]
  by_cases hqp : q = p
  · rcases h.once with hnone | ⟨id, hfd⟩
    · rw [hqp, hnone, List.append_nil]
    · have hown := hw.sends p _ h.live hfd
      rw [if_neg (hqp ▸ hq)] at hown
      cases hown
  · rw [h.silent q hqp, List.append_nil]

theorem Acts.heard (hw : Wired es s) (h : Acts p s new t) (hheard : Heard es s id rc) :
    Heard (es ++ new) t id rc := by
  rcases hheard with htold | ⟨hrc, hnone, hgone⟩
  · refine .inl ((h.tells_told hw ?_).trans htold)
    rw [htold]
    exact List.cons_ne_nil rc []
  · obtain ⟨hqp, hsame⟩ := h.stays_gone hgone
    refine .inr ⟨hrc, ?_, hsame ▸ hgone⟩
    rw [tells_append, hnone, h.silent _ hqp]
    rfl

/-! Where the processes are -/

def heardPipe : Mode → PipeId
  | .safeBackground => .startupResult
  | _ => .initResult 0

/-- What the startup process makes its exit status of. -/
def Result (es : List Event) (s : System) (rc : Int) : Prop :=
  Heard es s (heardPipe s.mode) rc ∨ (rc = 1 ∧ .startFailed .startup ∈ es)

/-- What the supervisor tells the startup process. -/
def PassedOn (es : List Event) (s : System) (rc : Int) : Prop :=
  Heard es s (.initResult 0) rc ∨ (rc = 1 ∧ .startFailed .supervisor ∈ es)

def StartupAt (es : List Event) (s : System) : Phase → Prop
  | .starting => es = [] ∧ s = initial s.mode s.restartMax
  | .performingStartup =>
      recvFd (s.process .startup) = .ok (some (heardPipe s.mode)) ∧
        (s.process (teller (heardPipe s.mode))).phase ≠ .unborn
  | .serving => s.mode = .foreground
  | .exited status => s.mode = .foreground ∨ ∃ rc, status = exitStatus rc ∧ Result es s rc
  | .killed _ => True
  | _ => False

/-- As long as the supervisor has not told the startup process, it has had no
daemon but the first. -/
def SupervisorAt (es : List Event) (s : System) : Phase → Prop
  | .unborn => True
  | .spawning => s.first = true → s.forks = 0
  | .receiving => 0 < s.forks ∧ recvFd (s.process .supervisor) = .ok (some (.initResult (s.forks - 1))) ∧
      (s.first = true → s.forks = 1)
  | .received rc => 0 < s.forks ∧ Heard es s (.initResult (s.forks - 1)) rc ∧ (s.first = true → s.forks = 1)
  | .supervising _ => s.first = false
  | .exited _ => tells .supervisor es ≠ []
  | .killed _ => True
  | _ => False

structure Supervises (es : List Event) (s : System) : Prop where
  kind : (s.process .supervisor).phase.alive = true → (s.process .supervisor).processKind = .supervisor
  mode : (s.process .supervisor).phase ≠ .unborn → s.mode = .safeBackground
  place : SupervisorAt es s (s.process .supervisor).phase
  restarted : 1 < s.forks → s.first = false
  untold : (s.process .supervisor).phase.alive = true → s.first = true → tells .supervisor es = []
  told : s.first = false → tells .supervisor es = [0]
  passed : ∀ rc, tells .supervisor es = [rc] → PassedOn es s rc

structure Rounds (es : List Event) (s : System) : Prop where
  forks : ∀ k, (s.process (.daemon k)).phase = .unborn ↔ s.forks ≤ k
  daemon : ∀ k, (s.process (.daemon k)).phase = .unborn ∨ (s.process (.daemon k)).phase = .serving ∨
    Phase.gone (s.process (.daemon k)).phase = true
  startup : StartupAt es s (s.process .startup).phase
  supervisor : Supervises es s

theorem Acts.passedOn (hw : Wired es s) (h : Acts p s new t) (hpassed : PassedOn es s rc) :
    PassedOn (es ++ new) t rc :=
  hpassed.imp (h.heard hw) fun ⟨hrc, hmem⟩ => ⟨hrc, List.mem_append_left new hmem⟩

theorem Acts.result (hw : Wired es s) (h : Acts p s new t) (hresult : Result es s rc) : Result (es ++ new) t rc := by
  rw [Result, h.mode]
  exact hresult.imp (h.heard hw) fun ⟨hrc, hmem⟩ => ⟨hrc, List.mem_append_left new hmem⟩

theorem initial_alive (h : ((initial mode restartMax).process p).phase.alive = true) : p = .startup := by
  by_contra hne
  have hother : (initial mode restartMax).process p = {} := by simp only [initial, Function.update_of_ne hne]
  rw [hother] at h
  cases h

theorem startup_stays (hw : Wired es s) (hr : Rounds es s) (h : Acts p s new t) (hp : p ≠ .startup) :
    StartupAt (es ++ new) t (t.process .startup).phase := by
  have hplace := hr.startup
  have hsame : t.process .startup = s.process .startup := by
    refine (h.others _ (Ne.symm hp)).resolve_right ?_
    rintro ⟨k, ⟨⟩, -⟩
  rw [hsame]
  generalize hphase : (s.process .startup).phase = phase at hplace
  cases phase with
  | starting =>
      obtain ⟨-, hs⟩ := hplace
      have hlive := h.live
      rw [hs] at hlive
      exact absurd (initial_alive hlive) hp
  | performingStartup =>
      obtain ⟨hrecv, hborn⟩ := hplace
      rw [StartupAt, h.mode, hsame]
      exact ⟨hrecv, h.stays_born hborn⟩
  | serving => exact h.mode.trans hplace
  | exited status => exact hplace.imp h.mode.trans fun ⟨rc, hstatus, hresult⟩ => ⟨rc, hstatus, h.result hw hresult⟩
  | killed => trivial
  | _ => exact hplace.elim

theorem supervisor_stays (hw : Wired es s) (hr : Rounds es s) (h : Acts p s new t)
    (hsame : t.process .supervisor = s.process .supervisor) (hnew : tells .supervisor new = [])
    (hfirst : t.first = s.first) (hforks : t.forks = s.forks) : Supervises (es ++ new) t := by
  obtain ⟨hkind, hmode, hplace, hrestarted, huntold, htold, hpassed⟩ := hr.supervisor
  have htells : tells .supervisor (es ++ new) = tells .supervisor es := by
    rw [tells_append, hnew, List.append_nil]
  refine ⟨?_, ?_, ?_, ?_, ?_, ?_, ?_⟩
  · rwa [hsame]
  · rwa [hsame, h.mode]
  · rw [hsame]
    generalize (s.process .supervisor).phase = phase at hplace
    cases phase with
    | unborn => trivial
    | spawning => rwa [SupervisorAt, hfirst, hforks]
    | receiving => rwa [SupervisorAt, hfirst, hforks, hsame]
    | received rc =>
        rw [SupervisorAt, hfirst, hforks]
        exact ⟨hplace.1, h.heard hw hplace.2.1, hplace.2.2⟩
    | supervising rc => exact hfirst.trans hplace
    | exited status => rwa [SupervisorAt, htells]
    | killed => trivial
    | _ => exact hplace.elim
  · rwa [hfirst, hforks]
  · rwa [hsame, hfirst, htells]
  · rwa [hfirst, htells]
  · intro rc hrc
    rw [htells] at hrc
    exact h.passedOn hw (hpassed rc hrc)

/-- A step of a daemon, or of the startup process or the supervisor where
these end up in a right place. -/
theorem Rounds.acts (hw : Wired es s) (hr : Rounds es s) (h : Acts p s new t)
    (hforks : t.forks = s.forks) (hothers : ∀ q, q ≠ p → t.process q = s.process q)
    (hdaemon : ∀ k, p = .daemon k → (t.process p).phase = .serving ∨ Phase.gone (t.process p).phase = true)
    (hstartup : p = .startup → StartupAt (es ++ new) t (t.process .startup).phase)
    (hsupervisor : p = .supervisor → Supervises (es ++ new) t) : Rounds (es ++ new) t where
  forks k := by
    rw [hforks, ← hr.forks k]
    by_cases hk : p = .daemon k
    · have hlive := h.live
      subst hk
      refine iff_of_false h.born ?_
      intro hunborn
      rw [hunborn] at hlive
      cases hlive
    · rw [hothers _ (Ne.symm hk)]
  daemon k := by
    by_cases hk : p = .daemon k
    · subst hk
      exact .inr (hdaemon k rfl)
    · rw [hothers _ (Ne.symm hk)]
      exact hr.daemon k
  startup := by
    by_cases hp : p = .startup
    · exact hstartup hp
    · exact startup_stays hw hr h hp
  supervisor := by
    by_cases hp : p = .supervisor
    · exact hsupervisor hp
    · exact supervisor_stays hw hr h (hothers _ (Ne.symm hp)) (h.silent _ (Ne.symm hp)) (h.counts hp).1 hforks

/-! The steps -/

theorem alive_of_phase (h : (s.process p).phase = phase) (hphase : phase.alive = true) :
    (s.process p).phase.alive = true := h ▸ hphase

/-- Both invariants. -/
structure Inv (es : List Event) (s : System) : Prop where
  wired : Wired es s
  rounds : Rounds es s

theorem inv_start (h : Inv es s) (hphase : (s.process .startup).phase = .starting) : Inv (es ++ []) (processStart s) := by
  have hplace := h.rounds.startup
  rw [hphase] at hplace
  obtain ⟨rfl, hs⟩ := hplace
  rw [hs]
  generalize s.mode = mode
  generalize s.restartMax = restartMax
  refine ⟨wired_processStart mode restartMax, fun k => ?_, fun k => ?_, ?_, ?_, ?_, ?_, ?_, ?_, ?_, ?_⟩
  · rw [processStart_process]
    cases mode <;> rcases k with _ | k <;> simp [started, processStart, startBackground, startSafeBackground, initial,
      setProcess, fork, closeWrite, setPipe]
  · rw [processStart_process]
    cases mode <;> rcases k with _ | k <;> simp [started]
  · rw [processStart_process]
    cases mode with
    | foreground => rfl
    | background => exact ⟨rfl, by rintro ⟨⟩⟩
    | safeBackground => exact ⟨rfl, by rintro ⟨⟩⟩
  · rw [processStart_process]
    cases mode <;> simp [started, Phase.alive]
  · rw [processStart_process]
    cases mode <;> simp [started, processStart, startSafeBackground, initial, setProcess, fork, closeWrite, setPipe]
  · rw [processStart_process]
    cases mode <;> simp [started, SupervisorAt, processStart, startSafeBackground, initial, setProcess, fork,
      closeWrite, setPipe]
  · cases mode <;> simp [processStart, startBackground, startSafeBackground, initial, setProcess, fork,
      closeWrite, setPipe]
  · exact fun _ _ => rfl
  · cases mode <;> simp [processStart, startBackground, startSafeBackground, initial, setProcess, fork,
      closeWrite, setPipe]
  · rintro rc ⟨⟩

theorem tells_startFails (p q : Party) (es new : List Event) :
    tells p (es ++ .startFailed q :: new) = tells p (es ++ new) := by
  rw [tells_append, tells_append, tells_startFailed]

theorem inv_startFails (h : Inv es s) (hphase : (s.process .startup).phase = .starting) :
    Inv (es ++ [.startFailed .startup]) (endProcess .startup (.exited (exitStatus 1)) s) := by
  have hlive := alive_of_phase hphase rfl
  have hgone : Phase.gone (.exited (exitStatus 1)) = true := rfl
  have hacts := (acts_endProcess hlive hgone).startFailed .startup
  refine ⟨(h.wired.endProcess .startup hgone).congr fun p => ?_, h.rounds.acts h.wired hacts rfl
    (fun q hq => endProcess_other hq _ s) (by rintro k ⟨⟩) (fun _ => ?_) (by rintro ⟨⟩)⟩
  · rw [tells_startFails, List.append_nil]
  · rw [endProcess_self]
    exact .inr ⟨1, rfl, .inr ⟨rfl, List.mem_append_right es (List.mem_singleton_self _)⟩⟩

theorem inv_await {t : System} (h : Inv es s) (hphase : (s.process .startup).phase = .performingStartup)
    (hrecv : recvResult .startup s = .ok (some (rc, t))) :
    Inv (es ++ []) (endProcess .startup (.exited (exitStatus rc)) t) := by
  have hlive := alive_of_phase hphase rfl
  have hplace := h.rounds.startup
  rw [hphase] at hplace
  obtain ⟨hfd, hborn⟩ := hplace
  obtain ⟨hgot, hself⟩ := acts_recvResult hlive hfd hrecv
  have hheard := h.wired.heard hlive hfd hborn hrecv
  have hlive' : (t.process .startup).phase.alive = true := by rw [hself, phase_dropRecvFd, hphase]; rfl
  have hgone : Phase.gone (.exited (exitStatus rc)) = true := rfl
  have hacts := hgot.trans (acts_endProcess hlive' hgone)
  obtain ⟨-, -, ht⟩ := recvResult_cases hrecv hfd
  change t = _ at ht
  refine ⟨(h.wired.recvResult hlive hfd hrecv).endProcess .startup rfl |>.congr fun p => by rw [List.append_nil],
    h.rounds.acts h.wired hacts (by rw [ht]; rfl) (fun q hq => ?_) (by rintro k ⟨⟩) (fun _ => ?_) (by rintro ⟨⟩)⟩
  · rw [endProcess_other hq, ht, setProcess_other hq]
    rfl
  · rw [endProcess_self]
    exact .inr ⟨rc, rfl, hacts.result h.wired (.inl hheard)⟩

theorem inv_spawn (h : Inv es s) (hphase : (s.process .supervisor).phase = .spawning) : Inv (es ++ []) (spawn s) := by
  have hlive := alive_of_phase hphase rfl
  obtain ⟨hkind, hmode, hplace, hrestarted, huntold, htold, hpassed⟩ := h.rounds.supervisor
  have hunborn := (h.rounds.forks s.forks).mpr (Nat.le_refl _)
  have hborn : (s.process .supervisor).phase ≠ .unborn := by rw [hphase]; rintro ⟨⟩
  rw [hphase] at hplace
  have hacts := acts_spawn hphase hunborn
  have hfirst : s.forks = 0 ∨ tells .supervisor es ≠ [] := by
    by_cases hfirst : s.first = true
    · exact .inl (hplace hfirst)
    · refine .inr ?_
      rw [htold (Bool.eq_false_of_not_eq_true hfirst)]
      exact List.cons_ne_nil _ _
  rw [List.append_nil]
  refine ⟨wired_spawn h.wired hphase (hkind hlive) (hmode hborn) hunborn hfirst, fun k => ?_, fun k => ?_, ?_, ?_⟩
  · rw [spawn_forks]
    by_cases hk : k = s.forks
    · rw [hk, spawn_daemon]
      exact iff_of_false (by rintro ⟨⟩) (by omega)
    · have hne : Party.daemon k ≠ .daemon s.forks := fun heq => hk (Party.daemon.inj heq)
      rw [spawn_other (by rintro ⟨⟩) hne, h.rounds.forks k]
      omega
  · by_cases hk : k = s.forks
    · rw [hk, spawn_daemon]
      exact .inr (.inl rfl)
    · have hne : Party.daemon k ≠ .daemon s.forks := fun heq => hk (Party.daemon.inj heq)
      rw [spawn_other (by rintro ⟨⟩) hne]
      exact h.rounds.daemon k
  · have hstays := startup_stays h.wired h.rounds hacts (by rintro ⟨⟩)
    rwa [List.append_nil] at hstays
  · refine ⟨fun _ => ?_, fun _ => hmode hborn, ?_, ?_, ?_, ?_, fun rc hrc => ?_⟩
    · rw [spawn_supervisor]
      exact hkind hlive
    · rw [spawn_supervisor, SupervisorAt, spawn_supervisor, spawn_first, spawn_forks]
      refine ⟨Nat.succ_pos _, ?_, fun hyes => congrArg (· + 1) (hplace hyes)⟩
      rw [recvFd, hkind hlive]
      rfl
    · rw [spawn_forks, spawn_first]
      intro hmany
      refine Bool.eq_false_of_not_eq_true fun hyes => ?_
      have hnone := hplace hyes
      omega
    · rw [spawn_first]
      exact fun _ => huntold hlive
    · rwa [spawn_first]
    · have hstays := hacts.passedOn h.wired (hpassed rc hrc)
      rwa [List.append_nil] at hstays

theorem sendResult_frame (hsend : sendResult p retNum s = .ok (told, t)) :
    t.forks = s.forks ∧ t.first = s.first ∧ (∀ q, q ≠ p → t.process q = s.process q) ∧
      (t.process p).processKind = (s.process p).processKind := by
  obtain ⟨-, -, rfl⟩ | ⟨id, text, -, -, -, rfl⟩ := sendResult_cases hsend
  · exact ⟨rfl, rfl, fun _ _ => rfl, rfl⟩
  · exact ⟨rfl, rfl, fun q hq => setProcess_other hq _ _, by rw [setProcess_self, kind_dropSendFd]⟩

/-- A process of the program tells its result, and goes on. -/
theorem inv_tells (h : Inv es s) (hphase : (s.process p).phase = .serving) (hshort : ShortResult retNum)
    (hsend : sendResult p retNum s = .ok (told, t)) :
    Inv (es ++ told) t ∧ (t.process p).phase = .serving := by
  have hlive := alive_of_phase hphase rfl
  obtain ⟨hacts, hsame⟩ := acts_sendResult hlive hsend
  obtain ⟨hforks, -, hothers, -⟩ := sendResult_frame hsend
  rw [hphase] at hsame
  refine ⟨⟨h.wired.sendResult hlive hshort hsend, h.rounds.acts h.wired hacts hforks hothers (fun _ _ => .inl hsame)
    (fun hp => ?_) fun hp => ?_⟩, hsame⟩
  · subst hp
    have hplace := h.rounds.startup
    rw [hphase] at hplace
    rw [hsame]
    exact hacts.mode.trans hplace
  · subst hp
    have hplace := h.rounds.supervisor.place
    rw [hphase] at hplace
    exact hplace.elim

theorem Supervises.ends (hw : Wired es s) (h : Supervises es s) (hlive : (s.process .supervisor).phase.alive = true)
    (hgone : Phase.gone phase = true) (hplace : SupervisorAt es (endProcess .supervisor phase s) phase) :
    Supervises es (endProcess .supervisor phase s) := by
  have hacts := acts_endProcess hlive hgone
  have hdead := not_alive_of_gone hgone
  have hborn : (s.process .supervisor).phase ≠ .unborn := by
    intro hunborn
    rw [hunborn] at hlive
    cases hlive
  refine ⟨fun hnot => ?_, fun _ => h.mode hborn, ?_, h.restarted, fun hnot => ?_, h.told, fun rc hrc => ?_⟩
  · rw [endProcess_self] at hnot
    exact Bool.noConfusion (hdead.symm.trans hnot)
  · rw [endProcess_self]
    exact hplace
  · rw [endProcess_self] at hnot
    exact Bool.noConfusion (hdead.symm.trans hnot)
  · have hstays := hacts.passedOn hw (h.passed rc hrc)
    rwa [List.append_nil] at hstays

theorem inv_ends (h : Inv es s) (hlive : (s.process p).phase.alive = true) (hgone : Phase.gone phase = true)
    (hstartup : p = .startup → StartupAt es (endProcess p phase s) phase)
    (hsupervisor : p = .supervisor → SupervisorAt es (endProcess p phase s) phase) : Inv es (endProcess p phase s) := by
  have hacts := acts_endProcess hlive hgone
  have hrounds := h.rounds.acts h.wired hacts rfl (fun q hq => endProcess_other hq phase s) (fun _ _ => ?_)
    (fun hp => ?_) fun hp => ?_
  · rw [List.append_nil] at hrounds
    exact ⟨h.wired.endProcess p hgone, hrounds⟩
  · rw [endProcess_self]
    exact .inr hgone
  · subst hp
    rw [List.append_nil, endProcess_self]
    exact hstartup rfl
  · subst hp
    rw [List.append_nil]
    exact h.rounds.supervisor.ends h.wired hlive hgone (hsupervisor rfl)

/-- In z_process_start the startup process becomes the daemon only in the
foreground. -/
theorem inv_exits (h : Inv es s) (hphase : (s.process p).phase = .serving) (status : Nat) :
    Inv es (endProcess p (.exited status) s) := by
  refine inv_ends h (alive_of_phase hphase rfl) rfl (fun hp => ?_) fun hp => ?_
  · subst hp
    have hplace := h.rounds.startup
    rw [hphase] at hplace
    exact .inl hplace
  · subst hp
    have hplace := h.rounds.supervisor.place
    rw [hphase] at hplace
    exact hplace.elim

theorem inv_kill (h : Inv es s) (hlive : (s.process p).phase.alive = true) (signal : Nat) :
    Inv es (endProcess p (.killed signal) s) :=
  inv_ends h hlive rfl (fun _ => trivial) fun _ => trivial

theorem alive_not_unborn (h : (s.process p).phase.alive = true) : (s.process p).phase ≠ .unborn := by
  intro hunborn
  rw [hunborn] at h
  cases h

/-- The supervisor goes from one place to the next. -/
theorem inv_moves {self : Process} (h : Inv es s) (hlive : (s.process .supervisor).phase.alive = true)
    (hself : self = { s.process .supervisor with phase := phase }) (halive : phase.alive = true)
    (hplace : SupervisorAt es (setProcess .supervisor self s) phase) : Inv es (setProcess .supervisor self s) := by
  have hphase : self.phase = phase := by rw [hself]
  have hborn : phase ≠ .unborn := by
    rintro rfl
    cases halive
  have hborn : self.phase ≠ .unborn := hphase ▸ hborn
  have hacts := acts_setProcess hlive hborn
  obtain ⟨hkind, hmode, -, hrestarted, huntold, htold, hpassed⟩ := h.rounds.supervisor
  have hrounds := h.rounds.acts h.wired hacts rfl (fun q hq => setProcess_other hq self s) (by rintro k ⟨⟩)
    (by rintro ⟨⟩) fun _ => ?_
  · rw [List.append_nil] at hrounds
    refine ⟨h.wired.setProcess hlive (hphase ▸ halive) ?_ ?_ ?_, hrounds⟩
    · rw [hself]
    · rw [hself, sendFd_phase]
    · rw [hself, recvFd_phase]
  · rw [List.append_nil]
    refine ⟨fun _ => ?_, fun _ => hmode (alive_not_unborn hlive), ?_, hrestarted, fun _ => huntold hlive, htold,
      fun rc hrc => ?_⟩
    · rw [setProcess_self, hself]
      exact hkind hlive
    · rw [setProcess_self, hphase]
      exact hplace
    · have hstays := hacts.passedOn h.wired (hpassed rc hrc)
      rwa [List.append_nil] at hstays

theorem inv_receive (h : Inv es s) (hphase : (s.process .supervisor).phase = .receiving)
    (hrecv : recvResult .supervisor s = .ok (some (rc, t))) :
    Inv (es ++ []) (setProcess .supervisor { t.process .supervisor with phase := .received rc } t) := by
  have hlive := alive_of_phase hphase rfl
  obtain ⟨hkind, hmode, hplace, hrestarted, huntold, htold, hpassed⟩ := h.rounds.supervisor
  rw [hphase] at hplace
  obtain ⟨hpos, hfd, hfirst⟩ := hplace
  obtain ⟨hgot, hself⟩ := acts_recvResult hlive hfd hrecv
  change Acts .supervisor s [] t at hgot
  change t.process .supervisor = _ at hself
  have hborn : (s.process (teller (.initResult (s.forks - 1)))).phase ≠ .unborn := by
    rw [teller, Ne, h.rounds.forks]
    omega
  have hheard := h.wired.heard hlive hfd hborn hrecv
  change Heard es s _ rc at hheard
  obtain ⟨-, -, ht⟩ := recvResult_cases hrecv hfd
  change t = _ at ht
  have hforks : t.forks = s.forks := by rw [ht]; rfl
  have hfirsts : t.first = s.first := by rw [ht]; rfl
  have hlive' : (t.process .supervisor).phase.alive = true := by rw [hself, phase_dropRecvFd, hphase]; rfl
  generalize hnext : { t.process .supervisor with phase := .received rc } = self
  have hreceived : self.phase = .received rc := by rw [← hnext]
  have hborn' : self.phase ≠ .unborn := by rw [hreceived]; rintro ⟨⟩
  have hacts := hgot.trans (acts_setProcess hlive' hborn')
  have hwired := h.wired.recvResult hlive hfd hrecv
  refine ⟨(hwired.setProcess hlive' ?_ ?_ ?_ ?_).congr fun p => by rw [List.append_nil],
    h.rounds.acts h.wired hacts hforks (fun q hq => ?_) (by rintro k ⟨⟩) (by rintro ⟨⟩) fun _ => ?_⟩
  · rw [hreceived]
    rfl
  · rw [← hnext]
  · rw [← hnext, sendFd_phase]
  · rw [← hnext, recvFd_phase]
  · rw [setProcess_other hq, ht, setProcess_other hq]
    rfl
  · refine ⟨fun _ => ?_, fun _ => hacts.mode.trans (hmode (alive_not_unborn hlive)), ?_, ?_, fun _ => ?_, ?_, ?_⟩
    · rw [setProcess_self, ← hnext]
      change (t.process .supervisor).processKind = _
      rw [hself, kind_dropRecvFd]
      exact hkind hlive
    · rw [setProcess_self, hreceived]
      refine ⟨hforks ▸ hpos, ?_, ?_⟩
      · change Heard _ _ (.initResult (t.forks - 1)) rc
        rw [hforks]
        exact hacts.heard h.wired hheard
      · change t.first = true → t.forks = 1
        rwa [hfirsts, hforks]
    · change 1 < t.forks → t.first = false
      rwa [hfirsts, hforks]
    · change t.first = true → _
      rw [hfirsts, List.append_nil]
      exact huntold hlive
    · change t.first = false → _
      rw [hfirsts, List.append_nil]
      exact htold
    · intro rc' hrc
      rw [List.append_nil] at hrc
      exact hacts.passedOn h.wired (hpassed rc' hrc)

/-- What the supervisor has not told before, it tells now. -/
theorem tells_sent (hw : Wired es s) (hlive : (s.process p).phase.alive = true)
    (hkind : (s.process p).processKind ≠ .startup) (hown : tellPipe p = some id) (hnone : tells p es = [])
    (hsend : sendResult p retNum s = .ok (told, t)) : tells p (es ++ told) = [retNum] := by
  obtain ⟨fd, hfd⟩ := sendFd_ok hkind
  have hpipe := hw.sends p fd hlive hfd
  rw [if_pos hnone, hown] at hpipe
  subst hpipe
  obtain ⟨hnofd, -⟩ | ⟨-, -, -, -, rfl, -⟩ := sendResult_cases hsend
  · rw [hfd] at hnofd
    cases hnofd
  · rw [tells_append, hnone, tells_told, if_pos rfl]
    rfl

/-- The supervisor has told the startup process, which it can do once, and
ends. -/
theorem inv_gives_up (h : Inv es s) (hlive : (s.process .supervisor).phase.alive = true) (hshort : ShortResult retNum)
    (hpassed : s.first = true → PassedOn (es ++ told) t retNum)
    (hsend : sendResult .supervisor retNum s = .ok (told, t)) (status : Nat) :
    Inv (es ++ told) (endProcess .supervisor (.exited status) t) := by
  obtain ⟨hkind, hmode, -, hrestarted, huntold, htold, hpassed'⟩ := h.rounds.supervisor
  have hnotStartup : (s.process .supervisor).processKind ≠ .startup := by rw [hkind hlive]; rintro ⟨⟩
  obtain ⟨hsent, hsame⟩ := acts_sendResult hlive hsend
  obtain ⟨hforks, hfirsts, hothers, -⟩ := sendResult_frame hsend
  have hlive' : (t.process .supervisor).phase.alive = true := by rw [hsame]; exact hlive
  have hgone : Phase.gone (.exited status) = true := rfl
  have hacts := hsent.trans (acts_endProcess hlive' hgone)
  have htells : (s.first = true ∧ tells .supervisor (es ++ told) = [retNum]) ∨
      (s.first = false ∧ tells .supervisor (es ++ told) = [0]) := by
    cases hfirst : s.first with
    | true =>
        exact .inl ⟨rfl, tells_sent h.wired hlive hnotStartup rfl (huntold hlive hfirst) hsend⟩
    | false =>
        have hzero := htold hfirst
        refine .inr ⟨rfl, (hsent.tells_told h.wired ?_).trans hzero⟩
        rw [hzero]
        exact List.cons_ne_nil _ _
  refine ⟨(h.wired.sendResult hlive hshort hsend).endProcess .supervisor hgone,
    h.rounds.acts h.wired hacts hforks (fun q hq => ?_) (by rintro k ⟨⟩) (by rintro ⟨⟩) fun _ => ?_⟩
  · rw [endProcess_other hq]
    exact hothers q hq
  · have hfirsts' : (endProcess .supervisor (.exited status) t).first = s.first := hfirsts
    have hforks' : (endProcess .supervisor (.exited status) t).forks = s.forks := hforks
    refine ⟨fun hnot => ?_, fun _ => hacts.mode.trans (hmode (alive_not_unborn hlive)), ?_, ?_, fun hnot => ?_,
      fun hno => ?_, fun rc hrc => ?_⟩
    · rw [endProcess_self] at hnot
      cases hnot
    · rw [endProcess_self]
      change tells .supervisor (es ++ told) ≠ []
      rcases htells with ⟨-, htells⟩ | ⟨-, htells⟩
      · rw [htells]
        exact List.cons_ne_nil _ _
      · rw [htells]
        exact List.cons_ne_nil _ _
    · rwa [hforks', hfirsts']
    · rw [endProcess_self] at hnot
      cases hnot
    · rw [hfirsts'] at hno
      exact (htells.resolve_left fun ⟨hyes, _⟩ => Bool.noConfusion (hno.symm.trans hyes)).2
    · rcases htells with ⟨hyes, htells⟩ | ⟨hno, htells⟩
      · rw [htells] at hrc
        cases hrc
        have hstays := (acts_endProcess hlive' hgone).passedOn (h.wired.sendResult hlive hshort hsend) (hpassed hyes)
        rwa [List.append_nil] at hstays
      · rw [htells] at hrc
        cases hrc
        exact hacts.passedOn h.wired (hpassed' 0 (htold hno))

theorem inv_report (h : Inv es s) (hphase : (s.process .supervisor).phase = .received rc) (hfirst : s.first = true)
    (hsend : sendResult .supervisor rc s = .ok (told, t)) :
    Inv (es ++ told) (if rc ≠ 0 then endProcess .supervisor (.exited (exitStatus 0)) t
      else { setProcess .supervisor { t.process .supervisor with phase := .supervising rc } t with first := false }) := by
  have hlive := alive_of_phase hphase rfl
  obtain ⟨hkind, hmode, hplace, hrestarted, huntold, htold, hpassed⟩ := h.rounds.supervisor
  rw [hphase] at hplace
  obtain ⟨-, hheard, hone⟩ := hplace
  have hshort := h.wired.short hheard
  rw [hone hfirst] at hheard
  obtain ⟨hsent, hsame⟩ := acts_sendResult hlive hsend
  have hnotStartup : (s.process .supervisor).processKind ≠ .startup := by rw [hkind hlive]; rintro ⟨⟩
  by_cases hrc : rc ≠ 0
  · rw [if_pos hrc]
    exact inv_gives_up h hlive hshort (fun _ => hsent.passedOn h.wired (.inl hheard)) hsend _
  · rw [if_neg hrc]
    have hrc : rc = 0 := by omega
    subst hrc
    obtain ⟨hforks, -, hothers, hkinds⟩ := sendResult_frame hsend
    have htells := tells_sent h.wired hlive hnotStartup rfl (huntold hlive hfirst) hsend
    have hlive' : (t.process .supervisor).phase.alive = true := by rw [hsame]; exact hlive
    generalize hnext : { t.process .supervisor with phase := .supervising 0 } = self
    have hsupervising : self.phase = .supervising 0 := by rw [← hnext]
    have hborn' : self.phase ≠ .unborn := by rw [hsupervising]; rintro ⟨⟩
    obtain ⟨hl, hb, hm, ho, hs, hc, -⟩ := hsent.trans (acts_setProcess hlive' hborn')
    have hacts : Acts .supervisor s told { setProcess .supervisor self t with first := false } :=
      ⟨hl, hb, hm, ho, hs, hc, fun hne => absurd rfl hne⟩
    have hwired : Wired (es ++ told) (setProcess .supervisor self t) := by
      refine (h.wired.sendResult hlive hshort hsend).setProcess hlive' ?_ ?_ ?_ ?_
      · rw [hsupervising]
        rfl
      · rw [← hnext]
      · rw [← hnext, sendFd_phase]
      · rw [← hnext, recvFd_phase]
    refine ⟨⟨hwired.once, hwired.unborn, hwired.kind, hwired.sends, hwired.holds, hwired.writers, hwired.reads⟩,
      h.rounds.acts h.wired hacts hforks (fun q hq => (setProcess_other hq self t).trans (hothers q hq))
        (by rintro k ⟨⟩) (by rintro ⟨⟩) fun _ => ?_⟩
    have hself : (setProcess .supervisor self t).process .supervisor = self := setProcess_self _ _ _
    refine ⟨fun _ => ?_, fun _ => hacts.mode.trans (hmode (alive_not_unborn hlive)), ?_, fun _ => rfl, fun _ hno => ?_,
      fun _ => htells, fun rc hrc => ?_⟩
    · change ((setProcess .supervisor self t).process .supervisor).processKind = _
      rw [hself, ← hnext]
      exact hkinds.trans (hkind hlive)
    · change SupervisorAt _ _ ((setProcess .supervisor self t).process .supervisor).phase
      rw [hself, hsupervising]
      rfl
    · cases hno
    · rw [htells] at hrc
      cases hrc
      exact hacts.passedOn h.wired (.inl hheard)

theorem inv_reportLater (h : Inv es s) (hphase : (s.process .supervisor).phase = .received rc) (hfirst : s.first = false) :
    Inv es (setProcess .supervisor { s.process .supervisor with phase := .supervising rc } s) :=
  inv_moves h (alive_of_phase hphase rfl) rfl rfl hfirst

theorem inv_collect (h : Inv es s) (hphase : (s.process .supervisor).phase = .supervising rc) (again : Bool) :
    Inv es (if again then setProcess .supervisor { s.process .supervisor with phase := .spawning } s
      else endProcess .supervisor (.exited (exitStatus 0)) s) := by
  have hlive := alive_of_phase hphase rfl
  have hplace := h.rounds.supervisor.place
  rw [hphase] at hplace
  cases again with
  | true =>
      refine inv_moves h hlive rfl rfl fun hyes => ?_
      exact Bool.noConfusion (hplace.symm.trans hyes)
  | false =>
      refine inv_ends h hlive rfl (by rintro ⟨⟩) fun _ => ?_
      change tells .supervisor es ≠ []
      rw [h.rounds.supervisor.told hplace]
      exact List.cons_ne_nil _ _

theorem inv_spawnFails (h : Inv es s) (hphase : (s.process .supervisor).phase = .spawning)
    (hsend : sendResult .supervisor 1 s = .ok (told, t)) :
    Inv (es ++ .startFailed .supervisor :: told) (endProcess .supervisor (.exited (exitStatus 1)) t) := by
  have hlive := alive_of_phase hphase rfl
  have hacts : Acts .supervisor s [.startFailed .supervisor] s :=
    ⟨hlive, alive_not_unborn hlive, rfl, fun _ _ => .inl rfl, fun _ _ => rfl, .inl rfl, fun _ => ⟨rfl, rfl⟩⟩
  have hfailed : Inv (es ++ [.startFailed .supervisor]) s := by
    refine ⟨h.wired.congr fun p => ?_, h.rounds.acts h.wired hacts rfl (fun _ _ => rfl) (by rintro k ⟨⟩) (by rintro ⟨⟩)
      fun _ => supervisor_stays h.wired h.rounds hacts rfl rfl rfl rfl⟩
    rw [tells_startFails, List.append_nil]
  have hmem : Event.startFailed .supervisor ∈ es ++ [.startFailed .supervisor] ++ told :=
    List.mem_append_left told (List.mem_append_right es (List.mem_singleton_self _))
  have hends := inv_gives_up hfailed hlive (by decide) (fun _ => .inr ⟨rfl, hmem⟩) hsend (exitStatus 1)
  rwa [List.append_assoc] at hends

theorem inv_initial (mode : Mode) (restartMax : Int) : Inv [] (initial mode restartMax) := by
  have hstartup : (initial mode restartMax).process .startup = { phase := .starting } := by
    simp only [initial, Function.update_self]
  have hother {q : Party} (hq : q ≠ .startup) : (initial mode restartMax).process q = {} := by
    simp only [initial, Function.update_of_ne hq]
  refine ⟨wired_initial mode restartMax, fun k => ?_, fun k => ?_, ?_, fun hno => ?_, fun hno => ?_, ?_, fun hno => ?_,
    fun _ _ => rfl, fun hno => ?_, fun rc hrc => ?_⟩
  · rw [hother (by rintro ⟨⟩)]
    exact iff_of_true rfl (Nat.zero_le k)
  · rw [hother (by rintro ⟨⟩)]
    exact .inl rfl
  · rw [hstartup]
    exact ⟨rfl, rfl⟩
  · rw [hother (by rintro ⟨⟩)] at hno
    cases hno
  · rw [hother (by rintro ⟨⟩)] at hno
    exact absurd rfl hno
  · rw [hother (by rintro ⟨⟩)]
    trivial
  · cases hno
  · cases hno
  · cases hrc

/-- What every step keeps. -/
theorem inv_step {a : Action} (h : Inv es s) (hallowed : Allowed a s) (hstep : Step a s new t) : Inv (es ++ new) t := by
  cases hstep with
  | start hphase => exact inv_start h hphase
  | startFails hphase => exact inv_startFails h hphase
  | await hphase hrecv => exact inv_await h hphase hrecv
  | spawn hphase => exact inv_spawn h hphase
  | spawnFails hphase hsend => exact inv_spawnFails h hphase hsend
  | receive hphase hrecv => exact inv_receive h hphase hrecv
  | report hphase hfirst hsend => exact inv_report h hphase hfirst hsend
  | reportLater hphase hfirst =>
      rw [List.append_nil]
      exact inv_reportLater h hphase hfirst
  | collect restartCount outcome hphase =>
      rw [List.append_nil]
      exact inv_collect h hphase _
  | startupOk p hphase hsend => exact (inv_tells h hphase (by decide) hsend).1
  | startupFailed p retNum mayExit hphase hsend =>
      obtain ⟨htold, hserving⟩ := inv_tells h hphase hallowed hsend
      split
      · exact inv_exits htold hserving _
      · exact htold
  | exit p retNum hphase =>
      rw [List.append_nil]
      exact inv_exits h hphase _
  | kill p signal halive =>
      rw [List.append_nil]
      exact inv_kill h halive signal

theorem inv_run (h : Run mode restartMax es s) : Inv es s :=
  Trace.Steps.invariant h Inv (inv_initial mode restartMax) fun _ _ _ _ _ hinv hallowed hstep => inv_step hinv hallowed hstep

theorem mode_step {a : Action} (hstep : Step a s new t) : t.mode = s.mode := by
  have hsends {p : Party} {retNum : Int} {told : List Event} {t : System}
      (hsend : sendResult p retNum s = .ok (told, t)) : t.mode = s.mode := by
    obtain ⟨-, -, rfl⟩ | ⟨id, text, -, -, -, rfl⟩ := sendResult_cases hsend
    · rfl
    · rfl
  have hrecvs {p : Party} {r : Int × System} (hrecv : recvResult p s = .ok (some r)) : r.2.mode = s.mode := by
    cases hfd : recvFd (s.process p) with
    | error halt =>
        rw [recvResult, hfd] at hrecv
        cases hrecv
    | ok fd =>
        cases fd with
        | none =>
            rw [recvResult, hfd] at hrecv
            cases hrecv
            rfl
        | some id =>
            rw [(recvResult_cases hrecv hfd).2.2]
            rfl
  cases hstep with
  | start =>
      rw [processStart]
      cases hmode : s.mode with
      | foreground => exact hmode
      | background => exact hmode
      | safeBackground => exact hmode
  | startFails | exit | kill | spawn | reportLater => rfl
  | await hphase hrecv => exact hrecvs hrecv
  | spawnFails hphase hsend =>
      have hmode := hsends hsend
      exact hmode
  | receive hphase hrecv => exact hrecvs hrecv
  | report hphase hfirst hsend =>
      have hmode := hsends hsend
      split
      · exact hmode
      · exact hmode
  | collect =>
      split
      · rfl
      · rfl
  | startupOk p hphase hsend => exact hsends hsend
  | startupFailed p retNum mayExit hphase hsend =>
      have hmode := hsends hsend
      split
      · exact hmode
      · exact hmode

theorem run_mode (h : Run mode restartMax es s) : s.mode = mode :=
  Trace.Steps.invariant h (fun _ s => s.mode = mode) rfl fun _ _ _ _ _ hinv _ hstep => (mode_step hstep).trans hinv

theorem sends_no_failure {q : Party} (hsend : sendResult p retNum s = .ok (told, t)) : .startFailed q ∉ told := by
  obtain ⟨-, rfl, -⟩ | ⟨id, text, -, -, rfl, -⟩ := sendResult_cases hsend
  · exact List.not_mem_nil
  · rintro hmem
    cases List.mem_singleton.mp hmem

/-- A step of somebody who is alive. -/
theorem step_alive {a : Action} (hstep : Step a s new t) : ∃ p, (s.process p).phase.alive = true := by
  cases hstep with
  | start hphase | startFails hphase => exact ⟨_, alive_of_phase hphase rfl⟩
  | await hphase | spawn hphase | spawnFails hphase | receive hphase | report hphase | reportLater hphase =>
      exact ⟨_, alive_of_phase hphase rfl⟩
  | collect _ _ hphase => exact ⟨_, alive_of_phase hphase rfl⟩
  | startupOk p hphase | exit p _ hphase | startupFailed p _ _ hphase => exact ⟨p, alive_of_phase hphase rfl⟩
  | kill p signal halive => exact ⟨p, halive⟩

/-- Where z_process_start fails, there is nobody afterwards. -/
theorem failed_run (h : Run mode restartMax es s) (hmem : .startFailed .startup ∈ es) (p : Party) :
    (s.process p).phase.alive = false ∧ tells p es = [] := by
  let Failed (es : List Event) (s : System) : Prop :=
    .startFailed .startup ∈ es → ∀ p, (s.process p).phase.alive = false ∧ tells p es = []
  have hall : Inv es s ∧ Failed es s := by
    refine Trace.Steps.invariant h (fun es s => Inv es s ∧ Failed es s) ⟨inv_initial mode restartMax, fun hnot => (List.not_mem_nil hnot).elim⟩ ?_
    rintro a es s new t ⟨hinv, hfailed⟩ hallowed hstep
    refine ⟨inv_step hinv hallowed hstep, fun hmem p => ?_⟩
    rcases List.mem_append.mp hmem with hold | hnew
    · obtain ⟨q, hq⟩ := step_alive hstep
      exact Bool.noConfusion ((hfailed hold q).1.symm.trans hq)
    · cases hstep with
      | startFails hphase =>
          have hplace := hinv.rounds.startup
          rw [hphase] at hplace
          obtain ⟨rfl, hs⟩ := hplace
          refine ⟨?_, rfl⟩
          by_cases hp : p = .startup
          · rw [hp, endProcess_self]
            rfl
          · rw [endProcess_other hp]
            refine Bool.eq_false_of_not_eq_true fun hlive => hp ?_
            rw [hs] at hlive
            exact initial_alive hlive
      | spawnFails hphase hsend =>
          rcases List.mem_cons.mp hnew with heq | htold
          · cases heq
          · exact absurd htold (sends_no_failure hsend)
      | report hphase hfirst hsend => exact absurd hnew (sends_no_failure hsend)
      | startupOk p hphase hsend => exact absurd hnew (sends_no_failure hsend)
      | startupFailed p retNum mayExit hphase hsend => exact absurd hnew (sends_no_failure hsend)
      | _ => exact (List.not_mem_nil hnew).elim
  exact hall.2 hmem p

end Libzorpll.StartupRun
