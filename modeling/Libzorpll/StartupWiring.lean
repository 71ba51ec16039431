import Libzorpll.StartupSystem

/-! What is in the pipes of the startup process and the supervisor, and who
has them open. -/

namespace Libzorpll.StartupWiring

open StartupResult StartupSystem

def tells (p : Party) (es : List Event) : List Int :=
  es.filterMap fun
    | .told q retNum => if q = p then some retNum else none
    | .startFailed _ => none

/-- The pipe that a process tells its result through. -/
def tellPipe : Party → Option PipeId
  | .startup => none
  | .supervisor => some .startupResult
  | .daemon k => some (.initResult k)

def teller : PipeId → Party
  | .startupResult => .supervisor
  | .initResult k => .daemon k

def readBy (mode : Mode) : PipeId → Party
  | .startupResult => .startup
  | .initResult _ => if mode = .background then .startup else .supervisor

def Phase.gone : Phase → Bool
  | .exited _ | .killed _ => true
  | _ => false

/-- What is in the pipe of a process that has told its result, or not yet. -/
def DataOf (es : List Event) (id : PipeId) (data : List UInt8) : Prop :=
  (tells (teller id) es = [] ∧ data = []) ∨ ∃ retNum, tells (teller id) es = [retNum] ∧ resultText retNum = some data

/-- The result of the process behind a pipe: the one that it has told, or 1
where it has ended without any. -/
def Heard (es : List Event) (s : System) (id : PipeId) (rc : Int) : Prop :=
  tells (teller id) es = [rc] ∨
    (rc = 1 ∧ tells (teller id) es = [] ∧ Phase.gone (s.process (teller id)).phase = true)

structure Wired (es : List Event) (s : System) : Prop where
  once : ∀ p, tells p es = [] ∨ ∃ retNum, ShortResult retNum ∧ tells p es = [retNum]
  unborn : ∀ p, (s.process p).phase = .unborn → tells p es = []
  kind : ∀ p, (s.process p).phase.alive = true → p ≠ .startup → (s.process p).processKind ≠ .startup
  sends : ∀ p fd, (s.process p).phase.alive = true → sendFd (s.process p) = .ok fd →
    fd = if tells p es = [] then tellPipe p else none
  holds : ∀ p id, (s.process p).phase.alive = true → sendFd (s.process p) = .ok (some id) → p ∈ (s.pipe id).writers
  writers : ∀ p id, p ∈ (s.pipe id).writers → (s.process p).phase.alive = true ∧
    ((tellPipe p = some id ∧ tells p es = []) ∨ (p = .daemon 0 ∧ id = .startupResult))
  reads : ∀ p id, (s.process p).phase.alive = true → recvFd (s.process p) = .ok (some id) →
    p = readBy s.mode id ∧ DataOf es id (s.pipe id).data

variable {es new : List Event} {s t : System} {p : Party} {id : PipeId} {retNum rc : Int} {phase : Phase}

theorem tells_append (p : Party) (es new : List Event) : tells p (es ++ new) = tells p es ++ tells p new :=
  List.filterMap_append

theorem tells_told (p q : Party) (retNum : Int) : tells p [.told q retNum] = if q = p then [retNum] else [] := by
  by_cases h : q = p
  · rw [if_pos h]
    simp [tells, h]
  · rw [if_neg h]
    simp [tells, h]

theorem teller_of_tellPipe (h : tellPipe p = some id) : teller id = p := by
  cases p with
  | startup => cases h
  | supervisor => cases h; rfl
  | daemon k => cases h; rfl

theorem tellPipe_teller (id : PipeId) : tellPipe (teller id) = some id := by
  cases id with
  | startupResult => rfl
  | initResult k => rfl

theorem sendFd_ok {self : Process} (h : self.processKind ≠ .startup) : ∃ fd, sendFd self = .ok fd := by
  rw [sendFd]
  cases hkind : self.processKind with
  | startup => exact absurd hkind h
  | supervisor => exact ⟨_, rfl⟩
  | daemon => exact ⟨_, rfl⟩

theorem sendFd_phase (self : Process) (phase : Phase) : sendFd { self with phase := phase } = sendFd self := rfl

theorem recvFd_phase (self : Process) (phase : Phase) : recvFd { self with phase := phase } = recvFd self := rfl

theorem sendFd_drop {self : Process} {fd : Option PipeId} (h : sendFd self = .ok fd) :
    sendFd (dropSendFd self) = .ok none := by
  rw [sendFd] at h
  rw [dropSendFd]
  cases hkind : self.processKind with
  | startup => rw [hkind] at h; cases h
  | supervisor => simp only [sendFd]
  | daemon => simp only [sendFd]

theorem recvFd_dropSendFd (self : Process) : recvFd (dropSendFd self) = recvFd self := by
  rw [dropSendFd]
  cases hkind : self.processKind with
  | startup => simp only [recvFd, hkind]
  | supervisor => simp only [recvFd, hkind]
  | daemon => simp only [recvFd, hkind]

theorem recvFd_drop {self : Process} {fd : Option PipeId} (h : recvFd self = .ok fd) :
    recvFd (dropRecvFd self) = .ok none := by
  rw [recvFd] at h
  rw [dropRecvFd]
  cases hkind : self.processKind with
  | startup => simp only [recvFd]
  | supervisor => simp only [recvFd]
  | daemon => rw [hkind] at h; cases h

theorem sendFd_dropRecvFd (self : Process) : sendFd (dropRecvFd self) = sendFd self := by
  rw [dropRecvFd]
  cases hkind : self.processKind with
  | startup => simp only [sendFd, hkind]
  | supervisor => simp only [sendFd, hkind]
  | daemon => simp only [sendFd, hkind]

theorem phase_dropSendFd (self : Process) : (dropSendFd self).phase = self.phase := by
  rw [dropSendFd]
  split
  · rfl
  · rfl

theorem phase_dropRecvFd (self : Process) : (dropRecvFd self).phase = self.phase := by
  rw [dropRecvFd]
  split
  · rfl
  · rfl

theorem kind_dropSendFd (self : Process) : (dropSendFd self).processKind = self.processKind := by
  rw [dropSendFd]
  split
  · rfl
  · rfl

theorem kind_dropRecvFd (self : Process) : (dropRecvFd self).processKind = self.processKind := by
  rw [dropRecvFd]
  split
  · rfl
  · rfl

/-! What a process does -/

theorem setProcess_self (p : Party) (self : Process) (s : System) : (setProcess p self s).process p = self :=
  Function.update_self _ _ _

theorem setProcess_other {q : Party} (hq : q ≠ p) (self : Process) (s : System) :
    (setProcess p self s).process q = s.process q :=
  Function.update_of_ne hq _ _

theorem endProcess_self (p : Party) (phase : Phase) (s : System) :
    (endProcess p phase s).process p = { s.process p with phase := phase } :=
  Function.update_self _ _ _

theorem endProcess_other {q : Party} (hq : q ≠ p) (phase : Phase) (s : System) :
    (endProcess p phase s).process q = s.process q :=
  Function.update_of_ne hq _ _

theorem gone_of_not_alive (h : phase.alive = false) (hborn : phase ≠ .unborn) : Phase.gone phase = true := by
  cases phase with
  | unborn => exact absurd rfl hborn
  | exited | killed => rfl
  | _ => cases h

theorem not_alive_of_gone (h : Phase.gone phase = true) : phase.alive = false := by
  cases phase with
  | exited | killed => rfl
  | _ => cases h

/-- What has been heard stays, as those that are gone stay gone. -/
theorem Heard.mono (h : Heard es s id rc) (hnew : tells (teller id) new = [])
    (hgone : Phase.gone (s.process (teller id)).phase = true → Phase.gone (t.process (teller id)).phase = true) :
    Heard (es ++ new) t id rc := by
  rcases h with htold | ⟨hrc, hnone, hphase⟩
  · exact .inl (by rw [tells_append, htold, hnew, List.append_nil])
  · exact .inr ⟨hrc, by rw [tells_append, hnone, hnew, List.append_nil], hgone hphase⟩

theorem Wired.congr (h : Wired es s) {es' : List Event} (heq : ∀ p, tells p es' = tells p es) : Wired es' s where
  once p := heq p ▸ h.once p
  unborn p hp := heq p ▸ h.unborn p hp
  kind := h.kind
  sends p := heq p ▸ h.sends p
  holds := h.holds
  writers p := heq p ▸ h.writers p
  reads p id hp hfd := by
    rw [DataOf, heq]
    exact h.reads p id hp hfd

theorem Wired.short (h : Wired es s) (hheard : Heard es s id rc) : ShortResult rc := by
  rcases hheard with htold | ⟨rfl, -⟩
  · rcases h.once (teller id) with hnone | ⟨r, hshort, hr⟩
    · rw [hnone] at htold
      cases htold
    · rw [hr] at htold
      cases htold
      exact hshort
  · exact by decide

theorem Wired.endProcess (h : Wired es s) (p : Party) (hgone : Phase.gone phase = true) :
    Wired es (endProcess p phase s) := by
  have hdead := not_alive_of_gone hgone
  have hself := endProcess_self p phase s
  have hother {q : Party} (hq : q ≠ p) := endProcess_other hq phase s
  have hne {q : Party} (hq : ((StartupSystem.endProcess p phase s).process q).phase.alive = true) : q ≠ p := by
    rintro rfl
    rw [hself] at hq
    exact Bool.noConfusion (hdead.symm.trans hq)
  refine ⟨h.once, fun q hq => ?_, fun q hq => ?_, fun q fd hq => ?_, fun q id hq hfd => ?_, fun q id hq => ?_,
    fun q id hq => ?_⟩
  · by_cases hqp : q = p
    · rw [hqp, hself] at hq
      change phase = .unborn at hq
      rw [hq] at hgone
      cases hgone
    · rw [hother hqp] at hq
      exact h.unborn q hq
  · have hqp := hne hq
    rw [hother hqp] at hq ⊢
    exact h.kind q hq
  · have hqp := hne hq
    rw [hother hqp] at hq ⊢
    exact h.sends q fd hq
  · have hqp := hne hq
    rw [hother hqp] at hq hfd
    exact List.mem_filter.mpr ⟨h.holds q id hq hfd, decide_eq_true hqp⟩
  · obtain ⟨hmem, hqp⟩ := List.mem_filter.mp hq
    rw [hother (of_decide_eq_true hqp)]
    exact h.writers q id hmem
  · have hqp := hne hq
    rw [hother hqp] at hq ⊢
    exact h.reads q id hq

/-- A process keeps its descriptors from one phase to the next. -/
theorem Wired.setProcess {self : Process} (h : Wired es s) (hlive : (s.process p).phase.alive = true)
    (halive : self.phase.alive = true) (hkind : self.processKind = (s.process p).processKind)
    (hsend : sendFd self = sendFd (s.process p)) (hrecv : recvFd self = recvFd (s.process p)) :
    Wired es (setProcess p self s) := by
  have hself := setProcess_self p self s
  have hother {q : Party} (hq : q ≠ p) := setProcess_other hq self s
  refine ⟨h.once, fun q hq => ?_, fun q hq => ?_, fun q fd hq => ?_, fun q id hq hfd => ?_, fun q id hq => ?_,
    fun q id hq => ?_⟩
  · by_cases hqp : q = p
    · rw [hqp, hself] at hq
      rw [hq] at halive
      cases halive
    · rw [hother hqp] at hq
      exact h.unborn q hq
  · by_cases hqp : q = p
    · rw [hqp, hself, hkind]
      exact h.kind p hlive
    · rw [hother hqp] at hq ⊢
      exact h.kind q hq
  · by_cases hqp : q = p
    · rw [hqp, hself, hsend]
      exact h.sends p fd hlive
    · rw [hother hqp] at hq ⊢
      exact h.sends q fd hq
  · by_cases hqp : q = p
    · rw [hqp, hself, hsend] at hfd
      exact hqp ▸ h.holds p id hlive hfd
    · rw [hother hqp] at hq hfd
      exact h.holds q id hq hfd
  · obtain ⟨hq, hwhy⟩ := h.writers q id hq
    by_cases hqp : q = p
    · rw [hqp, hself]
      exact ⟨halive, hqp ▸ hwhy⟩
    · rw [hother hqp]
      exact ⟨hq, hwhy⟩
  · by_cases hqp : q = p
    · rw [hqp, hself, hrecv]
      exact h.reads p id hlive
    · rw [hother hqp] at hq ⊢
      exact h.reads q id hq

/-! What a process tells -/

theorem sendResult_cases {told : List Event} (h : sendResult p retNum s = .ok (told, t)) :
    (sendFd (s.process p) = .ok none ∧ told = [] ∧ t = s) ∨
      ∃ id text, sendFd (s.process p) = .ok (some id) ∧ resultText retNum = some text ∧ told = [.told p retNum] ∧
        t = setProcess p (dropSendFd (s.process p))
          (closeWrite id p (setPipe id { s.pipe id with data := (s.pipe id).data ++ text } s)) := by
  rw [sendResult] at h
  cases hfd : sendFd (s.process p) with
  | error halt =>
      rw [hfd] at h
      cases h
  | ok fd =>
      rw [hfd] at h
      cases fd with
      | none =>
          cases h
          exact .inl ⟨rfl, rfl, rfl⟩
      | some id =>
          cases htext : resultText retNum with
          | none =>
              simp only [htext] at h
              cases h
          | some text =>
              simp only [htext] at h
              cases h
              exact .inr ⟨id, text, rfl, rfl, rfl, rfl⟩

theorem closeWrite_self (id : PipeId) (p : Party) (pipe : Pipe) (s : System) :
    (closeWrite id p (setPipe id pipe s)).pipe id = { pipe with writers := pipe.writers.filter (· ≠ p) } := by
  rw [closeWrite, setPipe, setPipe]
  simp only [Function.update_self]

theorem closeWrite_other {other : PipeId} (h : other ≠ id) (p : Party) (pipe : Pipe) (s : System) :
    (closeWrite id p (setPipe id pipe s)).pipe other = s.pipe other := by
  rw [closeWrite, setPipe, setPipe]
  simp only [Function.update_of_ne h]

/-- A process tells its result once, and everybody who reads the pipe finds
just that. -/
theorem Wired.sendResult {told : List Event} (h : Wired es s) (hlive : (s.process p).phase.alive = true)
    (hshort : ShortResult retNum) (hsend : sendResult p retNum s = .ok (told, t)) : Wired (es ++ told) t := by
  obtain ⟨-, rfl, rfl⟩ | ⟨id, text, hfd, htext, rfl, rfl⟩ := sendResult_cases hsend
  · rw [List.append_nil]
    exact h
  · have hpipe := h.sends p _ hlive hfd
    by_cases hnone : tells p es = []
    · rw [if_pos hnone] at hpipe
      have hteller := teller_of_tellPipe hpipe.symm
      have htells {q : Party} : tells q (es ++ [.told p retNum]) = if p = q then [retNum] else tells q es := by
        rw [tells_append, tells_told]
        by_cases hpq : p = q
        · rw [if_pos hpq, if_pos hpq, ← hpq, hnone, List.nil_append]
        · rw [if_neg hpq, if_neg hpq, List.append_nil]
      generalize hpiped : closeWrite id p (setPipe id { s.pipe id with data := (s.pipe id).data ++ text } s) = u
      have hprocess : u.process = s.process := by rw [← hpiped]; rfl
      have hmode : u.mode = s.mode := by rw [← hpiped]; rfl
      have hpiped_self : u.pipe id = ⟨(s.pipe id).data ++ text, (s.pipe id).writers.filter (· ≠ p)⟩ := by
        rw [← hpiped, closeWrite_self]
      have hpiped_other {other : PipeId} (hid : other ≠ id) : u.pipe other = s.pipe other := by
        rw [← hpiped, closeWrite_other hid]
      have hself := setProcess_self p (dropSendFd (s.process p)) u
      have hother {q : Party} (hq : q ≠ p) :
          (StartupSystem.setProcess p (dropSendFd (s.process p)) u).process q = s.process q :=
        (setProcess_other hq _ _).trans (congrFun hprocess q)
      have hphase (q : Party) : ((StartupSystem.setProcess p (dropSendFd (s.process p)) u).process q).phase =
          (s.process q).phase := by
        by_cases hqp : q = p
        · rw [hqp, hself, phase_dropSendFd]
        · rw [hother hqp]
      refine ⟨fun q => ?_, fun q hq => ?_, fun q hq => ?_, fun q fd hq => ?_, fun q other hq hsends => ?_,
        fun q other hq => ?_, fun q other hq hreads => ?_⟩
      · rw [htells]
        by_cases hpq : p = q
        · rw [if_pos hpq]
          exact .inr ⟨retNum, hshort, rfl⟩
        · rw [if_neg hpq]
          exact h.once q
      · rw [hphase] at hq
        rw [htells, if_neg]
        · exact h.unborn q hq
        · rintro rfl
          rw [hq] at hlive
          cases hlive
      · rw [hphase] at hq
        by_cases hqp : q = p
        · rw [hqp, hself, kind_dropSendFd]
          exact h.kind p hlive
        · rw [hother hqp]
          exact h.kind q hq
      · rw [hphase] at hq
        rw [htells]
        by_cases hqp : q = p
        · rw [hqp, hself, sendFd_drop hfd, if_pos rfl, if_neg (List.cons_ne_nil retNum [])]
          intro heq
          exact (Except.ok.inj heq).symm
        · rw [hother hqp, if_neg (Ne.symm hqp)]
          exact h.sends q fd hq
      · rw [hphase] at hq
        by_cases hqp : q = p
        · rw [hqp, hself, sendFd_drop hfd] at hsends
          cases hsends
        · rw [hother hqp] at hsends
          have hholds := h.holds q other hq hsends
          change q ∈ (u.pipe other).writers
          by_cases hid : other = id
          · rw [hid, hpiped_self]
            exact List.mem_filter.mpr ⟨hid ▸ hholds, decide_eq_true hqp⟩
          · rw [hpiped_other hid]
            exact hholds
      · change q ∈ (u.pipe other).writers at hq
        rw [hphase, htells]
        by_cases hid : other = id
        · rw [hid, hpiped_self] at hq
          obtain ⟨hmem, hqp⟩ := List.mem_filter.mp hq
          rw [if_neg (Ne.symm (of_decide_eq_true hqp)), hid]
          exact h.writers q id hmem
        · rw [hpiped_other hid] at hq
          obtain ⟨hqlive, hwhy⟩ := h.writers q other hq
          refine ⟨hqlive, hwhy.imp_left fun hown => ?_⟩
          rw [if_neg]
          · exact hown
          · rintro rfl
            rw [← hpipe] at hown
            exact hid (Option.some.inj hown.1).symm
      · rw [hphase] at hq
        have hreads : recvFd (s.process q) = .ok (some other) := by
          by_cases hqp : q = p
          · rw [hqp, hself, recvFd_dropSendFd] at hreads
            exact hqp ▸ hreads
          · rw [hother hqp] at hreads
            exact hreads
        obtain ⟨hreader, hdata⟩ := h.reads q other hq hreads
        change q = readBy u.mode other ∧ DataOf _ other (u.pipe other).data
        rw [hmode]
        refine ⟨hreader, ?_⟩
        rw [DataOf, htells]
        by_cases hid : other = id
        · subst hid
          rw [hpiped_self, hteller, if_pos rfl]
          rw [DataOf, hteller] at hdata
          obtain ⟨-, hempty⟩ | ⟨r, hr, -⟩ := hdata
          · exact .inr ⟨retNum, rfl, by rw [hempty, List.nil_append]; exact htext⟩
          · rw [hnone] at hr
            cases hr
        · have hpt : p ≠ teller other := by
            rintro rfl
            rw [tellPipe_teller] at hpipe
            exact hid (Option.some.inj hpipe).symm
          rw [hpiped_other hid, if_neg hpt]
          exact hdata
    · rw [if_neg hnone] at hpipe
      cases hpipe

/-! What a process hears -/

theorem recvResult_cases {r : Int × System} (h : recvResult p s = .ok (some r)) (hfd : recvFd (s.process p) = .ok (some id)) :
    ¬waits (s.pipe id) ∧ resultOf ((s.pipe id).data.take retBufSize) = some r.1 ∧
      r.2 = setProcess p (dropRecvFd (s.process p))
        (setPipe id { s.pipe id with data := (s.pipe id).data.drop retBufSize } s) := by
  rw [recvResult, hfd] at h
  by_cases hwaits : waits (s.pipe id)
  · simp only [if_pos hwaits] at h
    cases h
  · simp only [if_neg hwaits] at h
    cases hrc : resultOf ((s.pipe id).data.take retBufSize) with
    | none =>
        rw [hrc] at h
        cases h
    | some rc =>
        rw [hrc] at h
        cases h
        exact ⟨hwaits, rfl, rfl⟩

/-- A result that is heard is the one that has been told, or the process that
should have told it has ended. -/
theorem Wired.heard {r : Int × System} (h : Wired es s) (hlive : (s.process p).phase.alive = true)
    (hfd : recvFd (s.process p) = .ok (some id)) (hborn : (s.process (teller id)).phase ≠ .unborn)
    (hrecv : recvResult p s = .ok (some r)) : Heard es s id r.1 := by
  obtain ⟨hready, hresult, -⟩ := recvResult_cases hrecv hfd
  obtain ⟨hnone, hempty⟩ | ⟨retNum, htold, htext⟩ := (h.reads p id hlive hfd).2
  · rw [hempty] at hresult
    refine .inr ⟨(Option.some.inj hresult).symm, hnone, gone_of_not_alive ?_ hborn⟩
    by_contra halive
    have halive := Bool.not_eq_false _ ▸ halive
    have hstartup : teller id ≠ .startup := by
      cases id with
      | startupResult => rintro ⟨⟩
      | initResult k => rintro ⟨⟩
    obtain ⟨fd, hsend⟩ := sendFd_ok (h.kind _ halive hstartup)
    have hpipe := h.sends _ fd halive hsend
    rw [if_pos hnone, tellPipe_teller] at hpipe
    have hholds := h.holds _ id halive (hpipe ▸ hsend)
    exact hready ⟨hempty, List.ne_nil_of_mem hholds⟩
  · have hshort : ShortResult retNum := by
      obtain hnone | ⟨r', hr', htold'⟩ := h.once (teller id)
      · rw [hnone] at htold
        cases htold
      · rw [htold] at htold'
        cases htold'
        exact hr'
    obtain ⟨text, htext', -, hheard⟩ := result_told hshort
    rw [htext] at htext'
    cases htext'
    rw [hheard] at hresult
    exact .inl ((Option.some.inj hresult) ▸ htold)

theorem Wired.recvResult {r : Int × System} (h : Wired es s) (hlive : (s.process p).phase.alive = true)
    (hfd : recvFd (s.process p) = .ok (some id)) (hrecv : recvResult p s = .ok (some r)) : Wired es r.2 := by
  obtain ⟨-, -, hr⟩ := recvResult_cases hrecv hfd
  have hreader := (h.reads p id hlive hfd).1
  generalize hpiped : setPipe id { s.pipe id with data := (s.pipe id).data.drop retBufSize } s = u at hr
  have hprocess : u.process = s.process := by rw [← hpiped]; rfl
  have hmode : r.2.mode = s.mode := by rw [hr, ← hpiped]; rfl
  have hwriters (other : PipeId) : (r.2.pipe other).writers = (s.pipe other).writers := by
    rw [hr, ← hpiped]
    change (Function.update s.pipe id _ other).writers = _
    by_cases hid : other = id
    · rw [hid, Function.update_self]
    · rw [Function.update_of_ne hid]
  have hdata {other : PipeId} (hid : other ≠ id) : (r.2.pipe other).data = (s.pipe other).data := by
    rw [hr, ← hpiped]
    change (Function.update s.pipe id _ other).data = _
    rw [Function.update_of_ne hid]
  have hself : r.2.process p = dropRecvFd (s.process p) := by rw [hr, setProcess_self]
  have hother {q : Party} (hq : q ≠ p) : r.2.process q = s.process q := by
    rw [hr, setProcess_other hq]
    exact congrFun hprocess q
  have hphase (q : Party) : (r.2.process q).phase = (s.process q).phase := by
    by_cases hqp : q = p
    · rw [hqp, hself, phase_dropRecvFd]
    · rw [hother hqp]
  have hsendFd (q : Party) : sendFd (r.2.process q) = sendFd (s.process q) := by
    by_cases hqp : q = p
    · rw [hqp, hself, sendFd_dropRecvFd]
    · rw [hother hqp]
  refine ⟨h.once, fun q hq => ?_, fun q hq => ?_, fun q fd hq => ?_, fun q other hq => ?_, fun q other hq => ?_,
    fun q other hq hreads => ?_⟩
  · rw [hphase] at hq
    exact h.unborn q hq
  · rw [hphase] at hq
    by_cases hqp : q = p
    · rw [hqp, hself, kind_dropRecvFd]
      exact h.kind p hlive
    · rw [hother hqp]
      exact h.kind q hq
  · rw [hphase] at hq
    rw [hsendFd]
    exact h.sends q fd hq
  · rw [hphase] at hq
    rw [hsendFd, hwriters]
    exact h.holds q other hq
  · rw [hwriters] at hq
    rw [hphase]
    exact h.writers q other hq
  · rw [hphase] at hq
    by_cases hqp : q = p
    · rw [hqp, hself, recvFd_drop hfd] at hreads
      cases hreads
    · rw [hother hqp] at hreads
      have hold := h.reads q other hq hreads
      have hid : other ≠ id := by
        rintro rfl
        exact hqp (hold.1.trans hreader.symm)
      rw [hmode, hdata hid]
      exact hold

end Libzorpll.StartupWiring
