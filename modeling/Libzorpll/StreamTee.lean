import Libzorpll.ChildStream
import Libzorpll.BufferQueue
import Libzorpll.Trace

/-! A ZStreamTee between its child, the forked stream and its caller. -/

namespace Libzorpll.StreamTee

open ChildStream StreamBuf BufferQueue

inductive TeeDirection
  | input
  | output
  deriving DecidableEq

structure ZStreamTee where
  teeDirection : TeeDirection
  timeout : Int := -2

/-- The two sides of a child. -/
structure TeeChild where
  reads : Child
  sink : WriteChild

/-- The loop writes what is left until there is nothing left or a write is not
NORMAL. A fork that takes no bytes for ever keeps it in the loop. -/
def writeFork : Nat → List UInt8 → WriteChild → Option (Except WriteAnswer Unit × WriteChild)
  | _, [], fork => some (.ok (), fork)
  | 0, _ :: _, _ => none
  | fuel + 1, b :: bytes, fork =>
      match childWrite (b :: bytes) fork with
      | (.normal written, fork) => writeFork fuel ((b :: bytes).drop written) fork
      | (status, fork) => some (.error status, fork)

def readStatus : WriteAnswer → ReadResult
  | .normal _ => .normal []
  | .again => .again
  | .eof _ => .eof
  | .error _ => .error

def readMethod (self : ZStreamTee) (fuel count : Nat) (child : TeeChild) (fork : WriteChild) :
    Option (ReadResult × TeeChild × WriteChild) :=
  let (res, reads) := childRead count child.reads
  let child := { reads := reads, sink := { child.sink with timeout := self.timeout } }
  match res with
  | .normal data =>
      if self.teeDirection = .input ∧ data ≠ [] then
        match writeFork fuel data fork with
        | none => none
        | some (.ok (), fork) => some (.normal data, child, fork)
        | some (.error status, fork) => some (readStatus status, child, fork)
      else some (.normal data, child, fork)
  | res => some (res, child, fork)

def writeMethod (self : ZStreamTee) (fuel : Nat) (buf : List UInt8) (child : TeeChild)
    (fork : WriteChild) : Option (WriteAnswer × TeeChild × WriteChild) :=
  let (res, sink) := childWrite buf { child.sink with timeout := self.timeout }
  let child := { child with sink := sink }
  match res with
  | .normal written =>
      if self.teeDirection = .output ∧ written ≠ 0 then
        match writeFork fuel (buf.take written) fork with
        | none => none
        | some (.ok (), fork) => some (.normal written, child, fork)
        | some (.error status, fork) => some (status, child, fork)
      else some (.normal written, child, fork)
  | res => some (res, child, fork)

inductive Action
  | offer (data : List UInt8)
  | read (fuel count : Nat)
  | write (fuel : Nat)

/-- What a call answers. -/
inductive Result
  | read (res : ReadResult)
  | write (res : WriteAnswer)

/-- A tee in use. The caller writes one piece of data at a time, and goes on
with it from where the answers say it is. -/
structure Traffic where
  tee : ZStreamTee
  child : TeeChild
  fork : WriteChild
  offered : List UInt8 := []
  wrote : List UInt8 := []
  got : List UInt8 := []

def advance (res : WriteAnswer) (s : Traffic) : Traffic :=
  match res with
  | .normal count =>
      { s with offered := s.offered.drop count, wrote := s.wrote ++ s.offered.take count }
  | _ => s

inductive Step : Action → Traffic → List Result → Traffic → Prop
  | offer {s : Traffic} (data : List UInt8) (hnone : s.offered = []) :
      Step (.offer data) s [] { s with offered := data }
  | read {s : Traffic} (fuel count : Nat) {res : ReadResult} {child : TeeChild} {fork : WriteChild}
      (hread : readMethod s.tee fuel count s.child s.fork = some (res, child, fork)) :
      Step (.read fuel count) s [.read res]
        { s with child := child, fork := fork, got := s.got ++ answerBytes res }
  | write {s : Traffic} (fuel : Nat) {res : WriteAnswer} {child : TeeChild} {fork : WriteChild}
      (hwrite : writeMethod s.tee fuel s.offered s.child s.fork = some (res, child, fork)) :
      Step (.write fuel) s [.write res] (advance res { s with child := child, fork := fork })

abbrev Run : Traffic → List Result → Traffic → Prop := Trace.Steps Step (fun _ _ => True)

def start (tee : ZStreamTee) (child : TeeChild) (fork : WriteChild) : Traffic where
  tee := tee
  child := child
  fork := fork

/-- The bytes that have passed in the direction of the tee. -/
def passed (s : Traffic) : List UInt8 :=
  match s.tee.teeDirection with
  | .input => s.got
  | .output => s.wrote

/-- Each byte has arrived once, and in order: the child has what the caller has
written, the caller what the child has given, and the fork what has passed. -/
structure Delivered (s t : Traffic) : Prop where
  written : taken t.child.sink = taken s.child.sink ++ t.wrote
  read : childBytes s.child.reads = t.got ++ childBytes t.child.reads
  forked : taken t.fork = taken s.fork ++ passed t

/-- The fork has answered NORMAL to all of these writes. -/
def ForkTakes (answers : Nat → WriteAnswer) (first last : Nat) : Prop :=
  ∀ k, first ≤ k → k < last → ∃ count, answers k = .normal count

theorem forkTakes_self (answers : Nat → WriteAnswer) (first : Nat) : ForkTakes answers first first := by
  intro k hfirst hlast
  exact absurd hfirst (Nat.not_le_of_lt hlast)

theorem forkTakes_append (answers : Nat → WriteAnswer) {first mid last : Nat}
    (hfirst : first ≤ mid) (hlast : mid ≤ last) :
    ForkTakes answers first last ↔ ForkTakes answers first mid ∧ ForkTakes answers mid last := by
  constructor
  · intro h
    exact ⟨fun k hk hkm => h k hk (Nat.lt_of_lt_of_le hkm hlast),
      fun k hk hkl => h k (Nat.le_trans hfirst hk) hkl⟩
  · rintro ⟨hbefore, hafter⟩ k hk hkl
    rcases Nat.lt_or_ge k mid with hlt | hge
    · exact hbefore k hk hlt
    · exact hafter k hge hkl

theorem forkTakes_one {answers : Nat → WriteAnswer} {k : Nat} :
    ForkTakes answers k (k + 1) ↔ ∃ count, answers k = .normal count := by
  constructor
  · intro h
    exact h k (Nat.le_refl k) (Nat.lt_succ_self k)
  · intro h j hfirst hlast
    rw [Nat.le_antisymm (Nat.le_of_lt_succ hlast) hfirst]
    exact h

/-- A write takes bytes, or it takes none and is not NORMAL. -/
theorem childWrite_cases (bytes : List UInt8) (child : WriteChild) :
    (∃ count, child.answers child.writes = .normal count ∧
      childWrite bytes child = (.normal (min count bytes.length),
        wrote child (bytes.take (min count bytes.length)))) ∨
    ∃ status, (∀ count, status ≠ .normal count) ∧ child.answers child.writes = status ∧
      childWrite bytes child = (status, { child with writes := child.writes + 1 }) := by
  cases h : child.answers child.writes with
  | normal count =>
      refine .inl ⟨count, rfl, ?_⟩
      have htake : bytes.take (min count bytes.length) = bytes.take count := by
        rw [← List.take_take, List.take_length]
      rw [htake]
      simp only [childWrite, h, wrote]
  | again | eof | error =>
      refine .inr ⟨_, ?_, rfl, ?_⟩
      · intro count heq
        cases heq
      · simp only [childWrite, h]

/-- What the loop leaves: all bytes are in the fork, or the fork has answered
something else than NORMAL. -/
theorem writeFork_spec {fuel : Nat} {bytes : List UInt8} {fork fork' : WriteChild}
    {r : Except WriteAnswer Unit} (h : writeFork fuel bytes fork = some (r, fork')) :
    fork'.answers = fork.answers ∧ fork.writes ≤ fork'.writes ∧
      match r with
      | .ok () => taken fork' = taken fork ++ bytes ∧ ForkTakes fork.answers fork.writes fork'.writes
      | .error status => (∀ count, status ≠ .normal count) ∧
          ¬ForkTakes fork.answers fork.writes fork'.writes := by
  induction fuel generalizing bytes fork with
  | zero =>
      cases bytes with
      | nil =>
          cases h
          exact ⟨rfl, Nat.le_refl _, (List.append_nil _).symm, forkTakes_self _ _⟩
      | cons => cases h
  | succ fuel ih =>
      cases bytes with
      | nil =>
          cases h
          exact ⟨rfl, Nat.le_refl _, (List.append_nil _).symm, forkTakes_self _ _⟩
      | cons b bytes =>
          rw [writeFork] at h
          rcases childWrite_cases (b :: bytes) fork with ⟨count, hanswer, hwrite⟩ |
            ⟨status, hstatus, hanswer, hwrite⟩
          · rw [hwrite] at h
            obtain ⟨hanswers, hwrites, hrest⟩ := ih h
            have hone := forkTakes_one.mpr ⟨count, hanswer⟩
            have happend := forkTakes_append fork.answers (Nat.le_succ fork.writes) hwrites
            refine ⟨hanswers, Nat.le_trans (Nat.le_succ _) hwrites, ?_⟩
            cases r with
            | ok =>
                refine ⟨?_, happend.mpr ⟨hone, hrest.2⟩⟩
                rw [hrest.1, taken_wrote, List.append_assoc, List.take_append_drop]
            | error => exact ⟨hrest.1, fun hall => hrest.2 (happend.mp hall).2⟩
          · rw [hwrite] at h
            have hnot : ¬ForkTakes fork.answers fork.writes (fork.writes + 1) := by
              rw [forkTakes_one, hanswer]
              rintro ⟨count, heq⟩
              exact hstatus count heq
            cases status with
            | normal count => exact absurd rfl (hstatus count)
            | again | eof | error =>
                cases h
                exact ⟨rfl, Nat.le_succ _, hstatus, hnot⟩

/-- Where no write of the fork takes nothing, the loop comes back. -/
theorem writeFork_returns {fuel : Nat} {bytes : List UInt8} {fork : WriteChild}
    (hfuel : bytes.length ≤ fuel) (hmoves : ∀ k, fork.writes ≤ k → fork.answers k ≠ .normal 0) :
    ∃ r fork', writeFork fuel bytes fork = some (r, fork') := by
  induction fuel generalizing bytes fork with
  | zero =>
      rw [List.eq_nil_of_length_eq_zero (Nat.le_zero.mp hfuel)]
      exact ⟨_, _, rfl⟩
  | succ fuel ih =>
      cases bytes with
      | nil => exact ⟨_, _, rfl⟩
      | cons b bytes =>
          rw [writeFork]
          rcases childWrite_cases (b :: bytes) fork with ⟨count, hanswer, hwrite⟩ |
            ⟨status, hstatus, hanswer, hwrite⟩
          · rw [hwrite]
            have hpos : count ≠ 0 := by
              rintro rfl
              exact hmoves fork.writes (Nat.le_refl _) hanswer
            apply ih
            · rw [List.length_drop]
              simp only [List.length_cons] at hfuel ⊢
              omega
            · intro k hk
              exact hmoves k (Nat.le_of_succ_le hk)
          · rw [hwrite]
            cases status with
            | normal count => exact absurd rfl (hstatus count)
            | again | eof | error => exact ⟨_, _, rfl⟩

/-- The part of the bytes moved that goes to the fork. -/
def teed (direction : TeeDirection) (inp out : List UInt8) : List UInt8 :=
  match direction with
  | .input => inp
  | .output => out

/-- How far the child is ahead of what its caller knows. -/
def ahead (s : Traffic) : Int :=
  (taken s.child.sink).length - s.wrote.length - s.got.length - (childBytes s.child.reads).length

/-- What a call does: it moves bytes on both sides of the tee and into the
fork, or the fork stops it when the child has already done its part. -/
inductive Effect (s t : Traffic) : Prop
  | even (inp out : List UInt8) (hwrote : t.wrote = s.wrote ++ out)
      (hsink : taken t.child.sink = taken s.child.sink ++ out) (hgot : t.got = s.got ++ inp)
      (hreads : childBytes s.child.reads = inp ++ childBytes t.child.reads)
      (hfork : taken t.fork = taken s.fork ++ teed s.tee.teeDirection inp out)
      (htakes : ForkTakes s.fork.answers s.fork.writes t.fork.writes)
  | uneven (hahead : ahead s < ahead t)
      (hstops : ¬ForkTakes s.fork.answers s.fork.writes t.fork.writes)

/-- What no call changes. -/
structure Continues (s t : Traffic) : Prop where
  tee : t.tee = s.tee
  answers : t.fork.answers = s.fork.answers
  writes : s.fork.writes ≤ t.fork.writes

theorem teed_nil (direction : TeeDirection) : teed direction [] [] = [] := by
  cases direction <;> rfl

theorem Effect.idle {s t : Traffic} (hwrote : t.wrote = s.wrote) (hgot : t.got = s.got)
    (hsink : taken t.child.sink = taken s.child.sink)
    (hreads : childBytes t.child.reads = childBytes s.child.reads) (hfork : t.fork = s.fork) :
    Effect s t := by
  apply Effect.even [] []
  · rw [hwrote, List.append_nil]
  · rw [hsink, List.append_nil]
  · rw [hgot, List.append_nil]
  · rw [hreads, List.nil_append]
  · rw [hfork, teed_nil, List.append_nil]
  · rw [hfork]
    exact forkTakes_self _ _

theorem read_effect {s : Traffic} {fuel count : Nat} {res : ReadResult} {child : TeeChild}
    {fork : WriteChild} (h : readMethod s.tee fuel count s.child s.fork = some (res, child, fork)) :
    Continues s { s with child := child, fork := fork, got := s.got ++ answerBytes res } ∧
      Effect s { s with child := child, fork := fork, got := s.got ++ answerBytes res } := by
  have hbytes := childRead_bytes count s.child.reads
  rw [readMethod] at h
  cases hread : childRead count s.child.reads with
  | mk answer reads =>
      rw [hread] at h hbytes
      cases answer with
      | normal data =>
          simp only at h
          split at h
          · rename_i htee
            cases hloop : writeFork fuel data s.fork with
            | none =>
                rw [hloop] at h
                cases h
            | some out =>
                rcases out with ⟨r, fork'⟩
                obtain ⟨hanswers, hwrites, hrest⟩ := writeFork_spec hloop
                rw [hloop] at h
                cases r with
                | ok =>
                    cases h
                    refine ⟨⟨rfl, hanswers, hwrites⟩, .even data [] ?_ ?_ rfl hbytes.symm ?_ hrest.2⟩
                    · exact (List.append_nil _).symm
                    · exact (List.append_nil _).symm
                    · rw [htee.1, teed]
                      exact hrest.1
                | error status =>
                    cases h
                    refine ⟨⟨rfl, hanswers, hwrites⟩, .uneven ?_ hrest.2⟩
                    have hpos : 0 < data.length := List.length_pos_iff.mpr htee.2
                    have hlen := congrArg List.length hbytes
                    have hnone : answerBytes (readStatus status) = [] := by
                      cases status <;> rfl
                    rw [List.length_append] at hlen
                    simp only [answerBytes] at hlen
                    simp only [ahead, hnone, List.append_nil]
                    change _ < ((taken s.child.sink).length : Int) - _ - _ - _
                    omega
          · rename_i htee
            cases h
            refine ⟨⟨rfl, rfl, Nat.le_refl _⟩, .even data [] ?_ ?_ rfl hbytes.symm ?_ ?_⟩
            · exact (List.append_nil _).symm
            · exact (List.append_nil _).symm
            · cases hdir : s.tee.teeDirection with
              | output => exact (List.append_nil _).symm
              | input =>
                  have hnil : data = [] := by
                    by_contra hne
                    exact htee ⟨hdir, hne⟩
                  rw [teed, hnil, List.append_nil]
            · exact forkTakes_self _ _
      | again | eof | error =>
          cases h
          refine ⟨⟨rfl, rfl, Nat.le_refl _⟩, Effect.idle rfl (List.append_nil _) rfl hbytes rfl⟩

theorem advance_of_not_normal {res : WriteAnswer} (h : ∀ count, res ≠ .normal count) (s : Traffic) :
    advance res s = s := by
  cases res with
  | normal count => exact absurd rfl (h count)
  | again | eof | error => rfl

theorem ahead_lt {s t : Traffic} {n : Nat} (hwrote : t.wrote = s.wrote) (hgot : t.got = s.got)
    (hreads : t.child.reads = s.child.reads) (hn : 0 < n)
    (hsink : (taken t.child.sink).length = (taken s.child.sink).length + n) : ahead s < ahead t := by
  rw [ahead, ahead, hwrote, hgot, hreads, hsink]
  omega

theorem write_effect {s : Traffic} {fuel : Nat} {res : WriteAnswer} {child : TeeChild}
    {fork : WriteChild} (h : writeMethod s.tee fuel s.offered s.child s.fork = some (res, child, fork)) :
    Continues s (advance res { s with child := child, fork := fork }) ∧
      Effect s (advance res { s with child := child, fork := fork }) := by
  rw [writeMethod] at h
  rcases childWrite_cases s.offered { s.child.sink with timeout := s.tee.timeout } with
    ⟨count, -, hwrite⟩ | ⟨status, hstatus, -, hwrite⟩
  · have htaken : taken (wrote { s.child.sink with timeout := s.tee.timeout }
        (s.offered.take (min count s.offered.length))) =
        taken s.child.sink ++ s.offered.take (min count s.offered.length) := taken_wrote _ _
    rw [hwrite] at h
    simp only at h
    split at h
    · rename_i htee
      cases hloop : writeFork fuel (s.offered.take (min count s.offered.length)) s.fork with
      | none =>
          rw [hloop] at h
          cases h
      | some out =>
          rcases out with ⟨r, fork'⟩
          obtain ⟨hanswers, hwrites, hrest⟩ := writeFork_spec hloop
          rw [hloop] at h
          cases r with
          | ok =>
              cases h
              refine ⟨⟨rfl, hanswers, hwrites⟩, .even [] _ rfl htaken ?_ rfl ?_ hrest.2⟩
              · exact (List.append_nil _).symm
              · rw [htee.1, teed]
                exact hrest.1
          | error status =>
              cases h
              rw [advance_of_not_normal hrest.1]
              refine ⟨⟨rfl, hanswers, hwrites⟩, .uneven ?_ hrest.2⟩
              have hlen := congrArg List.length htaken
              rw [List.length_append, List.length_take] at hlen
              have hpos := Nat.pos_of_ne_zero htee.2
              exact ahead_lt rfl rfl rfl (by omega) hlen
    · rename_i htee
      cases h
      refine ⟨⟨rfl, rfl, Nat.le_refl _⟩, .even [] _ rfl htaken ?_ rfl ?_ (forkTakes_self _ _)⟩
      · exact (List.append_nil _).symm
      · cases hdir : s.tee.teeDirection with
        | input => exact (List.append_nil _).symm
        | output =>
            have hzero : min count s.offered.length = 0 := by
              by_contra hne
              exact htee ⟨hdir, hne⟩
            rw [teed, hzero, List.take_zero, List.append_nil]
            rfl
  · rw [hwrite] at h
    cases status with
    | normal count => exact absurd rfl (hstatus count)
    | again | eof | error =>
        cases h
        exact ⟨⟨rfl, rfl, Nat.le_refl _⟩, Effect.idle rfl rfl rfl rfl rfl⟩

theorem step_effect {a : Action} {s t : Traffic} {rs : List Result} (h : Step a s rs t) :
    Continues s t ∧ Effect s t := by
  cases h with
  | offer data hnone => exact ⟨⟨rfl, rfl, Nat.le_refl _⟩, Effect.idle rfl rfl rfl rfl rfl⟩
  | read fuel count hread => exact read_effect hread
  | write fuel hwrite => exact write_effect hwrite

theorem Effect.ahead_le {s t : Traffic} (h : Effect s t) : ahead s ≤ ahead t := by
  cases h with
  | even inp out hwrote hsink hgot hreads hfork htakes =>
      rw [ahead, ahead, hwrote, hsink, hgot, hreads]
      simp only [List.length_append]
      omega
  | uneven hahead => exact Int.le_of_lt hahead

/-- The books of a run: they are even as long as the fork takes what it is
given, and the child is ahead of its caller from there on. -/
structure Books (s t : Traffic) : Prop where
  continues : Continues s t
  ahead_le : ahead s ≤ ahead t
  even : ForkTakes s.fork.answers s.fork.writes t.fork.writes → Delivered s t
  uneven : ¬ForkTakes s.fork.answers s.fork.writes t.fork.writes → ahead s < ahead t

theorem passed_append {t u : Traffic} (htee : u.tee = t.tee) {inp out : List UInt8}
    (hwrote : u.wrote = t.wrote ++ out) (hgot : u.got = t.got ++ inp) :
    passed u = passed t ++ teed t.tee.teeDirection inp out := by
  rw [passed, passed, htee]
  cases t.tee.teeDirection with
  | input => exact hgot
  | output => exact hwrote

theorem Books.step {s t u : Traffic} (h : Books s t) (hcontinues : Continues t u)
    (heffect : Effect t u) : Books s u := by
  have hsplit := forkTakes_append s.fork.answers h.continues.writes hcontinues.writes
  have hanswers := h.continues.answers
  constructor
  · exact ⟨hcontinues.tee.trans h.continues.tee, hcontinues.answers.trans hanswers,
      Nat.le_trans h.continues.writes hcontinues.writes⟩
  · exact Int.le_trans h.ahead_le heffect.ahead_le
  · intro hall
    obtain ⟨hbefore, hafter⟩ := hsplit.mp hall
    have hdelivered := h.even hbefore
    cases heffect with
    | even inp out hwrote hsink hgot hreads hfork htakes =>
        constructor
        · rw [hsink, hdelivered.written, hwrote, List.append_assoc]
        · rw [hdelivered.read, hreads, hgot, List.append_assoc]
        · rw [hfork, hdelivered.forked, passed_append hcontinues.tee hwrote hgot, List.append_assoc]
    | uneven hahead hstops =>
        rw [hanswers] at hstops
        exact absurd hafter hstops
  · intro hnot
    by_cases hbefore : ForkTakes s.fork.answers s.fork.writes t.fork.writes
    · cases heffect with
      | even inp out hwrote hsink hgot hreads hfork htakes =>
          rw [hanswers] at htakes
          exact absurd (hsplit.mpr ⟨hbefore, htakes⟩) hnot
      | uneven hahead => exact Int.lt_of_le_of_lt h.ahead_le hahead
    · exact Int.lt_of_lt_of_le (h.uneven hbefore) heffect.ahead_le

theorem passed_start (tee : ZStreamTee) (child : TeeChild) (fork : WriteChild) :
    passed (start tee child fork) = [] := by
  rcases tee with ⟨direction, timeout⟩
  cases direction with
  | input => rfl
  | output => rfl

theorem run_books {tee : ZStreamTee} {child : TeeChild} {fork : WriteChild} {rs : List Result}
    {t : Traffic} (h : Run (start tee child fork) rs t) : Books (start tee child fork) t := by
  refine h.invariant (fun _ t => Books (start tee child fork) t) ?_ ?_
  · refine ⟨⟨rfl, rfl, Nat.le_refl _⟩, Int.le_refl _, fun _ => ⟨?_, rfl, ?_⟩, ?_⟩
    · exact (List.append_nil _).symm
    · rw [passed_start, List.append_nil]
    · intro hnot
      exact absurd (forkTakes_self _ _) hnot
  · intro a _ t _ u hbooks _ hstep
    obtain ⟨hcontinues, heffect⟩ := step_effect hstep
    exact hbooks.step hcontinues heffect

theorem Delivered.ahead {tee : ZStreamTee} {child : TeeChild} {fork : WriteChild} {t : Traffic}
    (h : Delivered (start tee child fork) t) : ahead t = ahead (start tee child fork) := by
  have hwritten := congrArg List.length h.written
  have hread := congrArg List.length h.read
  rw [List.length_append] at hwritten hread
  simp only [StreamTee.ahead, start, List.length_nil] at hwritten hread ⊢
  omega

/-- Every byte arrives once and in order if and only if the fork takes what it
is given. -/
theorem delivered_iff {tee : ZStreamTee} {child : TeeChild} {fork : WriteChild} {rs : List Result}
    {t : Traffic} (h : Run (start tee child fork) rs t) :
    Delivered (start tee child fork) t ↔ ForkTakes fork.answers fork.writes t.fork.writes := by
  have hbooks := run_books h
  constructor
  · intro hdelivered
    by_contra hnot
    have hlt := hbooks.uneven hnot
    rw [hdelivered.ahead] at hlt
    exact absurd hlt (Int.lt_irrefl _)
  · exact hbooks.even

/-- An output tee passes two bytes on to a fork that takes one at a time. -/
theorem delivered_partial :
    let fork : WriteChild := { answers := fun _ => .normal 1 }
    let child : TeeChild := { reads := [], sink := { answers := fun _ => .normal 2 } }
    ∃ rs t, Run (start { teeDirection := .output } child fork) rs t ∧ t.wrote = [65, 66] ∧
      t.fork.writes = 2 ∧ Delivered (start { teeDirection := .output } child fork) t := by
  intro fork child
  have hrun : Run (start { teeDirection := .output } child fork) [.write (.normal 2)] _ :=
    .snoc (.snoc (.nil _) (Step.offer [65, 66] rfl) trivial) (Step.write 2 rfl) trivial
  refine ⟨_, _, hrun, rfl, rfl, (delivered_iff hrun).mpr ?_⟩
  intro k _ _
  exact ⟨1, rfl⟩

/-- The child has taken the byte when the fork answers AGAIN, and takes it once
more when the caller writes it again. -/
theorem delivered_twice :
    ¬∀ (tee : ZStreamTee) (child : TeeChild) (fork : WriteChild) (rs : List Result) (t : Traffic),
      (∀ k, child.sink.answers k = .again ∨ ∃ count, child.sink.answers k = .normal count) →
      (∀ k, fork.answers k = .again ∨ ∃ count, fork.answers k = .normal count) →
      Run (start tee child fork) rs t → Delivered (start tee child fork) t := by
  intro h
  let fork : WriteChild := { answers := fun k => if k = 0 then .again else .normal 1 }
  let child : TeeChild := { reads := [], sink := { answers := fun _ => .normal 1 } }
  have hrun : Run (start { teeDirection := .output } child fork)
      [.write .again, .write (.normal 1)] _ :=
    .snoc (.snoc (.snoc (.nil _) (Step.offer [65] rfl) trivial) (Step.write 1 rfl) trivial)
      (Step.write 1 rfl) trivial
  have hfork : ∀ k, fork.answers k = .again ∨ ∃ count, fork.answers k = .normal count := by
    intro k
    by_cases hk : k = 0
    · exact .inl (if_pos hk)
    · exact .inr ⟨1, if_neg hk⟩
  have hdelivered := h _ child fork _ _ (fun _ => .inr ⟨1, rfl⟩) hfork hrun
  have htwice : ([65, 65] : List UInt8) = [65] := hdelivered.written
  exact absurd htwice (by decide)

end Libzorpll.StreamTee
