import Libzorpll.StreamBuf
import Libzorpll.Run

/-! What a ZStreamBuf remembers of a flush that failed. -/

namespace Libzorpll.FlushError

open StreamBuf

/-- The GError of an answer that is neither NORMAL nor AGAIN. -/
def failure : WriteAnswer → Option (Option String)
  | .eof err | .error err => some err
  | _ => none

/-- The writes with these numbers have not failed. -/
def NoneFails (answers : Nat → WriteAnswer) (first last : Nat) : Prop :=
  ∀ k, first ≤ k → k < last → failure (answers k) = none

/-- What becomes of the error while the child is written to: it is kept, or
the last write has failed and left its own. -/
inductive Tells (answers : Nat → WriteAnswer) (first last : Nat) (old : Option String) :
    Option String → Prop
  | kept (h : NoneFails answers first last) : Tells answers first last old old
  | failed {k : Nat} {err : Option String} (hfirst : first ≤ k) (hlast : last = k + 1)
      (hbefore : NoneFails answers first k) (herr : failure (answers k) = some err) :
      Tells answers first last old err

variable {answers : Nat → WriteAnswer}

theorem noneFails_self (first : Nat) : NoneFails answers first first := by
  intro k hfirst hlast
  exact absurd hfirst (Nat.not_le_of_lt hlast)

theorem noneFails_one {k : Nat} (h : failure (answers k) = none) : NoneFails answers k (k + 1) := by
  intro j hfirst hlast
  rw [Nat.le_antisymm (Nat.le_of_lt_succ hlast) hfirst]
  exact h

theorem NoneFails.append {first mid last : Nat} (h : NoneFails answers first mid)
    (h' : NoneFails answers mid last) : NoneFails answers first last := by
  intro k hfirst hlast
  rcases Nat.lt_or_ge k mid with hlt | hge
  · exact h k hfirst hlt
  · exact h' k hge hlast

theorem Tells.after {first mid last : Nat} {old new : Option String}
    (hnone : NoneFails answers first mid) (hle : first ≤ mid)
    (h : Tells answers mid last old new) : Tells answers first last old new := by
  cases h with
  | kept h => exact .kept (hnone.append h)
  | failed hfirst hlast hbefore herr =>
      exact .failed (Nat.le_trans hle hfirst) hlast (hnone.append hbefore) herr

/-- What a step does as far as errors go. -/
structure Follows (s t : ZStreamBuf × WriteChild) : Prop where
  answers : t.2.answers = s.2.answers
  writes : s.2.writes ≤ t.2.writes
  tells : Tells s.2.answers s.2.writes t.2.writes s.1.flushError t.1.flushError

theorem Follows.refl (s : ZStreamBuf × WriteChild) : Follows s s :=
  ⟨rfl, Nat.le_refl _, .kept (noneFails_self _)⟩

theorem flushRound_follows (s : ZStreamBuf × WriteChild) :
    Follows s (flushRound s).2 ∧ ((flushRound s).1 = true →
      (flushRound s).2.1.flushError = s.1.flushError ∧
      NoneFails s.2.answers s.2.writes (flushRound s).2.2.writes) := by
  rcases s with ⟨b, child⟩
  cases hb : b.buffers with
  | nil =>
      simp only [flushRound, hb]
      exact ⟨Follows.refl _, fun h => absurd h Bool.false_ne_true⟩
  | cons packet buffers =>
      have hone : failure (child.answers child.writes) = none →
          NoneFails child.answers child.writes (child.writes + 1) := noneFails_one
      simp only [flushRound, hb, childWrite]
      cases hanswer : child.answers child.writes with
      | normal count =>
          have hnone := hone (by rw [hanswer]; rfl)
          simp only
          split
          · exact ⟨⟨rfl, Nat.le_succ _, .kept hnone⟩, fun _ => ⟨rfl, hnone⟩⟩
          · exact ⟨⟨rfl, Nat.le_succ _, .kept hnone⟩, fun _ => ⟨rfl, hnone⟩⟩
      | again =>
          have hnone := hone (by rw [hanswer]; rfl)
          exact ⟨⟨rfl, Nat.le_succ _, .kept hnone⟩, fun h => absurd h Bool.false_ne_true⟩
      | eof err | error err =>
          have herr : failure (child.answers child.writes) = some err := by
            rw [hanswer]
            rfl
          exact ⟨⟨rfl, Nat.le_succ _, .failed (Nat.le_refl _) rfl (noneFails_self _) herr⟩,
            fun h => absurd h Bool.false_ne_true⟩

theorem flushLoop_follows (i : Nat) (s : ZStreamBuf × WriteChild) : Follows s (flushLoop i s) := by
  induction i generalizing s with
  | zero => exact Follows.refl s
  | succ i ih =>
      obtain ⟨hround, hgoes⟩ := flushRound_follows s
      rw [flushLoop]
      cases hr : flushRound s with
      | mk go t =>
          rw [hr] at hround hgoes
          cases go with
          | false => exact hround
          | true =>
              obtain ⟨herr, hnone⟩ := hgoes rfl
              have hrest := ih t
              have htells := hrest.tells
              rw [hround.answers, herr] at htells
              exact ⟨hrest.answers.trans hround.answers, Nat.le_trans hround.writes hrest.writes,
                htells.after hnone hround.writes⟩

theorem writePacketInternal_follows (packet : List UInt8) (s : ZStreamBuf × WriteChild) :
    Follows s (writePacketInternal packet s).2 := by
  rcases s with ⟨⟨immedFlush, threshold, timeout, pos, flushError, size, buffers⟩, child⟩
  cases flushError with
  | some err => exact Follows.refl _
  | none =>
      cases immedFlush with
      | false => exact ⟨rfl, Nat.le_refl _, .kept (noneFails_self _)⟩
      | true =>
          have hflush := flushLoop_follows 10
            (⟨true, threshold, timeout, pos, none, size + packet.length, buffers ++ [packet]⟩, child)
          exact ⟨hflush.answers, hflush.writes, hflush.tells⟩

theorem bufStep_follows (op : BufOp) (s : ZStreamBuf × WriteChild) :
    ∃ r t, bufStep op s = .ok (r, t) ∧ Follows s t := by
  cases op with
  | write buf =>
      have h := writePacketInternal_follows buf (s.1, { s.2 with timeout := s.1.timeout })
      exact ⟨_, _, rfl, h.answers, h.writes, h.tells⟩
  | writePacket packet => exact ⟨_, _, rfl, writePacketInternal_follows packet s⟩
  | writeBuf buf copyBuf => exact ⟨_, _, rfl, writePacketInternal_follows buf s⟩
  | flush => exact ⟨_, _, rfl, flushLoop_follows 10 s⟩

/-- Every write is refused, and the caller is told to try one. -/
structure Remembers (s : ZStreamBuf × WriteChild) : Prop where
  refuses : ∀ op, op ≠ .flush → ∃ err t, bufStep op s = .ok (some (.error err), t) ∧
    t.1.buffers = s.1.buffers ∧ t.1.currentSize = s.1.currentSize
  space : bufSpaceAvail s.1 = true

theorem remembers_iff (s : ZStreamBuf × WriteChild) : Remembers s ↔ s.1.flushError ≠ none := by
  rcases s with ⟨b, child⟩
  cases herr : b.flushError with
  | some err =>
      have hrefuse (packet : List UInt8) (child : WriteChild) :
          writePacketInternal packet (b, child) = (.error err, b, child) := by
        rw [writePacketInternal]
        simp only [herr]
      constructor
      · intro _
        exact Option.some_ne_none err
      · intro _
        constructor
        · intro op hop
          cases op with
          | write buf =>
              refine ⟨err, (b, { child with timeout := b.timeout }), ?_, rfl, rfl⟩
              simp only [bufStep, writeMethod, hrefuse]
          | writePacket packet =>
              refine ⟨err, (b, child), ?_, rfl, rfl⟩
              simp only [bufStep, writePacket, hrefuse]
          | writeBuf buf copyBuf =>
              refine ⟨err, (b, child), ?_, rfl, rfl⟩
              simp only [bufStep, writeBuf, hrefuse]
          | flush => exact absurd rfl hop
        · rw [bufSpaceAvail, herr]
          rfl
  | none =>
      constructor
      · intro h
        obtain ⟨err, t, hstep, -⟩ := h.refuses (.writePacket []) (by simp)
        simp only [bufStep, writePacket, writePacketInternal, herr] at hstep
        cases hstep
      · intro h
        exact absurd rfl h

/-- A write that failed without a GError is forgotten at the end of the
operation it was made in. -/
theorem Tells.forgotten {first last k : Nat} {old new : Option String}
    (h : Tells answers first last old new) (hfirst : first ≤ k) (hlast : k < last)
    (hfails : failure (answers k) = some none) : new = none := by
  cases h with
  | kept h =>
      rw [h k hfirst hlast] at hfails
      cases hfails
  | @failed j err hj hend hbefore herr =>
      rcases Nat.lt_or_ge k j with hlt | hge
      · rw [hbefore k hfirst hlt] at hfails
        cases hfails
      · have heq : k = j := Nat.le_antisymm (by omega) hge
        rw [← heq, hfails, Option.some.injEq] at herr
        exact herr.symm

/-- If every write that fails leaves a GError, there is one after the first
that does. -/
theorem Tells.remembered {first last : Nat} {old new : Option String}
    (h : Tells answers first last old new)
    (hnamed : ∀ k, first ≤ k → k < last → failure (answers k) ≠ some none)
    (hfailed : old ≠ none ∨ ¬NoneFails answers first last) : new ≠ none := by
  cases h with
  | kept h => exact hfailed.resolve_right (fun hnot => hnot h)
  | @failed k err hfirst hlast hbefore herr =>
      rintro rfl
      exact hnamed k hfirst (hlast ▸ Nat.lt_succ_self k) herr

theorem run_follows (ops : List BufOp) (s : ZStreamBuf × WriteChild) :
    ∃ rs t, Run.run bufStep ops s = .ok (rs, t) ∧ t.2.answers = s.2.answers ∧
      s.2.writes ≤ t.2.writes ∧
      ((∀ k, s.2.writes ≤ k → k < t.2.writes → failure (s.2.answers k) ≠ some none) →
        (s.1.flushError ≠ none ∨ ¬NoneFails s.2.answers s.2.writes t.2.writes) →
        t.1.flushError ≠ none) := by
  induction ops generalizing s with
  | nil =>
      refine ⟨[], s, rfl, rfl, Nat.le_refl _, ?_⟩
      intro _ h
      exact h.resolve_right (fun hnot => hnot (noneFails_self _))
  | cons op ops ih =>
      obtain ⟨r, t, hstep, hfollows⟩ := bufStep_follows op s
      obtain ⟨rs, u, hrun, hanswers, hwrites, hrest⟩ := ih t
      rw [hfollows.answers] at hrest hanswers
      refine ⟨r :: rs, u, ?_, hanswers, Nat.le_trans hfollows.writes hwrites, ?_⟩
      · simp only [Run.run, hstep, hrun, Except.map]
      · intro hnamed hfailed
        apply hrest (fun k hfirst => hnamed k (Nat.le_trans hfollows.writes hfirst))
        by_cases hnone : NoneFails s.2.answers t.2.writes u.2.writes
        · refine .inl (hfollows.tells.remembered ?_ ?_)
          · exact fun k hfirst hlast => hnamed k hfirst (Nat.lt_of_lt_of_le hlast hwrites)
          · exact hfailed.imp_right (fun hnot hfirst => hnot (hfirst.append hnone))
        · exact .inr hnone

/-- The state after the operation in which a write failed without a GError has
no error. -/
theorem run_forgets {ops : List BufOp} {s t : ZStreamBuf × WriteChild} {rs : List (Option WriteResult)}
    (hrun : Run.run bufStep ops s = .ok (rs, t)) {k : Nat} (hfirst : s.2.writes ≤ k)
    (hlast : k < t.2.writes) (hfails : failure (s.2.answers k) = some none) :
    ∃ before, before <+: ops ∧ ∃ rs' u, Run.run bufStep before s = .ok (rs', u) ∧
      k < u.2.writes ∧ u.1.flushError = none := by
  induction ops generalizing s rs with
  | nil =>
      cases hrun
      exact absurd hlast (Nat.not_lt_of_le hfirst)
  | cons op ops ih =>
      obtain ⟨r, u, rest, hstep, hrest, -⟩ := Run.run_cons hrun
      obtain ⟨r', u', hstep', hfollows⟩ := bufStep_follows op s
      rw [hstep] at hstep'
      obtain ⟨rfl, rfl⟩ := Prod.mk.inj (Except.ok.inj hstep')
      rcases Nat.lt_or_ge k u.2.writes with hlt | hge
      · refine ⟨[op], List.prefix_append [op] ops, [r], u, ?_, hlt,
          hfollows.tells.forgotten hfirst hlt hfails⟩
        simp only [Run.run, hstep, Except.map]
      · obtain ⟨before, hprefix, rs', v, hbefore, hv⟩ :=
          ih hrest hge (by rw [hfollows.answers]; exact hfails)
        refine ⟨op :: before, List.cons_prefix_cons.mpr ⟨rfl, hprefix⟩, r :: rs', v, ?_, hv⟩
        simp only [Run.run, hstep, hbefore, Except.map]

/-- A write of the child has failed since it had been written to so often. -/
def Failed (first : Nat) (child : WriteChild) : Prop :=
  ∃ k, first ≤ k ∧ k < child.writes ∧ failure (child.answers k) ≠ none

/-- After every operation of a run a failure is remembered. -/
def AlwaysRemembers (ops : List BufOp) (s : ZStreamBuf × WriteChild) : Prop :=
  ∀ before, before <+: ops → ∀ rs t, Run.run bufStep before s = .ok (rs, t) →
    Failed s.2.writes t.2 → Remembers t

/-- Every write of the child that fails in a run gives a GError. -/
def AlwaysNamed (ops : List BufOp) (s : ZStreamBuf × WriteChild) : Prop :=
  ∀ rs t, Run.run bufStep ops s = .ok (rs, t) → ∀ k, s.2.writes ≤ k → k < t.2.writes →
    s.2.answers k ≠ .eof none ∧ s.2.answers k ≠ .error none

theorem failure_some_none (a : WriteAnswer) :
    failure a ≠ some none ↔ a ≠ .eof none ∧ a ≠ .error none := by
  cases a with
  | normal | again => simp [failure]
  | eof err | error err => cases err <;> simp [failure]

theorem run_prefix {ops before : List BufOp} (h : before <+: ops) {s t u : ZStreamBuf × WriteChild}
    {rs rs' : List (Option WriteResult)} (hbefore : Run.run bufStep before s = .ok (rs, t))
    (hall : Run.run bufStep ops s = .ok (rs', u)) : t.2.writes ≤ u.2.writes := by
  induction before generalizing ops s rs rs' with
  | nil =>
      cases hbefore
      obtain ⟨rs'', u', hrun, -, hle, -⟩ := run_follows ops t
      rw [hall] at hrun
      obtain ⟨-, rfl⟩ := Prod.mk.inj (Except.ok.inj hrun)
      exact hle
  | cons op before ih =>
      cases ops with
      | nil => exact absurd h (by simp)
      | cons op' ops =>
          obtain ⟨rfl, hprefix⟩ := List.cons_prefix_cons.mp h
          obtain ⟨r, v, rest, hstep, hrest, -⟩ := Run.run_cons hbefore
          obtain ⟨r', v', rest', hstep', hrest', -⟩ := Run.run_cons hall
          rw [hstep] at hstep'
          obtain ⟨rfl, rfl⟩ := Prod.mk.inj (Except.ok.inj hstep')
          exact ih hprefix hrest hrest'

theorem named_of_remembers {ops : List BufOp} {s : ZStreamBuf × WriteChild} (h : AlwaysRemembers ops s) :
    AlwaysNamed ops s := by
  intro rs t hrun k hfirst hlast
  rw [← failure_some_none]
  intro hfails
  obtain ⟨before, hprefix, rs', u, hbefore, hk, hnone⟩ := run_forgets hrun hfirst hlast hfails
  obtain ⟨rs'', u', hrun', hanswers, -⟩ := run_follows before s
  rw [hbefore] at hrun'
  obtain ⟨-, rfl⟩ := Prod.mk.inj (Except.ok.inj hrun')
  have hfailed : Failed s.2.writes u.2 := by
    refine ⟨k, hfirst, hk, ?_⟩
    rw [hanswers, hfails]
    exact Option.some_ne_none none
  exact (remembers_iff u).mp (h before hprefix rs' u hbefore hfailed) hnone

theorem remembers_of_named {ops : List BufOp} {s : ZStreamBuf × WriteChild} (h : AlwaysNamed ops s) :
    AlwaysRemembers ops s := by
  intro before hprefix rs t hbefore hfailed
  obtain ⟨rs', u, hall, -⟩ := run_follows ops s
  have hle := run_prefix hprefix hbefore hall
  obtain ⟨rs'', t', hrun, hanswers, -, hremembers⟩ := run_follows before s
  rw [hbefore] at hrun
  obtain ⟨-, rfl⟩ := Prod.mk.inj (Except.ok.inj hrun)
  apply (remembers_iff t).mpr
  apply hremembers
  · intro k hfirst hlast
    exact (failure_some_none _).mpr (h rs' u hall k hfirst (Nat.lt_of_lt_of_le hlast hle))
  · refine .inr (fun hnone => ?_)
    obtain ⟨k, hfirst, hlast, hfails⟩ := hfailed
    rw [hanswers] at hfails
    exact hfails (hnone k hfirst hlast)

/-- In a run a failure is always remembered if and only if every write of the
child that fails gives a GError. -/
theorem failure_remembered (ops : List BufOp) (s : ZStreamBuf × WriteChild) :
    AlwaysRemembers ops s ↔ AlwaysNamed ops s :=
  ⟨named_of_remembers, remembers_of_named⟩

/-- A child at end of file, as a stream that is closed at the other end. -/
theorem failure_forgotten :
    ¬∀ (ops : List BufOp) (child : WriteChild) (s : ZStreamBuf × WriteChild),
      bufNew child 16 false = some s → AlwaysRemembers ops s := by
  intro h
  have hall := h [.write [97], .flush] { answers := fun _ => .eof none } _ rfl
  have hremembers := hall _ (List.prefix_refl _) _ _ rfl
    ⟨0, Nat.le_refl 0, Nat.zero_lt_one, Option.some_ne_none none⟩
  exact (remembers_iff _).mp hremembers rfl

end Libzorpll.FlushError
