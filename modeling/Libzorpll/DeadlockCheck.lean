import Mathlib.Data.List.Basic

/-! The period of the deadlock check, and the calls that turn it on and off. -/

namespace Libzorpll.DeadlockCheck

/-- The two options of the check, and the static of the call that switches it. -/
structure ProcessOpts (F : Type) where
  checkPeriod : Int := -1
  checkFn : Option F := none
  oldValue : Int := -1

variable {F : Type}

def setCheck (checkPeriod : Int) (checkFn : Option F) (s : ProcessOpts F) : ProcessOpts F :=
  { s with checkPeriod := checkPeriod, checkFn := checkFn }

def setCheckEnable (newState : Bool) (s : ProcessOpts F) : ProcessOpts F :=
  if 0 ≤ s.checkPeriod ∧ newState then s
  else if s.checkPeriod < 0 ∧ !newState then s
  else { s with checkPeriod := s.oldValue, oldValue := s.checkPeriod }

def getCheckEnable (s : ProcessOpts F) : Bool := decide (0 ≤ s.checkPeriod)

/-! Runs -/

inductive Call (F : Type)
  | setCheck (checkPeriod : Nat) (checkFn : Option F)
  | setCheckEnable (newState : Bool)

def step : Call F → ProcessOpts F → ProcessOpts F
  | .setCheck checkPeriod checkFn, s => setCheck checkPeriod checkFn s
  | .setCheckEnable newState, s => setCheckEnable newState s

/-- The period that the last z_process_set_check gave. -/
def latest : Call F → Option Nat → Option Nat
  | .setCheck checkPeriod _, _ => some checkPeriod
  | .setCheckEnable _, given => given

/-- What a call has to leave. -/
def Obeyed (given : Option Nat) (t : ProcessOpts F) : Call F → Prop
  | .setCheck _ _ => True
  | .setCheckEnable false => getCheckEnable t = false
  | .setCheckEnable true => ∀ period, given = some period → getCheckEnable t = true ∧ t.checkPeriod = period

def Reliable : Option Nat → List (Call F) → ProcessOpts F → Prop
  | _, [], _ => True
  | given, call :: calls, s => Obeyed given (step call s) call ∧ Reliable (latest call given) calls (step call s)

/-- No period was set while one was put aside. -/
def OneKept (s : ProcessOpts F) : Prop := ¬(0 ≤ s.checkPeriod ∧ 0 ≤ s.oldValue)

/-- The check is turned off only where no period is put aside already. -/
def EachOneKept : List (Call F) → ProcessOpts F → Prop
  | [], _ => True
  | call :: calls, s => (call = .setCheckEnable false → OneKept s) ∧ EachOneKept calls (step call s)

variable {s : ProcessOpts F} {given : Option Nat}

/-- The period that was given is in force or, while the check is off, put aside. -/
def Holds (given : Option Nat) (s : ProcessOpts F) : Prop :=
  match given with
  | none => s.checkPeriod < 0 ∧ s.oldValue < 0
  | some period => if 0 ≤ s.checkPeriod then s.checkPeriod = period else s.oldValue = period

theorem setCheck_holds (checkPeriod : Nat) (checkFn : Option F) (s : ProcessOpts F) :
    Holds (some checkPeriod) (setCheck checkPeriod checkFn s) := by
  have hon : 0 ≤ (setCheck checkPeriod checkFn s).checkPeriod := Int.natCast_nonneg checkPeriod
  rw [Holds, if_pos hon]
  rfl

theorem enable_on (h : Holds given s) :
    Holds given (setCheckEnable true s) ∧ Obeyed given (setCheckEnable true s) (.setCheckEnable true) := by
  by_cases hon : 0 ≤ s.checkPeriod
  · have hsame : setCheckEnable true s = s := if_pos ⟨hon, rfl⟩
    rw [hsame]
    refine ⟨h, ?_⟩
    rintro period rfl
    rw [Holds, if_pos hon] at h
    exact ⟨decide_eq_true hon, h⟩
  · have hswap : setCheckEnable true s = { s with checkPeriod := s.oldValue, oldValue := s.checkPeriod } := by
      simp [setCheckEnable, hon]
    rw [hswap]
    cases given with
    | none => exact ⟨⟨h.2, h.1⟩, fun period hgiven => by cases hgiven⟩
    | some period =>
        rw [Holds, if_neg hon] at h
        have hpos : 0 ≤ s.oldValue := h ▸ Int.natCast_nonneg period
        refine ⟨?_, ?_⟩
        · rw [Holds, if_pos hpos]
          exact h
        · rintro period' ⟨⟩
          exact ⟨decide_eq_true hpos, h⟩

theorem enable_off (h : Holds given s) (hone : OneKept s) :
    Holds given (setCheckEnable false s) ∧ getCheckEnable (setCheckEnable false s) = false := by
  by_cases hon : 0 ≤ s.checkPeriod
  · have hold : ¬0 ≤ s.oldValue := fun hold => hone ⟨hon, hold⟩
    have hswap : setCheckEnable false s = { s with checkPeriod := s.oldValue, oldValue := s.checkPeriod } := by
      simp [setCheckEnable, Int.not_lt.mpr hon]
    rw [hswap]
    refine ⟨?_, decide_eq_false hold⟩
    cases given with
    | none => exact absurd hon (Int.not_le.mpr h.1)
    | some period =>
        rw [Holds, if_pos hon] at h
        rw [Holds, if_neg hold]
        exact h
  · have hsame : setCheckEnable false s = s := by
      simp [setCheckEnable, Int.not_le.mp hon]
    rw [hsame]
    exact ⟨h, decide_eq_false hon⟩

/-- Turning off swaps the two periods, and both of them are on. -/
theorem oneKept_of_off (h : getCheckEnable (setCheckEnable false s) = false) : OneKept s := by
  rintro ⟨hon, hold⟩
  have hswap : (setCheckEnable false s).checkPeriod = s.oldValue := by
    simp [setCheckEnable, Int.not_lt.mpr hon]
  rw [getCheckEnable, hswap, decide_eq_true hold] at h
  cases h

theorem obeyed_iff (h : Holds given s) (call : Call F) :
    Obeyed given (step call s) call ↔ (call = .setCheckEnable false → OneKept s) := by
  cases call with
  | setCheck checkPeriod checkFn => exact iff_of_true trivial (fun heq => by cases heq)
  | setCheckEnable newState =>
      cases newState with
      | false => exact ⟨fun hoff _ => oneKept_of_off hoff, fun hone => (enable_off h (hone rfl)).2⟩
      | true => exact iff_of_true (enable_on h).2 (fun heq => by cases heq)

theorem holds_step (h : Holds given s) (call : Call F) (hone : call = .setCheckEnable false → OneKept s) :
    Holds (latest call given) (step call s) := by
  cases call with
  | setCheck checkPeriod checkFn => exact setCheck_holds checkPeriod checkFn s
  | setCheckEnable newState =>
      cases newState with
      | false => exact (enable_off h (hone rfl)).1
      | true => exact (enable_on h).1

theorem reliable_of_holds (h : Holds given s) (calls : List (Call F)) :
    Reliable given calls s ↔ EachOneKept calls s := by
  induction calls generalizing given s with
  | nil => exact Iff.rfl
  | cons call calls ih =>
      rw [Reliable, EachOneKept, obeyed_iff h]
      exact and_congr_right fun hone => ih (holds_step h call hone)

theorem initial_holds : Holds none ({} : ProcessOpts F) :=
  ⟨(by decide : (-1 : Int) < 0), (by decide : (-1 : Int) < 0)⟩

/-- The check is switched as the calls of a run say if and only if none of
them turns it off while an earlier period is still put aside. -/
theorem reliable_iff (calls : List (Call F)) : Reliable none calls {} ↔ EachOneKept calls {} :=
  reliable_of_holds initial_holds calls

/-- A period that is set while the check is off cannot be turned off. -/
theorem not_reliable : ¬∀ calls : List (Call Unit), Reliable none calls {} := by
  intro h
  have hrun := h [.setCheck 60 none, .setCheckEnable false, .setCheck 10 none, .setCheckEnable false]
  have hoff : true = false := hrun.2.2.2.1
  cases hoff

end Libzorpll.DeadlockCheck
