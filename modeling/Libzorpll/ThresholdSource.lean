import Libzorpll.Signed

/-! The timeout that the threshold source asks for, and its check. -/

namespace Libzorpll.ThresholdSource

open Signed

structure ZThresholdSource where
  idleThreshold : UInt32
  busyThreshold : UInt32
  lastCall : Int := 0
  startTime : Int := 0

/-- The answer is always FALSE; what is left is the timeout, in milliseconds. -/
def prepare (now : Int) (self : ZThresholdSource) : Option (Int × ZThresholdSource) := do
  let busy ← exact 64 (self.busyThreshold.toNat + self.lastCall)
  let left ← exact 64 (busy - now)
  let timeout ← exact 64 (min (self.idleThreshold.toNat : Int) left * 1000)
  some (narrow 32 timeout, { self with startTime := now })

def check (now : Int) (self : ZThresholdSource) : Option Bool := do
  let idle ← exact 64 (self.startTime + self.idleThreshold.toNat)
  if idle ≤ now then some true
  else do
    let busy ← exact 64 (self.lastCall + self.busyThreshold.toNat)
    some (decide (busy ≤ now))

/-- The callback, if it is set, by its answer. -/
def dispatch (callback : Option Bool) (now : Int) (self : ZThresholdSource) : Bool × ZThresholdSource :=
  match callback with
  | some rc => (rc, { self with lastCall := now })
  | none => (false, self)

def expiry (now : Int) (self : ZThresholdSource) : Int :=
  min (now + self.idleThreshold.toNat) (self.lastCall + self.busyThreshold.toNat)

def remaining (now : Int) (self : ZThresholdSource) : Int := 1000 * max 0 (expiry now self - now)

/-- The timeout is the exact one, and the check is FALSE before it is over and
TRUE from then on. -/
def Agrees (now : Int) (self : ZThresholdSource) : Prop :=
  ∃ timeout after, prepare now self = some (timeout, after) ∧ 0 ≤ timeout ∧ timeout = remaining now self ∧
    ∀ later, now ≤ later → later < 2 ^ 63 →
      check later after = some (decide (timeout ≤ 1000 * (later - now)))

/-- No sum leaves time_t, and the seconds left are not negative and their
milliseconds are a gint (or they are a negative multiple of 2 ^ 29, of which
a gint keeps nothing). -/
def InTime (now : Int) (self : ZThresholdSource) : Prop :=
  now + self.idleThreshold.toNat < 2 ^ 63 ∧ self.lastCall + self.busyThreshold.toNat < 2 ^ 63 ∧
    ((now ≤ expiry now self ∧ 1000 * (expiry now self - now) < 2 ^ 31) ∨
      (expiry now self < now ∧ -2 ^ 63 ≤ 1000 * (expiry now self - now) ∧ 2 ^ 29 ∣ expiry now self - now))

variable {now later timeout : Int} {self after : ZThresholdSource}

theorem prepare_eq_some : prepare now self = some (timeout, after) ↔
    Fits 64 (self.busyThreshold.toNat + self.lastCall) ∧
      Fits 64 (self.busyThreshold.toNat + self.lastCall - now) ∧
        Fits 64 ((expiry now self - now) * 1000) ∧
          timeout = narrow 32 ((expiry now self - now) * 1000) ∧ after = { self with startTime := now } := by
  have hleft : min (self.idleThreshold.toNat : Int) (self.busyThreshold.toNat + self.lastCall - now) =
      expiry now self - now := by
    rw [expiry]
    omega
  simp only [prepare, Option.bind_eq_bind, Option.bind_eq_some_iff, exact_eq_some, Option.some.injEq, Prod.mk.injEq]
  constructor
  · rintro ⟨_, ⟨hbusy, rfl⟩, _, ⟨hsub, rfl⟩, _, ⟨hmul, rfl⟩, rfl, rfl⟩
    rw [hleft] at hmul ⊢
    exact ⟨hbusy, hsub, hmul, rfl, rfl⟩
  · rintro ⟨hbusy, hsub, hmul, rfl, rfl⟩
    rw [← hleft] at hmul ⊢
    exact ⟨_, ⟨hbusy, rfl⟩, _, ⟨hsub, rfl⟩, _, ⟨hmul, rfl⟩, rfl, rfl⟩

theorem check_eq (hnow : -2 ^ 63 ≤ now) (hlast : -2 ^ 63 ≤ self.lastCall)
    (hidle : now + self.idleThreshold.toNat < 2 ^ 63) (hbusy : self.lastCall + self.busyThreshold.toNat < 2 ^ 63)
    (later : Int) :
    check later { self with startTime := now } = some (decide (expiry now self ≤ later)) := by
  have hfirst : Fits 64 (now + self.idleThreshold.toNat) := ⟨by omega, hidle⟩
  have hsecond : Fits 64 (self.lastCall + self.busyThreshold.toNat) := ⟨by omega, hbusy⟩
  simp only [check, exact_of_fits hfirst, exact_of_fits hsecond, Option.bind_eq_bind, Option.bind_some]
  split
  · rename_i hover
    rw [decide_eq_true (by rw [expiry]; omega)]
  · rename_i hrun
    exact congrArg some (decide_eq_decide.mpr (by rw [expiry]; omega))

theorem fits_of_check {b : Bool} (h : check later { self with startTime := now } = some b) :
    now + self.idleThreshold.toNat < 2 ^ 63 := by
  rw [check, Option.bind_eq_bind, Option.bind_eq_some_iff] at h
  obtain ⟨idle, hidle, -⟩ := h
  exact (exact_eq_some.mp hidle).1.2

/-- The milliseconds of a number of seconds are kept by a gint. -/
theorem narrow_millis (n : Int) : (0 ≤ narrow 32 (n * 1000) ∧ narrow 32 (n * 1000) = 1000 * max 0 n) ↔
    (0 ≤ n ∧ 1000 * n < 2 ^ 31) ∨ (n < 0 ∧ 2 ^ 29 ∣ n) := by
  by_cases hneg : n < 0
  · have hmax : max 0 n = 0 := by omega
    have hzero : 1000 * max 0 n = 0 := by rw [hmax, Int.mul_zero]
    rw [hzero]
    constructor
    · rintro ⟨-, hnarrow⟩
      have hdvd := narrow_eq_zero.mp hnarrow
      exact .inr ⟨hneg, by omega⟩
    · rintro (⟨hpos, -⟩ | ⟨-, hdvd⟩)
      · omega
      · have hnarrow : narrow 32 (n * 1000) = 0 := narrow_eq_zero.mpr (by omega)
        exact ⟨Int.le_of_eq hnarrow.symm, hnarrow⟩
  · have hmax : max 0 n = n := by omega
    rw [hmax]
    constructor
    · rintro ⟨-, hnarrow⟩
      have hhigh := (fits_narrow (by decide : 0 < 32) (n * 1000)).2
      exact .inl ⟨by omega, by omega⟩
    · rintro (⟨hpos, hlt⟩ | ⟨hlt, -⟩)
      · have hfits : Fits 32 (n * 1000) := ⟨by omega, by omega⟩
        rw [narrow_of_fits (by decide) hfits]
        omega
      · exact absurd hlt hneg

/-- The timeout is right, and its check with it, exactly for what is left of
the time not being negative, and not too long for a gint. -/
theorem agrees_iff (hlast : -2 ^ 63 ≤ self.lastCall) (hle : self.lastCall ≤ now) (hnow : now < 2 ^ 63) :
    Agrees now self ↔ InTime now self := by
  have hmillis := narrow_millis (expiry now self - now)
  constructor
  · rintro ⟨timeout, after, hprepare, hpos, hexact, hcheck⟩
    obtain ⟨hbusy, hsub, hmul, rfl, rfl⟩ := prepare_eq_some.mp hprepare
    refine ⟨fits_of_check (hcheck now (Int.le_refl _) hnow), by have := hbusy.2; omega, ?_⟩
    have hlow := hmul.1
    obtain ⟨hleft, hshort⟩ | ⟨hover, hdvd⟩ := hmillis.mp ⟨hpos, hexact⟩
    · exact .inl ⟨by omega, hshort⟩
    · exact .inr ⟨by omega, by omega, hdvd⟩
  · rintro ⟨hidle, hbusy, hleft⟩
    have hmul : Fits 64 ((expiry now self - now) * 1000) := by
      obtain ⟨hleft, hshort⟩ | ⟨hover, hlow, -⟩ := hleft
      · exact ⟨by omega, by omega⟩
      · exact ⟨by omega, by omega⟩
    have hgint : (0 ≤ expiry now self - now ∧ 1000 * (expiry now self - now) < 2 ^ 31) ∨
        (expiry now self - now < 0 ∧ 2 ^ 29 ∣ expiry now self - now) := by
      obtain ⟨hleft, hshort⟩ | ⟨hover, -, hdvd⟩ := hleft
      · exact .inl ⟨by omega, hshort⟩
      · exact .inr ⟨by omega, hdvd⟩
    obtain ⟨hpos, hexact⟩ := hmillis.mpr hgint
    have hsub : Fits 64 (self.busyThreshold.toNat + self.lastCall - now) := by
      have hlow := hmul.1
      have hmin : expiry now self ≤ self.lastCall + self.busyThreshold.toNat := by
        rw [expiry]
        omega
      have hbits := self.busyThreshold.toNat_lt
      exact ⟨by omega, by omega⟩
    refine ⟨_, _, prepare_eq_some.mpr ⟨⟨by omega, by omega⟩, hsub, hmul, rfl, rfl⟩, hpos, hexact, ?_⟩
    intro later hlater _
    rw [check_eq (by omega) hlast hidle hbusy, hexact]
    exact congrArg some (decide_eq_decide.mpr (by omega))

/-- What the dispatches of a source leave, each by its answer and its time. -/
def run (dispatches : List (Option Bool × Int)) (self : ZThresholdSource) : ZThresholdSource :=
  dispatches.foldl (fun self step => (dispatch step.1 step.2 self).2) self

theorem dispatch_lastCall_le (callback : Option Bool) (hle : self.lastCall ≤ now) (hlater : now ≤ later) :
    (dispatch callback later self).2.lastCall ≤ later := by
  cases callback with
  | none => exact Int.le_trans hle hlater
  | some rc => exact Int.le_refl later

/-- Under a clock that does not go back, the last call is never later than now. -/
theorem run_lastCall_le {dispatches : List (Option Bool × Int)} (hle : self.lastCall ≤ now)
    (hclock : (now :: dispatches.map Prod.snd).Pairwise (· ≤ ·))
    (hlater : ∀ t ∈ now :: dispatches.map Prod.snd, t ≤ later) :
    (run dispatches self).lastCall ≤ later := by
  induction dispatches generalizing self now with
  | nil => exact Int.le_trans hle (hlater now List.mem_cons_self)
  | cons step dispatches ih =>
      rw [List.map_cons, List.pairwise_cons] at hclock
      rw [List.map_cons] at hlater
      exact ih (dispatch_lastCall_le step.1 hle (hclock.1 _ List.mem_cons_self)) hclock.2
        fun t ht => hlater t (List.mem_cons_of_mem _ ht)

theorem agrees_iff_waiting :
    Agrees 1000 { idleThreshold := 5, busyThreshold := 60, lastCall := 990 } ↔
      InTime 1000 { idleThreshold := 5, busyThreshold := 60, lastCall := 990 } :=
  agrees_iff (by decide) (by decide) (by decide)

/-- A busy threshold that has passed asks for a negative timeout. -/
theorem not_agrees : ¬ Agrees 200 { idleThreshold := 5, busyThreshold := 10, lastCall := 100 } := by
  rintro ⟨timeout, after, hprepare, hpos, -⟩
  have hneg : timeout = -90000 := (prepare_eq_some.mp hprepare).2.2.2.1.trans (by decide)
  omega

end Libzorpll.ThresholdSource
