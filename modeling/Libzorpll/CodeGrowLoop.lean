import Libzorpll.CodeGrow
import Libzorpll.Rounds
import Libzorpll.Signed

/-! z_code_grow with the wrap-around of its gint, and when its loop ends. -/

namespace Libzorpll.CodeGrowLoop

open Code CodeGrow Rounds Signed

inductive Halt
  | endless
  deriving DecidableEq

def growRound (reqlen newlen : Int) : Except Halt (Option Unit × Int) :=
  if newlen < reqlen then .ok (none, narrow 32 (newlen * 2)) else .ok (some (), newlen)

/-- The length is a gsize again in the end. -/
def zCodeGrow (fuel : Nat) (reqlen : Int) (self : ZCode) : Except Halt ZCode :=
  let newlen := if gint self.bufLen ≤ 0 then 1 else gint self.bufLen
  (Run.loop (growRound reqlen) .endless fuel newlen).map fun (_, newlen) =>
    { self with bufLen := (newlen % 2 ^ 64).toNat }

/-- The call comes back, and the buffer has the length required and the one
that it had. -/
def Grows (reqlen : Int) (self : ZCode) : Prop :=
  ∃ fuel t, zCodeGrow fuel reqlen self = .ok t ∧
    0 < t.bufLen ∧ t.bufLen < 2 ^ 31 ∧ reqlen ≤ t.bufLen ∧ self.bufLen ≤ t.bufLen

/-- One of the doubled lengths is long enough, by what a gint is left with. -/
def SomeFits (bufLen : Nat) (reqlen : Int) : Prop :=
  ∃ k, reqlen ≤ (bufLen * 2 ^ k % 2 ^ 32 : Nat) ∧ bufLen * 2 ^ k % 2 ^ 32 < 2 ^ 31

variable {reqlen newlen u : Int} {k : Nat} {self : ZCode}

theorem narrow_double (n : Int) (k : Nat) : narrow 32 (narrow 32 (n * 2) * 2 ^ k) = narrow 32 (n * 2 ^ (k + 1)) := by
  rw [narrow_mul, Int.pow_succ', Int.mul_assoc]

/-- A natural number that is long enough is so without its sign. -/
theorem narrow_reaches (hreq : 0 < reqlen) (n : Nat) :
    reqlen ≤ narrow 32 n ↔ reqlen ≤ (n % 2 ^ 32 : Nat) ∧ n % 2 ^ 32 < 2 ^ 31 := by
  rw [narrow, Int.bmod_def]
  omega

theorem growRound_short (h : newlen < reqlen) : Next (growRound reqlen) newlen (narrow 32 (newlen * 2)) := if_pos h

theorem growRound_fits (h : reqlen ≤ newlen) : growRound reqlen newlen = .ok (some (), newlen) :=
  if_neg (Int.not_lt.mpr h)

theorem ends_of_fits (hnew : Fits 32 newlen) (h : reqlen ≤ narrow 32 (newlen * 2 ^ k)) :
    ∃ u, Ends (growRound reqlen) newlen () u ∧ reqlen ≤ u ∧ newlen ≤ u ∧ u < 2 ^ 31 := by
  induction k generalizing newlen with
  | zero =>
      rw [Int.pow_zero, Int.mul_one, narrow_of_fits (by decide) hnew] at h
      exact ⟨newlen, ends_now (growRound_fits h), h, Int.le_refl _, hnew.2⟩
  | succ k ih =>
      by_cases hfits : reqlen ≤ newlen
      · exact ⟨newlen, ends_now (growRound_fits hfits), hfits, Int.le_refl _, hnew.2⟩
      · have hshort := Int.not_le.mp hfits
        rw [← narrow_double] at h
        obtain ⟨u, hends, hu, -, hlt⟩ := ih (fits_narrow (by decide) _) h
        exact ⟨u, hends.before (.single (growRound_short hshort)), hu, by omega, hlt⟩

theorem fits_of_ends (hnew : Fits 32 newlen) (h : Ends (growRound reqlen) newlen () u) :
    ∃ k, reqlen ≤ narrow 32 (newlen * 2 ^ k) := by
  obtain ⟨t, ht, hbody⟩ := h
  have hdoubled : ∃ k, t = narrow 32 (newlen * 2 ^ k) := by
    refine @reaches_induct _ _ _ _ _ _ (fun t => ∃ k, t = narrow 32 (newlen * 2 ^ k)) ?_ ?_ ht
    · exact ⟨0, by rw [Int.pow_zero, Int.mul_one, narrow_of_fits (by decide) hnew]⟩
    · rintro t v ⟨k, rfl⟩ hnext
      refine ⟨k + 1, ?_⟩
      rw [Next, growRound] at hnext
      split at hnext
      · cases hnext
        rw [narrow_mul, Int.mul_assoc, ← Int.pow_succ]
      · cases hnext
  obtain ⟨k, rfl⟩ := hdoubled
  refine ⟨k, ?_⟩
  rw [growRound] at hbody
  split at hbody
  · cases hbody
  · rename_i hfits
    exact Int.not_lt.mp hfits

/-- From any length the half of the lengths of a gint is reached. -/
theorem fits_of_half {n : Nat} (hpos : 0 < n) (hlt : n < 2 ^ 31) :
    ∃ k, 2 ^ 30 ≤ n * 2 ^ k ∧ n * 2 ^ k < 2 ^ 31 := by
  have hlog : n.log2 < 31 := (Nat.log2_lt (Nat.ne_of_gt hpos)).mpr hlt
  have hsum : n.log2 + (30 - n.log2) = 30 := by omega
  refine ⟨30 - n.log2, ?_, ?_⟩
  · calc 2 ^ 30 = 2 ^ n.log2 * 2 ^ (30 - n.log2) := by rw [← Nat.pow_add, hsum]
      _ ≤ n * 2 ^ (30 - n.log2) := Nat.mul_le_mul_right _ (Nat.log2_self_le (Nat.ne_of_gt hpos))
  · calc n * 2 ^ (30 - n.log2) < 2 ^ (n.log2 + 1) * 2 ^ (30 - n.log2) :=
        Nat.mul_lt_mul_of_pos_right Nat.lt_log2_self (Nat.two_pow_pos _)
      _ = 2 ^ 31 := by rw [Nat.pow_succ, Nat.mul_right_comm, ← Nat.pow_add, hsum]; rfl

theorem exists_fits_iff (hpos : 0 < self.bufLen) (hlt : self.bufLen < 2 ^ 31) :
    (∃ k : Nat, reqlen ≤ narrow 32 ((self.bufLen : Int) * 2 ^ k)) ↔
      reqlen ≤ 2 ^ 30 ∨ SomeFits self.bufLen reqlen := by
  have hcast (k : Nat) : (self.bufLen : Int) * 2 ^ k = (self.bufLen * 2 ^ k : Nat) := by
    rw [Int.natCast_mul, Int.natCast_pow]
    rfl
  simp only [hcast]
  by_cases hhalf : reqlen ≤ 2 ^ 30
  · refine iff_of_true ?_ (.inl hhalf)
    obtain ⟨k, hlow, hhigh⟩ := fits_of_half hpos hlt
    refine ⟨k, ?_⟩
    rw [narrow_of_fits (by decide) ⟨by omega, by omega⟩]
    omega
  · rw [or_iff_right hhalf, SomeFits]
    exact exists_congr fun k => narrow_reaches (by omega) _

theorem zCodeGrow_ok (hpos : 0 < self.bufLen) (hlt : self.bufLen < 2 ^ 31) (t : ZCode) :
    (∃ fuel, zCodeGrow fuel reqlen self = .ok t) ↔
      ∃ u, Ends (growRound reqlen) (self.bufLen : Int) () u ∧ t = { self with bufLen := (u % 2 ^ 64).toNat } := by
  have hstart : (if gint self.bufLen ≤ 0 then 1 else gint self.bufLen) = (self.bufLen : Int) := by
    rw [gint_small hlt, if_neg (by omega)]
  simp only [ends_iff_loop Halt.endless, zCodeGrow, hstart]
  constructor
  · rintro ⟨fuel, h⟩
    obtain ⟨⟨_, u⟩, hloop, heq⟩ := Run.map_ok h
    exact ⟨u, ⟨fuel, hloop⟩, heq.symm⟩
  · rintro ⟨u, ⟨fuel, hloop⟩, rfl⟩
    exact ⟨fuel, by rw [hloop]; rfl⟩

theorem ends_of_doubled {fuel n len : Nat} (h : doubled reqlen fuel n = some len) :
    Ends (growRound reqlen) (n : Int) () (len : Int) := by
  induction fuel generalizing n with
  | zero => cases h
  | succ fuel ih =>
      rw [doubled] at h
      split at h
      · rename_i hshort
        split at h
        · rename_i hroom
          have hnext := growRound_short hshort
          have hdouble : narrow 32 ((n : Int) * 2) = ((n * 2 : Nat) : Int) := by
            rw [narrow_of_fits (by decide) ⟨by omega, by omega⟩]
            omega
          rw [hdouble] at hnext
          exact (ih h).before (.single hnext)
        · cases h
      · rename_i hfits
        cases h
        exact ends_now (growRound_fits (Int.not_lt.mp hfits))

/-- Where the doubling stays in a gint it is that of the length alone. -/
theorem zCodeGrow_growLength {reqlen len : Nat} (hpos : 0 < self.bufLen) (hlt : self.bufLen < 2 ^ 31)
    (h : growLength self.bufLen reqlen = some len) :
    ∃ fuel, zCodeGrow fuel (gint reqlen) self = .ok (codeGrow (fun _ _ => len) reqlen self) := by
  have hstart : (if gint self.bufLen ≤ 0 then 1 else (gint self.bufLen).toNat) = self.bufLen := by
    rw [gint_small hlt, if_neg (by omega), Int.toNat_natCast]
  obtain ⟨-, -, -, hlen, -⟩ := growLength_some hpos hlt h
  simp only [growLength, hstart] at h
  have hsame : ((len : Int) % 2 ^ 64).toNat = len := by omega
  refine (zCodeGrow_ok hpos hlt _).mpr ⟨len, ends_of_doubled h, ?_⟩
  rw [hsame]
  rfl

theorem fits_of_grows (hpos : 0 < self.bufLen) (hlt : self.bufLen < 2 ^ 31) (h : Grows reqlen self) :
    reqlen ≤ 2 ^ 30 ∨ SomeFits self.bufLen reqlen := by
  obtain ⟨fuel, t, hgrow, -⟩ := h
  obtain ⟨u, hends, -⟩ := (zCodeGrow_ok hpos hlt t).mp ⟨fuel, hgrow⟩
  exact (exists_fits_iff hpos hlt).mp (fits_of_ends ⟨by omega, by omega⟩ hends)

/-- The buffer grows as required up to half of what a gint can be, and beyond
that where a doubled length is left long enough. -/
theorem grows_iff (self : ZCode) (reqlen : Int) (hpos : 0 < self.bufLen) (hlt : self.bufLen < 2 ^ 31) :
    Grows reqlen self ↔ reqlen ≤ 2 ^ 30 ∨ SomeFits self.bufLen reqlen := by
  refine ⟨fits_of_grows hpos hlt, fun h => ?_⟩
  obtain ⟨k, hfits⟩ := (exists_fits_iff hpos hlt).mpr h
  obtain ⟨u, hends, hreq, hlen, hu⟩ := ends_of_fits ⟨by omega, by omega⟩ hfits
  obtain ⟨fuel, hgrow⟩ := (zCodeGrow_ok hpos hlt _).mpr ⟨u, hends, rfl⟩
  have hsame : (u % 2 ^ 64).toNat = u.toNat := by omega
  refine ⟨fuel, _, hgrow, ?_⟩
  dsimp only
  rw [hsame]
  omega

theorem grows_iff_three :
    Grows 100 (codeInit 3) ↔ (100 : Int) ≤ 2 ^ 30 ∨ SomeFits (codeInit 3).bufLen 100 :=
  grows_iff (codeInit 3) 100 (by decide) (by decide)

/-- From 1 the loop goes over 2 ^ 30 and 2 ^ 31 to 0, and stays there. -/
theorem not_grows :
    ¬∀ (self : ZCode) (reqlen : Int), 0 < self.bufLen → self.bufLen < 2 ^ 31 →
      -2 ^ 31 ≤ reqlen → reqlen < 2 ^ 31 →
      Grows reqlen self := by
  intro h
  have hgrows := h (codeInit 1) (2 ^ 30 + 1) (by decide) (by decide) (by decide) (by decide)
  rcases fits_of_grows (by decide) (by decide) hgrows with hhalf | ⟨k, hfits, hlt⟩
  · exact absurd hhalf (by decide)
  · have hone : (codeInit 1).bufLen = 1 := rfl
    rw [hone, Nat.one_mul] at hfits hlt
    rcases Nat.lt_trichotomy k 31 with hk | rfl | hk
    · have hpow : 2 ^ k ≤ 2 ^ 30 := Nat.pow_le_pow_right (by decide) (Nat.le_of_lt_succ hk)
      have hmod := Nat.mod_le (2 ^ k) (2 ^ 32)
      omega
    · exact absurd hlt (by decide)
    · obtain ⟨j, rfl⟩ := Nat.exists_eq_add_of_le (show 32 ≤ k from hk)
      rw [Nat.pow_add, Nat.mul_mod_right] at hfits
      exact absurd hfits (by decide)

end Libzorpll.CodeGrowLoop
