import Mathlib.Order.WellFounded
import Libzorpll.CodeGzip
import Libzorpll.ZlibStored

/-! When the loop of the gzip coder ends. -/

namespace Libzorpll.CodeGzipReturns

open Code StreamGzip ZlibContract CodeGzip

variable {ζ χ : Type}

/-- The states in which a round of the loop begins. -/
inductive Begins (zlib : Zlib ζ χ) : ZCodeGzip ζ χ → ZCodeGzip ζ χ → Prop
  | first (s : ZCodeGzip ζ χ) : Begins zlib s s
  | next {s u t : ZCodeGzip ζ χ} {ret : ZRet} (hround : gzipRound zlib s = some (ret, u))
      (hret : negative ret = false) (hleft : u.nextIn ≠ []) (h : Begins zlib u t) : Begins zlib s t

/-- No round begins behind the end of the stream, and none in which the buffer
cannot be grown. -/
def GoesWell (zlib : Zlib ζ χ) (s : ZCodeGzip ζ χ) : Prop :=
  ∀ t, Begins zlib s t → t.endOfStream = false ∧ (gzipRoom t).isSome

/-- end_of_stream is set when, and only when, inflate has come to the end. -/
structure Usable (Ended : χ → Prop) (s : ZCodeGzip ζ χ) : Prop where
  going : s.endOfStream = false → s.encode = true ∨ ¬Ended s.gzip.2
  ended : s.endOfStream = true → s.encode = false ∧ Ended s.gzip.2

def rank (held : ζ → Nat) (owed : χ → Nat) (s : ZCodeGzip ζ χ) : Nat :=
  if s.encode then held s.gzip.1 else owed s.gzip.2

variable {zlib : Zlib ζ χ} {held : ζ → Nat} {owed : χ → Nat} {Ended : χ → Prop}

theorem gzipCall_consumed (zlib : Zlib ζ χ) (space : Nat) (s : ZCodeGzip ζ χ) :
    (gzipCall zlib space s).consumed ≤ s.nextIn.length := by
  cases hmode : s.encode with
  | true =>
      simp only [gzipCall, hmode, ↓reduceIte]
      exact zlib.deflate_consumed _ _ _ _
  | false =>
      simp only [gzipCall, hmode, Bool.false_eq_true, ↓reduceIte]
      exact zlib.inflate_consumed _ _ _

/-- A call that goes on takes some of the input or gives what was held back. -/
theorem gzipCall_ok (hz : Progresses zlib held owed Ended) {s : ZCodeGzip ζ χ} (hs : Usable Ended s)
    (hgoing : s.endOfStream = false) (super : ZCode) (space : Nat)
    (hok : (gzipCall zlib space s).ret = .ok) :
    let t := gzipAfter super (gzipCall zlib space s) s
    Usable Ended t ∧ t.endOfStream = false ∧
      (t.nextIn.length < s.nextIn.length ∨
        t.nextIn.length = s.nextIn.length ∧ rank held owed t < rank held owed s) := by
  intro t
  have hend : t.endOfStream = false := by simp [t, gzipAfter, hgoing, hok]
  have hconsumed := gzipCall_consumed zlib space s
  have hnext : t.nextIn.length = s.nextIn.length - (gzipCall zlib space s).consumed := by
    simp [t, gzipAfter]
  cases hmode : s.encode with
  | true =>
      have hmode' : t.encode = true := hmode
      refine ⟨⟨fun _ => .inl hmode', fun h => absurd (hend.symm.trans h) (by decide)⟩, hend, ?_⟩
      by_cases hzero : (gzipCall zlib space s).consumed = 0
      · refine .inr ⟨by omega, ?_⟩
        simp only [gzipCall, hmode, ↓reduceIte] at hok hzero
        have hheld := hz.deflate_held _ _ _ hzero
        have hsome := List.length_pos_of_ne_nil (hz.deflate_progress _ _ _ hok hzero)
        simp only [rank, hmode', hmode, ↓reduceIte]
        have hstate : t.gzip.1 = (zlib.deflate .syncFlush s.nextIn space s.gzip.1).state := by
          simp [t, gzipAfter, gzipCall, hmode]
        rw [hstate]
        omega
      · exact .inl (by omega)
  | false =>
      have hmode' : t.encode = false := hmode
      have hopen : ¬Ended s.gzip.2 := by
        rcases hs.going hgoing with h | h
        · rw [hmode] at h
          cases h
        · exact h
      have hstate : t.gzip.2 = (zlib.inflate s.nextIn space s.gzip.2).state := by
        simp [t, gzipAfter, gzipCall, hmode]
      have hok' : (zlib.inflate s.nextIn space s.gzip.2).ret = .ok := by
        simpa only [gzipCall, hmode, Bool.false_eq_true, ↓reduceIte] using hok
      have hopen' : ¬Ended t.gzip.2 := by
        rw [hstate]
        exact hz.inflate_open _ _ _ hopen (by rw [hok']; decide)
      refine ⟨⟨fun _ => .inr hopen', fun h => absurd (hend.symm.trans h) (by decide)⟩, hend, ?_⟩
      by_cases hzero : (gzipCall zlib space s).consumed = 0
      · refine .inr ⟨by omega, ?_⟩
        simp only [gzipCall, hmode, Bool.false_eq_true, ↓reduceIte] at hzero
        have howed := hz.inflate_owed _ _ _ hzero
        have hsome := List.length_pos_of_ne_nil (hz.inflate_progress _ _ _ hopen hok' hzero)
        simp only [rank, hmode', hmode, Bool.false_eq_true, ↓reduceIte, hstate]
        omega
      · exact .inl (by omega)

/-- A call that ends the stream is one of inflate. -/
theorem gzipCall_end (hz : Progresses zlib held owed Ended) {s : ZCodeGzip ζ χ} (super : ZCode)
    (space : Nat) (hend : (gzipCall zlib space s).ret = .streamEnd) :
    let t := gzipAfter super (gzipCall zlib space s) s
    Usable Ended t ∧ t.endOfStream = true := by
  intro t
  have htrue : t.endOfStream = true := by simp [t, gzipAfter, hend]
  cases hmode : s.encode with
  | true =>
      simp only [gzipCall, hmode, ↓reduceIte] at hend
      cases hz.deflate_open _ _ _ hend
  | false =>
      simp only [gzipCall, hmode, Bool.false_eq_true, ↓reduceIte] at hend
      have hmode' : t.encode = false := hmode
      have hstate : t.gzip.2 = (zlib.inflate s.nextIn space s.gzip.2).state := by
        simp [t, gzipAfter, gzipCall, hmode]
      refine ⟨⟨fun h => absurd (htrue.symm.trans h) (by decide), fun _ => ⟨hmode', ?_⟩⟩, htrue⟩
      rw [hstate]
      exact hz.inflate_end _ _ _ hend

/-- A call that fails does not end the stream. -/
theorem gzipCall_failed (hz : Progresses zlib held owed Ended) {s : ZCodeGzip ζ χ} (hs : Usable Ended s)
    (hgoing : s.endOfStream = false) (super : ZCode) (space : Nat)
    (hret : negative (gzipCall zlib space s).ret = true) :
    Usable Ended (gzipAfter super (gzipCall zlib space s) s) := by
  have hopen : (gzipCall zlib space s).ret ≠ .streamEnd := by
    intro hend
    rw [hend] at hret
    cases hret
  have hend : (gzipAfter super (gzipCall zlib space s) s).endOfStream = false := by
    simp [gzipAfter, hgoing, hopen]
  refine ⟨fun _ => ?_, fun h => absurd (hend.symm.trans h) (by decide)⟩
  rcases hs.going hgoing with hmode | hnot
  · exact .inl hmode
  · cases hmode : s.encode with
    | true => exact .inl hmode
    | false =>
        refine .inr ?_
        simp only [gzipCall, hmode, Bool.false_eq_true, ↓reduceIte] at hopen
        have hafter := hz.inflate_open _ _ _ hnot hopen
        simpa only [gzipAfter, gzipCall, hmode, Bool.false_eq_true, ↓reduceIte] using hafter

theorem loop_returns (hz : Progresses zlib held owed Ended) (s : ZCodeGzip ζ χ) (hs : Usable Ended s)
    (h : GoesWell zlib s) : ∃ fuel r, gzipLoop zlib fuel s = some r := by
  have hwf := InvImage.wf (fun s : ZCodeGzip ζ χ => (s.nextIn.length, rank held owed s))
    (Prod.lex Nat.lt_wfRel Nat.lt_wfRel).wf
  induction s using hwf.induction with
  | h s ih =>
      obtain ⟨hgoing, hroom⟩ := h s (.first s)
      obtain ⟨super, hsuper⟩ := Option.isSome_iff_exists.mp hroom
      have hround := @gzipRound_of_room _ _ zlib _ _ hsuper
      cases hret : (gzipCall zlib (super.bufLen - super.bufUsed) s).ret with
      | bufError =>
          rw [hret] at hround
          exact ⟨1, _, gzipLoop_failed hround rfl 0⟩
      | error =>
          rw [hret] at hround
          exact ⟨1, _, gzipLoop_failed hround rfl 0⟩
      | streamEnd =>
          obtain ⟨-, hend⟩ := gzipCall_end hz super _ hret
          rw [hret] at hround
          by_cases hdone : (gzipAfter super (gzipCall zlib (super.bufLen - super.bufUsed) s) s).nextIn = []
          · exact ⟨1, _, gzipLoop_last hround rfl hdone 0⟩
          · have hnext := (h _ (.next hround rfl hdone (.first _))).1
            rw [hend] at hnext
            cases hnext
      | ok =>
          obtain ⟨husable, -, hless⟩ := gzipCall_ok hz hs hgoing super _ hret
          rw [hret] at hround
          by_cases hdone : (gzipAfter super (gzipCall zlib (super.bufLen - super.bufUsed) s) s).nextIn = []
          · exact ⟨1, _, gzipLoop_last hround rfl hdone 0⟩
          · have hlex : Prod.Lex (· < ·) (· < ·)
                ((gzipAfter super (gzipCall zlib (super.bufLen - super.bufUsed) s) s).nextIn.length,
                  rank held owed (gzipAfter super (gzipCall zlib (super.bufLen - super.bufUsed) s) s))
                (s.nextIn.length, rank held owed s) := by
              rcases hless with hless | ⟨hsame, hless⟩
              · exact .left _ _ hless
              · rw [hsame]
                exact .right _ hless
            obtain ⟨fuel, r, hr⟩ := ih _ hlex husable (fun t ht => h t (.next hround rfl hdone ht))
            exact ⟨fuel + 1, r, (gzipLoop_next hround rfl hdone fuel).trans hr⟩

/-- Behind the end of the stream nothing is taken any more. -/
theorem loop_ended (hz : Progresses zlib held owed Ended) (fuel : Nat) {s : ZCodeGzip ζ χ}
    (hmode : s.encode = false) (hended : Ended s.gzip.2) (hleft : s.nextIn ≠ []) :
    gzipLoop zlib fuel s = none := by
  induction fuel generalizing s with
  | zero => rfl
  | succ fuel ih =>
      cases hroom : gzipRoom s with
      | none => exact gzipLoop_undefined hroom _
      | some super =>
          have hround := @gzipRound_of_room _ _ zlib _ _ hroom
          obtain ⟨hret, hconsumed, -⟩ := hz.inflate_ended s.nextIn (super.bufLen - super.bufUsed) _ hended
          have hcall : (gzipCall zlib (super.bufLen - super.bufUsed) s).ret = .streamEnd := by
            simpa only [gzipCall, hmode, Bool.false_eq_true, ↓reduceIte] using hret
          have hsame : (gzipAfter super (gzipCall zlib (super.bufLen - super.bufUsed) s) s).nextIn =
              s.nextIn := by
            simp [gzipAfter, gzipCall, hmode, hconsumed]
          have hstate : Ended (gzipAfter super (gzipCall zlib (super.bufLen - super.bufUsed) s) s).gzip.2 := by
            have hafter := hz.inflate_end s.nextIn (super.bufLen - super.bufUsed) s.gzip.2 hret
            simpa only [gzipAfter, gzipCall, hmode, Bool.false_eq_true, ↓reduceIte] using hafter
          rw [hcall] at hround
          rw [gzipLoop_next hround rfl (by rw [hsame]; exact hleft)]
          exact ih hmode hstate (by rw [hsame]; exact hleft)

/-- A loop that ends has begun no round that goes wrong. -/
theorem loop_goesWell (hz : Progresses zlib held owed Ended) {fuel : Nat} {s : ZCodeGzip ζ χ}
    {r : Bool × ZCodeGzip ζ χ} (hs : Usable Ended s) (hleft : s.endOfStream = true → s.nextIn ≠ [])
    (h : gzipLoop zlib fuel s = some r) : GoesWell zlib s := by
  induction fuel generalizing s with
  | zero => cases h
  | succ fuel ih =>
      have hgoing : s.endOfStream = false := by
        cases hend : s.endOfStream with
        | false => rfl
        | true =>
            obtain ⟨hmode, hended⟩ := hs.ended hend
            rw [loop_ended hz (fuel + 1) hmode hended (hleft hend)] at h
            cases h
      have hroom : (gzipRoom s).isSome := by
        cases hroom : gzipRoom s with
        | some super => rfl
        | none =>
            rw [gzipLoop_undefined hroom] at h
            cases h
      intro t ht
      cases ht with
      | first => exact ⟨hgoing, hroom⟩
      | @next _ u _ ret hround hret hmore hbegins =>
          rw [gzipLoop_next hround hret hmore] at h
          obtain ⟨super, -, hcall, hafter⟩ := gzipRound_some hround
          have husable : Usable Ended u := by
            rw [hafter]
            cases ret with
            | ok => exact (gzipCall_ok hz hs hgoing super _ hcall.symm).1
            | streamEnd => exact (gzipCall_end hz super _ hcall.symm).1
            | bufError => cases hret
            | error => cases hret
          exact ih husable (fun _ => hmore) h t hbegins

theorem loop_usable (hz : Progresses zlib held owed Ended) {fuel : Nat} {s t : ZCodeGzip ζ χ} {ok : Bool}
    (hs : Usable Ended s) (hleft : s.endOfStream = true → s.nextIn ≠ [])
    (h : gzipLoop zlib fuel s = some (ok, t)) : Usable Ended t := by
  induction fuel generalizing s with
  | zero => cases h
  | succ fuel ih =>
      have hgoing := (loop_goesWell hz hs hleft h s (.first s)).1
      cases hround : gzipRound zlib s with
      | none => simp only [gzipLoop, hround, reduceCtorEq] at h
      | some p =>
          obtain ⟨ret, u⟩ := p
          obtain ⟨super, -, hcall, rfl⟩ := gzipRound_some hround
          cases hneg : negative ret with
          | true =>
              rw [gzipLoop_failed hround hneg] at h
              cases h
              exact gzipCall_failed hz hs hgoing super _ (hcall ▸ hneg)
          | false =>
              have husable : Usable Ended
                  (gzipAfter super (gzipCall zlib (super.bufLen - super.bufUsed) s) s) := by
                cases ret with
                | ok => exact (gzipCall_ok hz hs hgoing super _ hcall.symm).1
                | streamEnd => exact (gzipCall_end hz super _ hcall.symm).1
                | bufError => cases hneg
                | error => cases hneg
              by_cases hdone : (gzipAfter super (gzipCall zlib (super.bufLen - super.bufUsed) s) s).nextIn = []
              · rw [gzipLoop_last hround hneg hdone] at h
                cases h
                exact husable
              · rw [gzipLoop_next hround hneg hdone] at h
                exact ih husable (fun _ => hdone) h

theorem gzipInit_usable (bufsize : Int) (encode : Bool) {gzip : ζ × χ} (h : ¬Ended gzip.2) :
    Usable Ended (gzipInit bufsize encode gzip) :=
  ⟨fun _ => .inr h, fun h => absurd h Bool.false_ne_true⟩

theorem gzipStart_usable {s : ZCodeGzip ζ χ} (hs : Usable Ended s) (buf : List UInt8) :
    Usable Ended (gzipStart buf s) := ⟨hs.going, hs.ended⟩

/-- The states that calls leave are usable. -/
theorem gzipTransform_usable (hz : Progresses zlib held owed Ended) {fuel : Nat} {buf : List UInt8}
    {s t : ZCodeGzip ζ χ} {ok : Bool} (hs : Usable Ended s)
    (h : gzipTransform zlib fuel buf s = some (ok, t)) : Usable Ended t := by
  by_cases hnone : buf = []
  · rw [gzipTransform, if_pos hnone] at h
    cases h
    exact hs
  · cases hend : s.endOfStream with
    | true =>
        rw [gzipTransform, if_neg hnone, if_pos hend] at h
        cases h
        exact hs
    | false =>
        simp only [gzipTransform, hnone, hend, Bool.false_eq_true, ↓reduceIte] at h
        exact loop_usable hz (gzipStart_usable hs buf)
          (fun h => absurd (hend.symm.trans h) (by decide)) h

end Libzorpll.CodeGzipReturns
