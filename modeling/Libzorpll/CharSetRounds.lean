import Libzorpll.CharSet
import Libzorpll.Rounds

/-! z_charset_parse, round by round. -/

namespace Libzorpll.CharSetRounds

open CString Rounds CharSet

/-! The loop over a range -/

variable {str : Ptr} {p : Parser} {s : List UInt8} {c lo : UInt8}

/-- The loop over a range is left. -/
structure Left (p q : Parser) : Prop where
  index : q.i = forth p.i
  state : q.state = .start
  oldState : q.oldState = .ending
  idle : q.enabling = false
  set : ∀ b, isEnabled q.charset b = true ↔ isEnabled p.charset b = true ∨ (p.j ≤ b ∧ b ≤ p.endPos)

theorem enabling_ends (str : Ptr) (henabling : p.enabling = true) (hend : p.endPos ≠ 255) :
    ∃ q, Reaches (parseRound str) p q ∧ Left p q := by
  have hbyte := p.endPos.toNat_lt
  have htop : p.endPos.toNat ≠ 255 := fun h => hend (UInt8.toNat_inj.mp h)
  induction hn : 256 - p.j.toNat using Nat.strong_induction_on generalizing p with
  | h n ih =>
      by_cases hle : p.j ≤ p.endPos
      · have hj := UInt8.le_iff_toNat_le.mp hle
        have hnext : (p.j + 1).toNat = p.j.toNat + 1 := by
          rw [UInt8.toNat_add]
          change (p.j.toNat + 1) % 256 = _
          omega
        have hround : Next (parseRound str) p { p with charset := enable p.charset p.j, j := p.j + 1 } := by
          rw [Next, parseRound, if_pos henabling, if_pos hle]
        obtain ⟨q, hreach, hleft⟩ := ih (256 - (p.j + 1).toNat) (by omega)
          (p := { p with charset := enable p.charset p.j, j := p.j + 1 }) henabling hend hbyte htop rfl
        refine ⟨q, .head hround hreach, hleft.index, hleft.state, hleft.oldState, hleft.idle, fun b => ?_⟩
        have hsplit : (p.j ≤ b ∧ b ≤ p.endPos) ↔ p.j = b ∨ (p.j + 1 ≤ b ∧ b ≤ p.endPos) := by
          rw [← UInt8.toNat_inj, UInt8.le_iff_toNat_le, UInt8.le_iff_toNat_le, UInt8.le_iff_toNat_le, hnext]
          omega
        rw [hleft.set b, isEnabled_enable, Bool.or_eq_true, beq_iff_eq, hsplit, or_assoc, or_left_comm]
      · have hround : Next (parseRound str) p
            { p with i := forth p.i, state := .start, oldState := .ending, enabling := false } := by
          rw [Next, parseRound, if_pos henabling, if_neg hle]
        refine ⟨_, .single hround, rfl, rfl, rfl, rfl, fun b => ?_⟩
        have hempty : ¬(p.j ≤ b ∧ b ≤ p.endPos) := fun h => hle (UInt8.le_trans h.1 h.2)
        simp [hempty]

/-- Up to the last byte the counter never gets past the end. -/
theorem enabling_endless (henabling : p.enabling = true) (hend : p.endPos = 255) :
    Endless (parseRound str) p := by
  have hstart : p.enabling = true ∧ p.endPos = 255 := ⟨henabling, hend⟩
  refine @endless_induct _ _ _ _ _ (fun q => q.enabling = true ∧ q.endPos = 255) hstart ?_
  rintro q ⟨hq, hlast⟩
  have hle : q.j ≤ q.endPos := by
    rw [hlast, UInt8.le_iff_toNat_le]
    exact Nat.le_of_lt_succ q.j.toNat_lt
  refine ⟨{ q with charset := enable q.charset q.j, j := q.j + 1 }, ?_, hq, hlast⟩
  rw [Next, parseRound, if_pos hq, if_pos hle]

/-! The loop over the string -/

/-- The bytes behind the index and those ahead of it. -/
structure Stands (str : Ptr) (pre s : List UInt8) (p : Parser) : Prop where
  string : str = pre ++ terminated s
  bytes : 0 ∉ s
  bound : str.length ≤ 2 ^ 32
  index : p.i = pre.length
  idle : p.enabling = false

def Ready : Option UInt8 → List UInt8 → Parser → Prop
  | none, _, p => p.state = .start ∧ p.oldState ≠ .escape
  | some lo, pre, p => p.state = .dash ∧ p.oldState = .start ∧ p.startPos = lo ∧ lo ≠ 0 ∧ ∃ before, pre = before ++ [lo]

/-- What is left to do in the string is as it reads. -/
def Does (str : Ptr) (p : Parser) (reading : Reading) : Prop :=
  (reading.Bounded → ∃ q, Ends (parseRound str) p reading.accepted q ∧
    ∀ b, isEnabled q.charset b = true ↔ isEnabled p.charset b = true ∨ reading.Enables b) ∧
  (¬reading.Bounded → Endless (parseRound str) p)

variable {q : Parser} {pre : List UInt8} {reading : Reading}

theorem Does.before (h : Reaches (parseRound str) p q) (hset : q.charset = p.charset) (hdoes : Does str q reading) :
    Does str p reading := by
  refine ⟨fun hbounded => ?_, fun hnot => (hdoes.2 hnot).before h⟩
  obtain ⟨u, hends, hu⟩ := hdoes.1 hbounded
  rw [hset] at hu
  exact ⟨u, hends.before h, hu⟩

theorem Stands.ne_zero (h : Stands str pre (c :: s) p) : c ≠ 0 := by
  rintro rfl
  exact h.bytes List.mem_cons_self

theorem Stands.round (h : Stands str pre (c :: s) p) : Next (parseRound str) p (parseByte c p) := by
  have hbyte : str[p.i]? = some c := by
    rw [h.string, h.index, List.getElem?_append_right (Nat.le_refl _), Nat.sub_self]
    rfl
  rw [Next, parseRound, if_neg (Bool.eq_false_iff.mp h.idle), hbyte]
  exact if_pos h.ne_zero

/-- The index goes on to the next byte. -/
theorem Stands.forth (h : Stands str pre (c :: s) p) (hindex : q.i = CharSet.forth p.i) (hidle : q.enabling = false) :
    Stands str (pre ++ [c]) s q := by
  have hlen : pre.length + (s.length + 2) ≤ 2 ^ 32 := by
    have hbound := h.bound
    rw [h.string, List.length_append, terminated, List.length_append] at hbound
    exact hbound
  refine ⟨?_, fun hmem => h.bytes (List.mem_cons_of_mem c hmem), h.bound, ?_, hidle⟩
  · rw [h.string, List.append_assoc]
    rfl
  · rw [hindex, CharSet.forth, h.index, Nat.mod_eq_of_lt (by omega), List.length_append, List.length_singleton]

theorem Stands.stay (h : Stands str pre s p) (hindex : q.i = p.i) (hidle : q.enabling = false) : Stands str pre s q :=
  ⟨h.string, h.bytes, h.bound, hindex.trans h.index, hidle⟩

theorem Stands.back (h : Stands str (pre ++ [c]) s p) (hc : c ≠ 0) (hindex : q.i = CharSet.back p.i)
    (hidle : q.enabling = false) : Stands str pre (c :: s) q := by
  have hlen : pre.length + (s.length + 2) ≤ 2 ^ 32 := by
    have hbound := h.bound
    rw [h.string, List.length_append, List.length_append, List.length_singleton, terminated,
      List.length_append] at hbound
    change pre.length + 1 + (s.length + 1) ≤ 2 ^ 32 at hbound
    omega
  refine ⟨?_, ?_, h.bound, ?_, hidle⟩
  · rw [h.string, List.append_assoc]
    rfl
  · rw [List.mem_cons, not_or]
    exact ⟨Ne.symm hc, h.bytes⟩
  · rw [hindex, CharSet.back, h.index, List.length_append, List.length_singleton]
    omega

/-- A backslash in front of the byte that begins or ends a range. -/
theorem Stands.escaped (h : Stands str pre (backslash :: s) p) (hstate : p.state = .start ∨ p.state = .ending)
    (hold : p.oldState ≠ .escape) :
    ∃ q, Reaches (parseRound str) p q ∧ Stands str (pre ++ [backslash]) s q ∧ q.state = p.state ∧
      q.oldState = .escape ∧ q.startPos = p.startPos ∧ q.charset = p.charset := by
  have hfirst : parseByte backslash p = { p with oldState := p.state, state := .escape } := by
    rcases hstate with hstate | hstate
    · simp only [parseByte, hstate, ne_eq, hold, not_false_eq_true, and_self, if_true]
    · simp only [parseByte, hstate, ne_eq, hold, not_false_eq_true, and_self, if_true]
  have hone := h.round
  rw [hfirst] at hone
  have hstands : Stands str pre (backslash :: s) { p with oldState := p.state, state := .escape } :=
    h.stay rfl h.idle
  exact ⟨_, .tail (.single hone) hstands.round, hstands.forth rfl h.idle, rfl, rfl, rfl, rfl⟩

/-- The byte that ends a range. -/
theorem Stands.last (h : Stands str pre (c :: s) p) (hstate : p.state = .ending)
    (hplain : c ≠ backslash ∨ p.oldState = .escape)
    (hrest : ∀ q, Stands str (pre ++ [c]) s q → Ready none (pre ++ [c]) q → Does str q reading) :
    Does str p (.range p.startPos c reading) := by
  have hnot : ¬(c = backslash ∧ p.oldState ≠ .escape) := by
    rw [not_and_or, not_not]
    exact hplain
  have hround : Next (parseRound str) p { p with endPos := c, j := p.startPos, enabling := true } := by
    simpa only [parseByte, hstate, if_neg hnot] using h.round
  refine ⟨fun hbounded => ?_, fun hnotbounded => ?_⟩
  · obtain ⟨q, hreach, hleft⟩ := enabling_ends str
      (p := { p with endPos := c, j := p.startPos, enabling := true }) rfl hbounded.1
    have hready : Ready none (pre ++ [c]) q := ⟨hleft.state, by rw [hleft.oldState]; decide⟩
    obtain ⟨u, hends, hu⟩ := (hrest q (h.forth hleft.index hleft.idle) hready).1 hbounded.2
    refine ⟨u, (hends.before hreach).before (.single hround), fun b => ?_⟩
    rw [hu b, hleft.set b, or_assoc]
    rfl
  · by_cases hlast : c = 255
    · exact .before (.single hround) (enabling_endless rfl hlast)
    · obtain ⟨q, hreach, hleft⟩ := enabling_ends str
        (p := { p with endPos := c, j := p.startPos, enabling := true }) rfl hlast
      have hready : Ready none (pre ++ [c]) q := ⟨hleft.state, by rw [hleft.oldState]; decide⟩
      have hrestnot : ¬reading.Bounded := fun hbounded => hnotbounded ⟨hlast, hbounded⟩
      have hendless := (hrest q (h.forth hleft.index hleft.idle) hready).2 hrestnot
      exact (hendless.before hreach).before (.single hround)

theorem Stands.begin (h : Stands str pre (c :: s) p) (hstate : p.state = .start)
    (hplain : c ≠ backslash ∨ p.oldState = .escape)
    (hrest : ∀ q, Stands str (pre ++ [c]) s q → Ready (some c) (pre ++ [c]) q → Does str q reading) :
    Does str p reading := by
  have hnot : ¬(c = backslash ∧ p.oldState ≠ .escape) := by
    rw [not_and_or, not_not]
    exact hplain
  have hround : Next (parseRound str) p
      { p with startPos := c, state := .dash, oldState := .start, i := CharSet.forth p.i } := by
    simpa only [parseByte, hstate, if_neg hnot] using h.round
  exact .before (.single hround) rfl (hrest _ (h.forth rfl h.idle) ⟨rfl, rfl, rfl, h.ne_zero, pre, rfl⟩)

/-- A hyphen behind the first byte of a range. -/
theorem Stands.hyphen (h : Stands str pre (CharSet.hyphen :: s) p) (hstate : p.state = .dash) :
    ∃ q, Reaches (parseRound str) p q ∧ Stands str (pre ++ [CharSet.hyphen]) s q ∧ q.state = .ending ∧
      q.oldState = .dash ∧ q.startPos = p.startPos ∧ q.charset = p.charset := by
  have hnot : ¬(CharSet.hyphen = backslash ∧ p.oldState ≠ .escape) := fun h => absurd h.1 (by decide)
  have hnext : Next (parseRound str) p { p with state := .ending, oldState := .dash, i := CharSet.forth p.i } := by
    simpa only [parseByte, hstate, if_neg hnot, if_true] using h.round
  exact ⟨_, .single hnext, h.forth rfl h.idle, rfl, rfl, rfl, rfl⟩

/-- Any other byte there is left to be read as the next one. -/
theorem Stands.again (h : Stands str pre (c :: s) p) (hstate : p.state = .dash) (hc : c ≠ CharSet.hyphen)
    (hold : p.oldState = .start) :
    ∃ old, old ≠ .escape ∧
      Next (parseRound str) p { p with state := .ending, oldState := old, i := CharSet.back p.i } := by
  by_cases hslash : c = backslash
  · refine ⟨.start, by decide, ?_⟩
    have hesc : c = backslash ∧ p.oldState ≠ .escape := ⟨hslash, by rw [hold]; decide⟩
    rw [← hold]
    simpa only [parseByte, hstate, if_pos hesc] using h.round
  · refine ⟨.dash, by decide, ?_⟩
    have hnot : ¬(c = backslash ∧ p.oldState ≠ .escape) := fun h => hslash h.1
    simpa only [parseByte, hstate, if_neg hnot, if_neg hc] using h.round

theorem Stands.over (h : Stands str pre [] p) :
    parseRound str p = if p.state = .dash then
      .ok (some true, { p with charset := enable p.charset p.startPos, state := .start })
    else .ok (some (p.state == .start), p) := by
  have hbyte : str[p.i]? = some 0 := by
    rw [h.string, h.index, List.getElem?_append_right (Nat.le_refl _), Nat.sub_self]
    rfl
  rw [parseRound, if_neg (Bool.eq_false_iff.mp h.idle), hbyte]
  rfl

theorem Does.over (h : Stands str pre [] p) (hstate : p.state ≠ .dash) (haccepted : reading.accepted = (p.state == .start))
    (hnone : ∀ b, ¬reading.Enables b) (hbounded : reading.Bounded) : Does str p reading := by
  refine ⟨fun _ => ⟨p, ?_, fun b => ?_⟩, fun hnot => (hnot hbounded).elim⟩
  · rw [haccepted]
    exact ends_now (by rw [h.over, if_neg hstate])
  · rw [or_iff_left (hnone b)]

/-- A byte that another one than a hyphen is behind is read again. -/
theorem Stands.reread (h : Stands str pre (c :: s) p) (hready : Ready (some lo) pre p) (hc : c ≠ CharSet.hyphen) :
    ∃ before q, Reaches (parseRound str) p q ∧ Stands str before (lo :: c :: s) q ∧ q.state = .ending ∧
      q.oldState ≠ .escape ∧ q.startPos = lo ∧ q.charset = p.charset := by
  obtain ⟨hstate, hold, hstart, hlo, before, rfl⟩ := hready
  obtain ⟨old, hescape, hnext⟩ := h.again hstate hc hold
  exact ⟨before, _, .single hnext, h.back hlo rfl h.idle, rfl, hescape, hstart, rfl⟩

theorem does_read (mode : Option UInt8) (s : List UInt8) :
    ∀ pre p, Stands str pre s p → Ready mode pre p → Does str p (read mode s) := by
  induction mode, s using read.induct with
  | case1 =>
      intro pre p h hready
      rw [read_end]
      exact .over h (by rw [hready.1]; decide) (by rw [hready.1]; rfl) (fun _ => id) trivial
  | case2 =>
      intro pre p h hready
      obtain ⟨q, hreach, hend, hstate, -, -, hset⟩ := h.escaped (.inl hready.1) hready.2
      rw [read_backslash]
      rw [hready.1] at hstate
      exact .before hreach hset (.over hend (by rw [hstate]; decide) (by rw [hstate]; rfl) (fun _ => id) trivial)
  | case3 d s ih =>
      intro pre p h hready
      obtain ⟨q, hreach, hnext, hstate, hold, -, hset⟩ := h.escaped (.inl hready.1) hready.2
      rw [read_escaped]
      exact .before hreach hset (hnext.begin (hstate.trans hready.1) (.inr hold) (ih _))
  | case4 c s hc ih =>
      intro pre p h hready
      rw [read_plain hc]
      exact h.begin hready.1 (.inl hc) (ih _)
  | case5 lo =>
      intro pre p h hready
      rw [read_last]
      refine ⟨fun _ => ⟨_, ends_now (by rw [h.over, if_pos hready.1]; rfl), fun b => ?_⟩,
        fun hnot => (hnot trivial).elim⟩
      rw [isEnabled_enable, hready.2.2.1, Bool.or_eq_true, beq_iff_eq, or_comm]
      exact or_congr_right eq_comm
  | case6 lo =>
      intro pre p h hready
      obtain ⟨q, hreach, hend, hstate, -, -, hset⟩ := h.hyphen hready.1
      rw [read_hyphen]
      exact .before hreach hset (.over hend (by rw [hstate]; decide) (by rw [hstate]; rfl) (fun _ => id) trivial)
  | case7 lo =>
      intro pre p h hready
      obtain ⟨q, hreach, hnext, hstate, hold, -, hset⟩ := h.hyphen hready.1
      obtain ⟨u, hreach', hend, hstate', -, -, hset'⟩ := hnext.escaped (.inr hstate) (by rw [hold]; decide)
      rw [read_hyphen_backslash]
      rw [hstate] at hstate'
      refine .before (hreach.trans hreach') (hset'.trans hset) ?_
      exact .over hend (by rw [hstate']; decide) (by rw [hstate']; rfl) (fun _ => id) trivial
  | case8 lo z s ih =>
      intro pre p h hready
      obtain ⟨q, hreach, hnext, hstate, hold, hstart, hset⟩ := h.hyphen hready.1
      obtain ⟨u, hreach', hlast, hstate', hold', hstart', hset'⟩ :=
        hnext.escaped (.inr hstate) (by rw [hold]; decide)
      rw [read_range_escaped, ← hready.2.2.1, ← hstart, ← hstart']
      exact .before (hreach.trans hreach') (hset'.trans hset) (hlast.last (hstate'.trans hstate) (.inr hold') (ih _))
  | case9 lo y s hy ih =>
      intro pre p h hready
      obtain ⟨q, hreach, hnext, hstate, -, hstart, hset⟩ := h.hyphen hready.1
      rw [read_range hy, ← hready.2.2.1, ← hstart]
      exact .before hreach hset (hnext.last hstate (.inl hy) (ih _))
  | case10 x s hx ih =>
      intro pre p h hready
      obtain ⟨before, q, hreach, hback, hstate, hold, hstart, hset⟩ := h.reread hready hx
      obtain ⟨u, hreach', hlast, hstate', hold', hstart', hset'⟩ := hback.escaped (.inr hstate) hold
      rw [read_literal hx]
      have hdoes := hlast.last (hstate'.trans hstate) (.inr hold') (ih _)
      rw [hstart', hstart] at hdoes
      exact .before (hreach.trans hreach') (hset'.trans hset) hdoes
  | case11 lo x s hx hlo ih =>
      intro pre p h hready
      obtain ⟨before, q, hreach, hback, hstate, -, hstart, hset⟩ := h.reread hready hx
      rw [read_single hx hlo]
      have hdoes := hback.last hstate (.inl hlo) (ih _)
      rw [hstart] at hdoes
      exact .before hreach hset hdoes

end Libzorpll.CharSetRounds
