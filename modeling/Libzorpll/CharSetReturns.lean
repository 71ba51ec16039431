import Libzorpll.CharSetRounds

/-! When z_charset_parse returns. -/

namespace Libzorpll.CharSetReturns

open CString Rounds CharSet CharSetRounds

variable {p q : Parser} {s : List UInt8}

/-! The index -/

/-- What a round does to the index. -/
inductive Moves (p q : Parser) : Prop
  | stay (hindex : q.i = p.i) (hdash : q.state ≠ .dash) (hescape : q.state = .escape → q.oldState ≠ .escape)
  | forth (hindex : q.i = forth p.i) (hidle : q.enabling = false)
      (hescape : q.state = .escape → p.state = .escape ∧ p.oldState = .escape)
  | back (hdash : p.state = .dash) (hindex : q.i = back p.i) (hidle : q.enabling = false)
      (hending : q.state = .ending)

theorem parseByte_moves (c : UInt8) (hidle : p.enabling = false) : Moves p (parseByte c p) := by
  cases hstate : p.state with
  | start =>
      simp only [parseByte, hstate]
      split
      · exact .stay rfl ParseState.noConfusion (fun _ => ParseState.noConfusion)
      · exact .forth rfl hidle ParseState.noConfusion
  | dash =>
      simp only [parseByte, hstate]
      split
      · exact .back hstate rfl hidle rfl
      · split
        · exact .forth rfl hidle ParseState.noConfusion
        · exact .back hstate rfl hidle rfl
  | ending =>
      simp only [parseByte, hstate]
      split
      · exact .stay rfl ParseState.noConfusion (fun _ => ParseState.noConfusion)
      · exact .stay rfl ParseState.noConfusion ParseState.noConfusion
  | escape =>
      simp only [parseByte, hstate]
      exact .forth rfl hidle fun hold => ⟨hstate, hold⟩

/-- Where the index is in a string of this length. -/
structure Inside (n : Nat) (p : Parser) : Prop where
  index : p.i ≤ n
  dash : p.state = .dash → 0 < p.i
  escape : p.state = .escape → p.i < n ∧ p.oldState ≠ .escape
  enabling : p.enabling = true → p.i < n

/-- It moves by at most one byte. -/
structure Close (p q : Parser) : Prop where
  up : q.i ≤ p.i + 1
  down : p.i ≤ q.i + 1

theorem Moves.inside {n : Nat} (hmoves : Moves p q) (hn : n < 2 ^ 32) (h : Inside n p) (hlt : p.i < n) :
    Inside n q ∧ Close p q := by
  cases hmoves with
  | stay hindex hdash hescape =>
      refine ⟨⟨?_, fun hstate => (hdash hstate).elim, fun hstate => ⟨?_, hescape hstate⟩, ?_⟩, ?_, ?_⟩
      all_goals omega
  | forth hindex hidle hescape =>
      have hforth : q.i = p.i + 1 := hindex.trans (Nat.mod_eq_of_lt (by omega))
      refine ⟨⟨?_, ?_, fun hstate => ?_, fun hon => ?_⟩, ?_, ?_⟩
      · omega
      · omega
      · obtain ⟨hwas, hold⟩ := hescape hstate
        exact ((h.escape hwas).2 hold).elim
      · exact absurd hon (Bool.eq_false_iff.mp hidle)
      · omega
      · omega
  | back hdash hindex hidle hending =>
      have hpos := h.dash hdash
      have hback : q.i = p.i - 1 := by
        rw [hindex, CharSet.back]
        omega
      refine ⟨⟨?_, ?_, ?_, fun hon => ?_⟩, ?_, ?_⟩
      · omega
      · rw [hending]
        exact ParseState.noConfusion
      · rw [hending]
        exact ParseState.noConfusion
      · exact absurd hon (Bool.eq_false_iff.mp hidle)
      · omega
      · omega

theorem inside_next (hn : s.length < 2 ^ 32) (h : Inside s.length p) (hnext : Next (parseRound (terminated s)) p q) :
    Inside s.length q ∧ Close p q := by
  rw [Next, parseRound] at hnext
  split at hnext
  · rename_i henabling
    have hlt := h.enabling henabling
    split at hnext
    · cases hnext
      exact ⟨⟨h.index, h.dash, h.escape, h.enabling⟩, Nat.le_succ _, Nat.le_succ _⟩
    · cases hnext
      refine Moves.inside ?_ hn h hlt
      exact .forth rfl rfl ParseState.noConfusion
  · rename_i hidle
    rw [Bool.not_eq_true] at hidle
    split at hnext
    · cases hnext
    · rename_i c hbyte
      split at hnext
      · rename_i hc
        have hlt : p.i < s.length := by
          refine Nat.lt_of_le_of_ne h.index fun heq => hc ?_
          rw [heq, terminated, List.getElem?_append_right (Nat.le_refl _), Nat.sub_self] at hbyte
          exact (Option.some.inj hbyte).symm
        cases hnext
        exact (parseByte_moves c hidle).inside hn h hlt
      · split at hnext
        · cases hnext
        · cases hnext

/-- In a string that a guint cannot count the bytes of, the NUL is never
found. -/
theorem endless_of_long (hs : 0 ∉ s) (hlong : 2 ^ 32 ≤ s.length) (hp : p.i < 2 ^ 32) :
    Endless (parseRound (terminated s)) p := by
  refine @endless_induct _ _ _ _ _ (fun q => q.i < 2 ^ 32) hp fun q hq => ?_
  have hforth : forth q.i < 2 ^ 32 := Nat.mod_lt _ (by decide)
  have hback : back q.i < 2 ^ 32 := Nat.mod_lt _ (by decide)
  by_cases henabling : q.enabling = true
  · by_cases hle : q.j ≤ q.endPos
    · exact ⟨{ q with charset := enable q.charset q.j, j := q.j + 1 },
        by rw [Next, parseRound, if_pos henabling, if_pos hle], hq⟩
    · exact ⟨{ q with i := forth q.i, state := .start, oldState := .ending, enabling := false },
        by rw [Next, parseRound, if_pos henabling, if_neg hle], hforth⟩
  · have hlt : q.i < s.length := by omega
    have hbyte : (terminated s)[q.i]? = some s[q.i] := by
      rw [terminated, List.getElem?_append_left hlt, List.getElem?_eq_getElem hlt]
    have hne : s[q.i] ≠ 0 := fun hzero => hs (hzero ▸ List.getElem_mem hlt)
    refine ⟨parseByte s[q.i] q, ?_, ?_⟩
    · rw [Next, parseRound, if_neg henabling, hbyte]
      exact if_pos hne
    · cases parseByte_moves s[q.i] (Bool.eq_false_iff.mpr henabling) with
      | stay hindex => omega
      | forth hindex => omega
      | back hdash hindex => omega

/-! What z_charset_parse does -/

/-- The state in which the call begins. -/
def initial (self : ZCharSet) : Parser := { charset := self }

variable {self : ZCharSet}

theorem initial_stands (hs : 0 ∉ s) (hlen : s.length < 2 ^ 32) : Stands (terminated s) [] s (initial self) := by
  refine ⟨rfl, hs, ?_, rfl, rfl⟩
  rw [terminated, List.length_append]
  exact hlen

theorem initial_does (self : ZCharSet) (hs : 0 ∉ s) (hlen : s.length < 2 ^ 32) :
    Does (terminated s) (initial self) (read none s) :=
  does_read none s [] _ (initial_stands hs hlen) ⟨rfl, ParseState.noConfusion⟩

theorem parse_ok_iff {r : Bool} {set : ZCharSet} :
    (∃ fuel, zCharsetParse fuel self (terminated s) = .ok (r, set)) ↔
      ∃ q, Ends (parseRound (terminated s)) (initial self) r q ∧ q.charset = set := by
  simp only [ends_iff_loop Halt.endless]
  constructor
  · rintro ⟨fuel, h⟩
    obtain ⟨⟨r', q⟩, hloop, heq⟩ := Run.map_ok h
    cases heq
    exact ⟨q, ⟨fuel, hloop⟩, rfl⟩
  · rintro ⟨q, ⟨fuel, hloop⟩, rfl⟩
    refine ⟨fuel, ?_⟩
    rw [zCharsetParse]
    change (Run.loop (parseRound (terminated s)) .endless fuel (initial self)).map _ = _
    rw [hloop]
    rfl

/-- The call returns, and until then the index stays in the string and moves
by one byte at most. -/
def Terminates (self : ZCharSet) (s : List UInt8) : Prop :=
  (∃ fuel answer, zCharsetParse fuel self (terminated s) = .ok answer) ∧
    ∀ p, Reaches (parseRound (terminated s)) (initial self) p →
      p.i ≤ s.length ∧ ∀ q, Next (parseRound (terminated s)) p q → Close p q

theorem initial_inside (hlen : s.length < 2 ^ 32) (h : Reaches (parseRound (terminated s)) (initial self) p) :
    Inside s.length p := by
  have hstart : Inside s.length (initial self) :=
    ⟨Nat.zero_le _, ParseState.noConfusion, ParseState.noConfusion, Bool.noConfusion⟩
  exact reaches_induct hstart (fun t u ht hnext => (inside_next hlen ht hnext).1) h

theorem not_ok_of_endless (h : Endless (parseRound (terminated s)) (initial self)) :
    ¬∃ fuel answer, zCharsetParse fuel self (terminated s) = .ok answer := by
  rintro ⟨fuel, ⟨r, set⟩, hok⟩
  obtain ⟨q, hends, -⟩ := parse_ok_iff.mp ⟨fuel, hok⟩
  exact not_ends_of_endless h hends

theorem returns_only (hs : 0 ∉ s) (h : ∃ fuel answer, zCharsetParse fuel self (terminated s) = .ok answer) :
    s.length < 2 ^ 32 ∧ (read none s).Bounded := by
  by_contra hnot
  refine not_ok_of_endless ?_ h
  by_cases hlen : s.length < 2 ^ 32
  · exact (initial_does _ hs hlen).2 fun hbounded => hnot ⟨hlen, hbounded⟩
  · exact endless_of_long hs (Nat.not_lt.mp hlen) (Nat.two_pow_pos 32)

/-- z_charset_parse comes to the end of a string that a guint can count the
bytes of and of which no range goes up to the last byte there is. -/
theorem parse_terminates_iff (self : ZCharSet) (s : List UInt8) (hs : 0 ∉ s) :
    Terminates self s ↔ s.length < 2 ^ 32 ∧ (read none s).Bounded := by
  constructor
  · exact fun h => returns_only hs h.1
  · rintro ⟨hlen, hbounded⟩
    obtain ⟨q, hends, -⟩ := (initial_does self hs hlen).1 hbounded
    obtain ⟨fuel, hok⟩ := parse_ok_iff.mpr ⟨q, hends, rfl⟩
    refine ⟨⟨fuel, _, hok⟩, fun p hreach => ?_⟩
    have hinside := initial_inside hlen hreach
    exact ⟨hinside.index, fun u hnext => (inside_next hlen hinside hnext).2⟩

theorem parse_terminates_iff_letters :
    (Terminates empty [97, hyphen, 122] ↔
      [97, hyphen, 122].length < 2 ^ 32 ∧ (read none [97, hyphen, 122]).Bounded) ∧
    (read none [97, hyphen, 122]).Bounded := by
  refine ⟨parse_terminates_iff empty [97, hyphen, 122] (by decide), ?_⟩
  rw [read_plain (by decide), read_range (by decide), read_end]
  exact ⟨by decide, trivial⟩

/-- A range up to byte 255. -/
theorem parse_not_terminates : ¬∀ self s, 0 ∉ s → Terminates self s := by
  intro h
  have hs : (0 : UInt8) ∉ [97, hyphen, 255] := by decide
  have hreads : ¬(read none [97, hyphen, 255]).Bounded := by
    rw [read_plain (by decide), read_range (by decide)]
    exact fun hbounded => hbounded.1 rfl
  exact not_ok_of_endless ((initial_does _ hs (by decide)).2 hreads) (h empty _ hs).1

end Libzorpll.CharSetReturns
