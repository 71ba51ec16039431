import Libzorpll.LineReader

namespace Libzorpll.LineBuffer

open Region ChildStream StreamLine LineReader

structure Wf (s : ZStreamLine) : Prop where
  pos_le : s.pos ≤ s.endPos
  end_le : s.endPos ≤ s.bufsize
  length : s.buffer.length = s.bufsize
  lt : s.bufsize < 2 ^ 64

def pending (s : ZStreamLine) : List UInt8 := window s.buffer s.pos s.endPos

def prevCr (s : ZStreamLine) : Bool := decide (0 < s.pos ∧ s.buffer[s.pos - 1]? = some 13)

def view (s : ZStreamLine) : Reader :=
  ⟨pending s, prevCr s, s.ignoreTillEol, s.eof, s.error⟩

/-- What no line fetch changes after its start. -/
def frame (s : ZStreamLine) : LineFlags × Nat × Bool := (s.flags, s.bufsize, s.lineAvailSet)

/-- A returned slice and the bytes it stands for. A buffer that was handed out
whole is marked by `endPos` being zero. -/
structure Shows (s : ZStreamLine) (a : Slice) (d : Delivered) : Prop where
  length : a.length = d.length
  whole : s.endPos = 0 → a.line = 0 ∧ s.buffer = d.held ∧ d.length = d.held.length
  held : s.endPos ≠ 0 → a.line = s.oldpos ∧ s.oldpos ≤ s.pos ∧
    window s.buffer s.oldpos s.endPos = d.held

def Points (s : ZStreamLine) : LineResult Slice → LineResult Delivered → Prop
  | .normal a, .normal d => Shows s a d ∧ (s.endPos = 0 → s.flags.truncate = true)
  | .again (some a), .again (some d) => Shows s a d
  | .again none, .again none => True
  | .eof, .eof => True
  | .error e, .error e' => e = e'
  | _, _ => False

theorem Points.normal {s : ZStreamLine} {r : LineResult Slice} {d : Delivered}
    (h : Points s r (.normal d)) : ∃ a, r = .normal a := by
  cases r with
  | normal a => exact ⟨a, rfl⟩
  | again o => cases o <;> cases h
  | eof | error => cases h

theorem Points.again {s : ZStreamLine} {r : LineResult Slice} {o : Option Delivered}
    (h : Points s r (.again o)) : ∃ b, r = .again b := by
  cases r with
  | again b => exact ⟨b, rfl⟩
  | normal | eof | error => cases o <;> cases h

theorem Points.error {s : ZStreamLine} {r : LineResult Slice} {e : LineError}
    (h : Points s r (.error e)) : r = .error e := by
  cases r with
  | error e' => rw [show e' = e from h]
  | again o => cases o <;> cases h
  | normal | eof => cases h

/-- What holds between a call's start and its return. -/
structure Kept (s t : ZStreamLine) (r : LineResult Slice) (d : LineResult Delivered) : Prop where
  points : Points t r d
  wf : Wf t
  frame : frame t = frame s

/-- What holds around a look into the buffer: an AGAIN leaves the pending
bytes at its start. -/
structure Scanned (s t : ZStreamLine) (r : LineResult Slice) (d : LineResult Delivered) : Prop
    extends Kept s t r d where
  compact : ∀ o, d = .again o → t.pos = 0
  endPos : t.eof = true → t.endPos ≠ 0

/-- The same for the rounds of the loop, which go on with the pending bytes at
the start of the buffer. -/
structure KeptOpt (s t : ZStreamLine) (o : Option (LineResult Slice))
    (p : Option (LineResult Delivered)) : Prop where
  points : ∀ r, o = some r → ∃ d, p = some d ∧ Points t r d
  more : o = none → p = none ∧ t.pos = 0
  wf : Wf t
  frame : frame t = frame s

theorem Kept.some {s t : ZStreamLine} {r : LineResult Slice} {d : LineResult Delivered}
    (h : Kept s t r d) : KeptOpt s t (.some r) (.some d) := by
  refine ⟨?_, fun hnone => (by cases hnone), h.wf, h.frame⟩
  intro r' hr
  cases hr
  exact ⟨d, rfl, h.points⟩

theorem pending_length {s : ZStreamLine} (h : Wf s) : (pending s).length = s.endPos - s.pos :=
  window_length _ (by rw [h.length]; exact h.end_le)

theorem eolByte_ne_cr (f : LineFlags) : eolByte f ≠ 13 := by
  rw [eolByte]
  split <;> decide

theorem prevCr_zero {s : ZStreamLine} (h : s.pos = 0) : prevCr s = false := by
  simp [prevCr, h]

theorem nulRefused_eq (s : ZStreamLine) {a n : Nat} {raw : List UInt8}
    (hb : a + n ≤ s.buffer.length) (hraw : window s.buffer a (a + n) = raw) :
    nulRefused s a n = .ok (!nulAllowed s.flags raw) := by
  cases hn : s.flags.eolNul with
  | true => simp [nulRefused, nulAllowed, hn]
  | false =>
      obtain ⟨i, hi, hmem⟩ := find_isSome (x := 0) (Nat.le_add_right a n) hb
      rw [Nat.add_sub_cancel_left] at hi
      rw [hraw] at hmem
      by_cases h0 : (0 : UInt8) ∈ raw
      · simp [nulRefused, nulAllowed, hn, hi, Except.map, h0, hmem.mpr h0]
      · have hnone : i.isSome = false := by simpa [h0] using hmem
        simp [nulRefused, nulAllowed, hn, hi, Except.map, h0, hnone]

theorem precededByCr_eq {s : ZStreamLine} (h : Wf s) {body rest : List UInt8} {eol : UInt8}
    (hp : pending s = body ++ eol :: rest) :
    precededByCr s (s.pos + (body.length + 1)) = .ok (crBefore (prevCr s) body) := by
  have hlen := congrArg List.length hp
  rw [pending_length h, List.length_append, List.length_cons] at hlen
  have hend := h.end_le
  have hbuf := h.length
  by_cases hbody : body = []
  · subst hbody
    rw [precededByCr, crBefore, if_pos rfl]
    by_cases hpos : 0 < s.pos
    · have hidx : s.pos - 1 < s.buffer.length := by omega
      rw [if_pos (by simp only [List.length_nil]; omega),
        show s.pos + (([] : List UInt8).length + 1) - 2 = s.pos - 1 by
          simp only [List.length_nil]; omega, read_one hidx]
      simp [Except.map, prevCr, hpos, hidx, beq_eq_decide]
    · rw [if_neg (by simp only [List.length_nil]; omega)]
      simp [prevCr, hpos]
  · have hpos : 0 < body.length := List.length_pos_iff.mpr hbody
    have hidx : s.pos + (body.length - 1) < s.buffer.length := by omega
    have hlast : s.buffer[s.pos + (body.length - 1)]? = body.getLast? := by
      rw [← window_getElem (b := s.endPos) (by omega)]
      change (pending s)[body.length - 1]? = _
      rw [hp, List.getElem?_append_left (by omega), List.getLast?_eq_getElem?]
    rw [precededByCr, crBefore, if_neg hbody, if_pos (by omega),
      show s.pos + (body.length + 1) - 2 = s.pos + (body.length - 1) by omega, read_one hidx]
    rw [List.getElem?_eq_getElem hidx] at hlast
    simp [Except.map, endsCr, ← hlast]

/-- A line that is complete in the buffer. -/
theorem takeLine_eol {s : ZStreamLine} (h : Wf s) (heof : s.eof = false) {body rest : List UInt8}
    (hp : pending s = body ++ eolByte s.flags :: rest) (hbody : eolByte s.flags ∉ body) :
    ∃ r d t, takeLine s (s.pos + (body.length + 1)) = .ok (r, t) ∧
      FromBuf s.flags (view s) d (view t) ∧ Kept s t r d := by
  have hlen := congrArg List.length hp
  rw [pending_length h, List.length_append, List.length_cons] at hlen
  have hle := h.end_le
  have hbuf := h.length
  have hsplit : window s.buffer s.pos s.endPos = (body ++ [eolByte s.flags]) ++ rest := by
    simpa [pending] using hp
  obtain ⟨hraw, hrest⟩ := window_split h.pos_le (by omega) hsplit
  rw [List.length_append, List.length_singleton] at hraw hrest
  let t : ZStreamLine := { s with oldpos := s.pos, pos := s.pos + (body.length + 1) }
  have hcr : precededByCr t (s.pos + (body.length + 1)) = .ok (crBefore (prevCr s) body) :=
    precededByCr_eq h hp
  have hprev : prevCr t = false := by
    have hbyte : s.buffer[s.pos + body.length]? = some (eolByte s.flags) := by
      rw [← window_getElem (b := s.endPos) (by omega)]
      change (pending s)[body.length]? = _
      simp [hp]
    simp [prevCr, t, hbyte, eolByte_ne_cr]
  have hview : view t = { view s with pending := rest, afterCr := false } := by
    simp only [view, hprev]
    rw [← hrest]
    rfl
  have hwf : Wf t := ⟨by simp only [t]; omega, hle, hbuf, h.lt⟩
  have hend : t.endPos ≠ 0 := by
    change s.endPos ≠ 0
    omega
  have hshow (n : Nat) : Points t (.normal ⟨s.pos, n⟩) (.normal ⟨pending s, n⟩) :=
    ⟨⟨rfl, fun hzero => absurd hzero hend, fun _ => ⟨rfl, by simp only [t]; omega, rfl⟩⟩,
      fun hzero => absurd hzero hend⟩
  have hnul : nulRefused t s.pos (body.length + 1) =
      .ok (!nulAllowed s.flags (body ++ [eolByte s.flags])) := nulRefused_eq t (by simp only [t]; omega) hraw
  have hsub : gsizeSub (s.pos + (body.length + 1)) s.pos = body.length + 1 := by
    rw [gsizeSub_le (by omega)]; omega
  have hread : read s.buffer s.pos (body.length + 1) = .ok (body ++ [eolByte s.flags]) := by
    rw [read_eq (by omega), hraw]
  have hreadBody : read s.buffer s.pos body.length = .ok body := by
    obtain ⟨hw, -⟩ := window_split (Nat.le_add_right s.pos _) (by omega) hraw
    rw [read_eq (by omega), hw]
  have hrel (d : LineResult Delivered) (hd : FromBuf s.flags (view s) d
      { view s with pending := rest, afterCr := false }) : FromBuf s.flags (view s) d (view t) := by
    rwa [hview]
  have hrun : takeLine s (s.pos + (body.length + 1)) =
      if nulAllowed s.flags (body ++ [eolByte s.flags]) = false then
        .ok (.error (.embeddedNul (body ++ [eolByte s.flags])), t)
      else (lineLength s.flags (crBefore (prevCr s) body) (body.length + 1)).elim
        (.ok (.error (.badCrlf body), t)) (fun n => .ok (.normal ⟨s.pos, n⟩, t)) := by
    simp only [takeLine, hsub, bind, Except.bind, pure, Except.pure]
    rw [show nulRefused _ s.pos (body.length + 1) = _ from hnul]
    cases nulAllowed s.flags (body ++ [eolByte s.flags]) with
    | false => simp [hread, t]
    | true =>
        rw [show precededByCr _ (s.pos + (body.length + 1)) = _ from hcr]
        cases hl : lineLength s.flags (crBefore (prevCr s) body) (body.length + 1) <;>
          simp [heof, hl, hreadBody, t]
  cases hallow : nulAllowed s.flags (body ++ [eolByte s.flags]) with
  | false =>
      refine ⟨.error (.embeddedNul (body ++ [eolByte s.flags])), _, t, ?_,
        hrel _ (.embeddedNul heof hp hbody hallow), rfl, hwf, rfl⟩
      rw [hrun, if_pos hallow]
  | true =>
      rw [if_neg (by simp [hallow])] at hrun
      cases hl : lineLength s.flags (crBefore (prevCr s) body) (body.length + 1) with
      | some n =>
          refine ⟨.normal ⟨s.pos, n⟩, _, t, ?_, hrel _ (.line heof hp hbody hallow hl), hshow n,
            hwf, rfl⟩
          rw [hrun, hl, Option.elim_some]
      | none =>
          refine ⟨.error (.badCrlf body), _, t, ?_, hrel _ (.badCrlf heof hp hbody hallow hl), rfl,
            hwf, rfl⟩
          rw [hrun, hl, Option.elim_none]

/-- At end of file all of the buffer is the line, which is empty after a cut
line was dropped. -/
theorem takeLine_eof {s : ZStreamLine} (h : Wf s) (heof : s.eof = true) (hend : s.endPos ≠ 0) :
    ∃ r d t, takeLine s s.endPos = .ok (r, t) ∧
      FromBuf s.flags (view s) d (view t) ∧ Kept s t r d ∧ t.endPos = s.endPos := by
  have hle := h.end_le
  have hbuf := h.length
  have hpos := h.pos_le
  let t : ZStreamLine := { s with oldpos := s.pos, pos := s.pos + (s.endPos - s.pos) }
  have hnul : nulRefused t s.pos (s.endPos - s.pos) = .ok (!nulAllowed s.flags (pending s)) :=
    nulRefused_eq t (by simp only [t]; omega) (by rw [Nat.add_sub_cancel' hpos]; rfl)
  have hread : read s.buffer s.pos (s.endPos - s.pos) = .ok (pending s) :=
    read_window hpos (by omega)
  have htpos : t.pos = s.endPos := Nat.add_sub_cancel' hpos
  have hwf : Wf t := ⟨Nat.le_of_eq htpos, hle, hbuf, h.lt⟩
  have hview : view t = { view s with pending := [], afterCr := prevCr t } := by
    have hnone : pending t = [] := by
      rw [pending, htpos]
      exact window_self _ _
    simp only [view, hnone]
    rfl
  have hrun : takeLine s s.endPos =
      if nulAllowed s.flags (pending s) = false then .ok (.error (.embeddedNul (pending s)), t)
      else .ok (.normal ⟨s.pos, s.endPos - s.pos⟩, t) := by
    simp only [takeLine, gsizeSub_le hpos, bind, Except.bind, pure, Except.pure]
    rw [show nulRefused _ s.pos (s.endPos - s.pos) = _ from hnul]
    cases nulAllowed s.flags (pending s) with
    | false => simp [hread, t]
    | true => simp [heof, t]
  cases hallow : nulAllowed s.flags (pending s) with
  | false =>
      refine ⟨.error (.embeddedNul (pending s)), .error (.embeddedNul (pending s)), t, ?_, ?_,
        ⟨rfl, hwf, rfl⟩, rfl⟩
      · rw [hrun, if_pos hallow]
      · rw [hview]
        exact .lastNul _ heof hallow
  | true =>
      refine ⟨.normal ⟨s.pos, s.endPos - s.pos⟩, .normal ⟨pending s, (pending s).length⟩, t, ?_, ?_,
        ⟨⟨⟨(pending_length h).symm, fun hzero => absurd hzero hend, fun _ => ⟨rfl, ?_, rfl⟩⟩,
          fun hzero => absurd hzero hend⟩, hwf, rfl⟩, rfl⟩
      · rw [hrun, if_neg (by simp [hallow])]
      · rw [hview]
        exact .last _ heof hallow
      · rw [htpos]
        exact hpos

theorem getFromBuf_refines {s : ZStreamLine} (h : Wf s) (hend : s.eof = true → s.endPos ≠ 0) :
    ∃ r d t, getFromBuf s = .ok (r, t) ∧ FromBuf s.flags (view s) d (view t) ∧
      Scanned s t r d := by
  have hle := h.end_le
  have hbuf := h.length
  have hpos := h.pos_le
  cases heof : s.eof with
  | true =>
      obtain ⟨i, hi, -⟩ := find_isSome (m := s.buffer) (x := eolByte s.flags) hpos (by omega)
      obtain ⟨r, d, t, hrun, hrel, hkept, hsame⟩ := takeLine_eof h heof (hend heof)
      refine ⟨r, d, t, ?_, hrel, hkept, ?_, ?_⟩
      · simp only [getFromBuf, gsizeSub_le hpos, hi, heof, bind, Except.bind, ↓reduceIte, hrun]
      · rintro o rfl
        exact absurd (heof.symm.trans hrel.again_inv.2.1) (by simp)
      · exact fun _ => hsame ▸ hend heof
  | false =>
      have hnot {d : LineResult Delivered} {t : ZStreamLine}
          (hrel : FromBuf s.flags (view s) d (view t)) : t.eof = true → t.endPos ≠ 0 :=
        fun ht => absurd (ht.symm.trans (hrel.eof_eq.trans heof)) (by simp)
      by_cases hmem : eolByte s.flags ∈ pending s
      · obtain ⟨body, rest, hp, hbody⟩ := List.eq_append_cons_of_mem hmem
        have hi := find_some hpos (by omega) hp hbody
        obtain ⟨r, d, t, hrun, hrel, hkept⟩ := takeLine_eol h heof hp hbody
        refine ⟨r, d, t, ?_, hrel, hkept, ?_, hnot hrel⟩
        · simp only [getFromBuf, gsizeSub_le hpos, hi, heof, bind, Except.bind, Bool.false_eq_true,
            ↓reduceIte, Option.map_some]
          exact hrun
        · rintro o rfl
          exact absurd hmem hrel.again_inv.2.2.1
      · have hi := find_none hpos (by omega) hmem
        have hrun : getFromBuf s = if s.pos ≠ 0 then
            (move s.buffer 0 s.pos (s.endPos - s.pos)).map (fun buffer => (.again none,
              { s with buffer := buffer, endPos := s.endPos - s.pos, pos := 0, oldpos := 0 }))
            else .ok (.again none, s) := by
          simp only [getFromBuf, gsizeSub_le hpos, hi, heof, bind, Except.bind, pure, Except.pure,
            Bool.false_eq_true, ↓reduceIte, Option.map_none]
          rfl
        have hrel : FromBuf s.flags (view s) (.again none) { view s with afterCr := false } :=
          .more heof hmem
        by_cases hzero : s.pos = 0
        · have hview : { view s with afterCr := false } = view s := by
            simp [view, prevCr_zero hzero]
          rw [hview] at hrel
          refine ⟨.again none, .again none, s, ?_, hrel, ⟨trivial, h, rfl⟩, fun _ _ => hzero,
            hnot hrel⟩
          rw [hrun, if_neg (by simp [hzero])]
        · have hlen : (window s.buffer s.pos s.endPos).length = s.endPos - s.pos :=
            pending_length h
          have hmove : move s.buffer 0 s.pos (s.endPos - s.pos) =
              .ok (put s.buffer 0 (window s.buffer s.pos s.endPos)) := by
            rw [move_eq (by omega) (by omega), Nat.add_sub_cancel' hpos]
          rw [hmove, if_pos hzero] at hrun
          have hsame : window (put s.buffer 0 (window s.buffer s.pos s.endPos)) 0
              (0 + (window s.buffer s.pos s.endPos).length) = _ := window_put_same (by omega)
          rw [Nat.zero_add, hlen] at hsame
          have hlength : (put s.buffer 0 (window s.buffer s.pos s.endPos)).length = s.bufsize := by
            rw [← hbuf]
            exact put_length (by omega)
          refine ⟨.again none, .again none, _, hrun, ?_,
            ⟨trivial, ⟨Nat.zero_le _, ?_, hlength, h.lt⟩, rfl⟩, fun _ _ => rfl, ?_⟩
          · simpa [view, pending, prevCr, hsame] using hrel
          · simp only; omega
          · exact fun ht => absurd (heof.symm.trans ht) (by simp)

theorem maybeAnotherLine_refines {s : ZStreamLine} (h : Wf s)
    (hend : s.eof = true → s.endPos ≠ 0) :
    ∃ r d t, maybeAnotherLine s = .ok (r, t) ∧ Another s.flags (view s) d (view t) ∧
      Scanned s t r d := by
  obtain ⟨r, d, t, hrun, hrel, hscan⟩ := getFromBuf_refines h hend
  have hframe : t.flags = s.flags := congrArg (·.1) hscan.frame
  cases hign : s.ignoreTillEol with
  | false =>
      refine ⟨r, d, t, ?_, .keep hrel (fun _ _ => hign), hscan⟩
      have hkeep : t.ignoreTillEol = false := hrel.ignoring_eq.trans hign
      cases r <;> simp [maybeAnotherLine, hrun, bind, Except.bind, pure, Except.pure, hkeep]
  | true =>
      have hkeep : t.ignoreTillEol = true := hrel.ignoring_eq.trans hign
      cases d with
      | normal d =>
          obtain ⟨a, rfl⟩ : ∃ a, r = .normal a := hscan.points.normal
          obtain ⟨r', d', u, hrun', hrel', hscan'⟩ := getFromBuf_refines
            (s := { t with ignoreTillEol := false })
            ⟨hscan.wf.pos_le, hscan.wf.end_le, hscan.wf.length, hscan.wf.lt⟩ hscan.endPos
          refine ⟨r', d', u, ?_, .drop hign hrel (hframe ▸ hrel'),
            ⟨hscan'.points, hscan'.wf, hscan'.frame.trans hscan.frame⟩, hscan'.compact,
            hscan'.endPos⟩
          simpa [maybeAnotherLine, hrun, bind, Except.bind, pure, Except.pure, hkeep] using hrun'
      | again | eof | error =>
          refine ⟨r, _, t, ?_, .keep hrel (fun _ he => by cases he), hscan⟩
          have hp := hscan.points
          cases r <;>
            first
            | simp [maybeAnotherLine, hrun, bind, Except.bind, pure, Except.pure]; done
            | simp [Points] at hp

theorem afterRead_refines {s : ZStreamLine} (h : Wf s) (hend : s.eof = true → s.endPos ≠ 0) :
    ∃ o d t, afterRead s = .ok (o, t) ∧ Another s.flags (view s) d (view t) ∧
      KeptOpt s t o (settle s.flags d) := by
  obtain ⟨r, d, t, hrun, hrel, hscan⟩ := maybeAnotherLine_refines h hend
  have hframe : t.flags = s.flags := congrArg (·.1) hscan.frame
  have hpoints := hscan.points
  cases d with
  | again o =>
      obtain ⟨b, rfl⟩ : ∃ b, r = .again b := hpoints.again
      have hrun' : afterRead s =
          .ok (if s.flags.singleRead then some (.again none) else none, t) := by
        simp only [afterRead, hrun, bind, Except.bind, pure, Except.pure, hframe]
      refine ⟨_, _, t, hrun', hrel, ?_⟩
      rw [settle]
      cases s.flags.singleRead with
      | true => exact Kept.some ⟨trivial, hscan.wf, hscan.frame⟩
      | false =>
          exact ⟨fun r hr => (by cases hr), fun _ => ⟨rfl, hscan.compact o rfl⟩, hscan.wf,
            hscan.frame⟩
  | normal | eof | error =>
      refine ⟨some r, _, t, ?_, hrel, hscan.toKept.some⟩
      cases r with
      | again b => cases b <;> simp [Points] at hpoints
      | normal | eof | error => simp only [afterRead, hrun, bind, Except.bind, pure, Except.pure]

/-- The loop of reads starts its rounds here. -/
structure AtRound (s : ZStreamLine) : Prop where
  wf : Wf s
  pos : s.pos = 0
  eof : s.eof = false

theorem pending_at {s : ZStreamLine} (h : Wf s) (hpos : s.pos = 0) :
    (view s).pending.length = s.endPos :=
  (pending_length h).trans (by omega)

theorem fillBuffer_refines {s : ZStreamLine} (h : AtRound s) (c : Child) :
    ∃ o p t c', fillBuffer s c = .ok (o, t, c') ∧ Fill s.flags s.bufsize (view s) c p (view t) c' ∧
      KeptOpt s t o p := by
  have hle := h.wf.end_le
  have hpending := pending_at h.wf h.pos
  have hcount : gsizeSub s.bufsize s.endPos = s.bufsize - (view s).pending.length := by
    rw [gsizeSub_le hle, hpending]
  have hlength := childRead_length (s.bufsize - (view s).pending.length) c
  cases hread : childRead (s.bufsize - (view s).pending.length) c with
  | mk answer c' =>
      rw [hread] at hlength
      cases answer with
      | again =>
          refine ⟨some (.again none), _, s, c', ?_, .again hread,
            Kept.some ⟨trivial, h.wf, rfl⟩⟩
          simp only [fillBuffer, hcount, hread]
      | error =>
          refine ⟨some (.error .child), _, { s with error := true }, c', ?_, .error hread,
            Kept.some ⟨rfl, ⟨h.wf.pos_le, h.wf.end_le, h.wf.length, h.wf.lt⟩, rfl⟩⟩
          simp only [fillBuffer, hcount, hread]
      | eof =>
          by_cases hempty : s.endPos = 0
          · refine ⟨some .eof, some .eof, s, c', ?_, .eof hread ?_, Kept.some ⟨trivial, h.wf, rfl⟩⟩
            · have hcond : (s.eof || s.pos == s.endPos) = true := by
                rw [h.eof, h.pos, hempty]; rfl
              simp only [fillBuffer, hcount, hread, hcond, ↓reduceIte]
            · exact List.eq_nil_of_length_eq_zero (hpending.trans hempty)
          · obtain ⟨o, d, t, hrun, hrel, hkept⟩ := afterRead_refines (s := { s with eof := true })
              ⟨h.wf.pos_le, h.wf.end_le, h.wf.length, h.wf.lt⟩ (fun _ => hempty)
            refine ⟨o, _, t, c', ?_, .last hread ?_ hrel rfl, hkept.points, hkept.more, hkept.wf,
              hkept.frame⟩
            · have hcond : (s.eof || s.pos == s.endPos) = false := by
                rw [h.eof, h.pos]
                simpa using fun he : 0 = s.endPos => hempty he.symm
              simp only [fillBuffer, hcount, hread, hcond, hrun, bind, Except.bind, pure,
                Except.pure, Bool.false_eq_true, ↓reduceIte]
            · intro hnil
              exact hempty (hpending.symm.trans (by rw [hnil]; rfl))
      | normal data =>
          rw [answerBytes, hpending] at hlength
          have hroom : s.endPos + data.length ≤ s.buffer.length := by
            rw [h.wf.length]; omega
          let t : ZStreamLine :=
            { s with buffer := put s.buffer s.endPos data, endPos := s.endPos + data.length }
          have hwf : Wf t := by
            refine ⟨?_, ?_, ?_, h.wf.lt⟩
            · exact Nat.le_add_right_of_le h.wf.pos_le
            · rw [← h.wf.length]
              exact hroom
            · exact (put_length hroom).trans h.wf.length
          have hview : view t = { view s with pending := (view s).pending ++ data } := by
            simp [view, pending, prevCr, t, h.pos, window_put_append (Nat.zero_le _) hroom]
          obtain ⟨o, d, u, hrun, hrel, hkept⟩ := afterRead_refines hwf
            (fun ht => absurd (h.eof.symm.trans ht) (by simp))
          refine ⟨o, _, u, c', ?_, .data hread (hview ▸ hrel) rfl, hkept.points, hkept.more,
            hkept.wf, hkept.frame⟩
          simp only [fillBuffer, hcount, hread, write_eq hroom, bind, Except.bind, pure,
            Except.pure]
          rw [show afterRead _ = _ from hrun]

theorem readRound_refines {s : ZStreamLine} (h : AtRound s) (c : Child) :
    ∃ o p t c', readRound (s, c) = .ok (o, t, c') ∧
      LineReader.Round s.flags s.bufsize (view s) c p (view t) c' ∧ KeptOpt s t o p := by
  have hle := h.wf.end_le
  have hpending := pending_at h.wf h.pos
  by_cases hfull : s.endPos = s.bufsize
  · have hcap : (view s).pending.length = s.bufsize := hpending.trans hfull
    have hbuffer : s.buffer = (view s).pending := by
      change s.buffer = window s.buffer s.pos s.endPos
      rw [h.pos, hfull, window, ← h.wf.length]
      simp
    let t : ZStreamLine := { s with pos := 0, endPos := 0, oldpos := 0 }
    have hwf : Wf t := ⟨Nat.le_refl 0, Nat.zero_le _, h.wf.length, h.wf.lt⟩
    have hview : view t = { view s with pending := [] } := by
      simp [view, pending, prevCr, t, h.pos]
    have hround : gsizeSub s.bufsize s.endPos = 0 := by
      rw [gsizeSub_le hle]; omega
    have hwhole (ign : Bool) : Shows { t with ignoreTillEol := ign } ⟨0, s.bufsize⟩
        ⟨(view s).pending, s.bufsize⟩ :=
      ⟨rfl, fun _ => ⟨rfl, hbuffer, hcap.symm⟩, fun hne => absurd rfl hne⟩
    cases hign : s.ignoreTillEol with
    | true =>
        obtain ⟨o, p, u, c', hrun, hrel, hkept⟩ := fillBuffer_refines ⟨hwf, rfl, h.eof⟩ c
        refine ⟨o, p, u, c', ?_, .skip hcap hign (hview ▸ hrel), hkept.points, hkept.more, hkept.wf,
          hkept.frame⟩
        simp only [readRound, hround, bufferFull, hign, bind, Except.bind, ↓reduceIte]
        exact hign ▸ hrun
    | false =>
        cases htrunc : s.flags.truncate with
        | true =>
            refine ⟨some (.normal ⟨0, s.bufsize⟩), some (.normal ⟨(view s).pending, s.bufsize⟩),
              { t with ignoreTillEol := true }, c, ?_, ?_, Kept.some ⟨⟨hwhole true, fun _ => htrunc⟩,
              ⟨hwf.pos_le, hwf.end_le, hwf.length, hwf.lt⟩, rfl⟩⟩
            · simp [readRound, hround, bufferFull, hign, htrunc, bind, Except.bind, pure,
                Except.pure, t]
            · have hrel := LineReader.Round.cut (c := c) hcap hign htrunc
              rwa [show view { t with ignoreTillEol := true } =
                { view s with pending := [], ignoring := true } from
                  congrArg (fun v : Reader => { v with ignoring := true }) hview]
        | false =>
            cases hsplit : s.flags.split with
            | true =>
                refine ⟨some (.again (some ⟨0, s.bufsize⟩)),
                  some (.again (some ⟨(view s).pending, s.bufsize⟩)), t, c, ?_,
                  hview ▸ .split hcap hign ⟨htrunc, hsplit⟩,
                  Kept.some ⟨hwhole s.ignoreTillEol, hwf, rfl⟩⟩
                simp [readRound, hround, bufferFull, hign, htrunc, hsplit, bind, Except.bind,
                  pure, Except.pure, t]
            | false =>
                have hread : read s.buffer 0 s.bufsize = .ok (view s).pending := by
                  rw [← hbuffer, ← h.wf.length, read_eq (by omega), window]
                  simp
                refine ⟨some (.error (.tooLong (view s).pending s.bufsize)), _,
                  { s with error := true }, c, ?_, .tooLong hcap hign ⟨htrunc, hsplit⟩,
                  Kept.some ⟨rfl, ⟨h.wf.pos_le, h.wf.end_le, h.wf.length, h.wf.lt⟩, rfl⟩⟩
                simp [readRound, hround, bufferFull, hign, htrunc, hsplit, hread, bind,
                  Except.bind, pure, Except.pure]
  · obtain ⟨o, p, t, c', hrun, hrel, hkept⟩ := fillBuffer_refines h c
    refine ⟨o, p, t, c', ?_, .fill (by omega) hrel, hkept⟩
    have hround : gsizeSub s.bufsize s.endPos ≠ 0 := by
      rw [gsizeSub_le hle]; omega
    simpa [readRound, hround] using hrun

/-- The loop ends, for a buffer that can hold a byte, and where it does not
throw its bytes away. -/
theorem readLoop_refines {s : ZStreamLine} (h : AtRound s) (c : Child) :
    (readLoop s c = .error .diverges ∧ s.bufsize = 0 ∧ s.ignoreTillEol = true) ∨
      ∃ r d t c', readLoop s c = .ok (r, t, c') ∧
        Rounds s.flags s.bufsize (view s) c d (view t) c' ∧ Kept s t r d := by
  let Inv (q : ZStreamLine × Child) : Prop := AtRound q.1 ∧ frame q.1 = frame s ∧
    (0 < s.bufsize ∨ s.ignoreTillEol = false → 0 < s.bufsize ∨ q.1.ignoreTillEol = false) ∧
    ∀ d w c', Rounds s.flags s.bufsize (view q.1) q.2 d w c' →
      Rounds s.flags s.bufsize (view s) c d w c'
  let Post (r : LineResult Slice) (q : ZStreamLine × Child) : Prop :=
    ∃ d, Rounds s.flags s.bufsize (view s) c d (view q.1) q.2 ∧ Kept s q.1 r d
  have hbody (q : ZStreamLine × Child) (hq : Inv q) : ∃ o u, readRound q = .ok (o, u) ∧
      Run.Round (fun u => Inv u ∧ (0 < s.bufsize ∨ s.ignoreTillEol = false →
        childSize u.2 < childSize q.2)) Post o u := by
    obtain ⟨hat, hframe, hgo, hrest⟩ := hq
    obtain ⟨o, p, t, c', hrun, hrel, hkept⟩ := readRound_refines hat q.2
    have hflags : q.1.flags = s.flags := congrArg (·.1) hframe
    have hsize : q.1.bufsize = s.bufsize := congrArg (·.2.1) hframe
    refine ⟨o, (t, c'), hrun, ?_⟩
    cases o with
    | some r =>
        obtain ⟨d, rfl, hpoints⟩ := hkept.points r rfl
        rw [hflags, hsize] at hrel
        exact ⟨d, hrest _ _ _ (.done hrel), hpoints, hkept.wf, hkept.frame.trans hframe⟩
    | none =>
        obtain ⟨rfl, hpos⟩ := hkept.more rfl
        rw [hflags, hsize] at hrel
        exact ⟨⟨⟨hkept.wf, hpos, hrel.more_inv.1⟩, hkept.frame.trans hframe,
          fun hs => .inl (hrel.more_pos (hgo hs)), fun d w c'' h' => hrest d w c'' (.next hrel h')⟩,
          fun hs => hrel.size (hrel.more_pos (hgo hs))⟩
  have hstart : Inv (s, c) := ⟨h, rfl, id, fun _ _ _ h' => h'⟩
  have hloop : (readLoop s c = .error .diverges ∧ (0 < s.bufsize ∨ s.ignoreTillEol = false → _)) ∨ _ :=
    Run.loop_rule _ (fun q => childSize q.2) hbody (childSize c + 1) hstart
  rcases hloop with ⟨hrun, hfuel⟩ | ⟨r, ⟨t, c'⟩, hrun, d, hrel, hkept⟩
  · have hstuck : ¬(0 < s.bufsize ∨ s.ignoreTillEol = false) := by
      intro hs
      have hle := hfuel hs
      simp only at hle
      omega
    rw [not_or, Bool.not_eq_false] at hstuck
    exact .inl ⟨hrun, by omega, hstuck.2⟩
  · exact .inr ⟨r, d, t, c', hrun, hrel, hkept⟩

/-- What a line fetch keeps, apart from the answer that polls remember. -/
structure Fetched (s t : ZStreamLine) (r : LineResult Slice) (d : LineResult Delivered) : Prop where
  points : Points t r d
  wf : Wf t
  flags : t.flags = s.flags
  bufsize : t.bufsize = s.bufsize
  cache : t = s ∧ (d = .eof ∨ d = .error .previouslyStored) ∨ t.lineAvailSet = false

/-- What a fetch goes on to behind the bytes that were buffered. -/
def behindBuf (child : Child) (p : LineResult Slice × ZStreamLine) :
    Except Abort (LineResult Slice × ZStreamLine × Child) :=
  match p.1 with
  | .normal line => .ok (.normal line, p.2, child)
  | .error e => .ok (.error e, { p.2 with error := true }, child)
  | _ => readLoop p.2 child

theorem getInternal_refines {s : ZStreamLine} (h : Wf s) (c : Child) :
    (getInternal s c = .error .diverges ∧ s.bufsize = 0 ∧ s.ignoreTillEol = true) ∨
      ∃ r d t c', getInternal s c = .ok (r, t, c') ∧
        Fetch s.flags s.bufsize (view s) c d (view t) c' ∧ Fetched s t r d := by
  cases herr : s.error with
  | true =>
      refine .inr ⟨.error .previouslyStored, _, s, c, by simp [getInternal, herr], .failed herr,
        rfl, h, rfl, rfl, .inl ⟨rfl, .inr rfl⟩⟩
  | false =>
  cases heof : s.eof with
  | true =>
      refine .inr ⟨.eof, _, s, c, by simp [getInternal, herr, heof], .atEof herr heof, trivial, h,
        rfl, rfl, .inl ⟨rfl, .inl rfl⟩⟩
  | false =>
  let u : ZStreamLine := { s with childIn := false, childPri := false, lineAvailSet := false }
  have hu : Wf u := ⟨h.pos_le, h.end_le, h.length, h.lt⟩
  have hfetched {t : ZStreamLine} {r : LineResult Slice} {d : LineResult Delivered}
      (hk : Kept u t r d) : Fetched s t r d :=
    ⟨hk.points, hk.wf, congrArg (·.1) hk.frame, congrArg (·.2.1) hk.frame,
      .inr (congrArg (·.2.2) hk.frame)⟩
  have hlooped {w : ZStreamLine} (hw : AtRound w) (hf : frame w = frame u)
      (hmore : eolByte s.flags ∉ (view s).pending)
      (hview : view w = { view s with afterCr := false }) :
      (readLoop w c = .error .diverges ∧ s.bufsize = 0 ∧ s.ignoreTillEol = true) ∨
      ∃ r d t c', readLoop w c = .ok (r, t, c') ∧
        Fetch s.flags s.bufsize (view s) c d (view t) c' ∧ Fetched s t r d := by
    have hflags : w.flags = s.flags := congrArg (·.1) hf
    have hsize : w.bufsize = s.bufsize := congrArg (·.2.1) hf
    rcases readLoop_refines hw c with ⟨hrun, hzero, hign⟩ | ⟨r, d, t, c', hrun, hrel, hkept⟩
    · have hsame : w.ignoreTillEol = s.ignoreTillEol := congrArg Reader.ignoring hview
      exact .inl ⟨hrun, hsize ▸ hzero, hsame ▸ hign⟩
    · rw [hflags, hsize, hview] at hrel
      exact .inr ⟨r, d, t, c', hrun, .read herr heof hmore hrel,
        hfetched ⟨hkept.points, hkept.wf, hkept.frame.trans hf⟩⟩
  by_cases hempty : s.endPos = s.pos
  · let w : ZStreamLine := { u with pos := 0, endPos := 0, oldpos := 0 }
    have hnil : (view s).pending = [] := by
      change window s.buffer s.pos s.endPos = []
      rw [hempty, window_self]
    have hview : view w = { view s with afterCr := false } := by
      simp only [view] at hnil ⊢
      rw [hnil]
      simp [pending, prevCr, w, u]
    have hrun : getInternal s c = readLoop w c := by
      simp [getInternal, herr, heof, hempty, w, u]
    rw [hrun]
    exact hlooped ⟨⟨Nat.le_refl 0, Nat.zero_le _, h.length, h.lt⟩, rfl, heof⟩ rfl
      (by simp [hnil]) hview
  · have hstart : getInternal s c = (getFromBuf u).bind (behindBuf c) := by
      rw [getInternal, if_neg (by simp [herr]), if_neg (by simp [heof]), if_pos hempty]
      rfl
    obtain ⟨r, d, t, hrun, hrel, hscan⟩ := getFromBuf_refines hu
      (fun ht => absurd (heof.symm.trans ht) (by simp))
    change FromBuf s.flags (view s) d (view t) at hrel
    rw [hrun] at hstart
    cases d with
    | normal d =>
        obtain ⟨a, rfl⟩ := hscan.points.normal
        exact .inr ⟨.normal a, _, t, c, hstart, .buffered herr heof hrel, hfetched hscan.toKept⟩
    | error e =>
        obtain rfl := hscan.points.error
        exact .inr ⟨.error e, _, { t with error := true }, c, hstart, .bad herr heof hrel,
          hfetched ⟨rfl, ⟨hscan.wf.pos_le, hscan.wf.end_le, hscan.wf.length, hscan.wf.lt⟩,
            hscan.frame⟩⟩
    | eof => exact absurd hrel FromBuf.not_eof
    | again o =>
        obtain ⟨b, rfl⟩ := hscan.points.again
        obtain ⟨rfl, -, hmore, hview⟩ := hrel.again_inv
        have hteof : t.eof = false := hrel.eof_eq.trans heof
        rw [hstart]
        exact hlooped ⟨hscan.wf, hscan.compact none rfl, hteof⟩ hscan.frame hmore hview

end Libzorpll.LineBuffer
