import Libzorpll.LineBuffer

namespace Libzorpll.LineCalls

open Region ChildStream StreamLine LineReader LineBuffer

/-- The result of a fetch as its caller reads it. -/
def outcome : LineResult Delivered → LineResult (List UInt8)
  | .normal d => .normal d.line
  | .again (some d) => .again (some d.line)
  | .again none => .again none
  | .eof => .eof
  | .error e => .error e

/-- The length of a result is covered by the bytes it points at, without
those that are still pending. -/
def Sound (w : Reader) : LineResult Delivered → Prop
  | .normal d | .again (some d) => d.length + w.pending.length ≤ d.held.length
  | _ => True

/-- The next byte ends a line that consists of nothing else, after a carriage
return that was consumed by someone else. The length of that line is shortened
twice. -/
def CrlfSplit (f : LineFlags) (v : Reader) : Prop :=
  (f.eolNl || f.eolNul) = false ∧ f.eolCrlf = true ∧ f.returnEol = false ∧ v.afterCr = true ∧
    ∃ rest, v.pending = eolByte f :: rest

variable {f : LineFlags} {cap : Nat} {v w : Reader} {c c' : Child}

theorem not_crlfSplit (h : v.afterCr = false) : ¬CrlfSplit f v := by
  rintro ⟨-, -, -, hcr, -⟩
  exact absurd (hcr.symm.trans h) (by simp)

theorem lineLength_le {cr : Bool} {k n : Nat} (h : lineLength f cr (k + 1) = some n)
    (hcr : (f.eolNl || f.eolNul) = false → f.eolCrlf = true → f.returnEol = false → cr = true →
      0 < k) : n ≤ k + 1 := by
  have hmod (a : Nat) : gsizeAdd a 1 ≤ a + 1 := Nat.mod_le _ _
  simp only [lineLength, gsizeSub_le (Nat.le_add_left 1 k), Nat.add_sub_cancel] at h
  cases hnl : (f.eolNl || f.eolNul) with
  | true =>
      rw [if_pos hnl, Option.some.injEq] at h
      have hk := hmod k
      split at h <;> omega
  | false =>
      rw [if_neg (by simp [hnl])] at h
      cases hcrlf : f.eolCrlf with
      | false =>
          rw [if_neg (by simp [hcrlf]), Option.some.injEq] at h
          omega
      | true =>
          rw [if_pos hcrlf] at h
          have hk := hmod k
          cases hret : f.returnEol with
          | false =>
              have hpos := hcr hnl hcrlf hret
              cases cr with
              | true =>
                  have hk1 : 1 ≤ k := hpos rfl
                  simp only [hret, ↓reduceIte, gsizeSub_le hk1, Option.some.injEq] at h
                  simp only [Bool.false_eq_true, ↓reduceIte] at h
                  omega
              | false =>
                  simp only [hret, Bool.false_eq_true, ↓reduceIte] at h
                  split at h
                  · cases h
                  · simp only [Option.some.injEq] at h
                    omega
          | true =>
              cases cr with
              | true =>
                  simp only [hret, ↓reduceIte, Option.some.injEq] at h
                  subst h
                  rw [gsizeSub, gsizeAdd]
                  split <;> omega
              | false =>
                  simp only [hret, Bool.false_eq_true, ↓reduceIte] at h
                  split at h
                  · cases h
                  · simp only [Option.some.injEq] at h
                    omega

theorem fromBuf_sound {r : LineResult Delivered} (h : FromBuf f v r w) (hcr : ¬CrlfSplit f v) :
    Sound w r := by
  cases h with
  | line heof hv hbody hnul hlen =>
      have hle := lineLength_le hlen (by
        intro hnl hcrlf hret hcr'
        rw [crBefore] at hcr'
        split at hcr'
        · rename_i hnil
          subst hnil
          exact absurd ⟨hnl, hcrlf, hret, hcr', _, hv⟩ hcr
        · rename_i hne
          exact List.length_pos_iff.mpr hne)
      rw [Sound, hv]
      simp only [List.length_append, List.length_cons]
      omega
  | last => exact Nat.le_refl _
  | badCrlf | embeddedNul | lastNul | more => trivial

theorem fromBuf_afterCr {r : LineResult Delivered} (h : FromBuf f v r w) (heof : v.eof = false) :
    w.afterCr = false := by
  cases h with
  | line | badCrlf | embeddedNul | more => rfl
  | last _ ht | lastNul _ ht => exact absurd (heof.symm.trans ht) (by simp)

theorem eof_sound {r : LineResult Delivered} (h : FromBuf f v r w) (heof : v.eof = true) :
    Sound w r := by
  cases h with
  | last => exact Nat.le_refl _
  | lastNul => trivial
  | line ht | badCrlf ht | embeddedNul ht | more ht => exact absurd (ht.symm.trans heof) (by simp)

theorem another_sound {r : LineResult Delivered} (h : Another f v r w) (hcr : v.afterCr = false) :
    Sound w r := by
  cases h with
  | keep h => exact fromBuf_sound h (not_crlfSplit hcr)
  | drop hign h h' =>
      cases heof : v.eof with
      | false =>
          have hw : _ = false := fromBuf_afterCr h heof
          exact fromBuf_sound h' (not_crlfSplit hw)
      | true => exact eof_sound h' (h.eof_eq.trans heof)

theorem settle_sound {r : LineResult Delivered} (h : Sound w r) :
    ∀ s, settle f r = some s → Sound w s := by
  intro s hs
  cases r with
  | again o =>
      rw [settle] at hs
      split at hs
      · cases hs; trivial
      · cases hs
  | normal | eof | error =>
      cases hs
      exact h

theorem fill_sound {o : Option (LineResult Delivered)} (h : Fill f cap v c o w c')
    (hcr : v.afterCr = false) : ∀ r, o = some r → Sound w r := by
  intro r hr
  cases h with
  | again | error | eof => cases hr; trivial
  | last _ _ h ho | data _ h ho => exact settle_sound (another_sound h hcr) r (ho.symm.trans hr)

theorem fill_afterCr (h : Fill f cap v c none w c') : w.afterCr = false := by
  have another {v : Reader} {o : Option Delivered} (h : Another f v (.again o) w) :
      w.afterCr = false := by
    cases h with
    | keep h | drop _ _ h => rw [h.again_inv.2.2.2]
  cases h with
  | last _ _ h ho | data _ h ho =>
      obtain ⟨o, rfl⟩ := settle_none ho.symm
      exact another h

theorem round_sound {o : Option (LineResult Delivered)} (h : LineReader.Round f cap v c o w c')
    (hcr : v.afterCr = false) : ∀ r, o = some r → Sound w r := by
  intro r hr
  cases h with
  | cut hfull | split hfull =>
      cases hr
      exact Nat.le_of_eq hfull.symm
  | tooLong => cases hr; trivial
  | skip _ _ h | fill _ h => exact fill_sound h hcr r hr

theorem rounds_sound {r : LineResult Delivered} (h : Rounds f cap v c r w c')
    (hcr : v.afterCr = false) : Sound w r := by
  induction h with
  | done h => exact round_sound h hcr _ rfl
  | next h _ ih =>
      cases h with
      | skip _ _ h | fill _ h => exact ih (fill_afterCr h)

/-- A line fetch delivers no more than the bytes it points at, except where it
starts between a carriage return and its newline. -/
theorem fetch_sound {r : LineResult Delivered} (h : Fetch f cap v c r w c')
    (hcr : v.failed = false → v.eof = false → ¬CrlfSplit f v) : Sound w r := by
  cases h with
  | buffered hf heof h => exact fromBuf_sound h (hcr hf heof)
  | read _ _ _ h => exact rounds_sound h rfl
  | failed | atEof | bad => trivial

theorem read_shows {s : ZStreamLine} (h : Wf s) {a : Slice} {d : Delivered} (ha : Shows s a d)
    (hd : d.length ≤ d.held.length) : read s.buffer a.line a.length = .ok d.line := by
  have hpos := h.pos_le
  have hle := h.end_le
  have hbuf := h.length
  by_cases hend : s.endPos = 0
  · obtain ⟨hline, hheld, -⟩ := ha.whole hend
    rw [hline, ha.length, hheld, read_eq (by omega), window, Delivered.line]
    simp
  · obtain ⟨hline, hold, hheld⟩ := ha.held hend
    have hlen := congrArg List.length hheld
    rw [window_length _ (by omega)] at hlen
    rw [hline, ha.length, read_eq (by omega), Delivered.line, ← hheld, window, window,
      List.take_take]
    congr 2
    omega

theorem contents_eq {s : ZStreamLine} (h : Wf s) {r : LineResult Slice} {d : LineResult Delivered}
    (hp : Points s r d) {w : Reader} (hd : Sound w d) : r.contents s.buffer = .ok (outcome d) := by
  cases d with
  | normal d =>
      obtain ⟨a, rfl⟩ := hp.normal
      simp only [LineResult.contents, read_shows h hp.1 (Nat.le_of_add_right_le hd), Except.map,
        outcome]
  | again o =>
      obtain ⟨b, rfl⟩ := hp.again
      cases o with
      | none => cases b with
        | none => rfl
        | some => cases hp
      | some d => cases b with
        | none => cases hp
        | some a => simp only [LineResult.contents, read_shows h hp (Nat.le_of_add_right_le hd), Except.map, outcome]
  | error e =>
      obtain rfl := hp.error
      rfl
  | eof =>
      cases r with
      | eof => rfl
      | again o => cases o <;> cases hp
      | normal | error => cases hp

/-- z_stream_line_get comes back with what the reader without a buffer
delivers. -/
theorem lineGet_refines {s : ZStreamLine} (h : Wf s) (c : Child)
    (hcap : 0 < s.bufsize ∨ s.ignoreTillEol = false)
    (hcr : s.error = false → s.eof = false → ¬CrlfSplit s.flags (view s)) :
    ∃ d t c', lineGet (s, c) = .ok (outcome d, t, c') ∧
      Fetch s.flags s.bufsize (view s) c d (view t) c' ∧ Wf t ∧ t.flags = s.flags ∧
      t.bufsize = s.bufsize := by
  obtain ⟨-, hzero, hign⟩ | ⟨r, d, t, c', hrun, hrel, hfetched⟩ := getInternal_refines h c
  · rcases hcap with hpos | hf
    · omega
    · exact absurd (hign.symm.trans hf) (by simp)
  · refine ⟨d, t, c', ?_, hrel, hfetched.wf, hfetched.flags, hfetched.bufsize⟩
    have hcont := contents_eq hfetched.wf hfetched.points (fetch_sound hrel hcr)
    simp only [lineGet, hrun, hcont, bind, Except.bind, pure, Except.pure]

/-- The line a result brings. -/
def found : LineResult Delivered → Option Delivered
  | .normal d | .again (some d) => some d
  | _ => none

/-- Whether a destination is too small for a result. -/
def Short (dest : Nat) (r : LineResult Delivered) : Prop := ∃ d, found r = some d ∧ dest < d.length

/-- What z_stream_line_get_copy makes of the result of a fetch. -/
inductive Copied (f : LineFlags) (dest : Nat) :
    LineResult Delivered → Reader → LineResult (List UInt8) → Reader → Prop
  | fits {r : LineResult Delivered} {w : Reader} (h : ¬Short dest r) :
      Copied f dest r w (outcome r) w
  | split {r : LineResult Delivered} {w : Reader} {d : Delivered} (hr : found r = some d)
      (hd : dest < d.length) (hf : f.split = true) :
      Copied f dest r w (.again (some (d.held.take dest)))
        { w with pending := d.held.drop dest, afterCr := endsCr (d.held.take dest) }
  | tooSmall {r : LineResult Delivered} {w : Reader} {d : Delivered} (hr : found r = some d)
      (hd : dest < d.length) (hf : f.split = false) :
      Copied f dest r w (.error (.bufferTooSmall d.line)) w

/-- The slice that a result points at. -/
def slice : LineResult Slice → Option Slice
  | .normal a => some a
  | .again (some a) => if 0 < a.length then some a else none
  | _ => none

theorem slice_points {s : ZStreamLine} (h : Wf s) {r : LineResult Slice} {d : LineResult Delivered}
    (hp : Points s r d) :
    (slice r = none ∧ (∀ n, ¬Short n d) ∧ r.contents s.buffer = .ok (outcome d)) ∨
      ∃ a e, slice r = some a ∧ found d = some e ∧ Shows s a e := by
  cases d with
  | normal e =>
      obtain ⟨a, rfl⟩ := hp.normal
      exact .inr ⟨a, e, rfl, rfl, hp.1⟩
  | again o =>
      obtain ⟨b, rfl⟩ := hp.again
      cases o with
      | none => cases b with
        | none => exact .inl ⟨rfl, fun _ => by rintro ⟨_, ⟨⟩, _⟩, rfl⟩
        | some => cases hp
      | some e => cases b with
        | none => cases hp
        | some a =>
            have hlen : a.length = e.length := Shows.length hp
            by_cases hpos : 0 < a.length
            · exact .inr ⟨a, e, if_pos hpos, rfl, hp⟩
            · refine .inl ⟨if_neg hpos, fun n => ?_, ?_⟩
              · rintro ⟨_, ⟨⟩, hlt⟩
                omega
              · simp only [LineResult.contents, read_shows h hp (by omega), Except.map, outcome]
  | eof =>
      refine .inl ⟨?_, fun _ => by rintro ⟨_, ⟨⟩, _⟩, ?_⟩
      all_goals
        cases r with
        | eof => rfl
        | again o => cases o <;> cases hp
        | normal | error => cases hp
  | error e =>
      obtain rfl := hp.error
      exact .inl ⟨rfl, fun _ => by rintro ⟨_, ⟨⟩, _⟩, rfl⟩

/-- The state after the start of a line was copied. -/
theorem rewind_view {s : ZStreamLine} (h : Wf s) {a : Slice} {d : Delivered} (ha : Shows s a d)
    {dest : Nat} (hpos : 0 < dest) (hd : dest ≤ d.held.length) :
    read s.buffer a.line dest = .ok (d.held.take dest) ∧ Wf (rewind s a dest) ∧
      view (rewind s a dest) =
        { view s with pending := d.held.drop dest, afterCr := endsCr (d.held.take dest) } := by
  have hpos' := h.pos_le
  have hle := h.end_le
  have hbuf := h.length
  obtain ⟨stop, hrewind, hheld, hstop⟩ : ∃ stop, rewind s a dest =
      { s with pos := a.line + dest, endPos := stop } ∧ window s.buffer a.line stop = d.held ∧
        a.line ≤ stop ∧ stop ≤ s.bufsize := by
    by_cases hend : s.endPos = 0
    · obtain ⟨hline, hheld, hlen⟩ := ha.whole hend
      refine ⟨s.buffer.length, ?_, ?_, by omega, by omega⟩
      · rw [rewind, if_pos hend, ha.length, hlen, ← hheld, hline, Nat.zero_add]
      · rw [hline, ← hheld, window]
        simp
    · obtain ⟨hline, hold, hheld⟩ := ha.held hend
      refine ⟨s.endPos, ?_, ?_, by omega, hle⟩
      · rw [rewind, if_neg hend, hline]
      · rw [hline, hheld]
  have hlen := congrArg List.length hheld
  rw [window_length _ (by omega)] at hlen
  have hsplit : window s.buffer a.line stop = d.held.take dest ++ d.held.drop dest := by
    rw [List.take_append_drop, hheld]
  have htake : (d.held.take dest).length = dest := by
    rw [List.length_take]
    omega
  obtain ⟨hfirst, hrest⟩ := window_split hstop.1 (by omega) hsplit
  rw [htake] at hfirst hrest
  have hlast : s.buffer[a.line + dest - 1]? = (d.held.take dest).getLast? := by
    rw [List.getLast?_eq_getElem?, htake, ← hfirst, window_getElem (by omega)]
    congr 1
    omega
  have hcr : prevCr (rewind s a dest) = endsCr (d.held.take dest) := by
    rw [hrewind, prevCr, endsCr, ← hlast, beq_eq_decide]
    simp [show 0 < a.line + dest by omega]
  refine ⟨?_, ?_, ?_⟩
  · rw [read_eq (by omega), hfirst]
  · rw [hrewind]
    exact ⟨by simp only; omega, hstop.2, hbuf, h.lt⟩
  · have hpending : pending (rewind s a dest) = d.held.drop dest := by
      rw [hrewind, pending]
      exact hrest
    rw [view, hpending, hcr, hrewind]
    rfl

/-- A line that is copied, in whole or in part, is covered by the buffer. -/
def CopySound (f : LineFlags) (dest : Nat) (r : LineResult Delivered) : Prop :=
  ∀ e, found r = some e →
    e.length ≤ e.held.length ∨ f.split = true ∧ dest < e.length ∧ dest ≤ e.held.length

theorem Sound.copySound {r : LineResult Delivered} (h : Sound w r) (dest : Nat) :
    CopySound f dest r := by
  intro e he
  refine .inl ?_
  cases r with
  | normal => cases he; exact Nat.le_of_add_right_le h
  | again o => cases o with
    | none => cases he
    | some => cases he; exact Nat.le_of_add_right_le h
  | eof | error => cases he

/-- What a copy leaves, apart from the answer that polls remember. -/
structure Remains (s t : ZStreamLine) : Prop where
  wf : Wf t
  flags : t.flags = s.flags
  bufsize : t.bufsize = s.bufsize
  cache : t = s ∨ t.lineAvailSet = false

theorem found_contents {s : ZStreamLine} {r : LineResult Slice} {d : LineResult Delivered}
    {a : Slice} (h : slice r = some a) (hp : Points s r d) {bytes : List UInt8}
    (hread : read s.buffer a.line a.length = .ok bytes) {e : Delivered} (he : found d = some e)
    (hline : bytes = e.line) : r.contents s.buffer = .ok (outcome d) := by
  subst hline
  cases d with
  | normal =>
      obtain ⟨b, rfl⟩ := hp.normal
      cases h
      cases he
      simp only [LineResult.contents, hread, Except.map, outcome]
  | again o =>
      obtain ⟨b, rfl⟩ := hp.again
      cases o with
      | none => cases he
      | some => cases b with
        | none => cases hp
        | some b =>
            cases he
            rw [slice] at h
            split at h
            · cases h
              simp only [LineResult.contents, hread, Except.map, outcome]
            · cases h
  | eof | error => cases he

theorem lineGetCopy_eq {dest : Nat} (hdest : dest ≠ 0) {s t : ZStreamLine} {r : LineResult Slice}
    (h : getInternal s c = .ok (r, t, c')) :
    lineGetCopy dest (s, c) = match slice r with
      | some a =>
          if dest < a.length then
            if t.flags.split then
              (read t.buffer a.line dest).map (fun bytes => (.again (some bytes), rewind t a dest, c'))
            else (read t.buffer a.line a.length).map
              (fun bytes => (.error (.bufferTooSmall bytes), t, c'))
          else (r.contents t.buffer).map (fun r => (r, t, c'))
      | none => (r.contents t.buffer).map (fun r => (r, t, c')) := by
  rw [lineGetCopy, if_neg hdest]
  simp only [h, bind, Except.bind, pure, Except.pure]
  rfl

/-- z_stream_line_get_copy comes back with the result of a fetch, cut to the
size of the destination. -/
theorem lineGetCopy_refines {s : ZStreamLine} (h : Wf s) (c : Child) {dest : Nat} (hdest : 0 < dest)
    (hsound : ∀ d w c', Fetch s.flags s.bufsize (view s) c d w c' → CopySound s.flags dest d) :
    (lineGetCopy dest (s, c) = .error .diverges ∧ s.bufsize = 0 ∧ s.ignoreTillEol = true) ∨
      ∃ d w r t c', lineGetCopy dest (s, c) = .ok (r, t, c') ∧
        Fetch s.flags s.bufsize (view s) c d w c' ∧ Copied s.flags dest d w r (view t) ∧
        Remains s t := by
  obtain ⟨herr, hzero, hign⟩ | ⟨r, d, t, c', hrun, hrel, hfetched⟩ := getInternal_refines h c
  · refine .inl ⟨?_, hzero, hign⟩
    rw [lineGetCopy, if_neg (by omega)]
    simp only [herr, bind, Except.bind]
  · right
    have hcopy := hsound d (view t) c' hrel
    have hflags := hfetched.flags
    have hremains : Remains s t :=
      ⟨hfetched.wf, hflags, hfetched.bufsize, hfetched.cache.imp_left And.left⟩
    have hgo := lineGetCopy_eq (Nat.ne_of_gt hdest) hrun
    rcases slice_points hfetched.wf hfetched.points with ⟨hnone, hfits, hcont⟩ | ⟨a, e, hslice, hfound, hshows⟩
    · refine ⟨d, _, outcome d, t, c', ?_, hrel, .fits (hfits dest), hremains⟩
      rw [hgo, hnone, hcont]
      rfl
    · have hlen := hshows.length
      rw [hslice] at hgo
      by_cases hshort : dest < e.length
      · simp only [if_pos (hlen ▸ hshort)] at hgo
        cases hsplit : s.flags.split with
        | true =>
            have hd : dest ≤ e.held.length := by
              rcases hcopy e hfound with hle | ⟨-, -, hle⟩
              · omega
              · exact hle
            obtain ⟨hread, hwf, hview⟩ := rewind_view hfetched.wf hshows hdest hd
            have hsame : (rewind t a dest).flags = t.flags ∧
                (rewind t a dest).bufsize = t.bufsize ∧
                (rewind t a dest).lineAvailSet = t.lineAvailSet := by
              rw [rewind]
              split <;> exact ⟨rfl, rfl, rfl⟩
            have hcache : t.lineAvailSet = false := by
              refine hfetched.cache.resolve_left ?_
              rintro ⟨-, rfl | rfl⟩ <;> cases hfound
            refine ⟨d, _, .again (some (e.held.take dest)), rewind t a dest, c', ?_, hrel, ?_, hwf,
              hsame.1.trans hflags, hsame.2.1.trans hfetched.bufsize,
              .inr (hsame.2.2.trans hcache)⟩
            · rw [hgo, if_pos (by rw [hflags, hsplit]), hread]
              rfl
            · rw [hview]
              exact .split hfound hshort hsplit
        | false =>
            have he : e.length ≤ e.held.length := by
              refine (hcopy e hfound).resolve_right ?_
              rintro ⟨ht, -⟩
              exact absurd (hsplit.symm.trans ht) (by simp)
            refine ⟨d, _, .error (.bufferTooSmall e.line), t, c', ?_, hrel,
              .tooSmall hfound hshort hsplit, hremains⟩
            rw [hgo, if_neg (by rw [hflags, hsplit]; simp), read_shows hfetched.wf hshows he]
            rfl
      · have he : e.length ≤ e.held.length := by
          rcases hcopy e hfound with hle | ⟨-, hlt, -⟩
          · exact hle
          · exact absurd hlt hshort
        have hcont := found_contents hslice hfetched.points (read_shows hfetched.wf hshows he)
          hfound rfl
        refine ⟨d, _, outcome d, t, c', ?_, hrel, .fits ?_, hremains⟩
        · simp only [if_neg (hlen ▸ hshort), hcont] at hgo
          exact hgo
        · rintro ⟨e', he', hlt⟩
          rw [hfound, Option.some.injEq] at he'
          exact hshort (he' ▸ hlt)

theorem lineGetCopy_returns {s : ZStreamLine} (h : Wf s) (c : Child)
    (hcap : 0 < s.bufsize ∨ s.ignoreTillEol = false) {dest : Nat} (hdest : 0 < dest)
    (hsound : ∀ d w c', Fetch s.flags s.bufsize (view s) c d w c' → CopySound s.flags dest d) :
    ∃ d w r t c', lineGetCopy dest (s, c) = .ok (r, t, c') ∧
      Fetch s.flags s.bufsize (view s) c d w c' ∧ Copied s.flags dest d w r (view t) ∧
      Remains s t := by
  refine (lineGetCopy_refines h c hdest hsound).resolve_left ?_
  rintro ⟨-, hzero, hign⟩
  rcases hcap with hpos | hf
  · omega
  · exact absurd (hign.symm.trans hf) (by simp)

end Libzorpll.LineCalls
