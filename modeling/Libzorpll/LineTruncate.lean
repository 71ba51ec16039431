import Libzorpll.LineFraming

/-! Line fetches that cut overlong lines to the size of the buffer. -/

namespace Libzorpll.LineTruncate

open ChildStream StreamLine LineReader LineBuffer LineCalls LineFraming

def truncating : LineFlags := { eolNl := true, truncate := true, nulNonfatal := true }

/-- What the unterminated end of a stream is delivered as. The end of file in
the rest of a line that was cut counts as an empty line, unless the rest filled
the buffer a whole number of times. -/
def cutLast (cap : Nat) (last : List UInt8) : List (List UInt8) :=
  (if last = [] then [] else [last.take cap]) ++
    if cap < last.length ∧ last.length % cap ≠ 0 then [[]] else []

/-- The lines of a stream as they are delivered, from the stream cut at its
newlines. -/
def cutLines (cap : Nat) : List (List UInt8) → List (List UInt8)
  | [] => []
  | [last] => cutLast cap last
  | body :: next :: rest => body.take cap :: cutLines cap (next :: rest)

/-- The same, with the rest of a line that was cut before them. -/
def remaining (cap : Nat) (ignoring : Bool) (T : List UInt8) : List (List UInt8) :=
  match ignoring, T.splitOn 10 with
  | false, pieces => cutLines cap pieces
  | true, [last] => if last.length % cap = 0 then [] else [[]]
  | true, pieces => cutLines cap pieces.tail

variable {cap : Nat} {v w : Reader} {c c' : Child}

theorem remaining_terminated {body : List UInt8} (rest : List UInt8) (hbody : 10 ∉ body) :
    remaining cap false (body ++ 10 :: rest) = body.take cap :: remaining cap false rest := by
  simp only [remaining, List.splitOn_append_cons_self_of_not_mem hbody]
  cases hrest : rest.splitOn 10 with
  | nil => exact absurd hrest (List.splitOn_ne_nil _ _)
  | cons => rw [cutLines]

theorem remaining_dropped {body : List UInt8} (rest : List UInt8) (hbody : 10 ∉ body) :
    remaining cap true (body ++ 10 :: rest) = remaining cap false rest := by
  simp only [remaining, List.splitOn_append_cons_self_of_not_mem hbody]
  cases hrest : rest.splitOn 10 with
  | nil => exact absurd hrest (List.splitOn_ne_nil _ _)
  | cons => rfl

theorem remaining_last {T : List UInt8} (hT : 10 ∉ T) :
    remaining cap false T = cutLast cap T := by
  simp only [remaining, List.splitOn_eq_singleton hT, cutLines]

theorem remaining_tail {T : List UInt8} (hT : 10 ∉ T) :
    remaining cap true T = if T.length % cap = 0 then [] else [[]] := by
  simp only [remaining, List.splitOn_eq_singleton hT]

/-- A buffer full without a newline: it is a line when its line was not cut
before, and nothing otherwise. -/
theorem remaining_full (hcap : 0 < cap) {xs rest : List UInt8} (hlen : xs.length = cap)
    (hxs : 10 ∉ xs) :
    remaining cap false (xs ++ rest) = xs :: remaining cap true rest ∧
      remaining cap true (xs ++ rest) = remaining cap true rest := by
  by_cases hmem : 10 ∈ rest
  · obtain ⟨body, tail, rfl, hbody⟩ := List.eq_append_cons_of_mem hmem
    have hwhole : 10 ∉ xs ++ body := by simp [hxs, hbody]
    rw [← List.append_assoc, remaining_terminated _ hwhole, remaining_dropped _ hwhole,
      remaining_dropped _ hbody, List.take_append_of_le_length (Nat.le_of_eq hlen.symm), ← hlen,
      List.take_length]
    exact ⟨rfl, rfl⟩
  · have hwhole : 10 ∉ xs ++ rest := by simp [hxs, hmem]
    have hne : xs ++ rest ≠ [] := by
      apply List.ne_nil_of_length_pos
      rw [List.length_append]
      omega
    have hmod : (xs ++ rest).length % cap = rest.length % cap := by
      rw [List.length_append, hlen, Nat.add_mod_left]
    rw [remaining_last hwhole, remaining_tail hwhole, remaining_tail hmem, cutLast, if_neg hne, hmod,
      List.take_append_of_le_length (Nat.le_of_eq hlen.symm), ← hlen, List.take_length]
    refine ⟨?_, rfl⟩
    by_cases hrest : rest.length % xs.length = 0
    · simp [hrest]
    · have hlt : xs.length < (xs ++ rest).length := by
        rw [List.length_append]
        by_contra hle
        apply hrest
        rw [show rest.length = 0 by omega, Nat.zero_mod]
      rw [if_pos ⟨hlt, hrest⟩, if_neg hrest]
      rfl

/-- What holds of a reader in the truncating mode until it meets the end of
file. The rest of a line that was cut has no newline in it. -/
structure Cutting (cap : Nat) (v : Reader) (c : Child) : Prop where
  failed : v.failed = false
  eof : v.eof = false
  afterCr : v.afterCr = false
  fits : v.pending.length ≤ cap
  ends : Ends false c
  whole : v.ignoring = true → 10 ∉ v.pending

/-- The lines still to come. -/
def left (cap : Nat) (v : Reader) (c : Child) : List (List UInt8) :=
  remaining cap v.ignoring (total v c)

/-- What one step in the truncating mode amounts to. -/
inductive Cuts (cap : Nat) (v : Reader) (c : Child) : LineResult Delivered → Reader → Child → Prop
  | again {w : Reader} {c' : Child} (h : Cutting cap w c') (hleft : left cap w c' = left cap v c)
      (hsize : size w c' < size v c) : Cuts cap v c (.again none) w c'
  | line {w : Reader} {c' : Child} {d : Delivered} (h : Cutting cap w c')
      (hleft : left cap v c = d.line :: left cap w c') (hsize : size w c' < size v c) :
      Cuts cap v c (.normal d) w c'
  | last {w : Reader} {c' : Child} {d : Delivered} (hfailed : w.failed = false)
      (heof : w.eof = true) (hpos : 0 < size v c) (hleft : left cap v c = [d.line]) :
      Cuts cap v c (.normal d) w c'
  | eof {w : Reader} (hfailed : w.failed = false) (hnil : w.pending = [])
      (hleft : left cap v c = []) : Cuts cap v c .eof w []

theorem deliver_truncating (body : List UInt8) : deliver truncating body = .ok body := by
  simp [deliver, nulAllowed, truncating, lineLength]

/-- A reader that may have bytes of the next line behind a cut one. -/
structure Reading (cap : Nat) (v : Reader) (c : Child) : Prop where
  failed : v.failed = false
  eof : v.eof = false
  afterCr : v.afterCr = false
  fits : v.pending.length ≤ cap
  ends : Ends false c

theorem Reading.cutting (h : Reading cap v c) (hwhole : v.ignoring = true → 10 ∉ v.pending) :
    Cutting cap v c := ⟨h.failed, h.eof, h.afterCr, h.fits, h.ends, hwhole⟩

theorem Cutting.reading (h : Cutting cap v c) : Reading cap v c :=
  ⟨h.failed, h.eof, h.afterCr, h.fits, h.ends⟩

/-- A look into the buffer while reading. -/
inductive Looked (cap : Nat) (v : Reader) (c : Child) : LineResult Delivered → Reader → Prop
  | more {w : Reader} (h : Cutting cap w c) (hnone : 10 ∉ w.pending)
      (hleft : left cap w c = left cap v c) (hle : w.pending.length ≤ v.pending.length) :
      Looked cap v c (.again none) w
  | line {w : Reader} {d : Delivered} (h : Cutting cap w c)
      (hleft : left cap v c = d.line :: left cap w c) (hlt : w.pending.length < v.pending.length) :
      Looked cap v c (.normal d) w

theorem fromBuf_cut (hv : Reading cap v c) {r : LineResult Delivered}
    (h : FromBuf truncating v r w) :
    (r = .again none ∧ w = v ∧ 10 ∉ v.pending) ∨
      ∃ body rest d, v.pending = body ++ 10 :: rest ∧ 10 ∉ body ∧ w = { v with pending := rest } ∧
        r = .normal d ∧ d.line = body ∧ body.length < cap ∧ rest.length < v.pending.length ∧
        Reading cap w c := by
  obtain hmore | ⟨body, rest, hp, hbody, rfl, ⟨d, hr, -, hd⟩ | ⟨e, -, he⟩⟩ :=
    fromBuf_deliver hv.afterCr hv.eof h
  · exact .inl hmore
  · rw [deliver_truncating] at hd
    cases hd
    have hfits := hv.fits
    have hlen : v.pending.length = d.line.length + (rest.length + 1) := by
      rw [hp, List.length_append, List.length_cons]
    refine .inr ⟨d.line, rest, d, hp, hbody, rfl, hr, rfl, by omega, by omega, hv.failed, hv.eof,
      hv.afterCr, ?_, hv.ends⟩
    simp only
    omega
  · rw [deliver_truncating] at he
    cases he

theorem looked_line (hv : Reading cap v c) (hign : v.ignoring = false) {r : LineResult Delivered}
    (h : FromBuf truncating v r w) : Looked cap v c r w := by
  obtain ⟨rfl, rfl, hnone⟩ | ⟨body, rest, d, hp, hbody, rfl, rfl, hd, hfit, hlt, hw⟩ :=
    fromBuf_cut hv h
  · exact .more (hv.cutting (fun _ => hnone)) hnone rfl (Nat.le_refl _)
  · refine .line (hw.cutting (fun ht => absurd (hign.symm.trans ht) (by simp))) ?_ hlt
    simp only [left, total, hign, hp, List.append_assoc, List.cons_append]
    rw [remaining_terminated _ hbody, List.take_of_length_le (Nat.le_of_lt hfit), hd]

theorem looked_another (hv : Reading cap v c) {r : LineResult Delivered}
    (h : Another truncating v r w) : Looked cap v c r w := by
  cases h with
  | keep h hkeep =>
      cases hign : v.ignoring with
      | false => exact looked_line hv hign h
      | true =>
          obtain ⟨rfl, rfl, hnone⟩ | ⟨_, _, d, _, _, _, hr, _⟩ := fromBuf_cut hv h
          · exact .more (hv.cutting (fun _ => hnone)) hnone rfl (Nat.le_refl _)
          · exact absurd (hign.symm.trans (hkeep d hr)) (by simp)
  | drop hign h h' =>
      obtain ⟨hr, _⟩ | ⟨body, rest, d, hp, hbody, rfl, _, _, _, hlt, hw⟩ := fromBuf_cut hv h
      · cases hr
      · have hleft : left cap v c = left cap { v with pending := rest, ignoring := false } c := by
          simp only [left, total, hign, hp, List.append_assoc, List.cons_append]
          exact remaining_dropped _ hbody
        have hu : Reading cap { v with pending := rest, ignoring := false } c :=
          ⟨hw.failed, hw.eof, hw.afterCr, hw.fits, hw.ends⟩
        cases looked_line hu rfl h' with
        | more h hnone hmore hle =>
            exact .more h hnone (hmore.trans hleft.symm) (Nat.le_trans hle (Nat.le_of_lt hlt))
        | line h hline hless =>
            exact .line h (hleft.trans hline) (Nat.lt_trans hless hlt)

/-- The end of file turns the rest of the buffer into a line, or into an empty
one behind a line that was cut. -/
theorem another_eof (hfailed : v.failed = false) (hroom : v.pending.length < cap)
    (hne : v.pending ≠ []) (hnone : 10 ∉ v.pending) {r : LineResult Delivered}
    (h : Another truncating { v with eof := true } r w) :
    ∃ d, r = .normal d ∧ w.failed = false ∧ w.eof = true ∧ left cap v [] = [d.line] := by
  have hT : total v [] = v.pending := List.append_nil _
  have hpos : 0 < v.pending.length := List.length_pos_iff.mpr hne
  have hline {v u : Reader} {r : LineResult Delivered} (h : FromBuf truncating v r u)
      (heof : v.eof = true) : u.pending = [] ∧ u.eof = true ∧ u.failed = v.failed ∧
        ∃ d, r = .normal d ∧ d.line = v.pending := by
    obtain ⟨hnil, heof', hf, -, ⟨_, hr, rfl, -⟩ | ⟨-, hnul⟩⟩ := fromBuf_last heof h
    · exact ⟨hnil, heof', hf, _, hr, List.take_length⟩
    · simp [nulAllowed, truncating] at hnul
  cases h with
  | keep h hkeep =>
      obtain ⟨-, heof, hf, d, hr, hd⟩ := hline h rfl
      have hign : v.ignoring = false := hkeep d hr
      refine ⟨d, hr, hf.trans hfailed, heof, ?_⟩
      rw [left, hT, hign, remaining_last hnone, cutLast, if_neg hne, if_neg (by omega), hd,
        List.take_of_length_le (Nat.le_of_lt hroom)]
      rfl
  | drop hign h h' =>
      obtain ⟨hnil, heof, hf, -⟩ := hline h rfl
      obtain ⟨-, heof', hf', d, hr, hd⟩ := hline h' heof
      refine ⟨d, hr, (hf'.trans hf).trans hfailed, heof', ?_⟩
      have hmod : v.pending.length % cap ≠ 0 := by
        rw [Nat.mod_eq_of_lt hroom]
        omega
      have hign' : v.ignoring = true := hign
      rw [left, hT, hign', remaining_tail hnone, if_neg hmod, hd, hnil]

theorem fill_cut (hv : Cutting cap v c) (hroom : v.pending.length < cap) (hnone : 10 ∉ v.pending)
    {o : Option (LineResult Delivered)} (h : Fill truncating cap v c o w c') :
    (o = none ∧ Cutting cap w c' ∧ 10 ∉ w.pending ∧ left cap w c' = left cap v c ∧
        size w c' < size v c) ∨
      ∃ r, o = some r ∧ Cuts cap v c r w c' := by
  cases h.filled hv.ends hroom with
  | again hends hbytes hlt =>
      refine .inr ⟨_, rfl, .again ⟨hv.failed, hv.eof, hv.afterCr, hv.fits, hends, hv.whole⟩
        (by rw [left, left, total, total, hbytes]) ?_⟩
      simp only [size]
      omega
  | error hfails => cases hfails
  | eof _ hc hempty =>
      refine .inr ⟨_, rfl, .eof hv.failed hempty ?_⟩
      have hT : total v c = [] := by rw [total, hempty, hc]; rfl
      rw [left, hT]
      cases v.ignoring
      · rw [remaining_last List.not_mem_nil]
        simp [cutLast]
      · rw [remaining_tail List.not_mem_nil]
        simp
  | last _ hc hne hnext ho =>
      obtain ⟨d, rfl, hfailed, heof, hleft⟩ := another_eof hv.failed hroom hne hnone hnext
      refine .inr ⟨_, ho, .last hfailed heof ?_ (hc ▸ hleft)⟩
      have hpos := List.length_pos_iff.mpr hne
      simp only [size]
      omega
  | data hread hends hbytes hlt hfits hnext ho =>
      rename_i data r
      let u : Reader := { v with pending := v.pending ++ data }
      have hu : Reading cap u c' := ⟨hv.failed, hv.eof, hv.afterCr, hfits, hends⟩
      have hleft : left cap u c' = left cap v c := by
        simp only [left, total, u, ← hbytes, List.append_assoc]
      have hsize {w : Reader} (hle : w.pending.length ≤ u.pending.length) :
          size w c' < size v c := by
        simp only [u, List.length_append] at hle
        simp only [size]
        omega
      cases looked_another hu hnext with
      | more hw hnone' hmore hle =>
          exact .inl ⟨ho, hw, hnone', hmore.trans hleft, hsize hle⟩
      | line hw hline hless =>
          exact .inr ⟨_, ho, .line hw (hleft ▸ hline) (hsize (Nat.le_of_lt hless))⟩

theorem Cuts.weaken {v' : Reader} {d : Child} {r : LineResult Delivered} (h : Cuts cap v' d r w c')
    (hleft : left cap v' d = left cap v c) (hsize : size v' d < size v c) :
    Cuts cap v c r w c' := by
  cases h with
  | again hw ht hs => exact .again hw (ht.trans hleft) (Nat.lt_trans hs hsize)
  | line hw ht hs => exact .line hw (hleft ▸ ht) (Nat.lt_trans hs hsize)
  | last hf heof hpos ht => exact .last hf heof (Nat.lt_trans hpos hsize) (hleft ▸ ht)
  | eof hf hnil ht => exact .eof hf hnil (hleft ▸ ht)

theorem round_cut (hcap : 0 < cap) (hv : Cutting cap v c) (hnone : 10 ∉ v.pending)
    {o : Option (LineResult Delivered)} (h : LineReader.Round truncating cap v c o w c') :
    (o = none ∧ Cutting cap w c' ∧ 10 ∉ w.pending ∧ left cap w c' = left cap v c ∧
        size w c' < size v c) ∨
      ∃ r, o = some r ∧ Cuts cap v c r w c' := by
  cases h with
  | cut hfull hign =>
      obtain ⟨hline, -⟩ : _ ∧ remaining cap true (v.pending ++ childBytes c) = _ :=
        remaining_full hcap hfull hnone
      refine .inr ⟨_, rfl, .line ⟨hv.failed, hv.eof, hv.afterCr, Nat.zero_le _, hv.ends,
        fun _ => List.not_mem_nil⟩ ?_ ?_⟩
      · rw [left, hign, total, hline, Delivered.line, ← hfull, List.take_length]
        rfl
      · simp only [size, List.length_nil]
        omega
  | split _ _ hf | tooLong _ _ hf => exact absurd hf.1 (by decide)
  | skip hfull hign h =>
      obtain ⟨-, hskip⟩ : _ ∧ remaining cap true (v.pending ++ childBytes c) = _ :=
        remaining_full hcap hfull hnone
      let u : Reader := { v with pending := [] }
      have hu : Cutting cap u c := ⟨hv.failed, hv.eof, hv.afterCr, Nat.zero_le _, hv.ends,
        fun _ => List.not_mem_nil⟩
      have hleft : left cap u c = left cap v c := by
        simp only [left, total, u, hign, hskip, List.nil_append]
      have hsize : size u c < size v c := by
        simp only [size, u, List.length_nil]
        omega
      obtain ⟨ho, hw, hnone', ht, hs⟩ | ⟨r, ho, hr⟩ := fill_cut hu hcap List.not_mem_nil h
      · exact .inl ⟨ho, hw, hnone', ht.trans hleft, Nat.lt_trans hs hsize⟩
      · exact .inr ⟨r, ho, hr.weaken hleft hsize⟩
  | fill hroom h => exact fill_cut hv hroom hnone h

theorem rounds_cut (hcap : 0 < cap) {r : LineResult Delivered}
    (h : Rounds truncating cap v c r w c') (hv : Cutting cap v c) (hnone : 10 ∉ v.pending) :
    Cuts cap v c r w c' := by
  induction h with
  | done h =>
      obtain ⟨ho, _⟩ | ⟨r, ho, hr⟩ := round_cut hcap hv hnone h
      · cases ho
      · cases ho
        exact hr
  | next h _ ih =>
      obtain ⟨_, hw, hnone', hleft, hsize⟩ | ⟨r, ho, _⟩ := round_cut hcap hv hnone h
      · exact (ih hw hnone').weaken hleft hsize
      · cases ho

theorem fetch_cut (hcap : 0 < cap) (hv : Cutting cap v c) {r : LineResult Delivered}
    (h : Fetch truncating cap v c r w c') : Cuts cap v c r w c' := by
  cases h with
  | failed hf => exact absurd (hv.failed.symm.trans hf) (by simp)
  | atEof _ heof => exact absurd (hv.eof.symm.trans heof) (by simp)
  | buffered _ _ h =>
      have hign : v.ignoring = false := by
        cases hign : v.ignoring with
        | false => rfl
        | true =>
            obtain ⟨hr, _⟩ | ⟨body, rest, _, hp, _⟩ := fromBuf_cut hv.reading h
            · cases hr
            · exact absurd (by simp [hp]) (hv.whole hign)
      cases looked_line hv.reading hign h with
      | line hw hleft hlt =>
          refine .line hw hleft ?_
          simp only [size]
          omega
  | bad _ _ h =>
      obtain ⟨hr, _⟩ | ⟨_, _, _, _, _, _, hr, _⟩ := fromBuf_cut hv.reading h <;> cases hr
  | read _ _ hmore h =>
      have hsame : { v with afterCr := false } = v := by rw [← hv.afterCr]
      rw [hsame] at h
      exact rounds_cut hcap h hv hmore

/-- The results of truncating line fetches until nothing else comes. -/
theorem lineGets_cut {s : ZStreamLine × Child} (hcap : 0 < cap) (hwf : Wf s.1)
    (hflags : s.1.flags = truncating) (hsize : s.1.bufsize = cap)
    (hcut : Cutting cap (view s.1) s.2) (n : Nat) :
    ∃ rs t, lineGets n s = .ok (rs, t) ∧
      Run.Drains (fun r => if r = .again none then [] else [r]) (fun _ => True) .eof
        ((left cap (view s.1) s.2).map .normal) (size (view s.1) s.2) rs := by
  let Inv (t : ZStreamLine × Child) : Prop := Wf t.1 ∧ t.1.flags = truncating ∧
    t.1.bufsize = cap ∧ Cutting cap (view t.1) t.2
  refine Run.run_drains Inv (Ended .eof) (fun s => (left cap (view s.1) s.2).map LineResult.normal)
    (fun s => size (view s.1) s.2) (fun _ _ h => lineGet_ended h) ?_ _ ⟨hwf, hflags, hsize, hcut⟩
    (Run.meets_true (P := fun _ _ => True) _ _ _ (fun _ _ _ => trivial))
  rintro - ⟨s, c⟩ ⟨hwf, hflags, hsize, hcut⟩ -
  have hcr (_ : s.error = false) (_ : s.eof = false) : ¬CrlfSplit s.flags (view s) :=
    not_crlfSplit hcut.afterCr
  obtain ⟨d, t, c', hrun, hrel, ht, htflags, htsize⟩ := lineGet_refines hwf c (.inl (hsize ▸ hcap)) hcr
  rw [hflags, hsize] at hrel
  refine ⟨outcome d, (t, c'), hrun, ?_⟩
  have hcap' : 0 < t.bufsize := by omega
  cases fetch_cut hcap hcut hrel with
  | again hcut' hleft hlt =>
      exact .inl ⟨⟨ht, htflags.trans hflags, htsize.trans hsize, hcut'⟩, trivial,
        by simp [outcome, hleft], hlt⟩
  | line hcut' hleft hlt =>
      exact .inl ⟨⟨ht, htflags.trans hflags, htsize.trans hsize, hcut'⟩, trivial,
        by simp [outcome, hleft], hlt⟩
  | last hfailed heof hpos hleft =>
      exact .inr (.inl ⟨trivial, by simp [outcome, hleft], hpos, ht,
        .inr ⟨rfl, hcap', hfailed, .inl heof⟩⟩)
  | eof hfailed hnil hleft =>
      exact .inr (.inr ⟨rfl, by simp [hleft], ht,
        .inr ⟨rfl, hcap', hfailed, .inr ⟨hnil, rfl⟩⟩⟩)

/-- The lines of a stream, each as long as the buffer can hold it. -/
def cutTo (cap : Nat) (T : List UInt8) : List (List UInt8) := (Eol.nl.lines T).map (List.take cap)

/-- What is delivered beyond them: an empty line for the end of file in the
rest of an overlong line. -/
def extra (cap : Nat) (last : List UInt8) : List (List UInt8) :=
  if last.length ≤ cap ∨ cap ∣ last.length then [] else [[]]

theorem cutLines_eq (pieces : List (List UInt8)) (hne : pieces ≠ []) :
    cutLines cap pieces = (pieces.dropLast ++
      if pieces.getLast hne = [] then [] else [pieces.getLast hne]).map (List.take cap) ++
        extra cap (pieces.getLast hne) := by
  induction pieces with
  | nil => exact absurd rfl hne
  | cons body rest ih =>
      cases rest with
      | nil =>
          have hcond : (cap < body.length ∧ body.length % cap ≠ 0) ↔
              ¬(body.length ≤ cap ∨ cap ∣ body.length) := by
            rw [Nat.dvd_iff_mod_eq_zero]
            omega
          rw [cutLines, cutLast, extra]
          simp only [List.getLast_singleton, List.dropLast_singleton, List.nil_append, hcond]
          by_cases hbody : body = [] <;>
            by_cases hfit : body.length ≤ cap ∨ cap ∣ body.length <;> simp [hbody, hfit]
      | cons next rest =>
          rw [cutLines, ih (List.cons_ne_nil _ _)]
          simp

theorem strip_nl (lines : List (List UInt8)) : lines.map Eol.nl.strip = lines := by
  induction lines with
  | nil => rfl
  | cons line lines ih => rw [List.map_cons, ih]; rfl

theorem remaining_eq (T : List UInt8) :
    remaining cap false T = cutTo cap T ++ extra cap (Eol.nl.unterminated T) := by
  rw [remaining, cutLines_eq _ (List.splitOn_ne_nil _ _), cutTo, Eol.lines, strip_nl]
  rfl

theorem delivers_cut (bufsize : UInt64) (hpos : 0 < bufsize) (memory : Nat → UInt8)
    (reads : List (Option (List UInt8))) :
    Delivers (lineNew bufsize truncating memory, ofReads reads)
      (cutTo bufsize.toNat (readBytes reads) ++
        extra bufsize.toNat (Eol.nl.unterminated (readBytes reads))) := by
  have hc : Ends false (ofReads reads) := by
    simpa [ending] using ends_ofReads reads false
  obtain ⟨⟨hwf, -, -, hlive⟩, hstream⟩ := lineNew_open bufsize truncating memory hc
  have hcap : 0 < bufsize.toNat := by simpa using UInt64.lt_iff_toNat_lt.mp hpos
  have hcut : Cutting bufsize.toNat (view (lineNew bufsize truncating memory)) (ofReads reads) :=
    ⟨hlive.failed, hlive.eof, hlive.afterCr, hlive.fits, hlive.ends, fun ht => by cases ht⟩
  apply delivers_of_drains
  intro n
  obtain ⟨rs, t, hrun, hdrains⟩ := lineGets_cut hcap hwf rfl rfl hcut n
  rw [show left _ _ _ = remaining _ false (stream _) from rfl, hstream, childBytes_ofReads,
    remaining_eq] at hdrains
  exact ⟨rs, t, hrun, hdrains⟩

/-- In the truncating mode every line of the stream comes out cut to the size
of the buffer, and nothing else unless the last line has no newline and is
neither short enough nor a multiple of that size. -/
theorem lineGets_truncated (bufsize : UInt64) (hpos : 0 < bufsize) (memory : Nat → UInt8)
    (reads : List (Option (List UInt8))) :
    Delivers (lineNew bufsize truncating memory, ofReads reads)
      (cutTo bufsize.toNat (readBytes reads)) ↔
    (Eol.nl.unterminated (readBytes reads)).length ≤ bufsize.toNat ∨
      bufsize.toNat ∣ (Eol.nl.unterminated (readBytes reads)).length := by
  have hcut := delivers_cut bufsize hpos memory reads
  rw [extra] at hcut
  split at hcut
  · rename_i hfits
    rw [List.append_nil] at hcut
    exact ⟨fun _ => hfits, fun _ => hcut⟩
  · rename_i hlong
    refine ⟨fun h => ?_, fun h => absurd h hlong⟩
    have hlen := congrArg List.length (h.unique hcut)
    simp at hlen

theorem lineGets_truncated_newline :
    Delivers (lineNew 4 truncating (fun _ => 0), ofReads [some [97, 98, 99], none, some [100, 101, 10]])
      [[97, 98, 99, 100]] :=
  (lineGets_truncated 4 (by decide) (fun _ => 0) [some [97, 98, 99], none, some [100, 101, 10]]).mpr
    (by decide)

/-- The newline missing, an empty line follows the cut one. -/
theorem lineGets_not_truncated :
    ¬∀ (bufsize : UInt64) (_ : 0 < bufsize) (memory : Nat → UInt8)
      (reads : List (Option (List UInt8))),
      Delivers (lineNew bufsize truncating memory, ofReads reads)
        (cutTo bufsize.toNat (readBytes reads)) := by
  intro h
  have hcut := delivers_cut 4 (by decide) (fun _ => 0) [some [97, 98, 99, 100, 101, 102]]
  have hlines := (h 4 (by decide) (fun _ => 0) [some [97, 98, 99, 100, 101, 102]]).unique hcut
  exact absurd hlines (by decide)

end Libzorpll.LineTruncate
