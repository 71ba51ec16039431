import Libzorpll.LineFraming

/-! Line fetches into destinations of any size, with overlong lines delivered
in pieces. -/

namespace Libzorpll.LineSplit

open ChildStream StreamLine LineReader LineBuffer LineCalls LineFraming

/-- The flags of a stream that splits its lines. -/
def splitting (mode : Eol) : LineFlags := { mode.flags false false with split := true }

variable {mode : Eol} {cap : Nat} {v w : Reader} {c c' : Child}

theorem eolByte_splitting (mode : Eol) : eolByte (splitting mode) = mode.byte :=
  eolByte_flags mode false false

theorem deliver_splitting (body : List UInt8) :
    deliver (splitting mode) body = .ok (mode.strip body) := deliver_flags mode false false body

/-- What holds of a reader that splits lines until it meets the end of file. -/
structure Splitting (mode : Eol) (cap : Nat) (v : Reader) (c : Child) : Prop where
  failed : v.failed = false
  eof : v.eof = false
  ignoring : v.ignoring = false
  fits : v.pending.length ≤ cap
  ends : Ends false c
  clean : v.afterCr = true → v.pending.head? ≠ some mode.byte

theorem Splitting.not_crlfSplit (h : Splitting mode cap v c) : ¬CrlfSplit (splitting mode) v := by
  rintro ⟨-, -, -, hcr, rest, hp⟩
  rw [eolByte_splitting] at hp
  exact h.clean hcr (by rw [hp]; rfl)

/-- What one fetch of such a reader amounts to. -/
inductive Splits (mode : Eol) (cap : Nat) (v : Reader) (c : Child) :
    LineResult Delivered → Reader → Child → Prop
  | again {w : Reader} {c' : Child} (h : Splitting mode cap w c') (htotal : total w c' = total v c)
      (hsize : size w c' < size v c) : Splits mode cap v c (.again none) w c'
  | whole {w : Reader} {c' : Child} {d : Delivered} (h : Splitting mode cap w c')
      (hheld : d.held = (v.pending ++ promptBytes c).take cap) (hlen : d.held.length = cap)
      (hd : d.length = cap) (hnone : mode.byte ∉ d.held) (hnil : w.pending = [])
      (htotal : total v c = d.held ++ childBytes c')
      (hsize : d.held.length + 2 * childSize c' ≤ size v c) :
      Splits mode cap v c (.again (some d)) w c'
  | line {w : Reader} {c' : Child} {d : Delivered} {body : List UInt8}
      (h : Splitting mode cap w c') (hheld : d.held = body ++ mode.byte :: w.pending)
      (hbody : mode.byte ∉ body) (hline : d.line = mode.strip body)
      (hd : d.length ≤ d.held.length) (hfits : d.held.length ≤ cap)
      (htotal : total v c = d.held ++ childBytes c')
      (hsize : d.held.length + 2 * childSize c' ≤ size v c) :
      Splits mode cap v c (.normal d) w c'
  | last {w : Reader} (hnone : mode.byte ∉ total v c) (hne : total v c ≠ [])
      (hfit : (total v c).length < cap) (hquiet : .again ∉ c) (hfailed : w.failed = false)
      (hnil : w.pending = []) :
      Splits mode cap v c (.normal ⟨total v c, (total v c).length⟩) w []
  | eof {w : Reader} (hT : total v c = []) (hfailed : w.failed = false) (hnil : w.pending = []) :
      Splits mode cap v c .eof w []

/-- A part of a call that only takes bytes from the child. -/
structure Onward (v : Reader) (c : Child) (w : Reader) (c' : Child) : Prop where
  total : total w c' = total v c
  size : size w c' ≤ size v c
  prompt : w.pending ++ promptBytes c' = v.pending ++ promptBytes c
  quiet : .again ∉ c' → .again ∉ c

theorem Splits.before {u : Reader} {b : Child} {r : LineResult Delivered}
    (h : Splits mode cap u b r w c') (ho : Onward v c u b) : Splits mode cap v c r w c' := by
  have ht := ho.total
  have hs := ho.size
  cases h with
  | again hw htotal hsize => exact .again hw (htotal.trans ht) (Nat.lt_of_lt_of_le hsize hs)
  | whole hw hheld hlen hd hnone hnil htotal hsize =>
      exact .whole hw (ho.prompt ▸ hheld) hlen hd hnone hnil (ht ▸ htotal) (Nat.le_trans hsize hs)
  | line hw hheld hbody hline hd hfits htotal hsize =>
      exact .line hw hheld hbody hline hd hfits (ht ▸ htotal) (Nat.le_trans hsize hs)
  | last hnone hne hfit hquiet hfailed hnil =>
      rw [ht] at hnone hne hfit ⊢
      exact .last hnone hne hfit (ho.quiet hquiet) hfailed hnil
  | eof hT hfailed hnil => exact .eof (ht ▸ hT) hfailed hnil

/-- A look into the buffer. -/
theorem fromBuf_split (hv : Splitting mode cap v c) {r : LineResult Delivered}
    (h : FromBuf (splitting mode) v r w) :
    (r = .again none ∧ w = { v with afterCr := false } ∧ mode.byte ∉ v.pending) ∨
      ∃ d body, r = .normal d ∧ d.held = v.pending ∧ d.held = body ++ mode.byte :: w.pending ∧
        mode.byte ∉ body ∧ d.line = mode.strip body ∧ d.length ≤ d.held.length ∧
        Splitting mode cap w c := by
  have hsound := fromBuf_sound h hv.not_crlfSplit
  have hcr : v.afterCr = true → ∀ rest, v.pending ≠ eolByte (splitting mode) :: rest := by
    intro hcr rest hp
    rw [eolByte_splitting] at hp
    exact hv.clean hcr (by rw [hp]; rfl)
  have h' := fromBuf_deliver_after hcr hv.eof h
  rw [eolByte_splitting] at h'
  obtain hmore | ⟨body, rest, hp, hbody, rfl, ⟨d, rfl, hheld, hd⟩ | ⟨e, -, he⟩⟩ := h'
  · exact .inl hmore
  · rw [deliver_splitting, Except.ok.injEq] at hd
    have hfits := hv.fits
    refine .inr ⟨d, body, rfl, hheld, hheld.trans hp, hbody, hd.symm,
      Nat.le_of_add_right_le hsound, hv.failed, hv.eof,
      hv.ignoring, ?_, hv.ends, fun ht => by cases ht⟩
    rw [hp, List.length_append, List.length_cons] at hfits
    simp only
    omega
  · rw [deliver_splitting] at he
    cases he

theorem fill_split (hv : Splitting mode cap v c) (hcr : v.afterCr = false)
    (hroom : v.pending.length < cap) (hnone : mode.byte ∉ v.pending)
    {o : Option (LineResult Delivered)} (h : Fill (splitting mode) cap v c o w c') :
    (o = none ∧ Splitting mode cap w c' ∧ w.afterCr = false ∧ mode.byte ∉ w.pending ∧
        Onward v c w c') ∨
      ∃ r, o = some r ∧ Splits mode cap v c r w c' := by
  cases h.filled hv.ends hroom with
  | again hends hbytes hlt =>
      refine .inr ⟨_, rfl, .again ⟨hv.failed, hv.eof, hv.ignoring, hv.fits, hends, hv.clean⟩
        (by rw [total, total, hbytes]) ?_⟩
      simp only [size]
      omega
  | error hfails => cases hfails
  | eof _ hc hempty =>
      refine .inr ⟨_, rfl, .eof ?_ hv.failed hempty⟩
      rw [total, hempty, hc]
      rfl
  | last _ hc hne hnext ho =>
      subst hc
      have hT : total v [] = v.pending := List.append_nil _
      let u : Reader := { v with eof := true }
      obtain ⟨hnil, -, hfailed, -, hline⟩ :=
        fromBuf_last rfl (another_keep (v := u) hv.ignoring hnext)
      obtain ⟨_, rfl, rfl, -⟩ | ⟨-, hnul⟩ := hline
      · refine .inr ⟨_, ho, ?_⟩
        have hlast : Splits mode cap v [] (.normal ⟨total v [], (total v []).length⟩) w [] := by
          refine .last ?_ ?_ ?_ List.not_mem_nil (hfailed.trans hv.failed) hnil
          all_goals rw [hT]
          · exact hnone
          · exact hne
          · exact hroom
        rwa [hT] at hlast
      · rw [show splitting mode = { mode.flags false false with split := true } from rfl] at hnul
        exact absurd (hnul.symm.trans (nulAllowed_flags mode false false _)) (by simp)
  | data hread hends hbytes hlt hfits hnext ho =>
      rename_i data r
      obtain ⟨hprompt, hquiet⟩ := childRead_prompt hread
      let u : Reader := { v with pending := v.pending ++ data }
      have hu : Splitting mode cap u c' :=
        ⟨hv.failed, hv.eof, hv.ignoring, hfits, hends,
          fun ht => absurd (hcr.symm.trans ht) (by simp)⟩
      have hon : Onward v c u c' := by
        refine ⟨?_, ?_, ?_, ?_⟩
        · rw [total, total, ← hbytes, List.append_assoc]
        · simp only [size, u, List.length_append]
          omega
        · rw [← hprompt, List.append_assoc]
        · exact fun hq hm => hq (hquiet.mp hm)
      obtain ⟨rfl, rfl, hmore⟩ | ⟨d, body, rfl, hheld, hsplit, hbody, hline, hd, hw⟩ :=
        fromBuf_split hu (another_keep hu.ignoring hnext)
      · have hsame : { u with afterCr := false } = u := by rw [← hcr]
        refine .inl ⟨ho, ?_⟩
        rw [hsame]
        exact ⟨hu, hcr, hmore, hon⟩
      · refine .inr ⟨_, ho, Splits.before (.line hw hsplit hbody hline hd ?_ ?_ ?_) hon⟩
        all_goals rw [hheld]
        · exact hfits
        · rfl
        · exact Nat.le_refl _

theorem rounds_split {r : LineResult Delivered} (h : Rounds (splitting mode) cap v c r w c')
    (hv : Splitting mode cap v c) (hcr : v.afterCr = false) (hnone : mode.byte ∉ v.pending) :
    Splits mode cap v c r w c' := by
  induction h with
  | done h =>
      cases h with
      | cut _ _ hf => exact absurd hf (by simp [splitting, Eol.flags])
      | split hfull hign hf =>
          rename_i v c
          refine .whole ⟨hv.failed, hv.eof, hv.ignoring, Nat.zero_le _, hv.ends,
            fun _ => by simp⟩ ?_ hfull rfl hnone rfl rfl (Nat.le_refl _)
          rw [← hfull, List.take_left]
      | tooLong _ _ hf => exact absurd hf.2 (by simp [splitting])
      | skip _ hign => exact absurd (hv.ignoring.symm.trans hign) (by simp)
      | fill hroom h =>
          obtain ⟨ho, _⟩ | ⟨r, ho, hr⟩ := fill_split hv hcr hroom hnone h
          · cases ho
          · cases ho
            exact hr
  | next h _ ih =>
      cases h with
      | skip _ hign => exact absurd (hv.ignoring.symm.trans hign) (by simp)
      | fill hroom h =>
          obtain ⟨_, hw, hcr', hmore, hon⟩ | ⟨r, ho, _⟩ := fill_split hv hcr hroom hnone h
          · exact (ih hw hcr' hmore).before hon
          · cases ho

theorem fetch_split (hv : Splitting mode cap v c) {r : LineResult Delivered}
    (h : Fetch (splitting mode) cap v c r w c') : Splits mode cap v c r w c' := by
  have hfits := hv.fits
  cases h with
  | failed hf => exact absurd (hv.failed.symm.trans hf) (by simp)
  | atEof _ heof => exact absurd (hv.eof.symm.trans heof) (by simp)
  | buffered _ _ h =>
      obtain ⟨hr, _⟩ | ⟨d, body, hr, hheld, hsplit, hbody, hline, hd, hw⟩ := fromBuf_split hv h
      · cases hr
      · cases hr
        refine .line hw hsplit hbody hline hd ?_ ?_ ?_
        all_goals rw [hheld]
        · exact hfits
        · rfl
        · exact Nat.le_refl _
  | bad _ _ h =>
      obtain ⟨hr, _⟩ | ⟨d, body, hr, _⟩ := fromBuf_split hv h <;> cases hr
  | read _ _ hmore h =>
      rw [eolByte_splitting] at hmore
      have hu : Splitting mode cap { v with afterCr := false } c :=
        ⟨hv.failed, hv.eof, hv.ignoring, hfits, hv.ends, fun ht => by cases ht⟩
      exact (rounds_split h hu rfl hmore).before ⟨rfl, Nat.le_refl _, rfl, id⟩

/-- A line stream that splits its lines and has met no end. -/
structure Ready (mode : Eol) (cap : Nat) (s : ZStreamLine × Child) : Prop where
  wf : Wf s.1
  flags : s.1.flags = splitting mode
  bufsize : s.1.bufsize = cap
  live : Splitting mode cap (view s.1) s.2

/-- A line stream with nothing left. -/
structure Drained (s : ZStreamLine × Child) : Prop where
  wf : Wf s.1
  bufsize : 0 < s.1.bufsize
  error : s.1.error = false
  pending : pending s.1 = []
  child : s.2 = []

/-- What must not happen in one call. A last line without its end has to fit in
the destination when this call meets the end of file. A full buffer must not be
handed out whole when its last byte begins the end of line. -/
def CopyOk (mode : Eol) (cap dest : Nat) (s : ZStreamLine × Child) : Prop :=
  (.again ∉ s.2 → mode.byte ∉ stream s → (stream s).length < cap → (stream s).length ≤ dest) ∧
    ¬(mode = .crlf ∧ cap ≤ dest ∧ cap ≤ (pending s.1 ++ promptBytes s.2).length ∧
      mode.byte ∉ (pending s.1 ++ promptBytes s.2).take cap ∧
      ((pending s.1 ++ promptBytes s.2).take cap).getLast? = some 13 ∧
      ((stream s).drop cap).head? = some mode.byte)

instance (dest : Nat) (s : ZStreamLine × Child) : Decidable (CopyOk mode cap dest s) :=
  inferInstanceAs (Decidable (_ ∧ _))

/-- What one call brings of the stream. -/
inductive Brings (mode : Eol) (cap : Nat) (s : ZStreamLine × Child) :
    LineResult (List UInt8) → ZStreamLine × Child → Prop
  | again {t : ZStreamLine × Child} (h : Ready mode cap t) (hstream : stream t = stream s)
      (hsize : workLeft t < workLeft s) : Brings mode cap s (.again none) t
  | piece {t : ZStreamLine × Child} {p : List UInt8} (h : Ready mode cap t)
      (hstream : stream s = p ++ stream t) (hnone : mode.byte ∉ p)
      (hclean : mode = .crlf → p.getLast? = some 13 → (stream t).head? ≠ some mode.byte)
      (hsize : workLeft t < workLeft s) : Brings mode cap s (.again (some p)) t
  | line {t : ZStreamLine × Child} {body : List UInt8} (h : Ready mode cap t)
      (hstream : stream s = body ++ mode.byte :: stream t) (hnone : mode.byte ∉ body)
      (hsize : workLeft t < workLeft s) : Brings mode cap s (.normal (mode.strip body)) t
  | last {t : ZStreamLine × Child} (h : Drained t) (hnone : mode.byte ∉ stream s)
      (hne : stream s ≠ []) : Brings mode cap s (.normal (stream s)) t
  | eof {t : ZStreamLine × Child} (h : Drained t) (hstream : stream s = []) :
      Brings mode cap s .eof t

theorem strip_length_le (body : List UInt8) : (mode.strip body).length ≤ body.length := by
  rw [Eol.strip]
  split
  · simp
  · exact Nat.le_refl _

theorem lineGetCopy_brings (hcap : 0 < cap) {s : ZStreamLine × Child} (h : Ready mode cap s)
    {dest : Nat} (hdest : 0 < dest) (hok : CopyOk mode cap dest s) :
    ∃ r t, lineGetCopy dest s = .ok (r, t) ∧ Brings mode cap s r t := by
  obtain ⟨s, c⟩ := s
  obtain ⟨hwf, hflags, hsize, hlive⟩ := h
  simp only at hwf hflags hsize hlive
  have hcr (_ : s.error = false) (_ : s.eof = false) : ¬CrlfSplit s.flags (view s) := by
    rw [hflags]
    exact hlive.not_crlfSplit
  obtain ⟨d, w, r, t, c', hrun, hrel, hcopied, ht, htflags, htsize, -⟩ :=
    lineGetCopy_returns hwf c (.inr hlive.ignoring) hdest
      (fun _ _ _ h => (fetch_sound h hcr).copySound dest)
  rw [hflags, hsize] at hrel
  rw [hflags] at hcopied
  generalize hu : view t = u at hcopied
  have hready (hlive' : Splitting mode cap u c') : Ready mode cap (t, c') :=
    ⟨ht, htflags.trans hflags, htsize.trans hsize, hu ▸ hlive'⟩
  have hstream : stream (t, c') = u.pending ++ childBytes c' := by rw [← hu]; rfl
  have hwork : workLeft (t, c') = u.pending.length + 2 * childSize c' := by rw [← hu]; rfl
  have hpos : 0 < t.bufsize := by omega
  have hdrained (hc : c' = []) (hfailed : u.failed = false) (hnil : u.pending = []) :
      Drained (t, c') := by
    subst hu
    exact ⟨ht, hpos, hfailed, hnil, hc⟩
  refine ⟨r, (t, c'), hrun, ?_⟩
  have hsplits := fetch_split hlive hrel
  cases hcopied with
  | tooSmall _ _ hf => exact absurd hf (by simp [splitting])
  | fits hfits =>
      cases hsplits with
      | again hw htotal hlt => exact .again (hready hw) (hstream.trans htotal) (hwork ▸ hlt)
      | whole hw hheld hlen hd hnone hnil htotal hle =>
          rename_i d
          have hdest' : cap ≤ dest := by
            by_contra hlt
            exact hfits ⟨d, rfl, by omega⟩
          have hline : d.line = d.held := by
            rw [Delivered.line, hd, ← hlen, List.take_length]
          rw [outcome, hline]
          have hrest : stream (s, c) = d.held ++ stream (t, c') := by
            rw [hstream, hnil]
            exact htotal
          refine .piece (hready hw) hrest hnone (fun hmode hlast hhead => ?_) ?_
          · refine hok.2 ⟨hmode, hdest', ?_, ?_, ?_, ?_⟩
            · have hle' := congrArg List.length hheld
              rw [List.length_take, hlen] at hle'
              change cap ≤ ((view s).pending ++ promptBytes c).length
              omega
            · exact hheld ▸ hnone
            · exact hheld ▸ hlast
            · rwa [hrest, ← hlen, List.drop_left]
          · have hle' : d.held.length + 2 * childSize c' ≤ workLeft (s, c) := hle
            rw [hwork, hnil, List.length_nil]
            omega
      | line hw hheld hbody hline hd hfit htotal hle =>
          rename_i d body
          rw [outcome, hline]
          refine .line (hready hw) ?_ hbody ?_
          · rw [hstream]
            change total (view s) c = _
            rw [htotal, hheld, List.append_assoc, List.cons_append]
          · have hle' : d.held.length + 2 * childSize c' ≤ workLeft (s, c) := hle
            rw [hheld, List.length_append, List.length_cons] at hle'
            rw [hwork]
            omega
      | last hnone hne hfit hquiet hfailed hnil =>
          rw [outcome, Delivered.line, List.take_length]
          exact .last (hdrained rfl hfailed hnil) hnone hne
      | eof hT hfailed hnil => exact .eof (hdrained rfl hfailed hnil) hT
  | split hr hd hf =>
      rename_i d
      have htake : d.held.take dest ++ d.held.drop dest = d.held := List.take_append_drop _ _
      have hpiece {body : List UInt8} (hw : Splitting mode cap w c') (hlen : d.length ≤ d.held.length)
          (hfit : d.held.length ≤ cap) (hbody : mode.byte ∉ body) (hlead : body <+: d.held)
          (hlong : dest < body.length) (htotal : total (view s) c = d.held ++ childBytes c')
          (hle : d.held.length + 2 * childSize c' ≤ size (view s) c) :
          Brings mode cap (s, c) (.again (some (d.held.take dest))) (t, c') := by
        obtain ⟨rest, hrest⟩ := hlead
        have hfirst : d.held.take dest = body.take dest := by
          rw [← hrest, List.take_append_of_le_length (Nat.le_of_lt hlong)]
        have hnext : d.held.drop dest = body[dest] :: (body.drop (dest + 1) ++ rest) := by
          rw [← hrest, List.drop_append_of_le_length (Nat.le_of_lt hlong),
            List.drop_eq_getElem_cons hlong, List.cons_append]
        have hhead : body[dest] ≠ mode.byte := fun he => hbody (he ▸ List.getElem_mem hlong)
        have hbytes : stream (t, c') = d.held.drop dest ++ childBytes c' := hstream
        refine .piece (hready ⟨hw.failed, hw.eof, hw.ignoring, ?_, hw.ends, ?_⟩) ?_ ?_ ?_ ?_
        · simp only [List.length_drop]
          omega
        · intro _
          simpa [hnext] using hhead
        · rw [hbytes, ← List.append_assoc, htake]
          exact htotal
        · rw [hfirst]
          exact fun hm => hbody (List.mem_of_mem_take hm)
        · intro _ _
          rw [hbytes, hnext]
          simpa using hhead
        · have hle' : d.held.length + 2 * childSize c' ≤ workLeft (s, c) := hle
          rw [hwork]
          simp only [List.length_drop]
          omega
      cases hsplits with
      | again | eof => cases hr
      | whole hw hheld hlen hlength hnone hnil htotal hle =>
          cases hr
          exact hpiece hw (by omega) (by omega) hnone (List.prefix_refl _) (by omega) htotal hle
      | line hw hheld hbody hline hlength hfit htotal hle =>
          rename_i body
          cases hr
          have hlen : d.length = (mode.strip body).length := by
            rw [← hline, Delivered.line, List.length_take]
            omega
          have hshort : (mode.strip body).length ≤ body.length := strip_length_le body
          exact hpiece hw hlength hfit hbody ⟨_, hheld.symm⟩ (by omega) htotal hle
      | last hnone hne hfit hquiet hfailed hnil =>
          cases hr
          have hfits := hok.1 hquiet hnone hfit
          exact absurd hd (Nat.not_lt_of_le hfits)

theorem lineGetCopy_drained {s : ZStreamLine × Child} (h : Drained s) {dest : Nat}
    (hdest : 0 < dest) : ∃ t, lineGetCopy dest s = .ok (.eof, t) ∧ Drained t := by
  obtain ⟨s, c⟩ := s
  obtain ⟨hwf, hcap, herr, hnil, rfl⟩ := h
  have hcr (_ : s.error = false) (_ : s.eof = false) : ¬CrlfSplit s.flags (view s) := by
    rintro ⟨-, -, -, -, rest, hp⟩
    exact absurd (hnil.symm.trans hp) (by simp)
  obtain ⟨d, w, r, t, c', hrun, hrel, hcopied, ht, htflags, htsize, -⟩ :=
    lineGetCopy_returns hwf [] (.inl hcap) hdest
      (fun _ _ _ h => (fetch_sound h hcr).copySound dest)
  obtain ⟨rfl, hfailed, hnil', rfl⟩ := fetch_empty hcap herr hnil hrel
  generalize hu : view t = u at hcopied
  cases hcopied with
  | split hr | tooSmall hr => cases hr
  | fits =>
      subst hu
      exact ⟨(t, []), hrun, ht, Nat.lt_of_lt_of_eq hcap htsize.symm, hfailed, hnil', rfl⟩

/-- The lines that a caller puts together from the results, with the pieces of
the line it is at. An AGAIN with data goes on with the line, a NORMAL result
ends it, and so does the end of file if there is anything of it. -/
def reassemble : List UInt8 → List (LineResult (List UInt8)) → List (List UInt8)
  | _, [] => []
  | acc, .normal line :: rs => (acc ++ line) :: reassemble [] rs
  | acc, .again (some p) :: rs => reassemble (acc ++ p) rs
  | acc, .again none :: rs => reassemble acc rs
  | acc, .eof :: rs => (if acc = [] then [] else [acc]) ++ reassemble [] rs
  | acc, .error _ :: rs => reassemble acc rs

theorem lines_terminated {body : List UInt8} (rest : List UInt8) (hbody : mode.byte ∉ body) :
    mode.lines (body ++ mode.byte :: rest) = mode.strip body :: mode.lines rest := by
  rw [Eol.lines, Eol.lines, Eol.terminated, Eol.terminated, Eol.unterminated, Eol.unterminated]
  simp only [List.splitOn_append_cons_self_of_not_mem hbody,
    List.dropLast_cons_of_ne_nil (List.splitOn_ne_nil _ _),
    List.getLast_cons (List.splitOn_ne_nil mode.byte rest), List.map_cons, List.cons_append]

theorem lines_last {T : List UInt8} (hT : mode.byte ∉ T) :
    mode.lines T = if T = [] then [] else [T] := by
  rw [Eol.lines, Eol.terminated, Eol.unterminated]
  simp only [List.splitOn_eq_singleton hT]
  by_cases h : T = [] <;> simp [h]

theorem strip_append {acc body : List UInt8}
    (h : mode = .crlf → body = [] → acc.getLast? ≠ some 13) :
    mode.strip (acc ++ body) = acc ++ mode.strip body := by
  rw [Eol.strip, Eol.strip]
  by_cases hbody : body = []
  · subst hbody
    by_cases hmode : mode = .crlf
    · simp [h hmode rfl]
    · simp [hmode]
  · rw [List.getLast?_append_of_ne_nil _ hbody]
    split
    · rw [List.dropLast_append_of_ne_nil hbody]
    · rfl

/-- The pieces of a line fit in front of the rest of the stream. -/
structure Fitting (mode : Eol) (acc : List UInt8) (s : ZStreamLine × Child) : Prop where
  none : mode.byte ∉ acc
  clean : mode = .crlf → acc.getLast? = some 13 → (stream s).head? ≠ some mode.byte

/-- What the results still to come are put together to. -/
structure Rebuilds (mode : Eol) (acc : List UInt8) (s : ZStreamLine × Child)
    (rs : List (LineResult (List UInt8))) : Prop where
  safe : ∀ e, .error e ∉ rs
  lines : reassemble acc rs <+: mode.lines (acc ++ stream s)
  whole : .eof ∈ rs → reassemble acc rs = mode.lines (acc ++ stream s)
  ends : workLeft s < rs.length → .eof ∈ rs

theorem childBytes_length_le (c : Child) : (childBytes c).length ≤ childSize c := by
  induction c with
  | nil => exact Nat.le_refl 0
  | cons answer c ih =>
      simp only [childBytes_cons, List.length_append, childSize]
      omega

theorem workLeft_pos {s : ZStreamLine × Child} (h : stream s ≠ []) : 0 < workLeft s := by
  have hlen := List.length_pos_iff.mpr h
  have hle := childBytes_length_le s.2
  rw [stream, total, List.length_append] at hlen
  rw [workLeft, size]
  omega

theorem Drained.stream {s : ZStreamLine × Child} (h : Drained s) : stream s = [] := by
  rw [LineFraming.stream, total, h.child]
  exact (List.append_nil _).trans h.pending

theorem rebuilds_eof {acc : List UInt8} {s t : ZStreamLine × Child}
    {rs : List (LineResult (List UInt8))} (hs : LineFraming.stream s = []) (ht : Drained t)
    (hacc : mode.byte ∉ acc) (h : Rebuilds mode [] t rs) : Rebuilds mode acc s (.eof :: rs) := by
  have hnil : mode.lines [] = [] := by rw [lines_last List.not_mem_nil, if_pos rfl]
  have hrest : reassemble [] rs = [] := by
    have hlines := h.lines
    rw [ht.stream, List.append_nil, hnil] at hlines
    exact List.prefix_nil.mp hlines
  have hall : reassemble acc (.eof :: rs) = mode.lines (acc ++ LineFraming.stream s) := by
    rw [reassemble, hrest, hs, List.append_nil, List.append_nil, lines_last hacc]
  exact ⟨fun e hm => h.safe e (by simpa using hm), hall ▸ List.prefix_refl _, fun _ => hall,
    fun _ => by simp⟩

theorem brings_rebuilds {acc : List UInt8} {s t : ZStreamLine × Child}
    {r : LineResult (List UInt8)} {rs : List (LineResult (List UInt8))}
    (hb : Brings mode cap s r t) (hacc : Fitting mode acc s)
    (h : ∀ acc, Fitting mode acc t → Rebuilds mode acc t rs) : Rebuilds mode acc s (r :: rs) := by
  have hnil : Fitting mode [] t := ⟨List.not_mem_nil, fun _ hlast => by cases hlast⟩
  cases hb with
  | again _ hstream hlt =>
      obtain ⟨hsafe, hlines, hwhole, hends⟩ := h acc ⟨hacc.none, hstream ▸ hacc.clean⟩
      rw [hstream] at hlines hwhole
      refine ⟨fun e hm => hsafe e (by simpa using hm), hlines, fun hm => hwhole (by simpa using hm),
        fun hlen => List.mem_cons_of_mem _ (hends ?_)⟩
      rw [List.length_cons] at hlen
      omega
  | piece hready hstream hnone hclean hlt =>
      rename_i p
      have hfit : Fitting mode (acc ++ p) t := by
        refine ⟨by simp [hacc.none, hnone], fun hmode hlast => ?_⟩
        by_cases hp : p = []
        · subst hp
          rw [List.append_nil] at hlast
          rw [show stream t = stream s from hstream.symm]
          exact hacc.clean hmode hlast
        · rw [List.getLast?_append_of_ne_nil _ hp] at hlast
          exact hclean hmode hlast
      obtain ⟨hsafe, hlines, hwhole, hends⟩ := h _ hfit
      rw [List.append_assoc, ← hstream] at hlines hwhole
      refine ⟨fun e hm => hsafe e (by simpa using hm), hlines, fun hm => hwhole (by simpa using hm),
        fun hlen => List.mem_cons_of_mem _ (hends ?_)⟩
      rw [List.length_cons] at hlen
      omega
  | line hready hstream hnone hlt =>
      rename_i body
      obtain ⟨hsafe, hlines, hwhole, hends⟩ := h [] hnil
      have hstrip : mode.strip (acc ++ body) = acc ++ mode.strip body := by
        apply strip_append
        rintro hmode rfl hlast
        exact hacc.clean hmode hlast (by rw [hstream]; rfl)
      have hall : mode.lines (acc ++ stream s) = (acc ++ mode.strip body) :: mode.lines (stream t) := by
        rw [hstream, ← List.append_assoc, lines_terminated _ (by simp [hacc.none, hnone]), hstrip]
      refine ⟨fun e hm => hsafe e (by simpa using hm), ?_, fun hm => ?_,
        fun hlen => List.mem_cons_of_mem _ (hends ?_)⟩
      · rw [reassemble, hall]
        exact (List.prefix_cons_inj _).mpr hlines
      · rw [reassemble, hall, hwhole (by simpa using hm), List.nil_append]
      · rw [List.length_cons] at hlen
        omega
  | last ht hnone hne =>
      obtain ⟨hsafe, hlines, -, hends⟩ := h [] hnil
      have hrest : reassemble [] rs = [] := by
        rw [ht.stream, List.append_nil, lines_last List.not_mem_nil, if_pos rfl] at hlines
        exact List.prefix_nil.mp hlines
      have hall : reassemble acc (.normal (stream s) :: rs) = mode.lines (acc ++ stream s) := by
        rw [reassemble, hrest, lines_last (by simp [hacc.none, hnone]), if_neg (by simp [hne])]
      refine ⟨fun e hm => hsafe e (by simpa using hm), hall ▸ List.prefix_refl _, fun _ => hall,
        fun hlen => List.mem_cons_of_mem _ (hends ?_)⟩
      have hzero : workLeft t = 0 := by
        rw [workLeft, size, ht.child]
        exact congrArg (fun xs : List UInt8 => xs.length + 0) ht.pending
      have hpos := workLeft_pos hne
      rw [List.length_cons] at hlen
      omega
  | eof ht hstream => exact rebuilds_eof hstream ht hacc.none (h [] hnil)

/-- The results of fetches into destinations of the given sizes. -/
def lineCopies (dests : List Nat) (s : ZStreamLine × Child) :
    Except Region.Abort (List (LineResult (List UInt8)) × ZStreamLine × Child) :=
  Run.run lineGetCopy dests s

/-- Fetches into destinations of these sizes bring a stream line by line, and
come to its end within a number of calls. -/
def Reassembles (mode : Eol) (s : ZStreamLine × Child) (T : List UInt8) (calls : Nat)
    (dests : List Nat) : Prop :=
  ∃ rs t, lineCopies dests s = .ok (rs, t) ∧ (∀ e, .error e ∉ rs) ∧
    reassemble [] rs <+: mode.lines T ∧ (.eof ∈ rs → reassemble [] rs = mode.lines T) ∧
    (calls ≤ dests.length → .eof ∈ rs)

/-- The pieces of the lines are put together to the lines of the stream, for
any cut of it by the child and any sizes of the destinations. -/
theorem copies_reassemble (mode : Eol) (bufsize : UInt64) (hpos : 0 < bufsize)
    (memory : Nat → UInt8) (reads : List (Option (List UInt8))) (dests : List Nat)
    (hdests : ∀ dest ∈ dests, 0 < dest)
    (hok : Run.Meets lineGetCopy (CopyOk mode bufsize.toNat) dests
      (lineNew bufsize (splitting mode) memory, ofReads reads)) :
    Reassembles mode (lineNew bufsize (splitting mode) memory, ofReads reads) (readBytes reads)
      (2 * childSize (ofReads reads) + 1) dests := by
  have hc : Ends false (ofReads reads) := by
    simpa [ending] using ends_ofReads reads false
  obtain ⟨⟨hwf, hflags, hsize, hlive⟩, hstream⟩ :=
    lineNew_open bufsize (splitting mode) memory hc
  have hcap : 0 < bufsize.toNat := by simpa using UInt64.lt_iff_toNat_lt.mp hpos
  have hready : Ready mode bufsize.toNat (lineNew bufsize (splitting mode) memory, ofReads reads) :=
    ⟨hwf, hflags, hsize, hlive.failed, hlive.eof, hlive.ignoring, hlive.fits, hlive.ends,
      fun ht => absurd (hlive.afterCr.symm.trans ht) (by simp)⟩
  have hwork : workLeft (lineNew bufsize (splitting mode) memory, ofReads reads) =
      2 * childSize (ofReads reads) := by
    rw [workLeft, size, show (view (lineNew bufsize (splitting mode) memory)).pending = [] from
      Region.window_self (lineNew bufsize (splitting mode) memory).buffer 0]
    exact Nat.zero_add _
  rw [childBytes_ofReads] at hstream
  let Inv (s : ZStreamLine × Child) : Prop := Ready mode bufsize.toNat s ∨ Drained s
  let Spec (s : ZStreamLine × Child) (rs : List (LineResult (List UInt8))) : Prop :=
    ∀ acc, Fitting mode acc s → Rebuilds mode acc s rs
  have hnil (s : ZStreamLine × Child) (_ : Inv s) : Spec s [] := fun acc _ =>
    ⟨fun _ hm => absurd hm List.not_mem_nil, List.nil_prefix,
      fun hm => absurd hm List.not_mem_nil, fun hlen => absurd hlen (Nat.not_lt_zero _)⟩
  have hstep (dest : Nat) (s : ZStreamLine × Child) (hs : Inv s)
      (hok : 0 < dest ∧ CopyOk mode bufsize.toNat dest s) :
      ∃ r t, lineGetCopy dest s = .ok (r, t) ∧ Inv t ∧ ∀ rs, Spec t rs → Spec s (r :: rs) := by
    rcases hs with hready | hdrained
    · obtain ⟨r, t, hrun, hb⟩ := lineGetCopy_brings hcap hready hok.1 hok.2
      refine ⟨r, t, hrun, ?_, fun rs hrs acc hacc => brings_rebuilds hb hacc hrs⟩
      cases hb with
      | again ht | piece ht | line ht => exact .inl ht
      | last ht | eof ht => exact .inr ht
    · obtain ⟨t, hrun, ht⟩ := lineGetCopy_drained hdrained hok.1
      exact ⟨.eof, t, hrun, .inr ht, fun rs hrs acc hacc => rebuilds_eof hdrained.stream ht
        hacc.none (hrs [] ⟨List.not_mem_nil, fun _ hlast => by cases hlast⟩)⟩
  obtain ⟨rs, t, hrun, -, hspec⟩ :=
    Run.run_induct hnil hstep dests (.inl hready) (Run.meets_and hdests hok)
  obtain ⟨hsafe, hlines, hwhole, hends⟩ :=
    hspec [] ⟨List.not_mem_nil, fun _ hlast => by cases hlast⟩
  rw [List.nil_append, hstream] at hlines hwhole
  have hlen := Run.run_length hrun
  exact ⟨rs, t, hrun, hsafe, hlines, hwhole, fun hcalls => hends (by omega)⟩

/-- A line longer than the buffer, into destinations of two and three bytes. -/
theorem copies_reassemble_long :
    Reassembles .crlf
      (lineNew 4 (splitting .crlf) (fun _ => 0), ofReads [some [97, 98, 99, 100, 101], none, some [13, 10]])
      [97, 98, 99, 100, 101, 13, 10] 21 [2, 3, 2, 3] :=
  copies_reassemble .crlf 4 (by decide) (fun _ => 0) [some [97, 98, 99, 100, 101], none, some [13, 10]]
    [2, 3, 2, 3] (by decide)
    (Run.meets_cons (by decide) rfl (Run.meets_cons (by decide) rfl
      (Run.meets_cons (by decide) rfl (Run.meets_cons (by decide) rfl trivial))))

/-- The rest of a last line without its end is lost when its destination is
too small. -/
theorem copies_not_reassembled :
    ¬∀ (mode : Eol) (bufsize : UInt64) (_ : 0 < bufsize) (memory : Nat → UInt8)
      (reads : List (Option (List UInt8))) (dests : List Nat) (_ : ∀ dest ∈ dests, 0 < dest),
      Reassembles mode (lineNew bufsize (splitting mode) memory, ofReads reads) (readBytes reads)
        (2 * childSize (ofReads reads) + 1) dests := by
  intro h
  obtain ⟨rs, t, hrun, -, -, hwhole, -⟩ :=
    h .nl 8 (by decide) (fun _ => 0) [some [97, 98, 99]] [2, 2] (by decide)
  have hresults : rs = [.again (some [97, 98]), .eof] := by
    have hfst := congrArg (fun r => r.map Prod.fst) hrun
    exact (Except.ok.inj hfst).symm
  subst hresults
  exact absurd (hwhole (by decide)) (by decide)

end Libzorpll.LineSplit
