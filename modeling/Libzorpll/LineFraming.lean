import Libzorpll.LineCalls

/-! Line fetches without truncation and splitting: what a whole stream yields,
however the child cuts it. -/

namespace Libzorpll.LineFraming

open ChildStream StreamLine LineReader LineBuffer LineCalls

/-- What becomes of a line that fits in the buffer, from its bytes before the
end of line. -/
def deliver (f : LineFlags) (body : List UInt8) : Except LineError (List UInt8) :=
  if nulAllowed f (body ++ [eolByte f]) then
    match lineLength f (endsCr body) (body.length + 1) with
    | some n => .ok ((body ++ [eolByte f]).take n)
    | none => .error (.badCrlf body)
  else .error (.embeddedNul (body ++ [eolByte f]))

/-- The first answer of a stream other than AGAIN, and the stream after it.
There is none after an error, nor after the end of file. -/
inductive Yields (f : LineFlags) (cap : Nat) (fails : Bool) (T : List UInt8) :
    LineResult (List UInt8) → Option (List UInt8) → Prop
  | line {body rest line : List UInt8} (hT : T = body ++ eolByte f :: rest)
      (hbody : eolByte f ∉ body) (hfit : body.length < cap) (hline : deliver f body = .ok line) :
      Yields f cap fails T (.normal line) (some rest)
  | refused {body rest : List UInt8} {e : LineError} (hT : T = body ++ eolByte f :: rest)
      (hbody : eolByte f ∉ body) (hfit : body.length < cap) (hline : deliver f body = .error e) :
      Yields f cap fails T (.error e) none
  | tooLong (hlong : cap ≤ T.length) (hnone : eolByte f ∉ T.take cap) :
      Yields f cap fails T (.error (.tooLong (T.take cap) cap)) none
  | child (hfails : fails = true) (hfit : T.length < cap) (hnone : eolByte f ∉ T) :
      Yields f cap fails T (.error .child) none
  | last (hfails : fails = false) (hne : T ≠ []) (hfit : T.length < cap) (hnone : eolByte f ∉ T)
      (hnul : nulAllowed f T = true) : Yields f cap fails T (.normal T) none
  | lastNul (hfails : fails = false) (hfit : T.length < cap) (hnone : eolByte f ∉ T)
      (hnul : nulAllowed f T = false) : Yields f cap fails T (.error (.embeddedNul T)) none
  | eof (hfails : fails = false) (hcap : 0 < cap) (hT : T = []) : Yields f cap fails T .eof none

/-- The next line fits in the buffer and breaks the policy of the stream. -/
def refused (f : LineFlags) (cap : Nat) (fails : Bool) (T : List UInt8) : Bool :=
  match T.splitOn (eolByte f) with
  | [] => false
  | [last] => !fails && decide (last.length < cap) && !nulAllowed f last
  | body :: _ => decide (body.length < cap) && !(deliver f body).isOk

/-- What is still to come of a stream. -/
def total (v : Reader) (c : Child) : List UInt8 := v.pending ++ childBytes c

def size (v : Reader) (c : Child) : Nat := v.pending.length + 2 * childSize c

/-- A reader that has met no end. -/
structure Live (cap : Nat) (fails : Bool) (v : Reader) (c : Child) : Prop where
  failed : v.failed = false
  eof : v.eof = false
  ignoring : v.ignoring = false
  afterCr : v.afterCr = false
  fits : v.pending.length ≤ cap
  ends : Ends fails c

/-- Nothing follows any more: an error is remembered, or the end of file is
met again and again. -/
def Finished (r : LineResult (List UInt8)) (w : Reader) (c : Child) : Prop :=
  match r with
  | .error _ => w.failed = true
  | _ => w.failed = false ∧ (w.eof = true ∨ w.pending = [] ∧ c = [])

/-- What one step of a live reader amounts to, for its stream. -/
inductive After (f : LineFlags) (cap : Nat) (fails : Bool) (v : Reader) (c : Child)
    (Lapse : Prop) : LineResult Delivered → Reader → Child → Prop
  | again {w : Reader} {c' : Child} (hlive : Live cap fails w c') (htotal : total w c' = total v c)
      (hsize : size w c' < size v c) : After f cap fails v c Lapse (.again none) w c'
  | next {w : Reader} {c' : Child} {d : Delivered}
      (hy : Yields f cap fails (total v c) (.normal d.line) (some (total w c')))
      (hlive : Live cap fails w c') (hsize : size w c' < size v c) :
      After f cap fails v c Lapse (.normal d) w c'
  | final {w : Reader} {c' : Child} {r : LineResult Delivered}
      (hy : Yields f cap fails (total v c) (outcome r) none) (hend : Lapse ∨ Finished (outcome r) w c') :
      After f cap fails v c Lapse r w c'

variable {f : LineFlags} {cap : Nat} {fails : Bool} {v w : Reader} {c c' : Child} {Lapse : Prop}

theorem deliver_line {body : List UInt8} (rest : List UInt8) {n : Nat}
    (h : nulAllowed f (body ++ [eolByte f]) = true)
    (hlen : lineLength f (crBefore false body) (body.length + 1) = some n) :
    deliver f body = .ok (Delivered.mk (body ++ eolByte f :: rest) n).line := by
  have hcr : crBefore false body = endsCr body := by
    rw [crBefore]
    split
    · subst_vars; rfl
    · rfl
  rw [hcr] at hlen
  have hle := lineLength_le hlen (by
    intro _ _ _ hends
    apply List.length_pos_iff.mpr
    rintro rfl
    cases hends)
  have hsplit : body ++ eolByte f :: rest = (body ++ [eolByte f]) ++ rest := by simp
  rw [deliver, if_pos h, hlen, Delivered.line, hsplit,
    List.take_append_of_le_length (by simpa using hle)]

theorem refused_terminated {body : List UInt8} (rest : List UInt8) (hbody : eolByte f ∉ body) :
    refused f cap fails (body ++ eolByte f :: rest) =
      (decide (body.length < cap) && !(deliver f body).isOk) := by
  rw [refused, List.splitOn_append_cons_self_of_not_mem hbody]
  cases hrest : rest.splitOn (eolByte f) with
  | nil => exact absurd hrest (List.splitOn_ne_nil _ _)
  | cons => rfl

theorem refused_last {T : List UInt8} (hT : eolByte f ∉ T) :
    refused f cap fails T = (!fails && decide (T.length < cap) && !nulAllowed f T) := by
  rw [refused, List.splitOn_eq_singleton hT]

theorem crBefore_false (body : List UInt8) : crBefore false body = endsCr body := by
  rw [crBefore]
  split
  · subst_vars; rfl
  · rfl

/-- What a look into the buffer makes of a line that is complete there, if it
does not start between a carriage return and its newline. -/
theorem fromBuf_deliver_after (hcr : v.afterCr = true → ∀ rest, v.pending ≠ eolByte f :: rest)
    (heof : v.eof = false) {r : LineResult Delivered} (h : FromBuf f v r w) :
    (r = .again none ∧ w = { v with afterCr := false } ∧ eolByte f ∉ v.pending) ∨
      ∃ body rest, v.pending = body ++ eolByte f :: rest ∧ eolByte f ∉ body ∧
        w = { v with pending := rest, afterCr := false } ∧
        ((∃ d, r = .normal d ∧ d.held = v.pending ∧ deliver f body = .ok d.line) ∨
          ∃ e, r = .error e ∧ deliver f body = .error e) := by
  have hbefore {body rest : List UInt8} (hp : v.pending = body ++ eolByte f :: rest) :
      crBefore v.afterCr body = crBefore false body := by
    rw [crBefore, crBefore]
    split
    · subst_vars
      cases hv : v.afterCr with
      | false => rfl
      | true => exact absurd hp (hcr hv rest)
    · rfl
  cases h with
  | line heof hp hbody hnul hlen =>
      rename_i body rest n
      rw [hbefore hp] at hlen
      have hline := deliver_line rest hnul hlen
      rw [← hp] at hline
      exact .inr ⟨body, rest, hp, hbody, rfl, .inl ⟨_, rfl, rfl, hline⟩⟩
  | badCrlf heof hp hbody hnul hlen =>
      rename_i body rest
      rw [hbefore hp, crBefore_false] at hlen
      refine .inr ⟨body, rest, hp, hbody, rfl, .inr ⟨_, rfl, ?_⟩⟩
      rw [deliver, if_pos hnul, hlen]
  | embeddedNul heof hp hbody hnul =>
      rename_i body rest
      refine .inr ⟨body, rest, hp, hbody, rfl, .inr ⟨_, rfl, ?_⟩⟩
      rw [deliver, if_neg (by simp [hnul])]
  | last _ ht | lastNul _ ht => exact absurd (heof.symm.trans ht) (by simp)
  | more _ hmore => exact .inl ⟨rfl, rfl, hmore⟩

theorem fromBuf_deliver (hcr : v.afterCr = false) (heof : v.eof = false)
    {r : LineResult Delivered} (h : FromBuf f v r w) :
    (r = .again none ∧ w = v ∧ eolByte f ∉ v.pending) ∨
      ∃ body rest, v.pending = body ++ eolByte f :: rest ∧ eolByte f ∉ body ∧
        w = { v with pending := rest } ∧
        ((∃ d, r = .normal d ∧ d.held = v.pending ∧ deliver f body = .ok d.line) ∨
          ∃ e, r = .error e ∧ deliver f body = .error e) := by
  have hcr' : v.afterCr = true → ∀ rest, v.pending ≠ eolByte f :: rest :=
    fun ht => absurd (hcr.symm.trans ht) (by simp)
  have h' := fromBuf_deliver_after hcr' heof h
  rwa [← hcr] at h'

/-- At end of file the rest of the buffer is a line, as it is. -/
theorem fromBuf_last (heof : v.eof = true) {r : LineResult Delivered} (h : FromBuf f v r w) :
    w.pending = [] ∧ w.eof = true ∧ w.failed = v.failed ∧ w.ignoring = v.ignoring ∧
      ((∃ d, r = .normal d ∧ d = ⟨v.pending, v.pending.length⟩ ∧ nulAllowed f v.pending = true) ∨
        r = .error (.embeddedNul v.pending) ∧ nulAllowed f v.pending = false) := by
  cases h with
  | line ht | badCrlf ht | embeddedNul ht | more ht => exact absurd (ht.symm.trans heof) (by simp)
  | last cr _ hnul => exact ⟨rfl, heof, rfl, rfl, .inl ⟨_, rfl, rfl, hnul⟩⟩
  | lastNul cr _ hnul => exact ⟨rfl, heof, rfl, rfl, .inr ⟨rfl, hnul⟩⟩

/-- A look into the buffer, with the rest of the stream behind it. -/
theorem fromBuf_after (hv : Live cap fails v c) {r : LineResult Delivered}
    (h : FromBuf f v r w) (hlapse : refused f cap fails (total v c) = true → Lapse) :
    (r = .again none ∧ w = v ∧ eolByte f ∉ v.pending) ∨
      (∃ d, r = .normal d ∧
        Yields f cap fails (total v c) (.normal d.line) (some (total w c)) ∧
        Live cap fails w c ∧ w.pending.length < v.pending.length) ∨
      (∃ e, r = .error e ∧ Yields f cap fails (total v c) (.error e) none ∧ Lapse) := by
  have hfits := hv.fits
  obtain hmore | ⟨body, rest, hp, hbody, rfl, hline⟩ := fromBuf_deliver hv.afterCr hv.eof h
  · exact .inl hmore
  · have hT : total v c = body ++ eolByte f :: (rest ++ childBytes c) := by
      rw [total, hp, List.append_assoc, List.cons_append]
    have hlen : v.pending.length = body.length + (rest.length + 1) := by
      rw [hp, List.length_append, List.length_cons]
    have hfit : body.length < cap := by omega
    obtain ⟨d, rfl, -, hline⟩ | ⟨e, rfl, hline⟩ := hline
    · refine .inr (.inl ⟨d, rfl, .line hT hbody hfit hline,
        ⟨hv.failed, hv.eof, hv.ignoring, hv.afterCr, ?_, hv.ends⟩, ?_⟩)
      · simp only
        omega
      · simp only
        omega
    · refine .inr (.inr ⟨e, rfl, .refused hT hbody hfit hline,
        hlapse ?_⟩)
      rw [hT, refused_terminated _ hbody, hline]
      simpa using ⟨hfit, rfl⟩

theorem another_keep (hign : v.ignoring = false) {r : LineResult Delivered}
    (h : Another f v r w) : FromBuf f v r w := by
  cases h with
  | keep h => exact h
  | drop ht => exact absurd (hign.symm.trans ht) (by simp)

/-- A read with the whole of the line so far in the buffer. -/
theorem fill_after (hv : Live cap fails v c) (hroom : v.pending.length < cap)
    (hnone : eolByte f ∉ v.pending) (hlapse : refused f cap fails (total v c) = true → Lapse)
    {o : Option (LineResult Delivered)} (h : Fill f cap v c o w c') :
    (o = none ∧ Live cap fails w c' ∧ eolByte f ∉ w.pending ∧ total w c' = total v c ∧
        size w c' < size v c) ∨
      ∃ r, o = some r ∧ After f cap fails v c Lapse r w c' := by
  cases h.filled hv.ends hroom with
  | again hends hbytes hlt =>
      refine .inr ⟨_, rfl, .again ⟨hv.failed, hv.eof, hv.ignoring, hv.afterCr, hv.fits, hends⟩
        (by rw [total, total, hbytes]) ?_⟩
      simp only [size]
      omega
  | error hfails hc =>
      have hT : total v c = v.pending := by rw [total, hc, List.append_nil]
      exact .inr ⟨_, rfl, .final (.child hfails (hT ▸ hroom) (hT ▸ hnone)) (.inr rfl)⟩
  | eof hfails hc hempty =>
      refine .inr ⟨_, rfl, .final (.eof hfails (Nat.zero_lt_of_lt hroom) ?_) (.inr ⟨hv.failed, .inr ⟨hempty, rfl⟩⟩)⟩
      rw [total, hempty, hc]
      rfl
  | last hfails hc hne hnext ho =>
      have hT : total v c = v.pending := by rw [total, hc]; exact List.append_nil _
      let u : Reader := { v with eof := true }
      obtain ⟨-, heof, hfailed, -, hline⟩ :=
        fromBuf_last rfl (another_keep (v := u) hv.ignoring hnext)
      obtain ⟨_, rfl, rfl, hnul⟩ | ⟨rfl, hnul⟩ := hline
      · refine .inr ⟨_, ho, .final ?_ (.inr ⟨hfailed.trans hv.failed, .inl heof⟩)⟩
        rw [outcome, Delivered.line, List.take_length, hT]
        exact .last hfails hne hroom hnone hnul
      · refine .inr ⟨_, ho, .final ?_ (.inl (hlapse ?_))⟩
        · rw [hT]
          exact .lastNul hfails hroom hnone hnul
        · have hrefused : nulAllowed f v.pending = false := hnul
          rw [hT, refused_last hnone]
          simp [hfails, hroom, hrefused]
  | data hread hends hbytes hlt hfits hnext ho =>
      rename_i data r
      let u : Reader := { v with pending := v.pending ++ data }
      have hu : Live cap fails u c' := ⟨hv.failed, hv.eof, hv.ignoring, hv.afterCr, hfits, hends⟩
      have htotal : total u c' = total v c := by
        rw [total, total, ← hbytes, List.append_assoc]
      have hsize : size u c' < size v c := by
        simp only [size, u, List.length_append]
        omega
      obtain ⟨rfl, rfl, hmore⟩ | ⟨d, rfl, hy, hlive, hshort⟩ | ⟨e, rfl, hy, hl⟩ :=
        fromBuf_after hu (another_keep hu.ignoring hnext) (fun hrefused => hlapse (htotal ▸ hrefused))
      · rw [settle] at ho
        split at ho
        · exact .inr ⟨_, ho, .again hu htotal hsize⟩
        · exact .inl ⟨ho, hu, hmore, htotal, hsize⟩
      · refine .inr ⟨_, ho, .next (htotal ▸ hy) hlive ?_⟩
        simp only [size] at hsize ⊢
        omega
      · exact .inr ⟨_, ho, .final (htotal ▸ hy) (.inl hl)⟩

theorem After.weaken {v' : Reader} {d : Child} {r : LineResult Delivered}
    (h : After f cap fails v' d Lapse r w c') (htotal : total v' d = total v c)
    (hsize : size v' d < size v c) : After f cap fails v c Lapse r w c' := by
  cases h with
  | again hlive ht hs => exact .again hlive (ht.trans htotal) (Nat.lt_trans hs hsize)
  | next hy hlive hs => exact .next (htotal ▸ hy) hlive (Nat.lt_trans hs hsize)
  | final hy hend => exact .final (htotal ▸ hy) hend

theorem rounds_after (htrunc : f.truncate = false) (hsplit : f.split = false)
    (hlapse : refused f cap fails (total v c) = true → Lapse) {r : LineResult Delivered}
    (h : Rounds f cap v c r w c') (hv : Live cap fails v c) (hnone : eolByte f ∉ v.pending) :
    After f cap fails v c Lapse r w c' := by
  induction h with
  | done h =>
      cases h with
      | cut _ _ hf => exact absurd (htrunc.symm.trans hf) (by simp)
      | split _ _ hf => exact absurd (hsplit.symm.trans hf.2) (by simp)
      | tooLong hfull hign hf =>
          rename_i v c
          have hT : (total v c).take cap = v.pending := by
            rw [total, ← hfull, List.take_left]
          refine .final ?_ (.inr rfl)
          rw [outcome, ← hT]
          refine .tooLong ?_ (hT ▸ hnone)
          rw [total, List.length_append]
          omega
      | skip _ hign => exact absurd (hv.ignoring.symm.trans hign) (by simp)
      | fill hroom h =>
          obtain ⟨ho, _⟩ | ⟨r, ho, hafter⟩ := fill_after hv hroom hnone hlapse h
          · cases ho
          · cases ho
            exact hafter
  | next h _ ih =>
      cases h with
      | skip _ hign => exact absurd (hv.ignoring.symm.trans hign) (by simp)
      | fill hroom h =>
          obtain ⟨_, hlive, hmore, htotal, hsize⟩ | ⟨r, ho, _⟩ :=
            fill_after hv hroom hnone hlapse h
          · exact (ih (htotal ▸ hlapse) hlive hmore).weaken htotal hsize
          · cases ho

/-- A fetch by a live reader: the answer is the first one its stream yields,
and an error is remembered unless it was found by the read loop. -/
theorem fetch_after (htrunc : f.truncate = false) (hsplit : f.split = false)
    (hv : Live cap fails v c) {r : LineResult Delivered} (h : Fetch f cap v c r w c') :
    After f cap fails v c (eolByte f ∉ v.pending ∧ refused f cap fails (total v c) = true) r w c' := by
  cases h with
  | failed hf => exact absurd (hv.failed.symm.trans hf) (by simp)
  | atEof _ heof => exact absurd (hv.eof.symm.trans heof) (by simp)
  | buffered _ _ h =>
      obtain ⟨hr, _⟩ | ⟨d, hr, hy, hlive, hshort⟩ | ⟨e, hr, _⟩ :=
        fromBuf_after hv h (fun _ => trivial)
      · cases hr
      · cases hr
        refine .next hy hlive ?_
        simp only [size]
        omega
      · cases hr
  | bad _ _ h =>
      obtain ⟨hr, _⟩ | ⟨d, hr, _⟩ | ⟨e, hr, hy, _⟩ := fromBuf_after hv h (fun _ => trivial)
      · cases hr
      · cases hr
      · cases hr
        exact .final hy (.inr rfl)
  | read _ _ hmore h =>
      have hsame : { v with afterCr := false } = v := by rw [← hv.afterCr]
      rw [hsame] at h
      exact rounds_after htrunc hsplit (fun hrefused => ⟨hmore, hrefused⟩) h hv hmore

/-- What the unterminated end of a stream yields. -/
def lastOutcomes (f : LineFlags) (fails : Bool) (body : List UInt8) :
    List (LineResult (List UInt8)) :=
  if fails then [.error .child]
  else if body = [] then []
  else if nulAllowed f body then [.normal body]
  else [.error (.embeddedNul body)]

/-- The answers to line fetches on a stream without the AGAINs, from the
stream cut at its ends of line, up to the first error or the end of file. -/
def outcomes (f : LineFlags) (cap : Nat) (fails : Bool) :
    List (List UInt8) → List (LineResult (List UInt8))
  | [] => []
  | [body] =>
      if cap ≤ body.length then [.error (.tooLong (body.take cap) cap)]
      else lastOutcomes f fails body
  | body :: next :: rest =>
      if cap ≤ body.length then [.error (.tooLong (body.take cap) cap)]
      else match deliver f body with
        | .ok line => .normal line :: outcomes f cap fails (next :: rest)
        | .error e => [.error e]

/-- The answer that is repeated for ever after the others. -/
def lastAnswer (results : List (LineResult (List UInt8))) : LineResult (List UInt8) :=
  match results.getLast? with
  | some (.error _) => .error .previouslyStored
  | _ => .eof

def answers (f : LineFlags) (cap : Nat) (fails : Bool) (T : List UInt8) :
    List (LineResult (List UInt8)) := outcomes f cap fails (T.splitOn (eolByte f))

theorem answers_terminated {body : List UInt8} (rest : List UInt8) (hbody : eolByte f ∉ body) :
    answers f cap fails (body ++ eolByte f :: rest) =
      if cap ≤ body.length then [.error (.tooLong (body.take cap) cap)]
      else match deliver f body with
        | .ok line => .normal line :: answers f cap fails rest
        | .error e => [.error e] := by
  rw [answers, List.splitOn_append_cons_self_of_not_mem hbody]
  cases hrest : rest.splitOn (eolByte f) with
  | nil => exact absurd hrest (List.splitOn_ne_nil _ _)
  | cons next rest => rw [outcomes, answers, hrest]

theorem answers_last {T : List UInt8} (hT : eolByte f ∉ T) :
    answers f cap fails T =
      if cap ≤ T.length then [.error (.tooLong (T.take cap) cap)] else lastOutcomes f fails T := by
  rw [answers, List.splitOn_eq_singleton hT, outcomes]

theorem yields_answers {T : List UInt8} {r : LineResult (List UInt8)} {next : Option (List UInt8)}
    (h : Yields f cap fails T r next) (hr : r ≠ .eof) :
    answers f cap fails T = r :: next.elim [] (answers f cap fails) := by
  cases h with
  | line hT hbody hfit hline =>
      rw [hT, answers_terminated _ hbody, if_neg (by omega), hline]
      rfl
  | refused hT hbody hfit hline =>
      rw [hT, answers_terminated _ hbody, if_neg (by omega), hline]
      rfl
  | tooLong hlong hnone =>
      by_cases hmem : eolByte f ∈ T
      · obtain ⟨body, rest, rfl, hbody⟩ := List.eq_append_cons_of_mem hmem
        have hle : cap ≤ body.length := by
          by_contra hlt
          apply hnone
          rw [List.mem_take_iff_getElem]
          exact ⟨body.length, by simp; omega, by simp⟩
        rw [answers_terminated _ hbody, if_pos hle, List.take_append_of_le_length hle]
        rfl
      · rw [answers_last hmem, if_pos hlong]
        rfl
  | child hfails hfit hnone =>
      rw [answers_last hnone, if_neg (by omega), lastOutcomes, if_pos hfails]
      rfl
  | last hfails hne hfit hnone hnul =>
      rw [answers_last hnone, if_neg (by omega), lastOutcomes, if_neg (by simp [hfails]),
        if_neg hne, if_pos hnul]
      rfl
  | lastNul hfails hfit hnone hnul =>
      have hne : T ≠ [] := by
        rintro rfl
        simp [nulAllowed] at hnul
      rw [answers_last hnone, if_neg (by omega), lastOutcomes, if_neg (by simp [hfails]),
        if_neg hne, if_neg (by simp [hnul])]
      rfl
  | eof => exact absurd rfl hr

theorem answers_nil (hcap : 0 < cap) : answers f cap false [] = [] := by
  rw [answers_last List.not_mem_nil, if_neg (by simp; omega)]
  rfl

theorem yields_eof {T : List UInt8} {r : LineResult (List UInt8)} {next : Option (List UInt8)}
    (h : Yields f cap fails T r next) (hr : r = .eof) :
    next = none ∧ 0 < cap ∧ answers f cap fails T = [] := by
  subst hr
  cases h with
  | eof hfails hcap hT =>
      subst hfails hT
      exact ⟨rfl, hcap, answers_nil hcap⟩

theorem lastAnswer_normal (line : List UInt8) (results : List (LineResult (List UInt8))) :
    lastAnswer (.normal line :: results) = lastAnswer results := by
  cases results with
  | nil => rfl
  | cons => rw [lastAnswer, List.getLast?_cons_cons, lastAnswer]

/-- An error of the policy is remembered when it is found in a line that was
buffered before the call, and lost when the call had to read for it. -/
def Recorded (f : LineFlags) (cap : Nat) (fails : Bool) (s : ZStreamLine × Child) : Prop :=
  s.1.error = true ∨ s.1.eof = true ∨ eolByte f ∈ pending s.1 ∨
    refused f cap fails (pending s.1 ++ childBytes s.2) = false

instance (s : ZStreamLine × Child) : Decidable (Recorded f cap fails s) :=
  inferInstanceAs (Decidable (_ ∨ _ ∨ _ ∨ _))

/-- The results of calling z_stream_line_get again and again. -/
def lineGets (n : Nat) (s : ZStreamLine × Child) :
    Except Region.Abort (List (LineResult (List UInt8)) × ZStreamLine × Child) :=
  Run.run (fun _ => lineGet) (List.replicate n ()) s

/-- Nothing is left but the last answer. -/
structure Ended (answer : LineResult (List UInt8)) (s : ZStreamLine × Child) : Prop where
  wf : Wf s.1
  stored : answer = .error .previouslyStored ∧ s.1.error = true ∨
    answer = .eof ∧ 0 < s.1.bufsize ∧ s.1.error = false ∧
      (s.1.eof = true ∨ pending s.1 = [] ∧ s.2 = [])

theorem fromBuf_empty (heof : v.eof = false) (hnil : v.pending = []) {r : LineResult Delivered}
    (h : FromBuf f v r w) : ∃ o, r = .again o := by
  cases h with
  | line _ hp | badCrlf _ hp | embeddedNul _ hp => simp [hnil] at hp
  | last _ ht | lastNul _ ht => exact absurd (heof.symm.trans ht) (by simp)
  | more => exact ⟨none, rfl⟩

/-- A child at end of file, and nothing in the buffer. -/
theorem fetch_empty (hcap : 0 < cap) (hf : v.failed = false) (hnil : v.pending = [])
    {r : LineResult Delivered} (h : Fetch f cap v [] r w c') :
    r = .eof ∧ w.failed = false ∧ w.pending = [] ∧ c' = [] := by
  cases h with
  | failed ht => exact absurd (hf.symm.trans ht) (by simp)
  | atEof => exact ⟨rfl, hf, hnil, rfl⟩
  | buffered _ heof h | bad _ heof h =>
      obtain ⟨o, ho⟩ := fromBuf_empty heof hnil h
      cases ho
  | read _ heof _ h =>
      have hround {o : Option (LineResult Delivered)} {u : Reader} {d : Child}
          (h : LineReader.Round f cap { v with afterCr := false } [] o u d) :
          o = some .eof ∧ u = { v with afterCr := false } ∧ d = [] := by
        cases h with
        | cut hfull | split hfull | tooLong hfull | skip hfull =>
            simp only [hnil, List.length_nil] at hfull
            omega
        | fill _ h =>
            cases h with
            | eof hread => cases hread; exact ⟨rfl, rfl, rfl⟩
            | last _ hne => exact absurd hnil hne
            | again hread | error hread | data hread => cases hread
      cases h with
      | done h =>
          obtain ⟨hr, rfl, rfl⟩ := hround h
          cases hr
          exact ⟨rfl, hf, hnil, rfl⟩
      | next h => cases (hround h).1

theorem fetch_atEnd (hcap : 0 < cap) (hf : v.failed = false)
    (hend : v.eof = true ∨ v.pending = [] ∧ c = []) {r : LineResult Delivered}
    (h : Fetch f cap v c r w c') :
    r = .eof ∧ w.failed = false ∧ (w.eof = true ∨ w.pending = [] ∧ c' = []) := by
  rcases hend with ht | ⟨hnil, rfl⟩
  · cases h with
    | failed hfailed => exact absurd (hf.symm.trans hfailed) (by simp)
    | atEof => exact ⟨rfl, hf, .inl ht⟩
    | buffered _ heof | bad _ heof | read _ heof => exact absurd (heof.symm.trans ht) (by simp)
  · obtain ⟨hr, hfailed, hend⟩ := fetch_empty hcap hf hnil h
    exact ⟨hr, hfailed, .inr hend⟩

theorem lineGet_ended {answer : LineResult (List UInt8)} {s : ZStreamLine × Child}
    (h : Ended answer s) : ∃ t, lineGet s = .ok (answer, t) ∧ Ended answer t := by
  obtain ⟨s, c⟩ := s
  obtain ⟨hwf, ⟨rfl, herr⟩ | ⟨rfl, hcap, herr, hend⟩⟩ := h
  · refine ⟨(s, c), ?_, hwf, .inl ⟨rfl, herr⟩⟩
    simp only at herr
    simp [lineGet, getInternal, herr, LineResult.contents, bind, Except.bind, pure, Except.pure]
  · have hcr (_ : s.error = false) (heof : s.eof = false) : ¬CrlfSplit s.flags (view s) := by
      rintro ⟨-, -, -, -, rest, hp⟩
      rcases hend with ht | ⟨hnil, -⟩
      · exact absurd (heof.symm.trans ht) (by simp)
      · exact absurd (hnil.symm.trans hp) (by simp)
    obtain ⟨d, t, c', hrun, hrel, ht, -, hsize⟩ := lineGet_refines hwf c (.inl hcap) hcr
    obtain ⟨rfl, hfailed, hend'⟩ := fetch_atEnd hcap herr hend hrel
    exact ⟨(t, c'), hrun, ht, .inr ⟨rfl, Nat.lt_of_lt_of_eq hcap hsize.symm, hfailed, hend'⟩⟩

/-- A line stream that has met no end. -/
structure Open (f : LineFlags) (cap : Nat) (fails : Bool) (s : ZStreamLine × Child) : Prop where
  wf : Wf s.1
  flags : s.1.flags = f
  bufsize : s.1.bufsize = cap
  live : Live cap fails (view s.1) s.2

def stream (s : ZStreamLine × Child) : List UInt8 := total (view s.1) s.2

def workLeft (s : ZStreamLine × Child) : Nat := size (view s.1) s.2

/-- One line fetch: it answers what the stream yields first, or is to be tried
again. -/
theorem lineGet_open (htrunc : f.truncate = false) (hsplit : f.split = false)
    {s : ZStreamLine × Child} (h : Open f cap fails s) (hrec : Recorded f cap fails s) :
    ∃ r t, lineGet s = .ok (r, t) ∧
      ((r = .again none ∧ Open f cap fails t ∧ stream t = stream s ∧ workLeft t < workLeft s) ∨
        (Yields f cap fails (stream s) r (some (stream t)) ∧ Open f cap fails t ∧
          workLeft t < workLeft s) ∨
        Yields f cap fails (stream s) r none ∧ Ended (lastAnswer [r]) t) := by
  obtain ⟨s, c⟩ := s
  obtain ⟨hwf, hflags, hsize, hlive⟩ := h
  have hcr (_ : s.error = false) (_ : s.eof = false) : ¬CrlfSplit s.flags (view s) :=
    not_crlfSplit hlive.afterCr
  obtain ⟨d, t, c', hrun, hrel, ht, htflags, htsize⟩ := lineGet_refines hwf c (.inr hlive.ignoring) hcr
  rw [hflags, hsize] at hrel
  have hopen (hlive' : Live cap fails (view t) c') : Open f cap fails (t, c') :=
    ⟨ht, htflags.trans hflags, htsize.trans hsize, hlive'⟩
  refine ⟨outcome d, (t, c'), hrun, ?_⟩
  cases fetch_after htrunc hsplit hlive hrel with
  | again hlive' htotal hlt => exact .inl ⟨rfl, hopen hlive', htotal, hlt⟩
  | next hy hlive' hlt => exact .inr (.inl ⟨hy, hopen hlive', hlt⟩)
  | final hy hend =>
      have hkept : Finished (outcome d) (view t) c' := by
        refine hend.resolve_left (fun hl => ?_)
        rcases hrec with herr | heof | hmem | hno
        · exact absurd (hlive.failed.symm.trans herr) (by simp)
        · exact absurd (hlive.eof.symm.trans heof) (by simp)
        · exact hl.1 hmem
        · exact absurd (hno.symm.trans hl.2) (by simp)
      have hpos {n : Nat} (hfit : n < cap) : 0 < t.bufsize :=
        Nat.lt_of_lt_of_eq (Nat.zero_lt_of_lt hfit) (htsize.trans hsize).symm
      refine .inr (.inr ⟨hy, ht, ?_⟩)
      generalize outcome d = r at hy hkept
      cases hy with
      | refused | tooLong | child | lastNul => exact .inl ⟨rfl, hkept⟩
      | last _ _ hfit => exact .inr ⟨rfl, hpos hfit, hkept⟩
      | eof _ hcap => exact .inr ⟨rfl, hpos hcap, hkept⟩

/-- The results of calling z_stream_line_get until nothing else comes, for
any cut of the stream by its child. -/
theorem lineGets_drains (htrunc : f.truncate = false) (hsplit : f.split = false)
    {s : ZStreamLine × Child} (h : Open f cap fails s) (n : Nat)
    (hmeets : Run.Meets (fun _ => lineGet) (fun _ => Recorded f cap fails) (List.replicate n ()) s) :
    ∃ rs t, lineGets n s = .ok (rs, t) ∧
      Run.Drains (fun r => if r = .again none then [] else [r]) (fun _ => True)
        (lastAnswer (answers f cap fails (stream s))) (answers f cap fails (stream s))
        (workLeft s + 1) rs := by
  let rest (s : ZStreamLine × Child) := answers f cap fails (stream s)
  let Inv (t : ZStreamLine × Child) : Prop :=
    Open f cap fails t ∧ lastAnswer (rest t) = lastAnswer (rest s)
  refine Run.run_drains Inv (Ended (lastAnswer (rest s))) rest (fun s => workLeft s + 1)
    (fun _ _ h => lineGet_ended h) ?_ _ ⟨h, rfl⟩ hmeets
  rintro - s ⟨hopen, hlast⟩ hrec
  obtain ⟨r, t, hrun, hnext⟩ := lineGet_open htrunc hsplit hopen hrec
  refine ⟨r, t, hrun, ?_⟩
  obtain ⟨rfl, hopen', hsame, hlt⟩ | ⟨hy, hopen', hlt⟩ | ⟨hy, hend⟩ := hnext
  · have hrest : rest t = rest s := congrArg (answers f cap fails) hsame
    exact .inl ⟨⟨hopen', hrest ▸ hlast⟩, trivial, by simpa using hrest, Nat.succ_lt_succ hlt⟩
  · have hne : r ≠ .eof := fun hr => by cases (yields_eof hy hr).1
    have hrest : rest s = r :: rest t := yields_answers hy hne
    obtain ⟨line, rfl⟩ : ∃ line, r = .normal line := by
      cases hy
      exact ⟨_, rfl⟩
    rw [hrest, lastAnswer_normal] at hlast
    exact .inl ⟨⟨hopen', hlast⟩, trivial, by simp [hrest], Nat.succ_lt_succ hlt⟩
  · by_cases hr : r = .eof
    · have hrest : rest s = [] := (yields_eof hy hr).2.2
      subst hr
      rw [hrest] at hlast
      exact .inr (.inr ⟨hlast, hrest, hlast ▸ hend⟩)
    · have hrest : rest s = [r] := yields_answers hy hr
      rw [hrest] at hlast
      refine .inr (.inl ⟨trivial, ?_, Nat.succ_pos _, hlast ▸ hend⟩)
      have hagain : r ≠ .again none := by
        rintro rfl
        cases hy
      rw [if_neg hagain, hrest]

theorem flatMap_filter {α : Type} [DecidableEq α] (a : α) (rs : List α) :
    rs.flatMap (fun r => if r = a then [] else [r]) = rs.filter (fun r => r ≠ a) := by
  induction rs with
  | nil => rfl
  | cons r rs ih =>
      by_cases h : r = a <;> simp [h, ih]

/-- The line fetches, repeated often enough, answer with the given lines and
then with the end of file only, but for the AGAINs in between. -/
def Delivers (s : ZStreamLine × Child) (lines : List (List UInt8)) : Prop :=
  ∃ calls, ∀ n, calls ≤ n → ∃ results k t,
    lineGets n s = .ok (results ++ List.replicate (k + 1) .eof, t) ∧
    results.filter (fun r => r ≠ .again none) = lines.map .normal

theorem delivers_of_drains {s : ZStreamLine × Child} {lines : List (List UInt8)} (size : Nat)
    (h : ∀ n, ∃ rs t, lineGets n s = .ok (rs, t) ∧
      Run.Drains (fun r => if r = .again none then [] else [r]) (fun _ => True) .eof
        (lines.map .normal) size rs) : Delivers s lines := by
  refine ⟨size + 1, fun n hn => ?_⟩
  obtain ⟨rs, t, hrun, hdrains⟩ := h n
  have hlen : rs.length = n := by rw [Run.run_length hrun, List.length_replicate]
  obtain ⟨live, k, rfl, -, hlive⟩ := hdrains.complete (Nat.lt_of_lt_of_eq hn hlen.symm)
  exact ⟨live, k, t, hrun, (flatMap_filter _ _).symm.trans hlive⟩

theorem filter_delivered {results : List (LineResult (List UInt8))} {lines : List (List UInt8)}
    (h : results.filter (fun r => r ≠ .again none) = lines.map .normal) (k : Nat) :
    ((results ++ List.replicate k LineResult.eof).filter
      (fun r => r ≠ LineResult.again none)).filter (fun r => r ≠ LineResult.eof) =
        lines.map .normal := by
  rw [List.filter_append, h, List.filter_append]
  simp

theorem Delivers.unique {s : ZStreamLine × Child} {lines lines' : List (List UInt8)}
    (h : Delivers s lines) (h' : Delivers s lines') : lines = lines' := by
  obtain ⟨a, ha⟩ := h
  obtain ⟨b, hb⟩ := h'
  obtain ⟨results, k, t, hrun, hlines⟩ := ha (max a b) (Nat.le_max_left a b)
  obtain ⟨results', k', t', hrun', hlines'⟩ := hb (max a b) (Nat.le_max_right a b)
  rw [hrun, Except.ok.injEq, Prod.mk.injEq] at hrun'
  have hmap : lines.map LineResult.normal = lines'.map LineResult.normal := by
    rw [← filter_delivered hlines (k + 1), hrun'.1, filter_delivered hlines' (k' + 1)]
  exact List.map_injective_iff.mpr (fun _ _ heq => by cases heq; rfl) hmap

theorem lineNew_open (bufsize : UInt64) (f : LineFlags) (memory : Nat → UInt8) {c : Child}
    (hc : Ends fails c) : Open f bufsize.toNat fails (lineNew bufsize f memory, c) ∧
      stream (lineNew bufsize f memory, c) = childBytes c := by
  have hnil : (view (lineNew bufsize f memory)).pending = [] :=
    Region.window_self (lineNew bufsize f memory).buffer 0
  refine ⟨⟨⟨Nat.le_refl 0, Nat.zero_le _, by simp [lineNew], bufsize.toNat_lt⟩, rfl, rfl,
    ⟨rfl, rfl, rfl, prevCr_zero (s := lineNew bufsize f memory) rfl, ?_, hc⟩⟩, ?_⟩
  · rw [hnil]
    exact Nat.zero_le _
  · rw [stream, total, hnil, List.nil_append]

/-- The three kinds of end of line. -/
inductive Eol
  | nl
  | crlf
  | nul
  deriving DecidableEq

namespace Eol

def byte : Eol → UInt8
  | .nul => 0
  | _ => 10

/-- The flags of a stream that allows NULs and does not touch its lines. -/
def flags (mode : Eol) (singleRead pollPartial : Bool) : LineFlags where
  eolNl := mode = .nl
  eolCrlf := mode = .crlf
  eolNul := mode = .nul
  nulNonfatal := true
  singleRead := singleRead
  pollPartial := pollPartial

/-- The lines of a stream that have an end of line, and what comes after. -/
def terminated (mode : Eol) (T : List UInt8) : List (List UInt8) := (T.splitOn mode.byte).dropLast

def unterminated (mode : Eol) (T : List UInt8) : List UInt8 :=
  (T.splitOn mode.byte).getLast (List.splitOn_ne_nil _ _)

def strip (mode : Eol) (line : List UInt8) : List UInt8 :=
  if mode = .crlf ∧ line.getLast? = some 13 then line.dropLast else line

/-- The reference split of a stream into lines. -/
def lines (mode : Eol) (T : List UInt8) : List (List UInt8) :=
  (mode.terminated T).map mode.strip ++
    if mode.unterminated T = [] then [] else [mode.unterminated T]

end Eol

variable (mode : Eol) (singleRead pollPartial : Bool)

theorem eolByte_flags : eolByte (mode.flags singleRead pollPartial) = mode.byte := by
  cases mode <;> rfl

theorem nulAllowed_flags (raw : List UInt8) :
    nulAllowed (mode.flags singleRead pollPartial) raw = true := by
  simp [nulAllowed, Eol.flags]

theorem deliver_flags (body : List UInt8) :
    deliver (mode.flags singleRead pollPartial) body = .ok (mode.strip body) := by
  rw [deliver, if_pos (nulAllowed_flags mode singleRead pollPartial _)]
  cases mode with
  | nl | nul => simp [lineLength, Eol.flags, Eol.strip]
  | crlf =>
      by_cases hcr : body.getLast? = some 13
      · have hpos : 1 ≤ body.length := by
          cases body with
          | nil => cases hcr
          | cons => simp
        have htake : (body ++ [eolByte (Eol.crlf.flags singleRead pollPartial)]).take
            (body.length - 1) = body.dropLast := by
          rw [List.take_append_of_le_length (by omega), List.dropLast_eq_take]
        simp [lineLength, Eol.flags, Eol.strip, endsCr, hcr, gsizeSub_le hpos] at htake ⊢
        exact htake
      · simp [lineLength, Eol.flags, Eol.strip, endsCr, hcr]

theorem outcomes_flags {cap : Nat} (pieces : List (List UInt8)) (hne : pieces ≠ [])
    (hlines : ∀ line ∈ pieces.dropLast, line.length + 1 ≤ cap)
    (hlast : (pieces.getLast hne).length < cap) :
    outcomes (mode.flags singleRead pollPartial) cap false pieces =
      (pieces.dropLast.map mode.strip ++
        if pieces.getLast hne = [] then [] else [pieces.getLast hne]).map .normal := by
  induction pieces with
  | nil => exact absurd rfl hne
  | cons body rest ih =>
      cases rest with
      | nil =>
          have hfit : ¬cap ≤ body.length := Nat.not_le_of_lt hlast
          rw [outcomes, if_neg hfit, lastOutcomes, if_neg (by simp),
            if_pos (nulAllowed_flags mode singleRead pollPartial body)]
          by_cases hbody : body = [] <;> simp [hbody]
      | cons next rest =>
          have hfit : ¬cap ≤ body.length := Nat.not_le_of_lt (hlines body (by simp))
          have hrest := ih (List.cons_ne_nil _ _)
            (fun line hline => hlines line (by simp [hline])) hlast
          rw [outcomes, if_neg hfit, deliver_flags, hrest]
          simp

theorem lastAnswer_normals (lines : List (List UInt8)) :
    lastAnswer (lines.map .normal) = .eof := by
  induction lines with
  | nil => rfl
  | cons line lines ih => rw [List.map_cons, lastAnswer_normal, ih]

/-- Whatever the sizes of the reads and wherever the AGAINs are, repeated line
fetches deliver the lines of the stream, and then the end of file. -/
theorem lineGets_exact (bufsize : UInt64) (memory : Nat → UInt8)
    (reads : List (Option (List UInt8)))
    (hlines : ∀ line ∈ mode.terminated (readBytes reads), line.length + 1 ≤ bufsize.toNat)
    (hlast : (mode.unterminated (readBytes reads)).length < bufsize.toNat) :
    Delivers (lineNew bufsize (mode.flags singleRead pollPartial) memory, ofReads reads)
      (mode.lines (readBytes reads)) := by
  have hc : Ends false (ofReads reads) := by
    simpa [ending] using ends_ofReads reads false
  obtain ⟨hopen, hstream⟩ := lineNew_open bufsize (mode.flags singleRead pollPartial) memory hc
  have hanswers : answers (mode.flags singleRead pollPartial) bufsize.toNat false
      (readBytes reads) = (mode.lines (readBytes reads)).map .normal := by
    rw [answers, eolByte_flags]
    exact outcomes_flags mode singleRead pollPartial _ (List.splitOn_ne_nil _ _) hlines hlast
  have hrec (s : ZStreamLine × Child) :
      Recorded (mode.flags singleRead pollPartial) bufsize.toNat false s := by
    refine .inr (.inr (.inr ?_))
    rw [refused]
    split
    · rfl
    · rw [nulAllowed_flags, Bool.not_true, Bool.and_false]
    · rw [deliver_flags]
      exact Bool.and_false _
  apply delivers_of_drains
  intro n
  obtain ⟨rs, t, hrun, hdrains⟩ :=
    lineGets_drains rfl rfl hopen n (Run.meets_true _ _ _ (fun _ _ => hrec))
  rw [hstream, childBytes_ofReads, hanswers, lastAnswer_normals] at hdrains
  exact ⟨rs, t, hrun, hdrains⟩

theorem lineGets_exact_crlf :
    Delivers (lineNew 4 (Eol.crlf.flags true false) (fun _ => 0),
      ofReads [some [97, 13], none, some [10, 98]]) [[97], [98]] :=
  lineGets_exact .crlf true false 4 (fun _ => 0) [some [97, 13], none, some [10, 98]] (by decide)
    (by decide)

end Libzorpll.LineFraming
