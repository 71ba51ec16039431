import Libzorpll.LineFraming

/-! Errors of the line policy: they end the stream, and do not depend on how
it arrived. -/

namespace Libzorpll.LinePolicy

open ChildStream StreamLine LineReader LineBuffer LineCalls LineFraming

/-- The answers other than AGAIN. -/
def answered (results : List (LineResult (List UInt8))) : List (LineResult (List UInt8)) :=
  results.filter (fun r => r ≠ .again none)

/-- Two streams of line fetches, called often enough, give the same answers. -/
def SameAnswers (s s' : ZStreamLine × Child) : Prop :=
  ∀ k, ∃ calls, ∀ n n', calls ≤ n → calls ≤ n' → ∃ rs t rs' t',
    lineGets n s = .ok (rs, t) ∧ lineGets n' s' = .ok (rs', t') ∧
    k ≤ (answered rs).length ∧ k ≤ (answered rs').length ∧
    (answered rs).take k = (answered rs').take k

/-- Nothing but errors comes after an error. -/
def Final (results : List (LineResult (List UInt8))) : Prop :=
  ∀ before e after, results = before ++ .error e :: after → ∀ r ∈ after, ∃ e', r = .error e'

/-- What the policy promises of two deliveries of one stream. -/
def Settled (s s' : ZStreamLine × Child) : Prop :=
  SameAnswers s s' ∧ (∀ n rs t, lineGets n s = .ok (rs, t) → Final rs) ∧
    ∀ n rs t, lineGets n s' = .ok (rs, t) → Final rs

theorem final_nil : Final [] := by
  intro before e after h
  simp at h

theorem final_cons {r : LineResult (List UInt8)} {rs : List (LineResult (List UInt8))}
    (h : Final rs) (herr : (∃ e, r = .error e) → ∀ r ∈ rs, ∃ e, r = .error e) :
    Final (r :: rs) := by
  intro before e after heq
  cases before with
  | nil =>
      simp only [List.nil_append, List.cons.injEq] at heq
      obtain ⟨rfl, rfl⟩ := heq
      exact herr ⟨e, rfl⟩
  | cons b before =>
      simp only [List.cons_append, List.cons.injEq] at heq
      exact h before e after heq.2

variable {f : LineFlags} {cap : Nat} {fails : Bool}

/-- Every call of a run finds its policy errors where they are remembered. -/
def AllRecorded (f : LineFlags) (cap : Nat) (fails : Bool) (s : ZStreamLine × Child) : Prop :=
  ∀ n, Run.Meets (fun _ => lineGet) (fun _ => Recorded f cap fails) (List.replicate n ()) s

theorem lineGets_final (htrunc : f.truncate = false) (hsplit : f.split = false)
    {s : ZStreamLine × Child} (h : Open f cap fails s) (hrec : AllRecorded f cap fails s) (n : Nat) :
    ∃ rs t, lineGets n s = .ok (rs, t) ∧ Final rs := by
  let Inv (s : ZStreamLine × Child) : Prop := Open f cap fails s ∨ ∃ answer, Ended answer s
  let Spec (s : ZStreamLine × Child) (rs : List (LineResult (List UInt8))) : Prop :=
    Final rs ∧ (s.1.error = true → ∀ r ∈ rs, ∃ e, r = .error e)
  have hstep (i : Unit) (s : ZStreamLine × Child) (hs : Inv s) (hr : Recorded f cap fails s) :
      ∃ r t, lineGet s = .ok (r, t) ∧ Inv t ∧ ∀ rs, Spec t rs → Spec s (r :: rs) := by
    rcases hs with hopen | ⟨answer, hended⟩
    · have hno : s.1.error = false := hopen.live.failed
      obtain ⟨r, t, hrun, hnext⟩ := lineGet_open htrunc hsplit hopen hr
      refine ⟨r, t, hrun, ?_⟩
      obtain ⟨rfl, hopen', -⟩ | ⟨hy, hopen', -⟩ | ⟨hy, hend⟩ := hnext
      · refine ⟨.inl hopen', fun rs hrs => ⟨final_cons hrs.1 ?_, fun ht => ?_⟩⟩
        · rintro ⟨e, he⟩
          cases he
        · exact absurd (hno.symm.trans ht) (by simp)
      · refine ⟨.inl hopen', fun rs hrs => ⟨final_cons hrs.1 ?_, fun ht => ?_⟩⟩
        · rintro ⟨e, rfl⟩
          cases hy
        · exact absurd (hno.symm.trans ht) (by simp)
      · refine ⟨.inr ⟨_, hend⟩, fun rs hrs => ⟨final_cons hrs.1 ?_, fun ht => ?_⟩⟩
        · rintro ⟨e, rfl⟩
          obtain ⟨-, herr⟩ | ⟨heof, -⟩ := hend.stored
          · exact hrs.2 herr
          · cases heof
        · exact absurd (hno.symm.trans ht) (by simp)
    · obtain ⟨t, hrun, hended'⟩ := lineGet_ended hended
      refine ⟨answer, t, hrun, .inr ⟨answer, hended'⟩, fun rs hrs => ?_⟩
      obtain ⟨rfl, herr⟩ | ⟨rfl, -, hno, -⟩ := hended.stored
      · obtain ⟨-, herr'⟩ | ⟨heof, -⟩ := hended'.stored
        · refine ⟨final_cons hrs.1 (fun _ => hrs.2 herr'), fun _ => ?_⟩
          simpa using hrs.2 herr'
        · cases heof
      · refine ⟨final_cons hrs.1 ?_, fun ht => absurd (hno.symm.trans ht) (by simp)⟩
        rintro ⟨e, he⟩
        cases he
  obtain ⟨rs, t, hrun, -, hspec⟩ :=
    Run.run_induct (fun s _ => ⟨final_nil, fun _ r hr => absurd hr List.not_mem_nil⟩) hstep _
      (.inl h) (hrec n)
  exact ⟨rs, t, hrun, hspec.1⟩

/-- The answers depend on the bytes of the stream only. -/
theorem lineGets_same (htrunc : f.truncate = false) (hsplit : f.split = false)
    {s s' : ZStreamLine × Child} (h : Open f cap fails s) (h' : Open f cap fails s')
    (hsame : stream s = stream s') (hrec : AllRecorded f cap fails s)
    (hrec' : AllRecorded f cap fails s') : SameAnswers s s' := by
  intro k
  have hlast : (fun r => if r = .again none then [] else [r])
      (lastAnswer (answers f cap fails (stream s))) =
        [lastAnswer (answers f cap fails (stream s))] := by
    rw [lastAnswer]
    split <;> rfl
  refine ⟨workLeft s + 1 + (workLeft s' + 1) + k, fun n n' hn hn' => ?_⟩
  obtain ⟨rs, t, hrun, hdrains⟩ := lineGets_drains htrunc hsplit h n (hrec n)
  obtain ⟨rs', t', hrun', hdrains'⟩ := lineGets_drains htrunc hsplit h' n' (hrec' n')
  have hlen : rs.length = n := by rw [Run.run_length hrun, List.length_replicate]
  have hlen' : rs'.length = n' := by rw [Run.run_length hrun', List.length_replicate]
  rw [← hsame] at hdrains'
  obtain ⟨htake, hcount⟩ := hdrains.take hlast (k := k) (by omega)
  obtain ⟨htake', hcount'⟩ := hdrains'.take hlast (k := k) (by omega)
  rw [flatMap_filter] at htake hcount htake' hcount'
  exact ⟨rs, t, rs', t', hrun, hrun', hcount, hcount', htake.trans htake'.symm⟩

/-- Where no call finds an error of the policy in the read loop, the answers
are the same however the stream arrives, and an error is final. -/
theorem policy_settled (htrunc : f.truncate = false) (hsplit : f.split = false) (bufsize : UInt64)
    (memory memory' : Nat → UInt8) (fails : Bool) (reads reads' : List (Option (List UInt8)))
    (hbytes : readBytes reads = readBytes reads')
    (hrec : AllRecorded f bufsize.toNat fails
      (lineNew bufsize f memory, ofReads reads ++ ending fails))
    (hrec' : AllRecorded f bufsize.toNat fails
      (lineNew bufsize f memory', ofReads reads' ++ ending fails)) :
    Settled (lineNew bufsize f memory, ofReads reads ++ ending fails)
      (lineNew bufsize f memory', ofReads reads' ++ ending fails) := by
  obtain ⟨hopen, hstream⟩ := lineNew_open bufsize f memory (ends_ofReads reads fails)
  obtain ⟨hopen', hstream'⟩ := lineNew_open bufsize f memory' (ends_ofReads reads' fails)
  have hfinal {s : ZStreamLine × Child} (h : Open f bufsize.toNat fails s)
      (hr : AllRecorded f bufsize.toNat fails s) (n : Nat) (rs : List (LineResult (List UInt8)))
      (t : ZStreamLine × Child) (hrun : lineGets n s = .ok (rs, t)) : Final rs := by
    obtain ⟨rs', t', hrun', hf⟩ := lineGets_final htrunc hsplit h hr n
    rw [hrun, Except.ok.injEq, Prod.mk.injEq] at hrun'
    exact hrun'.1 ▸ hf
  refine ⟨lineGets_same htrunc hsplit hopen hopen' ?_ hrec hrec', hfinal hopen hrec,
    hfinal hopen' hrec'⟩
  rw [hstream, hstream']
  simpa using hbytes

theorem allRecorded_next {s t : ZStreamLine × Child} {r : LineResult (List UInt8)}
    (hrec : Recorded f cap fails s) (hrun : lineGet s = .ok (r, t))
    (hnext : AllRecorded f cap fails t) : AllRecorded f cap fails s := by
  intro n
  cases n with
  | zero => trivial
  | succ n => exact Run.meets_cons hrec hrun (hnext n)

theorem allRecorded_failed {s : ZStreamLine × Child} (h : s.1.error = true) :
    AllRecorded f cap fails s := by
  intro n
  induction n with
  | zero => trivial
  | succ n ih =>
      have hsame : lineGet s = .ok (.error .previouslyStored, s) := by
        simp [lineGet, getInternal, h, LineResult.contents, bind, Except.bind, pure, Except.pure]
      exact Run.meets_cons (.inl h) hsame ih

/-- A NUL in the second line, which is in the buffer when the first one is
fetched. -/
theorem policy_settled_nul :
    Settled
      (lineNew 8 { eolNl := true } (fun _ => 0), ofReads [some [120, 10, 97, 0, 98, 10]] ++ ending false)
      (lineNew 8 { eolNl := true } (fun _ => 0),
        ofReads [some [120], none, some [10, 97, 0, 98, 10]] ++ ending false) :=
  policy_settled rfl rfl 8 (fun _ => 0) (fun _ => 0) false [some [120, 10, 97, 0, 98, 10]]
    [some [120], none, some [10, 97, 0, 98, 10]] rfl
    (allRecorded_next (by decide) rfl (allRecorded_next (by decide) rfl (allRecorded_failed rfl)))
    (allRecorded_next (by decide) rfl (allRecorded_next (by decide) rfl
      (allRecorded_next (by decide) rfl (allRecorded_failed rfl))))

/-- A NUL in a line that was not buffered before the call: the lines after it
are delivered. -/
theorem policy_not_settled :
    ¬∀ (f : LineFlags) (_ : f.eolNl = true ∨ f.eolCrlf = true) (_ : f.truncate = false)
      (_ : f.split = false) (bufsize : UInt64) (memory memory' : Nat → UInt8) (fails : Bool)
      (reads reads' : List (Option (List UInt8))) (_ : readBytes reads = readBytes reads'),
      Settled (lineNew bufsize f memory, ofReads reads ++ ending fails)
        (lineNew bufsize f memory', ofReads reads' ++ ending fails) := by
  intro h
  obtain ⟨-, hfinal, -⟩ := h { eolNl := true } (.inl rfl) rfl rfl 8 (fun _ => 0) (fun _ => 0) false
    [some [97, 0, 98, 10, 99, 10]] [some [97, 0, 98, 10, 99, 10]] rfl
  obtain ⟨e, he⟩ := hfinal 2 _ _ rfl [] _ _ rfl (.normal [99]) (by decide)
  cases he

end Libzorpll.LinePolicy
