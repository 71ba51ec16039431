import Libzorpll.GzipHeader
import Libzorpll.GzipWrite

namespace Libzorpll.GzipRead

open ChildStream StreamChunk StreamGzip GzipHeader
open GzipWrite (storedBlock)

variable {ζ χ : Type}

/-- As zlib has it, inflate on a valid stream: in a state in which `Left` has
the compressed bytes still to come and the data still to be put out, a call
uses up the first of the ones and puts out the first of the others. It finds
the end when nothing is left, it answers Z_OK when it has got on, and
Z_BUF_ERROR only when it lacks input. -/
def Inflates (zlib : Zlib ζ χ) (Left : χ → List UInt8 → List UInt8 → Prop) : Prop :=
  ∀ z comp data rest input space, Left z comp data → input <+: comp ++ rest → 0 < space →
    ∃ comp' data', comp = input.take (zlib.inflate input space z).consumed ++ comp' ∧
      data = (zlib.inflate input space z).output ++ data' ∧
      ((zlib.inflate input space z).ret = .streamEnd ∧ data' = [] ∨
        (zlib.inflate input space z).ret = .ok ∧ Left (zlib.inflate input space z).state comp' data' ∧
          comp'.length + data'.length < comp.length + data.length ∨
        (zlib.inflate input space z).ret = .bufError ∧ input = [] ∧ comp ≠ [])

variable {zlib : Zlib ζ χ} {Left : χ → List UInt8 → List UInt8 → Prop} {s : ZStreamGzip ζ χ}
  {child : Child} {comp data rest : List UInt8}

/-- A stream behind its header: the bytes that it has read but not inflated,
and those of its child, begin with what is left of the compressed ones. -/
structure Reading (Left : χ → List UInt8 → List UInt8 → Prop) (s : ZStreamGzip ζ χ) (child : Child)
    (comp data rest : List UInt8) : Prop where
  left : Left s.decode comp data
  bytes : s.decodeIn ++ childBytes child = comp ++ rest
  ends : Ends false child
  ended : s.eofReceived = true → child = []
  shut : s.shutdownIn = false
  goes : s.compressFinished = false
  sound : s.readError = false

/-- Where the child answers with a read of no bytes, inflate can go on without
any. -/
def Fed (zlib : Zlib ζ χ) (count : Nat) (s : ZStreamGzip ζ χ) (child : Child) : Prop :=
  s.decodeIn = [] → s.eofReceived = false → (childRead s.bufferLength child).1 = .normal [] →
    (zlib.inflate [] count s.decode).ret ≠ .bufError

/-- What the filling of the buffer comes to: an AGAIN of the child, or bytes
for inflate, which has none only if it needs none. -/
theorem readFill_reading (h : Reading Left s child comp data rest) {count : Nat}
    (hfed : Fed zlib count s child) :
    (∃ s' child', readFill [] s child = (some .again, s', child') ∧
      Reading Left s' child' comp data rest ∧ childSize child' < childSize child ∧
      s'.gzipHeader = s.gzipHeader ∧ s'.headerRead = s.headerRead) ∨
    ∃ s' child', readFill [] s child = (none, s', child') ∧ Reading Left s' child' comp data rest ∧
      childSize child' ≤ childSize child ∧ s'.decode = s.decode ∧
      (s'.decodeIn = [] → comp = [] ∨ (zlib.inflate [] count s'.decode).ret ≠ .bufError) ∧
      s'.gzipHeader = s.gzipHeader ∧ s'.headerRead = s.headerRead := by
  by_cases hneeds : s.decodeIn = [] ∧ ¬s.eofReceived = true
  · have hempty := hneeds.1
    have heof := hneeds.2
    have hbytes := h.bytes
    rw [hempty, List.nil_append] at hbytes
    have hread := childRead_bytes s.bufferLength child
    have htaken := childRead_taken s.bufferLength child
    obtain ⟨got, child', hgot, hends⟩ | ⟨child', hagain, hends⟩ | ⟨-, rfl, heofRead⟩ | ⟨hfalse, -⟩ :=
      h.ends.read s.bufferLength
    · rw [hgot] at hread htaken
      refine .inr ⟨{ s with decodeIn := got }, child', ?_, ?_, ?_, rfl, ?_, rfl, rfl⟩
      · rw [readFill, if_pos hneeds, hgot]
      · refine ⟨h.left, ?_, hends, fun hend => absurd hend heof, h.shut, h.goes, h.sound⟩
        exact hread.trans hbytes
      · exact Nat.le_of_add_left_le htaken
      · rintro rfl
        refine .inr (hfed hempty (Bool.eq_false_iff.mpr heof) ?_)
        rw [hgot]
    · rw [hagain] at hread
      refine .inl ⟨{ s with decodeIn := [] }, child', ?_, ?_, ?_, rfl, rfl⟩
      · rw [readFill, if_pos hneeds, hagain]
      · refine ⟨h.left, ?_, hends, fun hend => absurd hend heof, h.shut, h.goes, h.sound⟩
        exact hread.trans hbytes
      · cases child with
        | nil => cases hagain
        | cons answer child =>
            cases answer with
            | normal whole =>
                rw [childRead] at hagain
                split at hagain
                · cases hagain
                · cases hagain
            | again =>
                cases hagain
                simp [childSize]
            | eof | error => cases hagain
    · refine .inr ⟨{ s with decodeIn := [], eofReceived := true }, [], ?_, ?_, Nat.le_refl _, rfl, ?_,
        rfl, rfl⟩
      · rw [readFill, if_pos hneeds, heofRead]
      · exact ⟨h.left, hbytes, h.ends, fun _ => rfl, h.shut, h.goes, h.sound⟩
      · intro _
        exact .inl (List.append_eq_nil_iff.mp hbytes.symm).1
    · cases hfalse
  · refine .inr ⟨s, child, ?_, h, Nat.le_refl _, rfl, ?_, rfl, rfl⟩
    · rw [readFill, if_neg hneeds]
    · intro hempty
      have heof : s.eofReceived = true := by
        by_contra hnot
        exact hneeds ⟨hempty, hnot⟩
      have hbytes := h.bytes
      rw [hempty, h.ended heof] at hbytes
      exact .inl (List.append_eq_nil_iff.mp hbytes.symm).1

/-- A stream at whose end inflate has arrived. -/
structure Done (s : ZStreamGzip ζ χ) : Prop where
  shut : s.shutdownIn = false
  finished : s.compressFinished = true
  sound : s.readError = false

/-- What a call of inflate does to a stream that has input or needs none. -/
theorem readInflate_reading (hinflates : Inflates zlib Left) (h : Reading Left s child comp data rest)
    {count : Nat} (hcount : 0 < count ∧ count < 2 ^ 32)
    (hfed : s.decodeIn = [] → comp = [] ∨ (zlib.inflate [] count s.decode).ret ≠ .bufError) :
    ∃ out s', readInflate zlib count s = (.normal out, s') ∧
      ((∃ comp' data', data = out ++ data' ∧ Reading Left s' child comp' data' rest ∧
          comp'.length + data'.length < comp.length + data.length ∧ s'.gzipHeader = s.gzipHeader ∧
          s'.headerRead = s.headerRead) ∨
        data = out ∧ Done s') := by
  have hspace : count % 2 ^ 32 = count := Nat.mod_eq_of_lt hcount.2
  have hprefix : s.decodeIn <+: comp ++ rest := ⟨childBytes child, h.bytes⟩
  obtain ⟨comp', data', hcomp, hdata, hret⟩ :=
    hinflates s.decode comp data rest s.decodeIn count h.left hprefix hcount.1
  refine ⟨(zlib.inflate s.decodeIn count s.decode).output, ?_⟩
  obtain ⟨hend, rfl⟩ | ⟨hok, hleft, hless⟩ | ⟨hbuf, hempty, hne⟩ := hret
  · refine ⟨{ s with
      decode := (zlib.inflate s.decodeIn count s.decode).state
      decodeIn := s.decodeIn.drop (zlib.inflate s.decodeIn count s.decode).consumed
      compressFinished := true }, ?_, .inr ⟨?_, h.shut, rfl, h.sound⟩⟩
    · simp only [readInflate, hspace, hend, ne_eq, reduceCtorEq, not_false_eq_true, not_true_eq_false,
        and_false, ↓reduceIte, Nat.sub_self, List.replicate_zero, List.append_nil]
    · rw [List.append_nil] at hdata
      exact hdata
  · refine ⟨{ s with
      decode := (zlib.inflate s.decodeIn count s.decode).state
      decodeIn := s.decodeIn.drop (zlib.inflate s.decodeIn count s.decode).consumed }, ?_,
      .inl ⟨comp', data', hdata, ?_, hless, rfl, rfl⟩⟩
    · simp only [readInflate, hspace, hok, ne_eq, reduceCtorEq, not_false_eq_true, not_true_eq_false,
        false_and, ↓reduceIte, Nat.sub_self, List.replicate_zero, List.append_nil]
    · refine ⟨hleft, ?_, h.ends, h.ended, h.shut, h.goes, h.sound⟩
      have hbytes := h.bytes
      rw [← List.take_append_drop (zlib.inflate s.decodeIn count s.decode).consumed s.decodeIn, hcomp,
        List.append_assoc, List.append_assoc] at hbytes
      exact List.append_cancel_left hbytes
  · obtain hnone | hgoes := hfed hempty
    · exact absurd hnone hne
    · rw [hempty] at hbuf
      exact absurd hbuf hgoes

theorem ends_drop {child : Child} (h : Ends false child) (n : Nat) : Ends false (childDrop child n) := by
  induction child generalizing n with
  | nil => exact h
  | cons answer child ih =>
      by_cases hzero : n = 0
      · rw [hzero, childDrop_zero]
        exact h
      · rw [childDrop, if_neg hzero]
        cases h with
        | again h =>
            have hnone : (answerBytes .again).length ≤ n := Nat.zero_le n
            rw [if_pos hnone]
            exact ih h _
        | normal data h =>
            split
            · exact ih h _
            · exact .normal _ h

/-- The header that the next read has to read first, which the child delivers
without a pause, and its strings byte by byte. -/
def Ahead (s : ZStreamGzip ζ χ) (child : Child) (header : List UInt8) : Prop :=
  if s.gzipHeader = true ∧ s.headerRead = false then
    ∃ h : HeaderText, h.text = header ∧ h.text <+: promptBytes child ∧
      Bytewise h.stringsLength (childDrop child h.stringsStart)
  else header = []

theorem readGzipHeader_ahead {s : ZStreamGzip ζ χ} {child : Child} {header : List UInt8}
    (Left : χ → List UInt8 → List UInt8 → Prop) (stack : Nat → Nat → UInt8)
    (h : Ahead s child header) :
    ∃ s', readGzipHeader stack s child = .ok (true, s', childDrop child header.length) ∧
      (∀ child' comp data rest, Reading Left s child' comp data rest →
        Reading Left s' child' comp data rest) ∧
      ¬(s'.gzipHeader = true ∧ s'.headerRead = false) := by
  rw [Ahead] at h
  by_cases hneeds : s.gzipHeader = true ∧ s.headerRead = false
  · rw [if_pos hneeds] at h
    obtain ⟨text, rfl, ⟨more, hprompt⟩, hbytewise⟩ := h
    obtain ⟨t, ht, -, hchild⟩ := readHeaderSteps_text text stack (resetGzipHeader s.header).timestamp
      hprompt.symm hbytewise
    refine ⟨{ s with headerRead := true, header := t.header }, ?_, ?_, ?_⟩
    · have hreset : resetGzipHeader s.header =
          { timestamp := (resetGzipHeader s.header).timestamp } := rfl
      have hgoes : s.gzipHeader = true ∧ ¬s.headerRead = true :=
        ⟨hneeds.1, Bool.eq_false_iff.mp hneeds.2⟩
      rw [readGzipHeader, if_pos hgoes, hreset, ht, ← hchild]
      rfl
    · exact fun _ _ _ _ h => ⟨h.left, h.bytes, h.ends, h.ended, h.shut, h.goes, h.sound⟩
    · exact fun hread => Bool.noConfusion hread.2
  · rw [if_neg hneeds] at h
    subst h
    refine ⟨s, ?_, fun _ _ _ _ h => h, hneeds⟩
    have hnot : ¬(s.gzipHeader = true ∧ ¬s.headerRead = true) := by
      rintro ⟨hgzip, hread⟩
      exact hneeds ⟨hgzip, Bool.eq_false_iff.mpr hread⟩
    rw [readGzipHeader, if_neg hnot, List.length_nil, childDrop_zero]

/-- A stream whose child still has the header, and behind it what is read. -/
def Before (Left : χ → List UInt8 → List UInt8 → Prop) (s : ZStreamGzip ζ χ) (child : Child)
    (header comp data rest : List UInt8) : Prop :=
  Ahead s child header ∧ Reading Left s (childDrop child header.length) comp data rest

theorem Reading.before (h : Reading Left s child comp data rest)
    (hread : ¬(s.gzipHeader = true ∧ s.headerRead = false)) : Before Left s child [] comp data rest := by
  refine ⟨?_, ?_⟩
  · rw [Ahead, if_neg hread]
  · rw [List.length_nil, childDrop_zero]
    exact h

/-- A call of the read method: the length of its buffer, and what is in the
memory that it and its child leave as it was. -/
structure ReadOp where
  count : Nat
  stack : Nat → Nat → UInt8
  unset : List UInt8

def readStep (zlib : Zlib ζ χ) (op : ReadOp) (s : ZStreamGzip ζ χ × Child) :
    Except Halt (ReadResult × ZStreamGzip ζ χ × Child) :=
  readMethod zlib op.stack op.unset op.count s.1 s.2

/-- The buffer has a length for an uInt, the child sets its count to 0 where it
does not deliver, and the read of no bytes comes only when none are needed. -/
def Fair (zlib : Zlib ζ χ) (op : ReadOp) (s : ZStreamGzip ζ χ × Child) : Prop :=
  op.count < 2 ^ 32 ∧ op.unset = [] ∧
  ∀ s' child', readGzipHeader op.stack { s.1 with childCondIn := false } s.2 = .ok (true, s', child') →
    Fed zlib op.count s' child'

theorem fair_of_read {op : ReadOp} (hlimit : op.count < 2 ^ 32) (hunset : op.unset = [])
    (hgzip : s.gzipHeader = false) (hread : (childRead s.bufferLength child).1 ≠ .normal []) :
    Fair zlib op (s, child) := by
  refine ⟨hlimit, hunset, ?_⟩
  intro s' child' hheader
  have hnot : ¬(s.gzipHeader = true ∧ ¬s.headerRead = true) :=
    fun h => Bool.noConfusion (hgzip.symm.trans h.1)
  rw [readGzipHeader, if_neg hnot] at hheader
  cases hheader
  intro _ _ hnone
  exact absurd hnone hread

/-- An answer that is neither the end nor an error. -/
def Live (r : ReadResult) : Prop := r = .again ∨ ∃ out, r = .normal out

/-- What a read goes on to when it has looked for bytes of the child. -/
def behindFill (zlib : Zlib ζ χ) (count : Nat) :
    Option ReadResult × ZStreamGzip ζ χ × Child → Except Halt (ReadResult × ZStreamGzip ζ χ × Child)
  | (some result, self, child) => .ok (result, self, child)
  | (none, self, child) =>
      let (result, self) := readInflate zlib count self
      .ok (result, self, child)

/-- A read delivers the first of the data that is left and comes nearer to its
end. -/
theorem readStep_before {header : List UInt8} (hinflates : Inflates zlib Left)
    (h : Before Left s child header comp data rest) {op : ReadOp} (hcount : 0 < op.count)
    (hfair : Fair zlib op (s, child)) :
    ∃ r s' child', readStep zlib op (s, child) = .ok (r, s', child') ∧ Live r ∧
      ((∃ comp' data', data = answerBytes r ++ data' ∧ Before Left s' child' [] comp' data' rest ∧
          childSize child' + comp'.length + data'.length <
            childSize child + comp.length + data.length) ∨
        data = answerBytes r ∧ Done s') := by
  obtain ⟨hlimit, hunset, hfed⟩ := hfair
  obtain ⟨hahead, hreading⟩ := h
  have hahead' : Ahead { s with childCondIn := false } child header := hahead
  have hreading' : Reading Left { s with childCondIn := false } (childDrop child header.length) comp
      data rest := ⟨hreading.left, hreading.bytes, hreading.ends, hreading.ended, hreading.shut,
    hreading.goes, hreading.sound⟩
  obtain ⟨a, hheader, hkeeps, hread⟩ := readGzipHeader_ahead Left op.stack hahead'
  have hareading := hkeeps _ _ _ _ hreading'
  have hsize := childSize_drop child header.length
  have hshut : ¬s.shutdownIn = true := Bool.eq_false_iff.mp hreading.shut
  have hgoes : ¬s.compressFinished = true := Bool.eq_false_iff.mp hreading.goes
  have hsound : ¬s.readError = true := Bool.eq_false_iff.mp hreading.sound
  have hstart : readStep zlib op (s, child) =
      behindFill zlib op.count (readFill op.unset a (childDrop child header.length)) := by
    rw [readStep, readMethod]
    simp only []
    rewrite [if_neg hshut, if_neg hgoes, if_neg hsound, hheader]
    rfl
  obtain ⟨b, child', hfill, hbreading, hless, hgzip, hheaderRead⟩ |
      ⟨b, child', hfill, hbreading, hless, -, hfedb, hgzip, hheaderRead⟩ :=
    readFill_reading hareading (hfed a _ hheader)
  · refine ⟨.again, b, child', ?_, .inl rfl, .inl ⟨comp, data, rfl, hbreading.before ?_, by omega⟩⟩
    · simp only [hstart, hunset, hfill, behindFill]
    · rw [hgzip, hheaderRead]
      exact hread
  · obtain ⟨out, c, hinflate, hresult⟩ := readInflate_reading hinflates hbreading ⟨hcount, hlimit⟩ hfedb
    refine ⟨.normal out, c, child', ?_, .inr ⟨out, rfl⟩, ?_⟩
    · simp only [hstart, hunset, hfill, behindFill, hinflate]
    · obtain ⟨comp', data', hdata, hcreading, hmore, hcgzip, hcheader⟩ | ⟨hdata, hdone⟩ := hresult
      · refine .inl ⟨comp', data', hdata, hcreading.before ?_, by omega⟩
        rw [hcgzip, hcheader, hgzip, hheaderRead]
        exact hread
      · exact .inr ⟨hdata, hdone⟩

theorem readStep_done (zlib : Zlib ζ χ) (h : Done s) (op : ReadOp) (child : Child) :
    ∃ s', readStep zlib op (s, child) = .ok (.eof, s', child) ∧ Done s' := by
  refine ⟨{ s with childCondIn := false }, ?_, h.shut, h.finished, h.sound⟩
  simp only [readStep, readMethod, Bool.eq_false_iff.mp h.shut, h.finished, ↓reduceIte]
  rfl

theorem run_done (zlib : Zlib ζ χ) (ops : List ReadOp) (h : Done s) (child : Child) :
    ∃ t, Run.run (readStep zlib) ops (s, child) = .ok (List.replicate ops.length .eof, t) ∧ Done t.1 := by
  induction ops generalizing s with
  | nil => exact ⟨(s, child), rfl, h⟩
  | cons op ops ih =>
      obtain ⟨s', hstep, hdone⟩ := readStep_done zlib h op child
      obtain ⟨t, hrun, ht⟩ := ih hdone
      refine ⟨t, ?_, ht⟩
      simp only [Run.run, hstep, hrun, Except.map, List.length_cons, List.replicate_succ]

/-- A run of reads delivers the data and then the end. -/
theorem run_before {header : List UInt8} (hinflates : Inflates zlib Left) (ops : List ReadOp)
    (h : Before Left s child header comp data rest) (hcount : ∀ op ∈ ops, 0 < op.count)
    (hfair : Run.Meets (readStep zlib) (Fair zlib) ops (s, child)) :
    ∃ rs t, Run.run (readStep zlib) ops (s, child) = .ok (rs, t) ∧ t.1.readError = false ∧
      Run.Drains answerBytes Live .eof data (childSize child + comp.length + data.length + 1) rs := by
  induction ops generalizing s child header comp data with
  | nil => exact ⟨[], (s, child), rfl, h.2.sound, [], 0, rfl, by simp, by simp, by simp, by simp⟩
  | cons op ops ih =>
      obtain ⟨r, s', child', hstep, hlive, hresult⟩ :=
        readStep_before hinflates h (hcount op List.mem_cons_self) hfair.1
      obtain ⟨comp', data', rfl, hbefore, hless⟩ | ⟨rfl, hdone⟩ := hresult
      · obtain ⟨rs, t, hrun, hsound, hdrains⟩ :=
          ih hbefore (fun op' hop' => hcount op' (List.mem_cons_of_mem _ hop')) (hfair.2 _ _ hstep)
        refine ⟨r :: rs, t, by simp only [Run.run, hstep, hrun, Except.map], hsound, ?_⟩
        apply Run.drains_cons hlive _ hdrains
        omega
      · obtain ⟨t, hrun, ht⟩ := run_done zlib ops hdone child'
        refine ⟨r :: List.replicate ops.length .eof, t, by simp only [Run.run, hstep, hrun, Except.map],
          ht.sound, ?_⟩
        have hnone : Run.Drains answerBytes Live .eof [] 0 (List.replicate ops.length .eof) :=
          Run.drains_done 0 ops.length
        have hdrains := Run.drains_cons hlive (Nat.succ_pos (childSize child + comp.length +
          (answerBytes r).length)) hnone
        rw [List.append_nil] at hdrains
        exact hdrains

theorem gzipNew_reading {encode : ζ} {decode : χ} {syncFlush gzipHeader writeEmptyHeader nonblock : Bool}
    {bufferLength : Nat}
    (hnew : gzipNew encode decode syncFlush gzipHeader writeEmptyHeader nonblock bufferLength = .ok s)
    (hvalid : Left decode comp data) (hends : Ends false child) (hbytes : childBytes child = comp ++ rest) :
    Reading Left s child comp data rest := by
  rw [gzipNew] at hnew
  split at hnew
  · cases hnew
  · cases hnew
    exact ⟨hvalid, hbytes, hends, fun heof => Bool.noConfusion heof, rfl, rfl, rfl⟩

/-- However a valid stream arrives and whatever the buffers of the reads, they
deliver its data and then the end, if inflate has what it needs when a read of
the child delivers no bytes, and the header comes in one go. -/
theorem reads_delivered (zlib : Zlib ζ χ) (Left : χ → List UInt8 → List UInt8 → Prop)
    (hinflates : Inflates zlib Left) (encode : ζ) (decode : χ)
    (syncFlush gzipHeader writeEmptyHeader nonblock : Bool) (bufferLength : Nat) (s : ZStreamGzip ζ χ)
    (hnew : gzipNew encode decode syncFlush gzipHeader writeEmptyHeader nonblock bufferLength = .ok s)
    (header comp data rest : List UInt8) (hvalid : Left decode comp data) (child : Child)
    (hends : Ends false child) (hbytes : childBytes child = header ++ (comp ++ rest))
    (hahead : Ahead s child header) (ops : List ReadOp) (hcount : ∀ op ∈ ops, 0 < op.count)
    (hfair : Run.Meets (readStep zlib) (Fair zlib) ops (s, child)) :
    ∃ rs t, Run.run (readStep zlib) ops (s, child) = .ok (rs, t) ∧ t.1.readError = false ∧
      Run.Drains answerBytes Live .eof data (childSize child + comp.length + data.length + 1) rs := by
  have hdrop : childBytes (childDrop child header.length) = comp ++ rest := by
    rw [childBytes_drop, hbytes, List.drop_left]
  have hreading := gzipNew_reading hnew hvalid (ends_drop hends header.length) hdrop
  exact run_before hinflates ops ⟨hahead, hreading⟩ hcount hfair

/-- inflate on one stored block with the given data, by how far it has got in
it; deflate is not used with it. -/
def storedInflate (data : List UInt8) : Zlib Unit Nat where
  deflate := fun _ _ _ _ => ⟨.bufError, 0, [], ()⟩
  deflateEnd := fun _ => .ok
  inflate := fun input space pos =>
    let block := storedBlock true data
    let used := min input.length (min (block.length - pos) (5 - pos + space))
    { ret := if pos + used = block.length then .streamEnd else if used = 0 then .bufError else .ok
      consumed := used
      output := (block.take (pos + used)).drop (max pos 5)
      state := pos + used }
  inflateEnd := fun _ => .ok
  deflate_consumed := fun _ _ _ _ => Nat.zero_le _
  deflate_output := fun _ _ _ _ => Nat.zero_le _
  inflate_consumed := fun _ _ _ => Nat.min_le_left _ _
  inflate_output := by
    intro input space pos
    simp only [List.length_drop, List.length_take]
    omega

def StoredLeft (data : List UInt8) (pos : Nat) (comp left : List UInt8) : Prop :=
  comp = (storedBlock true data).drop pos ∧ left = data.drop (pos - 5) ∧
    pos < (storedBlock true data).length

theorem storedInflate_inflates (data : List UInt8) : Inflates (storedInflate data) (StoredLeft data) := by
  rintro pos comp left rest input space ⟨rfl, rfl, hpos⟩ hprefix hspace
  have hblock : (storedBlock true data).length = data.length + 5 := rfl
  have hdata : (storedBlock true data).drop (max pos 5) = data.drop (pos - 5) := by
    have hmax : max pos 5 = 5 + (pos - 5) := by omega
    rw [hmax, ← List.drop_drop]
    rfl
  obtain ⟨used, hused⟩ : ∃ used, used =
    min input.length (min ((storedBlock true data).length - pos) (5 - pos + space)) := ⟨_, rfl⟩
  have hcall : (storedInflate data).inflate input space pos =
      ⟨if pos + used = (storedBlock true data).length then .streamEnd
        else if used = 0 then .bufError else .ok, used,
        ((storedBlock true data).take (pos + used)).drop (max pos 5), pos + used⟩ := by
    rw [hused]
    rfl
  have htake : input.take used = ((storedBlock true data).drop pos).take used := by
    obtain ⟨more, hmore⟩ := hprefix
    have hlen : used ≤ ((storedBlock true data).drop pos).length := by
      rw [List.length_drop]
      omega
    have hwhole : (input ++ more).take used = input.take used :=
      List.take_append_of_le_length (by omega)
    rw [← hwhole, hmore, List.take_append_of_le_length hlen]
  rw [hcall]
  refine ⟨((storedBlock true data).drop pos).drop used,
    (data.drop (pos - 5)).drop (pos + used - max pos 5), ?_, ?_, ?_⟩
  · rw [htake, List.take_append_drop]
  · rw [List.drop_take, hdata, List.take_append_drop]
  · by_cases hend : pos + used = (storedBlock true data).length
    · refine .inl ⟨if_pos hend, ?_⟩
      apply List.eq_nil_of_length_eq_zero
      rw [List.length_drop, List.length_drop]
      omega
    · by_cases hzero : used = 0
      · refine .inr (.inr ⟨?_, ?_, ?_⟩)
        · simp only [if_neg hend, if_pos hzero]
        · apply List.eq_nil_of_length_eq_zero
          omega
        · intro hnil
          have hlen := congrArg List.length hnil
          rw [List.length_drop, List.length_nil] at hlen
          omega
      · refine .inr (.inl ⟨?_, ⟨List.drop_drop, ?_, ?_⟩, ?_⟩)
        · simp only [if_neg hend, if_neg hzero]
        · change _ = data.drop (pos + used - 5)
          rw [List.drop_drop]
          congr 1
          omega
        · change pos + used < (storedBlock true data).length
          omega
        · simp only [List.length_drop]
          omega

/-- A new stream for `storedInflate`. -/
def storedReader : ZStreamGzip Unit Nat where
  syncFlush := false
  gzipHeader := false
  writeEmptyHeader := false
  bufferLength := 16
  encode := ()
  decode := 0

def readByte : ReadOp := ⟨1, fun _ _ => 0, []⟩

/-- A byte whose block arrives in two pieces with an AGAIN between them. -/
theorem reads_delivered_stored :
    ∃ rs t, Run.run (readStep (storedInflate [97])) [readByte, readByte, readByte, readByte]
        (storedReader, [.normal [1, 1], .again, .normal [0, 254, 255, 97]]) = .ok (rs, t) ∧
      t.1.readError = false ∧ Run.Drains answerBytes Live .eof [97] 17 rs := by
  refine reads_delivered (storedInflate [97]) (StoredLeft [97]) (storedInflate_inflates _) () 0 false
    false false false 16 storedReader rfl [] [1, 1, 0, 254, 255, 97] [97] [] ⟨rfl, rfl, by decide⟩
    [.normal [1, 1], .again, .normal [0, 254, 255, 97]]
    (.normal _ (.again (.normal _ .eof))) rfl rfl [readByte, readByte, readByte, readByte] ?_ ?_
  · intro op hop
    rw [List.eq_of_mem_replicate (n := 4) hop]
    exact Nat.one_pos
  · exact Run.meets_cons (fair_of_read (by decide) rfl rfl (by decide)) rfl
      (Run.meets_cons (fair_of_read (by decide) rfl rfl (by decide)) rfl
        (Run.meets_cons (fair_of_read (by decide) rfl rfl (by decide)) rfl
          (Run.meets_cons (fair_of_read (by decide) rfl rfl (by decide)) rfl trivial)))

/-- A read of the child without bytes, before its block: the read fails, and
the error stays. -/
theorem reads_not_delivered :
    ¬∀ (zlib : Zlib Unit Nat) (Left : Nat → List UInt8 → List UInt8 → Prop) (_ : Inflates zlib Left)
      (s : ZStreamGzip Unit Nat) (_ : gzipNew () 0 false false false false 16 = .ok s)
      (comp data : List UInt8) (_ : Left 0 comp data) (child : Child) (_ : Ends false child)
      (_ : childBytes child = comp) (ops : List ReadOp)
      (_ : ∀ op ∈ ops, 0 < op.count ∧ op.count < 2 ^ 32 ∧ op.unset = []),
      ∃ rs t, Run.run (readStep zlib) ops (s, child) = .ok (rs, t) ∧ t.1.readError = false ∧
        Run.Drains answerBytes Live .eof data (childSize child + comp.length + data.length + 1) rs := by
  intro h
  obtain ⟨rs, t, hrun, hsound, -⟩ := h (storedInflate [97]) (StoredLeft [97]) (storedInflate_inflates _)
    storedReader rfl [1, 1, 0, 254, 255, 97] [97] ⟨rfl, rfl, by decide⟩
    [.normal [], .normal [1, 1, 0, 254, 255, 97]] (.normal _ (.normal _ .eof)) rfl [readByte]
    (by intro op hop; cases hop with | head => exact ⟨by decide, by decide, rfl⟩ | tail _ hop => cases hop)
  cases hrun
  cases hsound

end Libzorpll.GzipRead
