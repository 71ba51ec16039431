import Libzorpll.Run
import Libzorpll.StreamGzip

namespace Libzorpll.GzipWrite

open StreamChunk StreamGzip

variable {ζ χ : Type}

/-- Calls of deflate with one flush value, from one state to another: all the
input they use up, and all they put out. -/
inductive Deflates (zlib : Zlib ζ χ) (flush : Flush) : ζ → List UInt8 → List UInt8 → ζ → Prop
  | nil (z : ζ) : Deflates zlib flush z [] [] z
  | call {z w : ζ} {input output : List UInt8} (offered : List UInt8) (space : Nat)
      (h : Deflates zlib flush z input output w) :
      Deflates zlib flush z (input ++ offered.take (zlib.deflate flush offered space w).consumed)
        (output ++ (zlib.deflate flush offered space w).output)
        (zlib.deflate flush offered space w).state

/-- As zlib has it, deflate returns Z_OK where it has both input and space. -/
def Progresses (zlib : Zlib ζ χ) (flush : Flush) (start : ζ) : Prop :=
  ∀ input output z, Deflates zlib flush start input output z → ∀ offered space, offered ≠ [] →
    0 < space → (zlib.deflate flush offered space z).ret = .ok

/-- The bytes that the child has accepted and those that are pending are
`header` and all that deflate has put out for `consumed`. -/
structure Held (zlib : Zlib ζ χ) (start : ζ) (header : List UInt8) (s : ZStreamGzip ζ χ) (sink : Sink)
    (consumed : List UInt8) : Prop where
  inside : s.encodeOutP ≤ s.encodeOut.length
  space : s.encodeOut.length ≤ s.bufferLength
  patient : Patient sink
  output : ∃ output, Deflates zlib (writeFlush s) start consumed output s.encode ∧
    received sink ++ pendingOut s = header ++ output

/-- All of a stream that the writing of data leaves as it is. -/
def settings (s : ZStreamGzip ζ χ) : ZStreamGzip Unit χ :=
  { s with encode := (), encodeOut := [], encodeOutP := 0, childCondOut := false }

variable {zlib : Zlib ζ χ} {start : ζ} {header consumed : List UInt8} {s : ZStreamGzip ζ χ}
  {sink : Sink}

/-- The child has taken some of the pending bytes. -/
def advance (count : Nat) (s : ZStreamGzip ζ χ) : ZStreamGzip ζ χ :=
  { s with encodeOutP := s.encodeOutP + count }

/-- A call of deflate has been made. -/
def deflated (zlib : Zlib ζ χ) (input : List UInt8) (s : ZStreamGzip ζ χ) : ZStreamGzip ζ χ :=
  { s with
    encode := (zlib.deflate (writeFlush s) input (availOut s) s.encode).state
    encodeOut := s.encodeOut ++ (zlib.deflate (writeFlush s) input (availOut s) s.encode).output }

theorem pendingOut_length (s : ZStreamGzip ζ χ) :
    (pendingOut s).length = s.encodeOut.length - s.encodeOutP := List.length_drop

/-- A part of the pending bytes is taken. -/
theorem Held.advanced (h : Held zlib start header s sink consumed) {count : Nat} {after : Sink}
    (hcount : count ≤ (pendingOut s).length)
    (hreceived : received after = received sink ++ (pendingOut s).take count)
    (hpatient : Patient after) :
    Held zlib start header (advance count s) after consumed := by
  obtain ⟨output, hrun, hbytes⟩ := h.output
  have hinside := h.inside
  rw [pendingOut_length] at hcount
  refine ⟨?_, h.space, hpatient, output, hrun, ?_⟩
  · change s.encodeOutP + count ≤ s.encodeOut.length
    omega
  · have hpending : pendingOut (advance count s) = (pendingOut s).drop count := List.drop_drop.symm
    rw [hpending, hreceived, List.append_assoc, List.take_append_drop, hbytes]

/-- Nothing is pending where the buffer has been taken whole. -/
theorem pendingOut_nil (h : s.encodeOutP = s.encodeOut.length) : pendingOut s = [] := by
  rw [pendingOut, h, List.drop_length]

theorem Held.reset (h : Held zlib start header s sink consumed) (hnone : pendingOut s = []) :
    Held zlib start header { s with encodeOut := [], encodeOutP := 0 } sink consumed := by
  obtain ⟨output, hrun, hbytes⟩ := h.output
  rw [hnone] at hbytes
  exact ⟨Nat.le_refl _, Nat.zero_le _, h.patient, output, hrun, hbytes⟩

theorem Held.retry (h : Held zlib start header s sink consumed) {after : Sink}
    (hreceived : received after = received sink) (hpatient : Patient after) :
    Held zlib start header s after consumed := by
  obtain ⟨output, hrun, hbytes⟩ := h.output
  exact ⟨h.inside, h.space, hpatient, output, hrun, hreceived ▸ hbytes⟩

/-- The first write of what an earlier call has left. -/
theorem writeRest_held (h : Held zlib start header s sink consumed) :
    ∃ r s' after, writeRest s sink = .ok (r, s', after) ∧ settings s' = settings s ∧
      Held zlib start header s' after consumed ∧
      (r = some .again ∨ r = none ∧ pendingOut s' = []) := by
  by_cases hspace : availOut s < s.bufferLength
  · have hinside : ¬s.encodeOut.length < s.encodeOutP := Nat.not_lt.mpr h.inside
    obtain ⟨after, hwrite, hreceived, hpatient, -⟩ | ⟨count, after, hwrite, hcount, hreceived, hpatient⟩ :=
      h.patient.write (pendingOut s)
    · refine ⟨some .again, s, after, ?_, rfl, h.retry hreceived hpatient, .inl rfl⟩
      simp only [writeRest, hspace, ↓reduceIte, hinside, hwrite]
    · have hheld := h.advanced hcount hreceived hpatient
      by_cases hall : s.encodeOutP + count = s.encodeOut.length
      · refine ⟨none, advance count s, after, ?_, rfl, hheld, .inr ⟨rfl, pendingOut_nil hall⟩⟩
        simp only [writeRest, hspace, ↓reduceIte, hinside, hwrite, hall, ne_eq, not_true_eq_false,
          advance]
      · refine ⟨some .again, advance count s, after, ?_, rfl, hheld, .inl rfl⟩
        simp only [writeRest, hspace, ↓reduceIte, hinside, hwrite, ne_eq, hall, not_false_eq_true,
          advance]
  · refine ⟨none, s, sink, ?_, rfl, h, .inr ⟨rfl, ?_⟩⟩
    · simp only [writeRest, hspace, ↓reduceIte]
    · have hempty : s.encodeOut = [] := by
        rw [availOut] at hspace
        have hlen := h.space
        apply List.eq_nil_of_length_eq_zero
        omega
      rw [pendingOut, hempty, List.drop_nil]

/-- A call of deflate uses up input and adds to what is pending. -/
theorem deflateRound_held (hprogress : Progresses zlib (writeFlush s) start)
    (h : Held zlib start header s sink consumed) {input : List UInt8} (hinput : input ≠ []) :
    ∃ used left s', deflateRound zlib input s = (true, left, s') ∧
      settings s' = settings s ∧ s'.encodeOutP = s.encodeOutP ∧ used ++ left = input ∧
      Held zlib start header s' sink (consumed ++ used) := by
  by_cases hspace : 0 < availOut s
  · obtain ⟨output, hrun, hbytes⟩ := h.output
    have hok := hprogress _ _ _ hrun input (availOut s) hinput hspace
    have hlen := zlib.deflate_output (writeFlush s) input (availOut s) s.encode
    refine ⟨input.take (zlib.deflate (writeFlush s) input (availOut s) s.encode).consumed, _,
      deflated zlib input s, ?_, rfl, rfl, List.take_append_drop _ _, ?_⟩
    · simp only [deflateRound, hspace, ↓reduceIte, hok, decide_true]
      rfl
    · have hinside := h.inside
      have hfits := h.space
      refine ⟨?_, ?_, h.patient, _, hrun.call input (availOut s), ?_⟩
      · change s.encodeOutP ≤ (s.encodeOut ++ _).length
        rw [List.length_append]
        exact Nat.le_add_right_of_le hinside
      · change (s.encodeOut ++ _).length ≤ s.bufferLength
        have hroom : availOut s = s.bufferLength - s.encodeOut.length := rfl
        rw [List.length_append]
        omega
      · have hpending : pendingOut (deflated zlib input s) = pendingOut s ++
            (zlib.deflate (writeFlush s) input (availOut s) s.encode).output :=
          List.drop_append_of_le_length hinside
        rw [hpending, ← List.append_assoc, hbytes, List.append_assoc]
  · refine ⟨[], input, s, ?_, rfl, rfl, rfl, ?_⟩
    · simp only [deflateRound, hspace, ↓reduceIte]
    · rw [List.append_nil]
      exact h

/-- How many bytes the child takes of a write. -/
def takes (bytes : List UInt8) (sink : Sink) : Nat :=
  match (sinkWrite bytes sink).1 with
  | .normal count => count
  | _ => 0

/-- The buffer is offered from its beginning, which does no harm if nothing of
it had been taken, or nothing is taken of it now. -/
theorem offerRound_held (h : Held zlib start header s sink consumed)
    (hclean : s.encodeOutP ≠ 0 → takes s.encodeOut sink = 0) :
    ∃ round s' after, offerRound s sink = (round, s', after) ∧ round ≠ .fails ∧
      settings s' = settings s ∧ Held zlib start header s' after consumed := by
  obtain ⟨after, hwrite, hreceived, hpatient, -⟩ | ⟨count, after, hwrite, hcount, hreceived, hpatient⟩ :=
    h.patient.write s.encodeOut
  · refine ⟨.stops, s, after, ?_, by decide, rfl, h.retry hreceived hpatient⟩
    simp only [offerRound, hwrite]
  · have htakes : takes s.encodeOut sink = count := by simp only [takes, hwrite]
    have hheld : Held zlib start header (advance count s) after consumed := by
      by_cases hp : s.encodeOutP = 0
      · have hpending : pendingOut s = s.encodeOut := by rw [pendingOut, hp, List.drop_zero]
        rw [← hpending] at hcount hreceived
        exact h.advanced hcount hreceived hpatient
      · have hnone : count = 0 := htakes.symm.trans (hclean hp)
        subst hnone
        exact h.advanced (Nat.zero_le _) hreceived hpatient
    by_cases hall : s.encodeOutP + count = s.encodeOut.length
    · refine ⟨.goes, { s with encodeOut := [], encodeOutP := 0 }, after, ?_, by decide, rfl,
        hheld.reset (pendingOut_nil hall)⟩
      simp only [offerRound, hwrite, hall, ↓reduceIte]
    · refine ⟨.goes, advance count s, after, ?_, by decide, rfl, hheld⟩
      simp only [offerRound, hwrite, hall, ↓reduceIte, advance]

/-- In no round of the loop is anything taken of a buffer of which an earlier
round had taken a part. -/
def RoundsClean (zlib : Zlib ζ χ) : Nat → List UInt8 → ZStreamGzip ζ χ → Sink → Prop
  | 0, _, _, _ => True
  | rounds + 1, input, s, sink =>
      input ≠ [] →
        (s.encodeOutP ≠ 0 → takes (deflateRound zlib input s).2.2.encodeOut sink = 0) ∧
        ∀ left s' after, writeRound zlib input s sink = (.goes, left, s', after) →
          RoundsClean zlib rounds left s' after

theorem writeRound_held (hprogress : Progresses zlib (writeFlush s) start)
    (h : Held zlib start header s sink consumed) {input : List UInt8} (hinput : input ≠ [])
    (hclean : s.encodeOutP ≠ 0 → takes (deflateRound zlib input s).2.2.encodeOut sink = 0) :
    ∃ round used left s' after, writeRound zlib input s sink = (round, left, s', after) ∧
      round ≠ .fails ∧ settings s' = settings s ∧ used ++ left = input ∧
      Held zlib start header s' after (consumed ++ used) := by
  obtain ⟨used, left, mid, hdeflate, hsettings, hp, hsplit, hmid⟩ :=
    deflateRound_held hprogress h hinput
  rw [hdeflate, ← hp] at hclean
  obtain ⟨round, s', after, hoffer, hround, hsettings', hheld⟩ := offerRound_held hmid hclean
  refine ⟨round, used, left, s', after, ?_, hround, hsettings'.trans hsettings, hsplit, hheld⟩
  simp only [writeRound, hdeflate, hoffer]

theorem writeFlush_settings {s' : ZStreamGzip ζ χ} (h : settings s' = settings s) :
    writeFlush s' = writeFlush s := by
  have hsettings : (settings s').syncFlush = (settings s).syncFlush := by rw [h]
  have hflag : s'.syncFlush = s.syncFlush := hsettings
  rw [writeFlush, writeFlush, hflag]

/-- The loop uses up a part of its input, all of it or up to an AGAIN. -/
theorem writeLoop_held (hprogress : Progresses zlib (writeFlush s) start) (rounds : Nat)
    (h : Held zlib start header s sink consumed) (input : List UInt8)
    (hclean : RoundsClean zlib rounds input s sink) :
    writeLoop zlib rounds input s sink = .error .endless ∨
      ∃ used left s' after, writeLoop zlib rounds input s sink = .ok (true, left, s', after) ∧
        settings s' = settings s ∧ used ++ left = input ∧
        Held zlib start header s' after (consumed ++ used) := by
  induction rounds generalizing s sink consumed input with
  | zero => exact .inl rfl
  | succ rounds ih =>
      by_cases hinput : input = []
      · refine .inr ⟨[], [], s, sink, ?_, rfl, hinput.symm, ?_⟩
        · rw [writeLoop, if_pos hinput]
        · rw [List.append_nil]
          exact h
      · obtain ⟨hfirst, hrest⟩ := hclean hinput
        obtain ⟨round, used, left, mid, after, hround, hgoes, hsettings, hsplit, hmid⟩ :=
          writeRound_held hprogress h hinput hfirst
        cases round with
        | fails => exact absurd rfl hgoes
        | stops =>
            refine .inr ⟨used, left, mid, after, ?_, hsettings, hsplit, hmid⟩
            simp only [writeLoop, hinput, ↓reduceIte, hround]
        | goes =>
            have hloop : writeLoop zlib (rounds + 1) input s sink =
                writeLoop zlib rounds left mid after := by
              simp only [writeLoop, hinput, ↓reduceIte, hround]
            rw [hloop]
            rw [← writeFlush_settings hsettings] at hprogress
            obtain hend | ⟨used', left', last, after', hlast, hsettings', hsplit', hheld⟩ :=
              ih hprogress hmid left (hrest _ _ _ hround)
            · exact .inl hend
            · refine .inr ⟨used ++ used', left', last, after', hlast, hsettings'.trans hsettings, ?_, ?_⟩
              · rw [List.append_assoc, hsplit', hsplit]
              · rw [← List.append_assoc]
                exact hheld

theorem writeChunkLoop_patient (rounds : Nat) (bytes : List UInt8) {sink : Sink} (h : Patient sink) :
    (∃ halt, writeChunkLoop rounds bytes sink = .error halt ∧ halt ≠ .memory) ∨
      ∃ after, writeChunkLoop rounds bytes sink = .ok (.normal, after) ∧
        received after = received sink ++ bytes ∧ Patient after := by
  induction rounds generalizing bytes sink with
  | zero => exact .inl ⟨.endless, rfl, by decide⟩
  | succ rounds ih =>
      by_cases hbytes : bytes = []
      · refine .inr ⟨sink, ?_, ?_, h⟩
        · rw [writeChunkLoop, if_pos hbytes]
        · rw [hbytes, List.append_nil]
      · obtain ⟨after, hwrite, -⟩ | ⟨count, after, hwrite, -, hreceived, hpatient⟩ := h.write bytes
        · refine .inl ⟨.assertion, ?_, by decide⟩
          simp only [writeChunkLoop, hbytes, ↓reduceIte, hwrite]
        · have hloop : writeChunkLoop (rounds + 1) bytes sink =
              writeChunkLoop rounds (bytes.drop count) after := by
            simp only [writeChunkLoop, hbytes, ↓reduceIte, hwrite]
          rw [hloop]
          obtain hhalt | ⟨last, hlast, hlastReceived, hlastPatient⟩ := ih (bytes.drop count) hpatient
          · exact .inl hhalt
          · refine .inr ⟨last, hlast, ?_, hlastPatient⟩
            rw [hlastReceived, hreceived, List.append_assoc, List.take_append_drop]

theorem writeChunks_patient (chunks : List (List UInt8)) {sink : Sink} (h : Patient sink) :
    (∃ halt, writeChunks chunks sink = .error halt ∧ halt ≠ .memory) ∨
      ∃ after, writeChunks chunks sink = .ok (true, after) ∧
        received after = received sink ++ chunks.flatten ∧ Patient after := by
  induction chunks generalizing sink with
  | nil => exact .inr ⟨sink, rfl, (List.append_nil _).symm, h⟩
  | cons chunk chunks ih =>
      obtain ⟨halt, hhalt, hne⟩ | ⟨mid, hmid, hreceived, hpatient⟩ :=
        writeChunkLoop_patient (sink.answers.length + 2) chunk h
      · have hchunk : writeChunk chunk sink = .error halt := hhalt
        exact .inl ⟨halt, by simp only [writeChunks, hchunk], hne⟩
      · have hchunk : writeChunk chunk sink = .ok (.normal, mid) := hmid
        have hrest : writeChunks (chunk :: chunks) sink = writeChunks chunks mid := by
          simp only [writeChunks, hchunk]
        rw [hrest]
        obtain hhalt | ⟨after, hafter, hreceived', hpatient'⟩ := ih hpatient
        · exact .inl hhalt
        · refine .inr ⟨after, hafter, ?_, hpatient'⟩
          rw [hreceived', hreceived, List.flatten_cons, List.append_assoc]

/-- The header that the child has got. -/
def headerOf (s : ZStreamGzip ζ χ) : List UInt8 :=
  if s.gzipHeader ∧ s.headerWritten then (headerChunks s.header).flatten else []

theorem headerOf_settings {s s' : ZStreamGzip ζ χ} (h : settings s' = settings s) :
    headerOf s' = headerOf s := by
  have hsettings : headerOf (settings s') = headerOf (settings s) := by rw [h]
  exact hsettings

/-- The state of a stream between two calls: before its header is written
nothing else is. -/
structure Intact (zlib : Zlib ζ χ) (start : ζ) (s : ZStreamGzip ζ χ × Sink) (reported : List UInt8) :
    Prop where
  held : Held zlib start (headerOf s.1) s.1 s.2 reported
  first : s.1.gzipHeader = true → s.1.headerWritten = false →
    reported = [] ∧ s.1.encode = start ∧ received s.2 = [] ∧ pendingOut s.1 = []

theorem writeGzipHeader_intact (h : Intact zlib start (s, sink) consumed) :
    (∃ halt, writeGzipHeader s sink = .error halt ∧ halt ≠ .memory) ∨
      ∃ s' after, writeGzipHeader s sink = .ok (true, s', after) ∧ writeFlush s' = writeFlush s ∧
        Held zlib start (headerOf s') s' after consumed ∧
        (s'.gzipHeader = true → s'.headerWritten = true) ∧ s'.bufferLength = s.bufferLength := by
  by_cases hfirst : s.gzipHeader = true ∧ ¬s.headerWritten = true
  · obtain ⟨hgzip, hwritten⟩ := hfirst
    obtain ⟨rfl, hencode, hnone, hpending⟩ := h.first hgzip (Bool.eq_false_iff.mpr hwritten)
    obtain ⟨halt, hhalt, hne⟩ | ⟨after, hafter, hreceived, hpatient⟩ :=
      writeChunks_patient (headerChunks s.header) h.held.patient
    · refine .inl ⟨halt, ?_, hne⟩
      simp only [writeGzipHeader, hgzip, hwritten, hhalt, Except.map]
      simp
    · refine .inr ⟨{ s with headerWritten := true }, after, ?_, rfl, ?_, fun _ => rfl, rfl⟩
      · simp only [writeGzipHeader, hgzip, hwritten, hafter, Except.map]
        simp
      · refine ⟨h.held.inside, h.held.space, hpatient, [], ?_, ?_⟩
        · change Deflates zlib (writeFlush s) start [] [] s.encode
          rw [hencode]
          exact .nil start
        · have hheader : headerOf { s with headerWritten := true } = (headerChunks s.header).flatten := by
            simp [headerOf, hgzip]
          change received after ++ pendingOut s = _
          rw [hheader, hreceived, hnone, hpending, List.nil_append]
  · refine .inr ⟨s, sink, ?_, rfl, h.held, ?_, rfl⟩
    · rw [writeGzipHeader, if_neg hfirst]
    · intro hgzip
      by_contra hwritten
      exact hfirst ⟨hgzip, hwritten⟩

inductive GzipOp
  | write (rounds : Nat) (buf : List UInt8)
  | callback

def gzipStep (zlib : Zlib ζ χ) (op : GzipOp) (s : ZStreamGzip ζ χ × Sink) :
    Except Halt (Option WriteResult × ZStreamGzip ζ χ × Sink) :=
  match op with
  | .write rounds buf => (writeMethod zlib rounds buf s.1 s.2).map (fun p => (some p.1, p.2))
  | .callback => (writeCallback s.1 s.2).map (fun t => (none, t))

/-- The bytes that are reported as written. -/
def reported (buf : List UInt8) : WriteResult → List UInt8
  | .normal count => buf.take count
  | _ => []

def reportedBy : GzipOp → Option WriteResult → List UInt8
  | .write _ buf, some r => reported buf r
  | _, _ => []

/-- A write fits an uInt, and its loop is clean; the callback has an amount
of pending bytes that fits a gint. -/
def Clean (zlib : Zlib ζ χ) : GzipOp → ZStreamGzip ζ χ × Sink → Prop
  | .write rounds buf, (s, sink) =>
      buf.length < 2 ^ 32 ∧
      ∀ s₁ sink₁ s₂ sink₂, writeGzipHeader { s with childCondOut := false } sink = .ok (true, s₁, sink₁) →
        writeRest s₁ sink₁ = .ok (none, s₂, sink₂) →
        RoundsClean zlib rounds buf { s₂ with encodeOut := [], encodeOutP := 0 } sink₂
  | .callback, (s, _) => (pendingOut s).length < 2 ^ 31

theorem writeDone_held {buf used left : List UInt8} (hsplit : used ++ left = buf)
    (h : Held zlib start header s sink (consumed ++ used)) :
    ∃ r s', writeDone buf left s = (r, s') ∧ headerOf s' = headerOf s ∧
      s'.headerWritten = s.headerWritten ∧ s'.gzipHeader = s.gzipHeader ∧
      writeFlush s' = writeFlush s ∧ Held zlib start header s' sink (consumed ++ reported buf r) := by
  have hlen : buf.length - left.length = used.length := by
    rw [← hsplit, List.length_append, Nat.add_sub_cancel]
  by_cases hzero : used.length = 0
  · have hnone : used = [] := List.eq_nil_of_length_eq_zero hzero
    refine ⟨.again, s, ?_, rfl, rfl, rfl, rfl, ?_⟩
    · simp only [writeDone, hlen, hzero, ↓reduceIte]
    · rw [hnone] at h
      exact h
  · have htake : buf.take used.length = used := by rw [← hsplit, List.take_left]
    by_cases hgzip : s.gzipHeader = true
    · refine ⟨.normal used.length, { s with
        encodeCrc := crc32 s.encodeCrc (buf.take (used.length % 2 ^ 32))
        encodeIn := s.encodeIn + UInt32.ofNat used.length }, ?_, rfl, rfl, rfl, rfl, ?_⟩
      · simp only [writeDone, hlen, hzero, ↓reduceIte, hgzip]
      · change Held _ _ _ _ _ (consumed ++ buf.take used.length)
        rw [htake]
        exact ⟨h.inside, h.space, h.patient, h.output⟩
    · refine ⟨.normal used.length, s, ?_, rfl, rfl, rfl, rfl, ?_⟩
      · simp only [writeDone, hlen, hzero, ↓reduceIte, hgzip, Bool.false_eq_true]
      · change Held _ _ _ _ _ (consumed ++ buf.take used.length)
        rw [htake]
        exact h

theorem intact_of_written (h : Held zlib start (headerOf s) s sink consumed)
    (hwritten : s.gzipHeader = true → s.headerWritten = true) : Intact zlib start (s, sink) consumed := by
  refine ⟨h, ?_⟩
  intro hgzip hnot
  exact absurd (hwritten hgzip) (Bool.eq_false_iff.mp hnot)

theorem held_settings {header' : List UInt8} {s' : ZStreamGzip ζ χ} (hsettings : settings s' = settings s)
    (hheader : header' = headerOf s) (h : Held zlib start header' s' sink consumed) :
    Held zlib start (headerOf s') s' sink consumed := by
  rw [headerOf_settings hsettings, ← hheader]
  exact h

theorem written_settings {s' : ZStreamGzip ζ χ} (h : settings s' = settings s)
    (hwritten : s.gzipHeader = true → s.headerWritten = true) :
    s'.gzipHeader = true → s'.headerWritten = true := by
  have hgzip : (settings s').gzipHeader = (settings s).gzipHeader := by rw [h]
  have hflag : (settings s').headerWritten = (settings s).headerWritten := by rw [h]
  intro hset
  exact hflag.trans (hwritten (hgzip.symm.trans hset))

theorem writeMethod_intact {rounds : Nat} {buf : List UInt8}
    (hprogress : Progresses zlib (writeFlush s) start) (h : Intact zlib start (s, sink) consumed)
    (hclean : Clean zlib (.write rounds buf) (s, sink)) :
    (∃ halt, writeMethod zlib rounds buf s sink = .error halt ∧ halt ≠ .memory) ∨
      ∃ r s' after, writeMethod zlib rounds buf s sink = .ok (r, s', after) ∧
        Intact zlib start (s', after) (consumed ++ reported buf r) ∧ writeFlush s' = writeFlush s := by
  have hnothing : consumed ++ reported buf .error = consumed := List.append_nil _
  have hnothing' : consumed ++ reported buf .again = consumed := List.append_nil _
  have hstart : Intact zlib start ({ s with childCondOut := false }, sink) consumed :=
    ⟨⟨h.held.inside, h.held.space, h.held.patient, h.held.output⟩, h.first⟩
  by_cases hshut : s.shutdownOut = true ∨ s.writeError = true
  · refine .inr ⟨.error, { s with childCondOut := false }, sink, ?_, ?_, rfl⟩
    · simp only [writeMethod, hshut, ↓reduceIte]
    · rw [hnothing]
      exact hstart
  · obtain ⟨halt, hhalt, hne⟩ | ⟨a, sink₁, hheader, hflush, hheld, hwritten, -⟩ :=
      writeGzipHeader_intact hstart
    · refine .inl ⟨halt, ?_, hne⟩
      simp only [writeMethod, hshut, ↓reduceIte, hhalt]
    · obtain ⟨r, b, sink₂, hrest, hsettings, hheld', hr⟩ := writeRest_held hheld
      have hheldb := held_settings hsettings rfl hheld'
      have hwrittenb := written_settings hsettings hwritten
      obtain rfl | ⟨rfl, hnone⟩ := hr
      · refine .inr ⟨.again, b, sink₂, ?_, ?_, ?_⟩
        · simp only [writeMethod, hshut, ↓reduceIte, hheader, hrest]
        · rw [hnothing']
          exact intact_of_written hheldb hwrittenb
        · exact (writeFlush_settings hsettings).trans hflush
      · have hreset := hheldb.reset hnone
        have hprogress' : Progresses zlib
            (writeFlush { b with encodeOut := [], encodeOutP := 0 }) start := by
          have hsame : writeFlush { b with encodeOut := [], encodeOutP := 0 } = writeFlush s :=
            (writeFlush_settings hsettings).trans hflush
          rw [hsame]
          exact hprogress
        have htake : buf.take (buf.length % 2 ^ 32) = buf := by
          rw [Nat.mod_eq_of_lt hclean.1, List.take_length]
        obtain hend | ⟨used, left, c, sink₃, hloop, hsettings', hsplit, hheldc⟩ :=
          writeLoop_held hprogress' rounds hreset buf (hclean.2 _ _ _ _ hheader hrest)
        · refine .inl ⟨.endless, ?_, by decide⟩
          simp only [writeMethod, hshut, ↓reduceIte, hheader, hrest, htake, hend]
        · have hheldc' := held_settings hsettings' rfl hheldc
          have hwrittenc := written_settings hsettings' hwrittenb
          obtain ⟨r, d, hdone, hheaderd, hflagd, hgzipd, hflushd, hheldd⟩ := writeDone_held hsplit hheldc'
          refine .inr ⟨r, d, sink₃, ?_, ?_, ?_⟩
          · simp only [writeMethod, hshut, ↓reduceIte, hheader, hrest, htake, hloop, hdone]
          · apply intact_of_written
            · rw [hheaderd]
              exact hheldd
            · rw [hflagd, hgzipd]
              exact hwrittenc
          · have hflushc := writeFlush_settings hsettings'
            exact hflushd.trans (hflushc.trans ((writeFlush_settings hsettings).trans hflush))

theorem writeCallback_intact (h : Intact zlib start (s, sink) consumed)
    (hclean : (pendingOut s).length < 2 ^ 31) :
    ∃ s' after, writeCallback s sink = .ok (s', after) ∧ Intact zlib start (s', after) consumed ∧
      writeFlush s' = writeFlush s := by
  have hkept : ∀ (s' : ZStreamGzip ζ χ) (after : Sink), settings s' = settings s →
      s'.encode = s.encode → Held zlib start (headerOf s) s' after consumed →
      (pendingOut s = [] → received after = received sink ∧ pendingOut s' = []) →
      Intact zlib start (s', after) consumed := by
    intro s' after hsettings hencode hheld hnone
    refine ⟨held_settings hsettings rfl hheld, ?_⟩
    intro hgzip hwritten
    have hsame : (settings s').gzipHeader = (settings s).gzipHeader := by rw [hsettings]
    have hsame' : (settings s').headerWritten = (settings s).headerWritten := by rw [hsettings]
    obtain ⟨hreported, hstart, hreceived, hpending⟩ :=
      h.first (hsame.symm.trans hgzip) (hsame'.symm.trans hwritten)
    obtain ⟨hreceived', hpending'⟩ := hnone hpending
    exact ⟨hreported, hencode.trans hstart, hreceived'.trans hreceived, hpending'⟩
  by_cases hspace : availOut s < s.bufferLength
  · have hguard : ¬(s.encodeOut.length < s.encodeOutP ∨ 2 ^ 31 ≤ (pendingOut s).length) := by
      have hinside : s.encodeOutP ≤ s.encodeOut.length := h.held.inside
      omega
    obtain ⟨after, hwrite, hreceived, hpatient, -⟩ | ⟨count, after, hwrite, hcount, hreceived, hpatient⟩ :=
      h.held.patient.write (pendingOut s)
    · refine ⟨s, after, ?_, ?_, rfl⟩
      · simp only [writeCallback, hspace, ↓reduceIte, hguard, hwrite]
      · exact hkept s after rfl rfl (h.held.retry hreceived hpatient) (fun hnone => ⟨hreceived, hnone⟩)
    · have hheld := h.held.advanced hcount hreceived hpatient
      have hnone : pendingOut s = [] → received after = received sink ∧ pendingOut (advance count s) = [] := by
        intro hnone
        refine ⟨by rw [hreceived, hnone, List.take_nil, List.append_nil], ?_⟩
        have hdrop : pendingOut (advance count s) = (pendingOut s).drop count := List.drop_drop.symm
        rw [hdrop, hnone, List.drop_nil]
      by_cases hall : s.encodeOutP + count = s.encodeOut.length
      · refine ⟨{ advance count s with childCondOut := true }, after, ?_, ?_, rfl⟩
        · simp only [writeCallback, hspace, ↓reduceIte, hguard, hwrite, hall, ne_eq, not_true_eq_false,
            advance]
        · exact hkept _ after rfl rfl ⟨hheld.inside, hheld.space, hheld.patient, hheld.output⟩ hnone
      · refine ⟨advance count s, after, ?_, hkept _ after rfl rfl hheld hnone, rfl⟩
        simp only [writeCallback, hspace, ↓reduceIte, hguard, hwrite, hall, ne_eq, not_false_eq_true,
          advance]
  · refine ⟨{ s with childCondOut := true }, sink, ?_, ?_, rfl⟩
    · simp only [writeCallback, hspace, ↓reduceIte]
    · exact hkept _ sink rfl rfl ⟨h.held.inside, h.held.space, h.held.patient, h.held.output⟩
        (fun hnone => ⟨rfl, hnone⟩)

theorem gzipStep_intact (op : GzipOp) {s : ZStreamGzip ζ χ × Sink}
    (hprogress : Progresses zlib (writeFlush s.1) start) (h : Intact zlib start s consumed)
    (hclean : Clean zlib op s) :
    (∃ halt, gzipStep zlib op s = .error halt ∧ halt ≠ .memory) ∨
      ∃ r t, gzipStep zlib op s = .ok (r, t) ∧ Intact zlib start t (consumed ++ reportedBy op r) ∧
        writeFlush t.1 = writeFlush s.1 := by
  obtain ⟨s, sink⟩ := s
  cases op with
  | write rounds buf =>
      obtain ⟨halt, hhalt, hne⟩ | ⟨r, s', after, hwrite, hintact, hflush⟩ :=
        writeMethod_intact hprogress h hclean
      · exact .inl ⟨halt, by simp only [gzipStep, hhalt, Except.map], hne⟩
      · exact .inr ⟨some r, (s', after), by simp only [gzipStep, hwrite, Except.map], hintact, hflush⟩
  | callback =>
      obtain ⟨s', after, hcallback, hintact, hflush⟩ := writeCallback_intact h hclean
      refine .inr ⟨none, (s', after), by simp only [gzipStep, hcallback, Except.map], ?_, hflush⟩
      rw [reportedBy, List.append_nil]
      · exact hintact
      · intro rounds buf r hop
        cases hop

/-- What a run reports as written. -/
def reportedIn (ops : List GzipOp) (rs : List (Option WriteResult)) : List UInt8 :=
  (List.zipWith reportedBy ops rs).flatten

theorem run_intact (ops : List GzipOp) {s : ZStreamGzip ζ χ × Sink}
    (hprogress : Progresses zlib (writeFlush s.1) start) (h : Intact zlib start s consumed)
    (hclean : Run.Meets (gzipStep zlib) (Clean zlib) ops s) :
    (∃ halt, Run.run (gzipStep zlib) ops s = .error halt ∧ halt ≠ .memory) ∨
      ∃ rs t, Run.run (gzipStep zlib) ops s = .ok (rs, t) ∧
        Intact zlib start t (consumed ++ reportedIn ops rs) ∧ writeFlush t.1 = writeFlush s.1 := by
  induction ops generalizing s consumed with
  | nil => exact .inr ⟨[], s, rfl, by rw [reportedIn]; simpa using h, rfl⟩
  | cons op ops ih =>
      obtain ⟨halt, hhalt, hne⟩ | ⟨r, t, hstep, hintact, hflush⟩ := gzipStep_intact op hprogress h hclean.1
      · exact .inl ⟨halt, by simp only [Run.run, hhalt], hne⟩
      · rw [← hflush] at hprogress
        obtain ⟨halt, hhalt, hne⟩ | ⟨rs, u, hrun, hintact', hflush'⟩ :=
          ih hprogress hintact (hclean.2 r t hstep)
        · exact .inl ⟨halt, by simp only [Run.run, hstep, hhalt, Except.map], hne⟩
        · refine .inr ⟨r :: rs, u, by simp only [Run.run, hstep, hrun, Except.map], ?_,
            hflush'.trans hflush⟩
          have hall : consumed ++ reportedIn (op :: ops) (r :: rs) =
              consumed ++ reportedBy op r ++ reportedIn ops rs := by
            rw [reportedIn, List.zipWith_cons_cons, List.flatten_cons, List.append_assoc]
            rfl
          rw [hall]
          exact hintact'

theorem gzipNew_intact {encode : ζ} {decode : χ} {syncFlush gzipHeader writeEmptyHeader nonblock : Bool}
    {bufferLength : Nat}
    (hnew : gzipNew encode decode syncFlush gzipHeader writeEmptyHeader nonblock bufferLength = .ok s)
    (hpatient : Patient sink) (hfresh : received sink = []) : Intact zlib encode (s, sink) [] := by
  rw [gzipNew] at hnew
  split at hnew
  · cases hnew
  · cases hnew
    refine ⟨⟨Nat.le_refl 0, Nat.zero_le _, hpatient, [], .nil encode, ?_⟩, ?_⟩
    · rw [hfresh]
      simp [headerOf, pendingOut]
    · exact fun _ _ => ⟨rfl, rfl, hfresh, rfl⟩

/-- Where the loop of no write offers bytes again that have been taken, the
child has got what deflate has put out for the bytes reported as written, but
for what is pending. -/
theorem writes_delivered (zlib : Zlib ζ χ) (encode : ζ) (decode : χ)
    (syncFlush gzipHeader writeEmptyHeader nonblock : Bool) (bufferLength : Nat) (s : ZStreamGzip ζ χ)
    (hnew : gzipNew encode decode syncFlush gzipHeader writeEmptyHeader nonblock bufferLength = .ok s)
    (hprogress : Progresses zlib (writeFlush s) encode) (sink : Sink) (hpatient : Patient sink)
    (hfresh : received sink = []) (ops : List GzipOp)
    (hclean : Run.Meets (gzipStep zlib) (Clean zlib) ops (s, sink)) :
    (∀ halt, Run.run (gzipStep zlib) ops (s, sink) = .error halt → halt ≠ .memory) ∧
    ∀ rs t, Run.run (gzipStep zlib) ops (s, sink) = .ok (rs, t) →
      ∃ output, Deflates zlib (writeFlush s) encode (reportedIn ops rs) output t.1.encode ∧
        received t.2 ++ pendingOut t.1 = headerOf t.1 ++ output := by
  have h : Intact zlib encode (s, sink) [] := gzipNew_intact hnew hpatient hfresh
  obtain ⟨halt, hhalt, hne⟩ | ⟨rs, t, hrun, hintact, hflush⟩ := run_intact ops hprogress h hclean
  · refine ⟨?_, ?_⟩
    · intro halt' hhalt'
      rw [hhalt] at hhalt'
      cases hhalt'
      exact hne
    · intro rs t hrun
      rw [hhalt] at hrun
      cases hrun
  · refine ⟨?_, ?_⟩
    · intro halt hhalt
      rw [hrun] at hhalt
      cases hhalt
    · intro rs' t' hrun'
      rw [hrun] at hrun'
      cases hrun'
      obtain ⟨output, hdeflates, hbytes⟩ := hintact.held.output
      rw [hflush] at hdeflates
      exact ⟨output, hdeflates, hbytes⟩

/-- deflate at level 0: what it has used up but not made a block of, and what
it has not put out yet. -/
structure Stored where
  data : List UInt8 := []
  pending : List UInt8 := []
  done : Bool := false

def storedBlock (last : Bool) (data : List UInt8) : List UInt8 :=
  let low := UInt8.ofNat data.length
  let high := UInt8.ofNat (data.length / 2 ^ 8)
  [if last then 1 else 0, low, high, ~~~low, ~~~high] ++ data

def storedOutput (flush : Flush) (input : List UInt8) (z : Stored) : Stored :=
  let data := z.data ++ input
  match flush with
  | .noFlush => { z with data := data }
  | .syncFlush =>
      { z with data := [], pending := z.pending ++ storedBlock false data ++ storedBlock false [] }
  | .finish =>
      if z.done then z
      else { data := [], pending := z.pending ++ storedBlock true data, done := true }

/-- zlib with the level 0, for streams without a zlib header that are as
short as one block; inflate is not used with it. -/
def storedZlib : Zlib Stored Unit where
  deflate := fun flush input space z =>
    let z := storedOutput flush input z
    { ret := if flush = .finish ∧ z.pending.length ≤ space then .streamEnd else .ok
      consumed := input.length
      output := z.pending.take space
      state := { z with pending := z.pending.drop space } }
  deflateEnd := fun _ => .ok
  inflate := fun _ _ _ => ⟨.bufError, 0, [], ()⟩
  inflateEnd := fun _ => .ok
  deflate_consumed := fun _ _ _ _ => Nat.le_refl _
  deflate_output := fun _ _ _ _ => by simp [Nat.min_le_left]
  inflate_consumed := fun _ _ _ => Nat.zero_le _
  inflate_output := fun _ _ _ => Nat.zero_le _

theorem storedZlib_progresses {flush : Flush} (h : flush ≠ .finish) (start : Stored) :
    Progresses storedZlib flush start := by
  intro input output z _ offered space _ _
  simp [storedZlib, h]

/-- A new stream over `storedZlib`. -/
def storedStream (syncFlush writeEmptyHeader : Bool) (bufferLength : Nat) : ZStreamGzip Stored Unit where
  syncFlush := syncFlush
  gzipHeader := true
  writeEmptyHeader := writeEmptyHeader
  bufferLength := bufferLength
  encode := {}
  decode := ()

/-- One byte, of whose block the child takes a part at first, and another in
the callback. -/
theorem writes_delivered_stored :
    (∀ halt, Run.run (gzipStep storedZlib) [.write 2 [97], .callback]
      (storedStream true false 64, { answers := [3, 7, 4, 2].map .normal }) =
        .error halt → halt ≠ .memory) ∧
    ∀ rs t, Run.run (gzipStep storedZlib) [.write 2 [97], .callback]
      (storedStream true false 64, { answers := [3, 7, 4, 2].map .normal }) =
        .ok (rs, t) →
      ∃ output, Deflates storedZlib .syncFlush {} (reportedIn [.write 2 [97], .callback] rs) output
          t.1.encode ∧
        received t.2 ++ pendingOut t.1 = headerOf t.1 ++ output := by
  refine writes_delivered storedZlib {} () true true false false 64 (storedStream true false 64) rfl
    (storedZlib_progresses (by decide) _) _ (accepts_counts [3, 7, 4, 2]).patient rfl
    [.write 2 [97], .callback] ?_
  · have hpending : 7 < 2 ^ 31 := by decide
    refine Run.meets_cons ⟨by decide, ?_⟩ rfl (Run.meets_cons hpending rfl trivial)
    intro s₁ sink₁ s₂ sink₂ hheader hrest
    cases hheader
    cases hrest
    refine fun _ => ⟨fun hp => absurd rfl hp, ?_⟩
    intro left s' after hround
    cases hround
    exact fun hleft => absurd rfl hleft

/-- A coder that puts out what it is given, as far as there is space. -/
def copyZlib : Zlib Unit Unit where
  deflate := fun _ input space _ => ⟨.ok, min input.length space, input.take space, ()⟩
  deflateEnd := fun _ => .ok
  inflate := fun _ _ _ => ⟨.bufError, 0, [], ()⟩
  inflateEnd := fun _ => .ok
  deflate_consumed := fun _ _ _ _ => Nat.min_le_left _ _
  deflate_output := fun _ _ _ _ => by simp [Nat.min_le_left]
  inflate_consumed := fun _ _ _ => Nat.zero_le _
  inflate_output := fun _ _ _ => Nat.zero_le _

theorem deflates_copy {flush : Flush} {z w : Unit} {input output : List UInt8}
    (h : Deflates copyZlib flush z input output w) : output = input := by
  induction h with
  | nil => rfl
  | call offered space _ ih =>
      subst ih
      have hcut : offered.take (min offered.length space) = offered.take space := by
        rw [List.take_eq_take_iff]
        omega
      simp only [copyZlib, hcut]

/-- The child takes one byte of two, is offered both again, and takes the
first of them a second time; the second one is then given up. -/
theorem writes_not_delivered :
    ¬∀ (zlib : Zlib Unit Unit) (s : ZStreamGzip Unit Unit)
      (_ : gzipNew () () false false false true 2 = .ok s) (_ : Progresses zlib (writeFlush s) ())
      (sink : Sink) (_ : Patient sink) (_ : received sink = []) (ops : List GzipOp)
      (rs : List (Option WriteResult)) (t : ZStreamGzip Unit Unit × Sink),
      Run.run (gzipStep zlib) ops (s, sink) = .ok (rs, t) →
      ∃ output, Deflates zlib (writeFlush s) () (reportedIn ops rs) output t.1.encode ∧
        received t.2 ++ pendingOut t.1 = headerOf t.1 ++ output := by
  intro h
  have hprogress (flush : Flush) : Progresses copyZlib flush () := fun _ _ _ _ _ _ _ _ => rfl
  obtain ⟨output, hdeflates, hbytes⟩ := h copyZlib _ rfl (hprogress _)
    { answers := [1, 1].map .normal } (accepts_counts [1, 1]).patient rfl [.write 4 [1, 2, 3]] _ _ rfl
  obtain rfl := deflates_copy hdeflates
  have hwrong : ¬[1, 1, 3] = ([1, 2, 3] : List UInt8) := by decide
  exact hwrong hbytes

end Libzorpll.GzipWrite
