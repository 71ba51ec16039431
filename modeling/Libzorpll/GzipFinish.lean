import Libzorpll.GzipWrite

namespace Libzorpll.GzipFinish

open StreamChunk StreamGzip GzipWrite
open StreamBuf (ShutdownMode ChildEvent)

variable {ζ χ : Type} {zlib : Zlib ζ χ} {start : ζ} {s : ZStreamGzip ζ χ} {sink : Sink}
  {header consumed : List UInt8}

theorem writeChunks_whole (chunks : List (List UInt8)) {sink : Sink} (h : sink.answers = []) :
    ∃ after, writeChunks chunks sink = .ok (true, after) ∧
      received after = received sink ++ chunks.flatten ∧ after.answers = [] := by
  induction chunks generalizing sink with
  | nil => exact ⟨sink, rfl, (List.append_nil _).symm, h⟩
  | cons chunk chunks ih =>
      obtain ⟨mid, hmid, hreceived, hmidWhole⟩ := writeChunk_whole chunk h
      obtain ⟨after, hafter, hreceived', hwhole⟩ := ih hmidWhole
      refine ⟨after, by simp only [writeChunks, hmid, hafter], ?_, hwhole⟩
      rw [hreceived', hreceived, List.flatten_cons, List.append_assoc]

/-- The buffer of the coder is empty. -/
def Empty (s : ZStreamGzip ζ χ) : Prop := s.encodeOut = [] ∧ s.encodeOutP = 0

/-- A stream between two calls whose child takes every write whole: nothing
waits in its buffer, and its counters are those of the trailer. -/
structure Ready (zlib : Zlib ζ χ) (start : ζ) (s : ZStreamGzip ζ χ) (sink : Sink)
    (written : List UInt8) : Prop where
  held : Held zlib start (headerOf s) s sink written
  empty : Empty s
  whole : sink.answers = []
  gzip : s.gzipHeader = true
  crc : s.encodeCrc = crc32 0 written
  length : s.encodeIn = UInt32.ofNat written.length
  undamaged : ¬(s.shutdownOut = true ∨ s.writeError = true)
  first : s.headerWritten = false → written = [] ∧ s.encode = start ∧ received sink = []

theorem writeGzipHeader_whole (hgzip : s.gzipHeader = true) (hwhole : sink.answers = []) :
    ∃ after, writeGzipHeader s sink = .ok (true, { s with headerWritten := true }, after) ∧
      received after = received sink ++
        (if s.headerWritten then [] else (headerChunks s.header).flatten) ∧
      after.answers = [] := by
  by_cases hwritten : s.headerWritten = true
  · refine ⟨sink, ?_, ?_, hwhole⟩
    · have hsame : { s with headerWritten := true } = s := by rw [← hwritten]
      rw [writeGzipHeader, hsame, if_neg (fun h => h.2 hwritten)]
    · rw [if_pos hwritten, List.append_nil]
  · obtain ⟨after, hafter, hreceived, hafterWhole⟩ := writeChunks_whole (headerChunks s.header) hwhole
    refine ⟨after, ?_, ?_, hafterWhole⟩
    · simp only [writeGzipHeader, hgzip, hwritten, Bool.false_eq_true, not_false_eq_true, and_self,
        ↓reduceIte, hafter, Except.map]
    · rw [if_neg hwritten, hreceived]

/-- The counters of the trailer are those of `written`. -/
def counted (written : List UInt8) (s : ZStreamGzip ζ χ) : ZStreamGzip ζ χ :=
  { s with encodeCrc := crc32 0 written, encodeIn := UInt32.ofNat written.length }

/-- The buffer of a call. -/
def bufferOf : GzipOp → List UInt8
  | .write _ buf => buf
  | .callback => []

/-- All bytes that a run writes. -/
def written (ops : List GzipOp) : List UInt8 := ops.flatMap bufferOf

theorem flushOut_whole (sink : Sink) (hinside : s.encodeOutP ≤ s.encodeOut.length)
    (hwhole : sink.answers = []) :
    ∃ after, flushOut s sink = .ok (.normal, { s with encodeOutP := s.encodeOut.length }, after) ∧
      received after = received sink ++ pendingOut s ∧ after.answers = [] := by
  by_cases hall : s.encodeOutP = s.encodeOut.length
  · refine ⟨sink, ?_, ?_, hwhole⟩
    · have hsame : { s with encodeOutP := s.encodeOut.length } = s := by rw [← hall]
      rw [hsame, flushOut, flushLoop, if_pos hall]
    · rw [pendingOut_nil hall, List.append_nil]
  · refine ⟨sinkEvent (.wrote (pendingOut s)) sink, ?_, received_event _ _, hwhole⟩
    have hlen : s.encodeOutP + (pendingOut s).length = s.encodeOut.length := by
      rw [pendingOut_length]
      omega
    simp only [flushOut, flushLoop, hall, ↓reduceIte, Nat.not_lt.mpr hinside, sinkWrite_whole _ hwhole,
      hlen]

def lateHeader (s : ZStreamGzip ζ χ) : List UInt8 :=
  if s.writeEmptyHeader ∧ ¬s.headerWritten then (headerChunks s.header).flatten else []

def trailer (s : ZStreamGzip ζ χ) : List UInt8 :=
  littleEndian s.encodeCrc ++ littleEndian s.encodeIn

theorem trailer_length (s : ZStreamGzip ζ χ) : (trailer s).length = 8 := rfl

theorem writeGzipTrailer_whole (hgzip : s.gzipHeader = true) (hwhole : sink.answers = []) :
    ∃ after, writeGzipTrailer s sink = .ok (true, after) ∧
      received after = received sink ++ (if s.headerWritten then trailer s else []) ∧
      after.answers = [] := by
  by_cases hwritten : s.headerWritten = true
  · obtain ⟨after, hafter, hreceived, hafterWhole⟩ := writeChunk_whole (trailer s) hwhole
    rw [trailer] at hafter
    refine ⟨after, ?_, ?_, hafterWhole⟩
    · simp only [writeGzipTrailer, hgzip, hwritten, and_self, ↓reduceIte, hafter, Except.map, decide_true]
    · rw [if_pos hwritten, hreceived]
  · refine ⟨sink, ?_, ?_, hwhole⟩
    · rw [writeGzipTrailer, if_neg (fun h => hwritten h.2)]
    · rw [if_neg hwritten, List.append_nil]

/-- The late header of a stream that has one. -/
theorem lateHeader_whole (hgzip : s.gzipHeader = true) (hwhole : sink.answers = []) :
    ∃ after, (if s.writeEmptyHeader then writeGzipHeader s sink else .ok (true, s, sink)) =
        .ok (true, { s with headerWritten := s.headerWritten || s.writeEmptyHeader }, after) ∧
      received after = received sink ++ lateHeader s ∧ after.answers = [] := by
  by_cases hempty : s.writeEmptyHeader = true
  · obtain ⟨after, hafter, hreceived, hafterWhole⟩ := writeGzipHeader_whole hgzip hwhole
    refine ⟨after, ?_, ?_, hafterWhole⟩
    · rw [if_pos hempty, hafter, hempty, Bool.or_true]
    · rw [hreceived, lateHeader]
      by_cases hwritten : s.headerWritten = true
      · simp only [hwritten, ↓reduceIte, not_true_eq_false, and_false]
      · simp only [hwritten, Bool.false_eq_true, ↓reduceIte, hempty, not_false_eq_true, and_self]
  · refine ⟨sink, ?_, ?_, hwhole⟩
    · have hsame : (s.headerWritten || s.writeEmptyHeader) = s.headerWritten := by
        rw [Bool.eq_false_iff.mpr hempty, Bool.or_false]
      rw [if_neg hempty, hsame]
    · rw [lateHeader, if_neg (fun h => hempty h.1), List.append_nil]

/-- The buffer and a late header have been written. -/
def flushed (s : ZStreamGzip ζ χ) : ZStreamGzip ζ χ :=
  { s with
    encodeOutP := s.encodeOut.length
    headerWritten := s.headerWritten || s.writeEmptyHeader }

/-- What the child gets when deflate has finished: the buffer, the late
header, and the trailer if `res` is NORMAL. -/
theorem finishOut_whole (res : GIOStatus) (hp : s.encodeOutP = 0)
    (hspace : s.encodeOut.length ≤ s.bufferLength) (hgzip : s.gzipHeader = true)
    (hwhole : sink.answers = []) :
    ∃ after, finishOut res s sink = .ok (res, .normal, flushed s, after) ∧
      received after = received sink ++ s.encodeOut ++ lateHeader s ++
        (if res = .normal ∧ (s.headerWritten || s.writeEmptyHeader) then trailer s else []) ∧
      after.answers = [] := by
  obtain ⟨mid, hflush, hmid, hmidWhole⟩ : ∃ mid,
      (if availOut s < s.bufferLength then flushOut s sink else .ok (.normal, s, sink)) =
        .ok (.normal, { s with encodeOutP := s.encodeOut.length }, mid) ∧
      received mid = received sink ++ s.encodeOut ∧ mid.answers = [] := by
    by_cases hfilled : availOut s < s.bufferLength
    · obtain ⟨mid, hmid, hreceived, hmidWhole⟩ :=
        flushOut_whole (s := s) sink (by rw [hp]; exact Nat.zero_le _) hwhole
      refine ⟨mid, ?_, ?_, hmidWhole⟩
      · rw [if_pos hfilled, hmid]
      · rw [hreceived, pendingOut, hp, List.drop_zero]
    · have hnone : s.encodeOut = [] := by
        rw [availOut] at hfilled
        apply List.eq_nil_of_length_eq_zero
        omega
      have hsame : s.encodeOut.length = s.encodeOutP := by rw [hnone, hp, List.length_nil]
      refine ⟨sink, ?_, ?_, hwhole⟩
      · rw [if_neg hfilled, hsame]
      · rw [hnone, List.append_nil]
  obtain ⟨late, hlate, hreceived, hlateWhole⟩ :=
    lateHeader_whole (s := { s with encodeOutP := s.encodeOut.length }) hgzip hmidWhole
  by_cases hres : res = .normal
  · obtain ⟨after, hafter, hreceived', hafterWhole⟩ :=
      writeGzipTrailer_whole (s := flushed s) hgzip hlateWhole
    refine ⟨after, ?_, ?_, hafterWhole⟩
    · rw [flushed] at hafter
      rw [finishOut, hflush]
      simp only [hlate, ↓reduceIte, hres, hafter, Except.map, flushed]
    · rw [hreceived', hreceived, hmid]
      simp only [hres, true_and]
      rfl
  · refine ⟨late, ?_, ?_, hlateWhole⟩
    · rw [finishOut, hflush]
      simp only [hlate, ↓reduceIte, hres, flushed]
    · rw [hreceived, hmid, if_neg (fun h => hres h.1), List.append_nil]
      rfl

/-- The call of deflate in the shutdown. -/
def finishCall (zlib : Zlib ζ χ) (s : ZStreamGzip ζ χ) : ZCall ζ :=
  zlib.deflate .finish [] s.bufferLength s.encode

def finished (zlib : Zlib ζ χ) (s : ZStreamGzip ζ χ) : ZStreamGzip ζ χ :=
  { s with
    encode := (finishCall zlib s).state
    encodeOut := (finishCall zlib s).output
    encodeOutP := 0 }

/-- What the shutdown adds to what the child has got, with the status that
the read direction has left. -/
def finishing (zlib : Zlib ζ χ) (res : GIOStatus) (s : ZStreamGzip ζ χ) : List UInt8 :=
  if (finishCall zlib s).ret = .streamEnd then
    (finishCall zlib s).output ++ lateHeader s ++
      (if res = .normal ∧ (s.headerWritten || s.writeEmptyHeader) then trailer s else [])
  else []

theorem deflateFinish_whole (zlib : Zlib ζ χ) (res : GIOStatus) (hgzip : s.gzipHeader = true) (hwhole : sink.answers = []) :
    ∃ t after, deflateFinish zlib res s sink = .ok (res, .normal, t, after) ∧
      t.encode = (finishCall zlib s).state ∧ received after = received sink ++ finishing zlib res s := by
  by_cases hend : (finishCall zlib s).ret = .streamEnd
  · have hspace : (finishCall zlib s).output.length ≤ s.bufferLength :=
      zlib.deflate_output .finish [] s.bufferLength s.encode
    obtain ⟨after, hafter, hreceived, -⟩ :=
      finishOut_whole (s := finished zlib s) res rfl hspace hgzip hwhole
    refine ⟨flushed (finished zlib s), after, ?_, rfl, ?_⟩
    · rw [finishCall] at hend
      simp only [deflateFinish, hend, ↓reduceIte]
      exact hafter
    · rw [finishing, if_pos hend, hreceived, ← List.append_assoc, ← List.append_assoc]
      rfl
  · refine ⟨finished zlib s, sink, ?_, rfl, ?_⟩
    · rw [finishCall] at hend
      simp only [deflateFinish, hend, ↓reduceIte]
      rfl
    · rw [finishing, if_neg hend, List.append_nil]

theorem received_quiet {event : ChildEvent} (h : eventBytes event = []) (sink : Sink) :
    received (sinkEvent event sink) = received sink := by
  rw [received_event, h, List.append_nil]

theorem shutdownOut_whole (nonblock : Bool) (res : GIOStatus)
    (hdeflate : (finishCall zlib s).ret = .streamEnd → zlib.deflateEnd (finishCall zlib s).state = .ok)
    (hgzip : s.gzipHeader = true) (hempty : Empty s) (hwhole : sink.answers = []) :
    ∃ r t after, shutdownOut zlib nonblock res s sink = .ok (r, t, after) ∧
      received after = received sink ++ finishing zlib res s ∧
      ((finishCall zlib s).ret = .streamEnd → r = .normal) := by
  have hinside : s.encodeOutP ≤ s.encodeOut.length := by
    rw [hempty.1, hempty.2]
    exact Nat.le_refl 0
  have hsame : { s with encodeOutP := s.encodeOut.length } = s := by
    have hlen : s.encodeOut.length = s.encodeOutP := by rw [hempty.1, hempty.2, List.length_nil]
    rw [hlen]
  obtain ⟨mid, hflush, hmid, hmidWhole⟩ :=
    flushOut_whole (sinkEvent (.nonblock false) sink) hinside hwhole
  obtain ⟨t, after, hfinish, hstate, hreceived⟩ := deflateFinish_whole zlib res hgzip hmidWhole
  rw [hsame] at hflush
  refine ⟨if zlib.deflateEnd t.encode = .ok then .normal else res, { t with shutdownOut := true },
    sinkEvent (.nonblock nonblock) after, ?_, ?_, ?_⟩
  · simp only [shutdownOut, hflush, ↓reduceIte, hfinish, true_and]
  · rw [received_quiet rfl, hreceived, hmid, received_quiet rfl, pendingOut, hempty.1, List.drop_nil,
      List.append_nil]
  · intro hend
    rw [hstate, if_pos (hdeflate hend)]

/-- The status that the read direction leaves. -/
def readStatus : ShutdownMode → GIOStatus
  | .rdwr => .normal
  | _ => .error

/-- The shutdown of a stream that has been written to: the child gets
`finishing`, and the call reports what the child's own shutdown does. -/
theorem shutdownMethod_whole {how : ShutdownMode} (hhow : how ≠ .rd) (nonblock : Bool)
    (childStatus : GIOStatus) (hinflate : zlib.inflateEnd s.decode = .ok)
    (hopen : s.shutdownIn = false ∧ s.shutdownOut = false)
    (hdeflate : (finishCall zlib s).ret = .streamEnd → zlib.deflateEnd (finishCall zlib s).state = .ok)
    (hgzip : s.gzipHeader = true) (hempty : Empty s) (hwhole : sink.answers = []) :
    ∃ res t after, shutdownMethod zlib how nonblock childStatus s sink = .ok (res, t, after) ∧
      received after = received sink ++ finishing zlib (readStatus how) s ∧
      ((finishCall zlib s).ret = .streamEnd → (res = .normal ↔ childStatus = .normal)) := by
  obtain ⟨hin, hout⟩ := hopen
  have hstatus : ∀ r : GIOStatus, r = .normal →
      ((if childStatus ≠ .normal then childStatus else r) = .normal ↔ childStatus = .normal) := by
    rintro r rfl
    cases childStatus <;> simp
  cases how with
  | rd => exact absurd rfl hhow
  | wr =>
      obtain ⟨r, t, after, hshut, hreceived, hr⟩ :=
        shutdownOut_whole nonblock .error hdeflate hgzip hempty hwhole
      refine ⟨if childStatus ≠ .normal then childStatus else r, t, sinkEvent (.shutdown .wr) after,
        ?_, ?_, fun hend => hstatus r (hr hend)⟩
      · simp [shutdownMethod, hout, hshut]
      · rw [received_quiet rfl, hreceived]
        rfl
  | rdwr =>
      obtain ⟨r, t, after, hshut, hreceived, hr⟩ :=
        shutdownOut_whole (s := { s with shutdownIn := true }) nonblock .normal hdeflate hgzip hempty hwhole
      refine ⟨if childStatus ≠ .normal then childStatus else r, t, sinkEvent (.shutdown .rdwr) after,
        ?_, ?_, fun hend => hstatus r (hr hend)⟩
      · rw [hout] at hshut
        simp [shutdownMethod, shutdownIn, hin, hout, hinflate, hshut]
      · rw [received_quiet rfl, hreceived]
        rfl

/-- The calls of deflate that finish a stream, and all they put out. -/
inductive Finishes (zlib : Zlib ζ χ) : ζ → List UInt8 → Prop
  | last {z : ζ} (space : Nat) (h : (zlib.deflate .finish [] space z).ret = .streamEnd) :
      Finishes zlib z (zlib.deflate .finish [] space z).output
  | more {z : ζ} {rest : List UInt8} (space : Nat) (h : (zlib.deflate .finish [] space z).ret = .ok)
      (hrest : Finishes zlib (zlib.deflate .finish [] space z).state rest) :
      Finishes zlib z ((zlib.deflate .finish [] space z).output ++ rest)

/-- As zlib has it, what finishes a stream does not depend on the space it is
put out in, a stream without data does not begin like a gzip header, and
deflateEnd has nothing against a stream that is finished. -/
structure Finite (zlib : Zlib ζ χ) (flush : Flush) (start : ζ) : Prop where
  unique : ∀ input output z last last', Deflates zlib flush start input output z →
    Finishes zlib z last → Finishes zlib z last' → last = last'
  fresh : ∀ last, Finishes zlib start last → last ≠ [] ∧ last.head? ≠ some 0x1f
  finished : ∀ z space, (zlib.deflate .finish [] space z).ret = .streamEnd →
    zlib.deflateEnd (zlib.deflate .finish [] space z).state = .ok

/-- The shutdown makes a whole gzip file of what the child has got: the
header, all that deflate puts out for `written`, and the trailer. -/
def Complete (zlib : Zlib ζ χ) (start : ζ) (written : List UInt8) (how : ShutdownMode) (nonblock : Bool)
    (childStatus : GIOStatus) (s : ZStreamGzip ζ χ) (sink : Sink) : Prop :=
  ∃ output last t after, Deflates zlib (writeFlush s) start written output s.encode ∧
    received sink ++ pendingOut s = headerOf s ++ output ∧ Finishes zlib s.encode last ∧
    shutdownMethod zlib how nonblock childStatus s sink = .ok (.normal, t, after) ∧
    received after = (headerChunks s.header).flatten ++ output ++ last ++
      (littleEndian (crc32 0 written) ++ littleEndian (UInt32.ofNat written.length))

theorem readStatus_normal {how : ShutdownMode} : readStatus how = .normal ↔ how = .rdwr := by
  cases how <;> simp [readStatus]

theorem Ready.trailer {written : List UInt8} (h : Ready zlib start s sink written) :
    trailer s = littleEndian (crc32 0 written) ++ littleEndian (UInt32.ofNat written.length) := by
  rw [GzipFinish.trailer, h.crc, h.length]

/-- What is put behind the header and the data is the last data and the
trailer just when the header had been written, deflate could finish in one
buffer, and both directions are shut down. -/
theorem Ready.finishing_iff {written output last : List UInt8} {res : GIOStatus}
    (h : Ready zlib start s sink written) (hfinite : Finite zlib (writeFlush s) start)
    (hany : s.headerWritten = true ∨ s.writeEmptyHeader = true)
    (hrun : Deflates zlib (writeFlush s) start written output s.encode)
    (hbytes : received sink ++ pendingOut s = headerOf s ++ output) (hlast : Finishes zlib s.encode last) :
    received sink ++ finishing zlib res s =
        (headerChunks s.header).flatten ++ output ++ last ++ GzipFinish.trailer s ↔
      s.headerWritten = true ∧ (finishCall zlib s).ret = .streamEnd ∧ res = .normal := by
  have hpending : pendingOut s = [] := by rw [pendingOut, h.empty.1, List.drop_nil]
  rw [hpending, List.append_nil] at hbytes
  by_cases hend : (finishCall zlib s).ret = .streamEnd
  · have hsame : (finishCall zlib s).output = last :=
      hfinite.unique _ _ _ _ _ hrun (.last s.bufferLength hend) hlast
    rw [finishing, if_pos hend, hsame]
    by_cases hwritten : s.headerWritten = true
    · have hheader : headerOf s = (headerChunks s.header).flatten := if_pos ⟨h.gzip, hwritten⟩
      rw [hbytes, hheader, lateHeader, if_neg (fun hlate => hlate.2 hwritten)]
      by_cases hres : res = .normal
      · simp [hres, hwritten, hend]
      · simp [hres, hwritten, trailer_length, ← List.length_eq_zero_iff]
    · have hempty : s.writeEmptyHeader = true := hany.resolve_left hwritten
      obtain ⟨rfl, hencode, hnone⟩ := h.first (Bool.eq_false_iff.mpr hwritten)
      have hheader : headerOf s = [] := if_neg (fun hboth => hwritten hboth.2)
      have houtput : output = [] := by
        rw [hnone, hheader, List.nil_append] at hbytes
        exact hbytes.symm
      rw [hencode] at hlast
      obtain ⟨hne, hhead⟩ := hfinite.fresh last hlast
      refine iff_of_false ?_ (fun hall => hwritten hall.1)
      intro heq
      rw [hnone, houtput, List.nil_append, List.append_nil, lateHeader,
        if_pos ⟨hempty, hwritten⟩] at heq
      have hheads := congrArg List.head? heq
      rw [List.append_assoc, List.append_assoc, List.head?_append_of_ne_nil _ hne] at hheads
      exact hhead hheads
  · refine iff_of_false ?_ (fun hall => hend hall.2.1)
    intro heq
    have hlen := congrArg List.length heq
    have hheader : (headerOf s).length ≤ (headerChunks s.header).flatten.length := by
      rw [headerOf]
      split
      · exact Nat.le_refl _
      · exact Nat.zero_le _
    rw [finishing, if_neg hend, List.append_nil, hbytes] at hlen
    simp only [List.length_append, trailer_length] at hlen
    omega

theorem Ready.complete {written : List UInt8} (h : Ready zlib start s sink written)
    (hfinite : Finite zlib (writeFlush s) start) (hinflate : zlib.inflateEnd s.decode = .ok)
    (hin : s.shutdownIn = false) (hany : s.headerWritten = true ∨ s.writeEmptyHeader = true)
    {how : ShutdownMode} (hhow : how = .wr ∨ how = .rdwr) (nonblock : Bool) (childStatus : GIOStatus) :
    Complete zlib start written how nonblock childStatus s sink ↔
      how = .rdwr ∧ s.headerWritten = true ∧ (finishCall zlib s).ret = .streamEnd ∧
        childStatus = .normal := by
  have hout : s.shutdownOut = false := Bool.eq_false_iff.mpr (fun hset => h.undamaged (.inl hset))
  have hne : how ≠ .rd := by
    rintro rfl
    obtain hwr | hrdwr := hhow
    · cases hwr
    · cases hrdwr
  obtain ⟨res, t, after, hshut, hreceived, hres⟩ := shutdownMethod_whole hne nonblock childStatus hinflate
    ⟨hin, hout⟩ (hfinite.finished s.encode s.bufferLength) h.gzip h.empty h.whole
  constructor
  · rintro ⟨output, last, t', after', hrun, hbytes, hlast, hshut', hfile⟩
    rw [hshut] at hshut'
    cases hshut'
    rw [hreceived, ← h.trailer, h.finishing_iff hfinite hany hrun hbytes hlast] at hfile
    obtain ⟨hheader, hret, hstatus⟩ := hfile
    exact ⟨readStatus_normal.mp hstatus, hheader, hret, (hres hret).mp rfl⟩
  · rintro ⟨rfl, hheader, hret, hchild⟩
    obtain ⟨output, hrun, hbytes⟩ := h.held.output
    have hlast : Finishes zlib s.encode (finishCall zlib s).output := .last s.bufferLength hret
    obtain rfl := (hres hret).mpr hchild
    refine ⟨output, _, t, after, hrun, hbytes, hlast, hshut, ?_⟩
    rw [hreceived, ← h.trailer, h.finishing_iff hfinite hany hrun hbytes hlast]
    exact ⟨hheader, hret, rfl⟩

theorem storedRun :
    ∃ rs t, Run.run (gzipStep storedZlib) [.write 2 [97]] (storedStream false false 64, { answers := [] }) =
      .ok (rs, t) := ⟨_, _, rfl⟩

end Libzorpll.GzipFinish
