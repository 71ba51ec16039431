import Libzorpll.Region
import Libzorpll.StreamChunk

/-! z_stream_read_chunk and z_stream_write_chunk with the memory they are given
and what they ask of the child. -/

namespace Libzorpll.ChunkTransfer

open ChildStream StreamChunk Region

/-- How far the pointer went, how much is missing, the total and the calls of
the child, each by its offset and its length. -/
structure Progress where
  offset : Nat := 0
  len : Nat
  total : Nat := 0
  asked : List (Nat × Nat) := []

def Progress.ask (p : Progress) : Progress := { p with asked := p.asked ++ [(p.offset, p.len)] }

def Progress.advance (p : Progress) (bytes : Nat) : Progress :=
  { p with offset := p.offset + bytes, len := p.len - bytes, total := p.total + bytes }

/-- The child puts what it delivers where it is told to. -/
def store (buf : List UInt8) (offset : Nat) (data : List UInt8) : Except Halt (List UInt8) :=
  if offset + data.length ≤ buf.length then .ok (put buf offset data) else .error .memory

def readLoop : Nat → List UInt8 → Progress → Child → Except Halt (ChunkStatus × List UInt8 × Progress × Child)
  | 0, _, _, _ => .error .endless
  | rounds + 1, buf, p, child =>
      if p.len = 0 then .ok (.normal, buf, p, child)
      else
        match childRead p.len child with
        | (.normal data, child) => do
            let buf ← store buf p.offset data
            readLoop rounds buf (p.ask.advance data.length) child
        | (.again, _) => .error .assertion
        | (.eof, child) => .ok (.eof, buf, p.ask, child)
        | (.error, child) => .ok (.error, buf, p.ask, child)

def remapEof (status : ChunkStatus) (total : Nat) : ChunkStatus :=
  if status = .eof ∧ 0 < total then .normal else status

def readChunk (buf : List UInt8) (len : Nat) (child : Child) :
    Except Halt (ChunkStatus × List UInt8 × Progress × Child) :=
  (readLoop (childSize child + 1) buf { len := len } child).map fun r => (remapEof r.1 r.2.2.1.total, r.2)

def writeLoop (buf : List UInt8) : Nat → Progress → Sink → Except Halt (ChunkStatus × Progress × Sink)
  | 0, _, _ => .error .endless
  | rounds + 1, p, sink =>
      if p.len = 0 then .ok (.normal, p, sink)
      else
        match sinkWrite ((buf.drop p.offset).take p.len) sink with
        | (.normal bytes, sink) => writeLoop buf rounds (p.ask.advance bytes) sink
        | (.again, _) => .error .assertion
        | (.eof _, sink) => .ok (.eof, p.ask, sink)
        | (.error _, sink) => .ok (.error, p.ask, sink)

def writeChunk (buf : List UInt8) (sink : Sink) : Except Halt (ChunkStatus × Progress × Sink) :=
  writeLoop buf (sink.answers.length + 2) { len := buf.length } sink

/-! What they are to do -/

/-- The first answer of a child that is not NORMAL. -/
def lastStatus : Child → ChunkStatus
  | .normal _ :: child => lastStatus child
  | .error :: _ => .error
  | _ => .eof

/-- No call asks for more than is missing: what it asks for ends where the
whole does. -/
def AsksMissing (len : Nat) (p : Progress) : Prop := ∀ call ∈ p.asked, call.1 + call.2 = len

/-- The status of a read, by what the child has before its first answer that
is not NORMAL. -/
def readStatus (len : Nat) (child : Child) : ChunkStatus :=
  if len ≤ (promptBytes child).length then .normal
  else if lastStatus child = .error then .error
  else if promptBytes child = [] then .eof
  else .normal

def ReadsAllOrEnds (buf : List UInt8) (len : Nat) (child : Child) : Prop :=
  ∃ p after, readChunk buf len child =
      .ok (readStatus len child, (promptBytes child).take len ++ buf.drop p.total, p, after) ∧
    p.total = min len (promptBytes child).length ∧ AsksMissing len p ∧
      (len ≤ (promptBytes child).length → promptBytes after = (promptBytes child).drop len)

def WritesAllOrFails (buf : List UInt8) (sink : Sink) : Prop :=
  ∃ status p after, writeChunk buf sink = .ok (status, p, after) ∧ AsksMissing buf.length p ∧
    received after = received sink ++ buf.take p.total ∧ p.total ≤ buf.length ∧
      (status = .normal ↔ p.total = buf.length)

variable {rounds len : Nat} {buf : List UInt8} {p : Progress} {child : Child} {sink : Sink}

/-! Reading -/

theorem store_ok {offset : Nat} {data : List UInt8} (h : offset + data.length ≤ buf.length) :
    store buf offset data = .ok (put buf offset data) := if_pos h

theorem lastStatus_read {count : Nat} {child' : Child} {data : List UInt8}
    (h : childRead count child = (.normal data, child')) : lastStatus child' = lastStatus child := by
  cases child with
  | nil => cases h
  | cons answer child =>
      cases answer with
      | normal whole =>
          rw [childRead] at h
          split at h
          · cases h
            rfl
          · cases h
            rfl
      | again | eof | error => cases h

theorem childRead_cases (hagain : .again ∉ child) (count : Nat) :
    (∃ data after, childRead count child = (.normal data, after)) ∨
      (∃ after, childRead count child = (.eof, after) ∧ promptBytes child = [] ∧ lastStatus child = .eof) ∨
        ∃ after, childRead count child = (.error, after) ∧ promptBytes child = [] ∧ lastStatus child = .error := by
  cases child with
  | nil => exact .inr (.inl ⟨_, rfl, rfl, rfl⟩)
  | cons answer child =>
      cases answer with
      | normal data =>
          rw [childRead]
          split
          · exact .inl ⟨_, _, rfl⟩
          · exact .inl ⟨_, _, rfl⟩
      | again => exact absurd List.mem_cons_self hagain
      | eof => exact .inr (.inl ⟨_, rfl, rfl, rfl⟩)
      | error => exact .inr (.inr ⟨_, rfl, rfl, rfl⟩)

theorem AsksMissing.ask (h : AsksMissing (p.offset + p.len) p) : AsksMissing (p.offset + p.len) p.ask := by
  intro call hcall
  obtain hcall | hcall := List.mem_append.mp hcall
  · exact h call hcall
  · rw [List.mem_singleton.mp hcall]

theorem advance_ends (p : Progress) {bytes : Nat} (h : bytes ≤ p.len) :
    (p.ask.advance bytes).offset + (p.ask.advance bytes).len = p.offset + p.len := by
  change p.offset + bytes + (p.len - bytes) = _
  omega

theorem nothing_to_read (buf : List UInt8) (hlen : p.len ≠ 0) (hprompt : promptBytes child = []) :
    ¬p.len ≤ (promptBytes child).length ∧ put buf p.offset ((promptBytes child).take p.len) = buf ∧
      p.ask.total = p.total + min p.len (promptBytes child).length := by
  rw [hprompt, List.length_nil, List.take_nil, put_nil, Nat.min_zero]
  exact ⟨fun hle => hlen (Nat.le_zero.mp hle), rfl, rfl⟩

/-- The loop reads what the child has, up to what is missing. -/
theorem readLoop_ok (hrounds : childSize child < rounds) (hagain : .again ∉ child)
    (hroom : p.offset + p.len ≤ buf.length) (hasked : AsksMissing (p.offset + p.len) p) :
    ∃ q after, readLoop rounds buf p child =
        .ok (if p.len ≤ (promptBytes child).length then .normal else lastStatus child,
          put buf p.offset ((promptBytes child).take p.len), q, after) ∧
      q.total = p.total + min p.len (promptBytes child).length ∧ AsksMissing (p.offset + p.len) q ∧
        (p.len ≤ (promptBytes child).length → promptBytes after = (promptBytes child).drop p.len) := by
  induction rounds generalizing buf p child with
  | zero => exact absurd hrounds (Nat.not_lt_zero _)
  | succ rounds ih =>
      rw [readLoop]
      by_cases hlen : p.len = 0
      · refine ⟨p, child, ?_, ?_, hasked, fun _ => ?_⟩
        · rw [if_pos hlen, if_pos (hlen ▸ Nat.zero_le _), hlen, List.take_zero, put_nil]
        · rw [hlen, Nat.zero_min, Nat.add_zero]
        · rw [hlen, List.drop_zero]
      · rw [if_neg hlen]
        obtain ⟨data, child', hread⟩ | ⟨after, hread, hprompt, hlast⟩ | ⟨after, hread, hprompt, hlast⟩ :=
          childRead_cases hagain p.len
        · obtain ⟨hprompt, hmem⟩ := childRead_prompt hread
          have hdata : data.length ≤ p.len := by
            have hle := childRead_length p.len child
            rw [hread] at hle
            exact hle
          have hsize := childRead_size_of_normal (Nat.pos_of_ne_zero hlen) hread
          have hends := advance_ends p hdata
          have hstore : p.offset + data.length ≤ buf.length := by omega
          have hroom' : (p.ask.advance data.length).offset + (p.ask.advance data.length).len ≤
              (put buf p.offset data).length := by
            rw [hends, put_length hstore]
            exact hroom
          have hasked' : AsksMissing ((p.ask.advance data.length).offset + (p.ask.advance data.length).len)
              (p.ask.advance data.length) := hends ▸ hasked.ask
          obtain ⟨q, after, hloop, htotal, hq, hafter⟩ :=
            ih (by omega) (fun h => hagain (hmem.mpr h)) hroom' hasked'
          have hlength : (promptBytes child).length = data.length + (promptBytes child').length := by
            rw [← hprompt, List.length_append]
          have hleft : (p.ask.advance data.length).len = p.len - data.length := rfl
          have hiff : p.len - data.length ≤ (promptBytes child').length ↔ p.len ≤ (promptBytes child).length := by
            omega
          have htake : (promptBytes child).take p.len = data ++ (promptBytes child').take (p.len - data.length) := by
            rw [← hprompt, List.take_append, List.take_of_length_le hdata]
          refine ⟨q, after, ?_, ?_, hends ▸ hq, fun hle => ?_⟩
          · rw [hread]
            change (store buf p.offset data >>= fun buf => readLoop rounds buf _ _) = _
            rw [store_ok hstore]
            refine hloop.trans ?_
            rw [hleft, lastStatus_read hread, htake, ← put_append _ hstore]
            simp only [hiff]
            rfl
          · rw [htotal, hleft, hlength]
            change p.total + data.length + _ = _
            omega
          · rw [hafter (hiff.mpr hle), hleft, ← hprompt, List.drop_append, List.drop_of_length_le hdata,
              List.nil_append]
        · obtain ⟨hnot, hput, htotal⟩ := nothing_to_read buf hlen hprompt
          refine ⟨p.ask, after, ?_, htotal, hasked.ask, fun hle => absurd hle hnot⟩
          rw [hread, if_neg hnot, hput, hlast]
        · obtain ⟨hnot, hput, htotal⟩ := nothing_to_read buf hlen hprompt
          refine ⟨p.ask, after, ?_, htotal, hasked.ask, fun hle => absurd hle hnot⟩
          rw [hread, if_neg hnot, hput, hlast]

theorem lastStatus_ne_normal (child : Child) : lastStatus child ≠ .normal := by
  induction child with
  | nil => rintro ⟨⟩
  | cons answer child ih =>
      cases answer with
      | normal data => exact ih
      | again | eof | error => rintro ⟨⟩

theorem remapEof_eq (len : Nat) (child : Child) :
    remapEof (if len ≤ (promptBytes child).length then .normal else lastStatus child)
      (min len (promptBytes child).length) = readStatus len child := by
  rw [remapEof, readStatus]
  by_cases hlen : len ≤ (promptBytes child).length
  · rw [if_pos hlen, if_pos hlen, if_neg (by rintro ⟨⟨⟩, -⟩)]
  · rw [if_neg hlen, if_neg hlen]
    cases hlast : lastStatus child with
    | normal => exact absurd hlast (lastStatus_ne_normal child)
    | error => rw [if_neg (by rintro ⟨⟨⟩, -⟩), if_pos rfl]
    | eof =>
        have hother : ChunkStatus.eof ≠ .error := by rintro ⟨⟩
        rw [if_neg hother]
        by_cases hnone : promptBytes child = []
        · rw [if_pos hnone, hnone, List.length_nil, Nat.min_zero, if_neg fun h => Nat.lt_irrefl 0 h.2]
        · have hpos := List.length_pos_iff.mpr hnone
          have hsome : ChunkStatus.eof = .eof ∧ 0 < min len (promptBytes child).length := ⟨rfl, by omega⟩
          rw [if_neg hnone, if_pos hsome]

theorem reads (hagain : .again ∉ child) (hroom : len ≤ buf.length) : ReadsAllOrEnds buf len child := by
  have hstart : AsksMissing (0 + len) { len := len } := by rintro call ⟨⟩
  obtain ⟨q, after, hloop, htotal, hasked, hafter⟩ := readLoop_ok (Nat.lt_succ_self _) hagain
    ((Nat.zero_add len).symm ▸ hroom : 0 + len ≤ buf.length) hstart
  have hzero : q.total = min len (promptBytes child).length := htotal.trans (Nat.zero_add _)
  refine ⟨q, after, ?_, hzero, Nat.zero_add len ▸ hasked, hafter⟩
  rw [readChunk, hloop]
  change Except.ok (remapEof _ q.total, _) = _
  rw [hzero, remapEof_eq, put, List.take_zero, List.nil_append, List.length_take, Nat.zero_add]

/-- What is read is what the streams above a child are modelled with. -/
theorem readChunk_eq_loop (hroom : p.offset + p.len ≤ buf.length) (htotal : p.total = p.offset) :
    (readLoop rounds buf p child).map (fun r => (remapEof r.1 r.2.2.1.total, r.2.1.take r.2.2.1.total, r.2.2.2)) =
      readChunkLoop rounds p.len (buf.take p.offset) child := by
  induction rounds generalizing buf p child with
  | zero => rfl
  | succ rounds ih =>
      rw [readLoop, readChunkLoop]
      by_cases hlen : p.len = 0
      · rw [if_pos hlen, if_pos hlen]
        change Except.ok (remapEof .normal p.total, buf.take p.total, child) = _
        rw [htotal]
        rfl
      · rw [if_neg hlen, if_neg hlen]
        have hle := childRead_length p.len child
        cases hread : childRead p.len child with
        | mk answer after =>
            rw [hread] at hle
            cases answer with
            | normal data =>
                have hdata : data.length ≤ p.len := hle
                have hstore : p.offset + data.length ≤ buf.length := by omega
                have htake : (put buf p.offset data).take (p.offset + data.length) = buf.take p.offset ++ data := by
                  have hlength : (buf.take p.offset ++ data).length = p.offset + data.length := by
                    rw [List.length_append, List.length_take]
                    omega
                  rw [put, ← hlength, List.take_left]
                change Except.map _ (store buf p.offset data >>= fun buf => readLoop rounds buf _ _) = _
                rw [store_ok hstore]
                refine (ih ?_ ?_).trans ?_
                · rw [advance_ends p hdata, put_length hstore]
                  exact hroom
                · change p.total + data.length = p.offset + data.length
                  rw [htotal]
                · change readChunkLoop rounds (p.len - data.length)
                    ((put buf p.offset data).take (p.offset + data.length)) after =
                      readChunkLoop rounds (p.len - data.length) (buf.take p.offset ++ data) after
                  rw [htake]
            | again => rfl
            | eof =>
                have hiff : buf.take p.offset = [] ↔ ¬0 < p.offset := by
                  rw [← List.length_eq_zero_iff, List.length_take]
                  omega
                change Except.ok (remapEof .eof p.total, buf.take p.total, after) =
                  Except.ok (if buf.take p.offset = [] then .eof else .normal, buf.take p.offset, after)
                rw [htotal, remapEof]
                by_cases hzero : 0 < p.offset
                · rw [if_pos ⟨rfl, hzero⟩, if_neg fun h => hiff.mp h hzero]
                · rw [if_neg fun h => hzero h.2, if_pos (hiff.mpr hzero)]
            | error =>
                change Except.ok (remapEof .error p.total, buf.take p.total, after) = _
                rw [htotal]
                rfl

/-! Writing -/

theorem sinkWrite_cases (hagain : .again ∉ sink.answers) (bytes : List UInt8) :
    (∃ count after, sinkWrite bytes sink = (.normal count, after) ∧ count ≤ bytes.length ∧
      received after = received sink ++ bytes.take count ∧ .again ∉ after.answers ∧
        (after.answers.length < sink.answers.length ∨ count = bytes.length)) ∨
      (∃ err after, sinkWrite bytes sink = (.eof err, after) ∧ received after = received sink) ∨
        ∃ err after, sinkWrite bytes sink = (.error err, after) ∧ received after = received sink := by
  obtain ⟨answers, events⟩ := sink
  cases answers with
  | nil =>
      refine .inl ⟨bytes.length, _, rfl, Nat.le_refl _, ?_, hagain, .inr rfl⟩
      rw [received_event, List.take_length]
      rfl
  | cons answer answers =>
      have hrest : .again ∉ answers := fun h => hagain (List.mem_cons_of_mem _ h)
      cases answer with
      | normal count =>
          refine .inl ⟨_, _, rfl, Nat.min_le_right _ _, ?_, hrest, .inl (Nat.lt_succ_self _)⟩
          rw [received_event, eventBytes]
          congr 1
          rw [List.take_eq_take_iff, Nat.min_assoc, Nat.min_self]
      | again => exact absurd List.mem_cons_self hagain
      | eof err => exact .inr (.inl ⟨err, _, rfl, rfl⟩)
      | error err => exact .inr (.inr ⟨err, _, rfl, rfl⟩)

/-- The loop gives the sink one piece behind the other until all is accepted or
the sink fails. -/
theorem writeLoop_ok (hrounds : sink.answers.length + 2 ≤ rounds ∨ (p.len = 0 ∧ 1 ≤ rounds))
    (hagain : .again ∉ sink.answers) (hends : p.offset + p.len = buf.length) (htotal : p.total = p.offset)
    (hasked : AsksMissing buf.length p) :
    ∃ status q after, writeLoop buf rounds p sink = .ok (status, q, after) ∧ AsksMissing buf.length q ∧
      received after = received sink ++ window buf p.total q.total ∧ p.total ≤ q.total ∧ q.total ≤ buf.length ∧
        (status = .normal ↔ q.total = buf.length) := by
  induction rounds generalizing p sink with
  | zero => omega
  | succ rounds ih =>
      rw [writeLoop]
      by_cases hlen : p.len = 0
      · refine ⟨.normal, p, sink, if_pos hlen, hasked, ?_, Nat.le_refl _, by omega, iff_of_true rfl (by omega)⟩
        rw [window_self, List.append_nil]
      · have hask : AsksMissing buf.length p.ask := hends ▸ (hends.symm ▸ hasked : AsksMissing _ p).ask
        have hnone : received sink = received sink ++ window buf p.total p.ask.total := by
          change _ = _ ++ window buf p.total p.total
          rw [window_self, List.append_nil]
        have hopen : p.ask.total ≤ buf.length ∧ p.ask.total ≠ buf.length := by
          change p.total ≤ _ ∧ p.total ≠ _
          omega
        rw [if_neg hlen]
        obtain ⟨count, after, hwrite, hcount, hreceived, hagain', hless⟩ | ⟨err, after, hwrite, hreceived⟩ |
          ⟨err, after, hwrite, hreceived⟩ := sinkWrite_cases hagain ((buf.drop p.offset).take p.len)
        · have hwhole : ((buf.drop p.offset).take p.len).length = p.len := by
            rw [List.length_take, List.length_drop]
            omega
          rw [hwhole] at hcount hless
          have hsum := advance_ends p hcount
          have hnext : (p.ask.advance count).total = (p.ask.advance count).offset := by
            change p.total + count = p.offset + count
            rw [htotal]
          have hrounds' : after.answers.length + 2 ≤ rounds ∨ ((p.ask.advance count).len = 0 ∧ 1 ≤ rounds) := by
            change _ ∨ (p.len - count = 0 ∧ _)
            omega
          obtain ⟨status, q, last, hloop, hq, hlast, hle, hbound, hstatus⟩ :=
            ih hrounds' hagain' (hsum.trans hends) hnext hask
          have hstep : p.total + count ≤ q.total := hle
          refine ⟨status, q, last, ?_, hq, ?_, by omega, hbound, hstatus⟩
          · rw [hwrite]
            exact hloop
          · have hpiece : ((buf.drop p.offset).take p.len).take count = window buf p.total (p.total + count) := by
              rw [window, Nat.add_sub_cancel_left, List.take_take, Nat.min_eq_left hcount, htotal]
            rw [hlast, hreceived, hpiece, List.append_assoc]
            exact congrArg (received sink ++ ·) (window_append buf (Nat.le_add_right _ _) hstep)
        · refine ⟨.eof, p.ask, after, ?_, hask, hreceived.trans hnone, Nat.le_refl _, hopen.1, ?_⟩
          · rw [hwrite]
          · exact iff_of_false (by rintro ⟨⟩) hopen.2
        · refine ⟨.error, p.ask, after, ?_, hask, hreceived.trans hnone, Nat.le_refl _, hopen.1, ?_⟩
          · rw [hwrite]
          · exact iff_of_false (by rintro ⟨⟩) hopen.2

theorem writes (hagain : .again ∉ sink.answers) (buf : List UInt8) : WritesAllOrFails buf sink := by
  have hstart : AsksMissing buf.length { len := buf.length } := by rintro call ⟨⟩
  obtain ⟨status, q, after, hloop, hasked, hreceived, -, hle, hstatus⟩ :=
    writeLoop_ok (.inl (Nat.le_refl _)) hagain (Nat.zero_add _ : 0 + buf.length = _) rfl hstart
  exact ⟨status, q, after, hloop, hasked, hreceived, hle, hstatus⟩

/-- Both transfers are all or end, where a read that the child fails is an
error. -/
theorem transfers_all_or_end (buf data : List UInt8) (len : Nat) (child : Child) (sink : Sink)
    (hchild : .again ∉ child) (hroom : len ≤ buf.length) (hsink : .again ∉ sink.answers) :
    ReadsAllOrEnds buf len child ∧ WritesAllOrFails data sink :=
  ⟨reads hchild hroom, writes hsink data⟩

/-- Pieces of two, no and one byte, and a sink that fails after a byte. -/
theorem transfers_all_or_end_pieces :
    ReadsAllOrEnds [0, 0, 0, 0] 4 [.normal [1, 2], .normal [], .normal [3], .eof] ∧
      WritesAllOrFails [1, 2, 3] { answers := [.normal 1, .normal 0, .error none] } :=
  transfers_all_or_end _ _ _ _ _ (by decide) (by decide) (by decide)

/-- A byte is delivered before the child fails, and the status is not NORMAL. -/
theorem read_not_normal : ∃ r, readChunk [0, 0] 2 [.normal [1], .error] = .ok r ∧ r.2.2.1.total = 1 ∧ r.1 = .error :=
  ⟨_, rfl, rfl, rfl⟩

end Libzorpll.ChunkTransfer
