import Libzorpll.LineFraming

/-! Everything that is done with a line stream, in any order: what stays true
of its buffer. -/

namespace Libzorpll.LineSafety

open Region ChildStream StreamLine LineReader LineBuffer LineCalls LineFraming

inductive LineOp
  | get
  | getCopy (length : Nat)
  | read (count : Nat)
  | unget (packet : List UInt8)
  | haveLine
  | prepare
  | check
  | setCond (wantRead wantPri wantWrite : Bool)
  | childReadable
  | childPri
  deriving DecidableEq

inductive LineAnswer
  | line (rc : LineResult Slice)
  | copied (rc : LineResult (List UInt8))
  | bytes (rc : ReadResult)
  | flag (value : Bool)
  | prepared (value : Prepared)
  | done
  deriving DecidableEq

def lineStep (op : LineOp) (s : ZStreamLine × Child) :
    Except Abort (LineAnswer × ZStreamLine × Child) :=
  match op with
  | .get => (getInternal s.1 s.2).map (fun p => (.line p.1, p.2))
  | .getCopy length => (lineGetCopy length s).map (fun p => (.copied p.1, p.2))
  | .read count => (readMethod count s).map (fun p => (.bytes p.1, p.2))
  | .unget packet => (ungetPacketMethod packet s.1).map (fun p => (.flag p.1, p.2, s.2))
  | .haveLine => (StreamLine.haveLine s.1).map (fun p => (.flag p.1, p.2, s.2))
  | .prepare => (watchPrepare s.1).map (fun p => (.prepared p.1, p.2, s.2))
  | .check => (watchCheck s.1).map (fun p => (.flag p.1, p.2, s.2))
  | .setCond wantRead wantPri wantWrite =>
      .ok (.done, { s.1 with wantRead := wantRead, wantPri := wantPri, wantWrite := wantWrite }, s.2)
  | .childReadable => .ok (.done, readCallback s.1, s.2)
  | .childPri => .ok (.done, priCallback s.1, s.2)

/-- A fetch would start between a carriage return and its newline. -/
def Torn (s : ZStreamLine) : Prop :=
  s.error = false ∧ s.eof = false ∧ CrlfSplit s.flags (view s)

/-- A fetch into a destination keeps the positions in order there only when it
splits the line and there is enough in the buffer to fill the destination. -/
def CopySafe (op : LineOp) (s : ZStreamLine) : Prop :=
  match op with
  | .getCopy length => Torn s → s.flags.split = true ∧ length ≤ (pending s).length
  | _ => True

instance (f : LineFlags) (v : Reader) : Decidable (CrlfSplit f v) :=
  decidable_of_iff ((f.eolNl || f.eolNul) = false ∧ f.eolCrlf = true ∧ f.returnEol = false ∧
    v.afterCr = true ∧ v.pending.head? = some (eolByte f))
    (by simp only [CrlfSplit, List.head?_eq_some_iff])

instance (s : ZStreamLine) : Decidable (Torn s) :=
  inferInstanceAs (Decidable (_ ∧ _ ∧ CrlfSplit s.flags (view s)))

instance (op : LineOp) (s : ZStreamLine) : Decidable (CopySafe op s) :=
  match op with
  | .getCopy length =>
      inferInstanceAs (Decidable (Torn s → s.flags.split = true ∧ length ≤ (pending s).length))
  | .get | .read _ | .unget _ | .haveLine | .prepare | .check | .setCond .. | .childReadable
  | .childPri => isTrue trivial

def hasLine (s : ZStreamLine) : Bool := decide (eolByte s.flags ∈ pending s)

/-- The remembered answer to whether there is a line. -/
def CacheOk (s : ZStreamLine) : Prop := s.lineAvailSet = true → s.lineAvail = hasLine s

/-- What a poll is to report about reading. -/
def reports (s : ZStreamLine) : Bool :=
  (if s.flags.pollPartial then !bufEmpty s else hasLine s) || s.childIn

/-- The answers that depend on whether there is a line are right. -/
def Told (op : LineOp) (s : ZStreamLine) (r : LineAnswer) : Prop :=
  match op with
  | .haveLine => r = .flag (hasLine s)
  | .prepare =>
      r = .prepared ⟨s.wantRead && reports s || s.wantPri && s.childPri, -1,
        s.wantRead && !reports s, s.wantWrite⟩
  | .check => r = .flag (s.wantRead && reports s || s.wantPri && s.childPri)
  | _ => True

variable {f : LineFlags} {cap : Nat} {v w : Reader} {c c' : Child}

theorem fromBuf_held {d : Delivered} (h : FromBuf f v (.normal d) w) : d.held = v.pending := by
  cases h with
  | line | last => rfl

theorem fromBuf_shrinks {r : LineResult Delivered} (h : FromBuf f v r w) :
    w.pending.length ≤ v.pending.length := by
  cases h with
  | line _ hp | badCrlf _ hp | embeddedNul _ hp =>
      rw [hp, List.length_append, List.length_cons]
      simp only
      omega
  | last | lastNul => exact Nat.zero_le _
  | more => exact Nat.le_refl _

theorem another_shrinks {r : LineResult Delivered} (h : Another f v r w) :
    w.pending.length ≤ v.pending.length ∧
      ∀ d, r = .normal d → d.held.length ≤ v.pending.length := by
  cases h with
  | keep h =>
      refine ⟨fromBuf_shrinks h, ?_⟩
      rintro d rfl
      exact Nat.le_of_eq (congrArg List.length (fromBuf_held h))
  | drop _ h h' =>
      have hle := fromBuf_shrinks h
      have hle' := fromBuf_shrinks h'
      refine ⟨Nat.le_trans hle' hle, ?_⟩
      rintro d rfl
      rw [fromBuf_held h']
      exact hle

theorem settle_normal {r : LineResult Delivered} {d : Delivered}
    (h : settle f r = some (.normal d)) : r = .normal d := by
  cases r with
  | again o =>
      rw [settle] at h
      split at h <;> cases h
  | normal | eof | error => exact Option.some.inj h

/-- A call takes at least the bytes it points at from what is to come. -/
theorem fill_shrinks {o : Option (LineResult Delivered)} (h : Fill f cap v c o w c') :
    (total w c').length ≤ (total v c).length ∧
      ∀ d, o = some (.normal d) → d.held.length + (childBytes c').length ≤ (total v c).length := by
  have hbytes := congrArg List.length (childRead_bytes (cap - v.pending.length) c)
  rw [List.length_append] at hbytes
  cases h with
  | again hr | error hr | eof hr =>
      rw [hr] at hbytes
      simp only [answerBytes, List.length_nil] at hbytes
      refine ⟨?_, fun d hd => by cases hd⟩
      simp only [total, List.length_append]
      omega
  | last hr _ h ho =>
      rw [hr] at hbytes
      simp only [answerBytes, List.length_nil] at hbytes
      obtain ⟨hle, hheld⟩ := another_shrinks h
      simp only at hle hheld
      refine ⟨?_, fun d hd => ?_⟩
      · simp only [total, List.length_append]
        omega
      · have hlen := hheld d (settle_normal (ho.symm.trans hd))
        simp only [total, List.length_append]
        omega
  | data hr h ho =>
      rw [hr] at hbytes
      simp only [answerBytes] at hbytes
      obtain ⟨hle, hheld⟩ := another_shrinks h
      simp only [List.length_append] at hle hheld
      refine ⟨?_, fun d hd => ?_⟩
      · simp only [total, List.length_append]
        omega
      · have hlen := hheld d (settle_normal (ho.symm.trans hd))
        simp only [total, List.length_append]
        omega

theorem round_shrinks {o : Option (LineResult Delivered)}
    (h : LineReader.Round f cap v c o w c') :
    (total w c').length ≤ (total v c).length ∧
      ∀ d, o = some (.normal d) → d.held.length + (childBytes c').length ≤ (total v c).length := by
  cases h with
  | cut =>
      refine ⟨by simp [total], fun d hd => ?_⟩
      cases hd
      simp [total]
  | split => exact ⟨by simp [total], fun d hd => by cases hd⟩
  | tooLong => exact ⟨Nat.le_refl _, fun d hd => by cases hd⟩
  | skip _ _ h =>
      obtain ⟨hle, hheld⟩ := fill_shrinks h
      have hless : (total { v with pending := [] } c).length ≤ (total v c).length := by
        simp [total]
      exact ⟨Nat.le_trans hle hless, fun d hd => Nat.le_trans (hheld d hd) hless⟩
  | fill _ h => exact fill_shrinks h

theorem rounds_shrinks {r : LineResult Delivered} (h : Rounds f cap v c r w c') :
    (total w c').length ≤ (total v c).length ∧
      ∀ d, r = .normal d → d.held.length + (childBytes c').length ≤ (total v c).length := by
  induction h with
  | done h =>
      obtain ⟨hle, hheld⟩ := round_shrinks h
      exact ⟨hle, fun d hd => hheld d (congrArg some hd)⟩
  | next h _ ih =>
      obtain ⟨hle, -⟩ := round_shrinks h
      exact ⟨Nat.le_trans ih.1 hle, fun d hd => Nat.le_trans (ih.2 d hd) hle⟩

theorem fetch_shrinks {r : LineResult Delivered} (h : Fetch f cap v c r w c') (d : Delivered)
    (hd : r = .normal d) : d.held.length + (childBytes c').length ≤ (total v c).length := by
  cases h with
  | failed | atEof | bad => cases hd
  | buffered _ _ h =>
      cases hd
      exact Nat.le_of_eq (by rw [fromBuf_held h, total, List.length_append])
  | read _ _ _ h => exact (rounds_shrinks h).2 d hd

/-- What a poll changes: the answer it remembers. -/
structure Polled (s t : ZStreamLine) : Prop where
  same : ∃ b, t = { s with lineAvailSet := true, lineAvail := b } ∨ t = s
  cache : CacheOk s → CacheOk t

theorem polled_self (s : ZStreamLine) : Polled s s := ⟨⟨false, .inr rfl⟩, id⟩

theorem haveLine_refines {s : ZStreamLine} (h : Wf s) :
    ∃ b t, haveLine s = .ok (b, t) ∧ Polled s t ∧ (CacheOk s → b = hasLine s) := by
  have hbuf := h.length
  have hle := h.end_le
  cases hset : s.lineAvailSet with
  | true =>
      exact ⟨s.lineAvail, s, by simp [haveLine, hset], polled_self s, fun hc => hc hset⟩
  | false =>
      obtain ⟨i, hi, hmem⟩ := find_isSome (x := eolByte s.flags) h.pos_le
        (show s.endPos ≤ s.buffer.length by omega)
      have hb : i.isSome = hasLine s := by
        rw [Bool.eq_iff_iff, hasLine, decide_eq_true_iff]
        exact hmem
      refine ⟨i.isSome, { s with lineAvailSet := true, lineAvail := i.isSome }, ?_, ?_, fun _ => hb⟩
      · simp [haveLine, hset, gsizeSub_le h.pos_le, hi, bind, Except.bind, pure, Except.pure]
      · exact ⟨⟨_, .inl rfl⟩, fun _ _ => hb⟩

theorem readable_refines {s : ZStreamLine} (h : Wf s) :
    ∃ b t, readable s = .ok (b, t) ∧ Polled s t ∧ (CacheOk s → b = reports s) := by
  cases hpoll : s.flags.pollPartial with
  | true =>
      refine ⟨!bufEmpty s || s.childIn, s, by simp [readable, hpoll], polled_self s, fun _ => ?_⟩
      rw [reports, hpoll, if_pos rfl]
  | false =>
      obtain ⟨b, t, hrun, hpolled, hb⟩ := haveLine_refines h
      refine ⟨b || s.childIn, t, ?_, hpolled, fun hc => ?_⟩
      · have hin : t.childIn = s.childIn := by
          obtain ⟨_, rfl | rfl⟩ := hpolled.same <;> rfl
        simp [readable, hpoll, hrun, hin, bind, Except.bind, pure, Except.pure]
      · rw [reports, hpoll, if_neg (by simp), hb hc]

theorem watchPrepare_refines {s : ZStreamLine} (h : Wf s) :
    ∃ p t, watchPrepare s = .ok (p, t) ∧ Polled s t ∧ (CacheOk s → Told .prepare s (.prepared p)) := by
  cases hwant : s.wantRead with
  | false =>
      refine ⟨⟨s.wantPri && s.childPri, -1, false, s.wantWrite⟩, s, ?_, polled_self s, fun _ => ?_⟩
      · simp [watchPrepare, hwant, bind, Except.bind, pure, Except.pure]
      · simp [Told, hwant]
  | true =>
      obtain ⟨b, t, hrun, hpolled, hb⟩ := readable_refines h
      refine ⟨⟨b || s.wantPri && s.childPri, -1, !b, s.wantWrite⟩, t, ?_, hpolled, fun hc => ?_⟩
      · obtain ⟨_, rfl | rfl⟩ := hpolled.same <;>
          simp [watchPrepare, hwant, hrun, bind, Except.bind, pure, Except.pure]
      · simp [Told, hwant, hb hc]

theorem watchCheck_refines {s : ZStreamLine} (h : Wf s) :
    ∃ b t, watchCheck s = .ok (b, t) ∧ Polled s t ∧ (CacheOk s → Told .check s (.flag b)) := by
  cases hwant : s.wantRead with
  | false =>
      refine ⟨s.wantPri && s.childPri, s, ?_, polled_self s, fun _ => ?_⟩
      · simp [watchCheck, hwant, bind, Except.bind, pure, Except.pure]
      · simp [Told, hwant]
  | true =>
      obtain ⟨b, t, hrun, hpolled, hb⟩ := readable_refines h
      refine ⟨b || s.wantPri && s.childPri, t, ?_, hpolled, fun hc => ?_⟩
      · obtain ⟨_, rfl | rfl⟩ := hpolled.same <;>
          simp [watchCheck, hwant, hrun, bind, Except.bind, pure, Except.pure]
      · simp [Told, hwant, hb hc]

/-- A read takes from the buffer first, and forgets the remembered answer. -/
theorem readMethod_pending {s : ZStreamLine} (h : Wf s) (c : Child) (count : Nat)
    (hne : pending s ≠ []) :
    ∃ t, readMethod count (s, c) = .ok (.normal ((pending s).take count), t, c) ∧ Wf t ∧
      t.flags = s.flags ∧ t.bufsize = s.bufsize ∧ t.lineAvailSet = false ∧
      pending t = (pending s).drop count := by
  have hpos := h.pos_le
  have hle := h.end_le
  have hbuf := h.length
  have hlen := pending_length h
  have havail : s.endPos - s.pos ≠ 0 := by
    rw [← hlen]
    exact fun h0 => hne (List.length_eq_zero_iff.mp h0)
  have hread : read s.buffer s.pos (min count (s.endPos - s.pos)) =
      .ok ((pending s).take count) := by
    rw [Region.read, if_pos (by omega), pending, window, List.take_take]
  let t : ZStreamLine := { s with oldpos := s.pos, lineAvailSet := false }
  by_cases hall : s.pos + min count (s.endPos - s.pos) = s.endPos
  · have hcount : s.endPos - s.pos ≤ count := by omega
    refine ⟨{ t with pos := 0, endPos := 0 }, ?_, ⟨Nat.le_refl 0, Nat.zero_le _, hbuf, h.lt⟩,
      rfl, rfl, rfl, ?_⟩
    · simp only [readMethod, gsizeSub_le hpos, ne_eq, havail, not_false_eq_true, ↓reduceIte, hread,
        bind, Except.bind, pure, Except.pure, hall]
      rfl
    · rw [List.drop_of_length_le (by omega)]
      exact window_self s.buffer 0
  · have hmin : min count (s.endPos - s.pos) = count := by omega
    rw [hmin] at hall hread
    refine ⟨{ t with pos := s.pos + count }, ?_, ⟨?_, hle, hbuf, h.lt⟩, rfl, rfl, rfl, ?_⟩
    · simp only [readMethod, gsizeSub_le hpos, ne_eq, havail, not_false_eq_true, ↓reduceIte, hmin,
        hread, bind, Except.bind, pure, Except.pure, hall]
      rfl
    · change s.pos + count ≤ s.endPos
      omega
    · change window s.buffer (s.pos + count) s.endPos = (window s.buffer s.pos s.endPos).drop count
      rw [window, window, List.drop_take, List.drop_drop]
      congr 1
      omega

theorem readMethod_refines {s : ZStreamLine} (h : Wf s) (c : Child) (count : Nat) :
    ∃ r t c', readMethod count (s, c) = .ok (r, t, c') ∧ Wf t ∧ t.flags = s.flags ∧
      t.bufsize = s.bufsize ∧ (CacheOk s → CacheOk t) := by
  by_cases hne : pending s = []
  · have havail : s.endPos - s.pos = 0 := by rw [← pending_length h, hne, List.length_nil]
    refine ⟨(childRead count c).1, { s with childIn := false, childPri := false },
      (childRead count c).2, ?_, ⟨h.pos_le, h.end_le, h.length, h.lt⟩, rfl, rfl, id⟩
    simp only [readMethod, gsizeSub_le h.pos_le, havail]
    rfl
  · obtain ⟨t, hrun, hwf, hflags, hsize, hset, -⟩ := readMethod_pending h c count hne
    exact ⟨_, t, c, hrun, hwf, hflags, hsize, fun _ hcache => absurd (hset.symm.trans hcache) (by simp)⟩

/-- An accepted packet stands before the pending bytes. The remembered answer
stays as it is. -/
theorem ungetPacketMethod_refines {s : ZStreamLine} (h : Wf s) (packet : List UInt8) :
    ∃ b t, ungetPacketMethod packet s = .ok (b, t) ∧ Wf t ∧ t.flags = s.flags ∧
      t.bufsize = s.bufsize ∧ t.lineAvailSet = s.lineAvailSet ∧ t.lineAvail = s.lineAvail ∧
      (b = true ↔ packet.length < s.pos + (s.bufsize - s.endPos)) ∧
      pending t = if b then packet ++ pending s else pending s := by
  have hpos := h.pos_le
  have hle := h.end_le
  have hbuf := h.length
  rw [ungetPacketMethod]
  simp only [gsizeSub_le hle]
  by_cases hfit : packet.length < s.pos + (s.bufsize - s.endPos)
  · rw [if_pos hfit]
    by_cases hbefore : packet.length < s.pos
    · have hroom : s.pos - packet.length + packet.length ≤ s.buffer.length := by omega
      let t : ZStreamLine :=
        { s with buffer := put s.buffer (s.pos - packet.length) packet, pos := s.pos - packet.length }
      refine ⟨true, t, ?_, ⟨?_, hle, (put_length hroom).trans hbuf, h.lt⟩, rfl, rfl, rfl, rfl,
        iff_of_true rfl hfit, ?_⟩
      · rw [if_pos hbefore, write_eq hroom]
        rfl
      · exact Nat.le_trans (Nat.sub_le _ _) hpos
      · have hcut : s.pos - packet.length + packet.length = s.pos := by omega
        have hfirst := window_put_same hroom
        rw [hcut] at hfirst
        change window (put s.buffer (s.pos - packet.length) packet) (s.pos - packet.length)
          s.endPos = _
        rw [if_pos rfl, ← window_append _ (Nat.sub_le s.pos packet.length) hpos, hfirst,
          window_put_after hroom (Nat.le_of_eq hcut)]
        rfl
    · have hlen : (pending s).length = s.endPos - s.pos := pending_length h
      have hmove : move s.buffer packet.length s.pos (s.endPos - s.pos) =
          .ok (put s.buffer packet.length (pending s)) := by
        rw [move_eq (by omega) (by omega), Nat.add_sub_cancel' hpos]
        rfl
      have hput : packet.length + (pending s).length ≤ s.buffer.length := by omega
      have hroom : 0 + packet.length ≤ (put s.buffer packet.length (pending s)).length := by
        rw [put_length hput]
        omega
      let t : ZStreamLine :=
        { s with
          buffer := put (put s.buffer packet.length (pending s)) 0 packet
          endPos := s.endPos - s.pos + packet.length
          pos := 0 }
      refine ⟨true, t, ?_, ⟨Nat.zero_le _, ?_, ?_, h.lt⟩, rfl, rfl, rfl, rfl, iff_of_true rfl hfit, ?_⟩
      · rw [if_neg hbefore, gsizeSub_le hpos, hmove]
        simp only [bind, Except.bind, write_eq hroom]
        rfl
      · change s.endPos - s.pos + packet.length ≤ s.bufsize
        omega
      · exact (put_length hroom).trans ((put_length hput).trans hbuf)
      · have hfirst := window_put_same hroom
        rw [Nat.zero_add] at hfirst
        have hsecond := window_put_after (b := packet.length + (pending s).length) hroom
          (Nat.le_of_eq (Nat.zero_add _))
        rw [window_put_same hput] at hsecond
        change window (put (put s.buffer packet.length (pending s)) 0 packet) 0
          (s.endPos - s.pos + packet.length) = _
        rw [if_pos rfl, Nat.add_comm, ← hlen,
          ← window_append _ (Nat.zero_le packet.length) (Nat.le_add_right _ _), hfirst, hsecond]
  · exact ⟨false, s, if_neg hfit, h, rfl, rfl, rfl, rfl, iff_of_false (by simp) hfit, rfl⟩

/-- What every operation keeps. -/
structure Holds (s t : ZStreamLine) : Prop where
  wf : Wf t
  flags : t.flags = s.flags
  bufsize : t.bufsize = s.bufsize

theorem Polled.holds {s t : ZStreamLine} (h : Polled s t) (hs : Wf s) : Holds s t := by
  obtain ⟨_, rfl | rfl⟩ := h.same
  · exact ⟨⟨hs.pos_le, hs.end_le, hs.length, hs.lt⟩, rfl, rfl⟩
  · exact ⟨hs, rfl, rfl⟩

/-- A packet with an end of line is pushed back while it is remembered that
there is no line. -/
def Staling (op : LineOp) (s : ZStreamLine) : Prop :=
  match op with
  | .unget packet =>
      packet.length < s.pos + (s.bufsize - s.endPos) ∧ s.lineAvailSet = true ∧
        s.lineAvail = false ∧ eolByte s.flags ∈ packet
  | _ => False

instance (op : LineOp) (s : ZStreamLine) : Decidable (Staling op s) :=
  match op with
  | .unget packet =>
      inferInstanceAs (Decidable (packet.length < s.pos + (s.bufsize - s.endPos) ∧
        s.lineAvailSet = true ∧ s.lineAvail = false ∧ eolByte s.flags ∈ packet))
  | .get | .getCopy _ | .read _ | .haveLine | .prepare | .check | .setCond .. | .childReadable
  | .childPri => isFalse id

theorem cacheOk_forgotten {s t : ZStreamLine} (h : t = s ∨ t.lineAvailSet = false) :
    CacheOk s → CacheOk t := by
  intro hc
  rcases h with rfl | hset
  · exact hc
  · exact fun ht => absurd (hset.symm.trans ht) (by simp)

/-- A slice of what the last fetch consumed: of the range from oldpos to pos. -/
def InRange (a : Slice) (t : ZStreamLine) : Prop := t.oldpos ≤ a.line ∧ a.line + a.length ≤ t.pos

/-- The same, or the whole buffer, which the start of a cut line is: its
positions are reset in the same step. -/
def Inside (a : Slice) (t : ZStreamLine) : Prop :=
  InRange a t ∨ t.flags.truncate = true ∧ t.endPos = 0 ∧ a.line = 0 ∧ a.length = t.bufsize

/-- A slice is in range, and no longer than what the call consumed. -/
def Taken (Range : Slice → ZStreamLine → Prop) (s : ZStreamLine × Child) (a : Slice)
    (t : ZStreamLine × Child) : Prop :=
  Range a t.1 ∧ a.length + (stream t).length ≤ (stream s).length

/-- The NORMAL results are slices that were taken. -/
def Covered (Range : Slice → ZStreamLine → Prop) (s : ZStreamLine × Child) :
    LineAnswer → ZStreamLine × Child → Prop
  | .line (.normal a), t => Taken Range s a t
  | .copied (.normal line), t =>
      ∃ a, Taken Range s a t ∧ read t.1.buffer a.line a.length = .ok line
  | _, _ => True

theorem getInternal_taken {s : ZStreamLine} {t : ZStreamLine × Child} (h : Wf s) (c : Child)
    (htorn : ¬Torn s) {a : Slice} (hrun : getInternal s c = .ok (.normal a, t)) :
    Taken Inside (s, c) a t := by
  obtain ⟨herr, -⟩ | ⟨r, d, t', c', hrun', hrel, hfetched⟩ := getInternal_refines h c
  · rw [herr] at hrun
    cases hrun
  · rw [hrun', Except.ok.injEq, Prod.mk.injEq] at hrun
    obtain ⟨rfl, rfl⟩ := hrun
    obtain ⟨d, rfl⟩ : ∃ e, d = .normal e := by
      cases d with
      | normal e => exact ⟨e, rfl⟩
      | again o => exact absurd hfetched.points (by cases o <;> exact id)
      | eof | error => exact absurd hfetched.points id
    obtain ⟨hshows, hcut⟩ := hfetched.points
    have hsound := fetch_sound hrel (fun he hf hcr => htorn ⟨he, hf, hcr⟩)
    have hheld := fetch_shrinks hrel d rfl
    have hwf := hfetched.wf
    have hpos := hwf.pos_le
    have hle := hwf.end_le
    have hbuf := hwf.length
    have hlen := hshows.length
    have hpending : (view t').pending.length = t'.endPos - t'.pos := pending_length hwf
    have hcover : d.length + (view t').pending.length ≤ d.held.length := hsound
    refine ⟨?_, ?_⟩
    · by_cases hend : t'.endPos = 0
      · obtain ⟨hline, hbuffer, hwhole⟩ := hshows.whole hend
        refine .inr ⟨hcut hend, hend, hline, ?_⟩
        rw [hlen, hwhole, ← hbuffer, hbuf]
      · obtain ⟨hline, hold, hwindow⟩ := hshows.held hend
        have hlength := congrArg List.length hwindow
        rw [Region.window_length _ (by omega)] at hlength
        refine .inl ⟨Nat.le_of_eq hline.symm, ?_⟩
        change a.line + a.length ≤ t'.pos
        omega
    · simp only [stream, total, List.length_append] at hheld ⊢
      omega

theorem contents_normal {buffer line : List UInt8} {r : LineResult Slice}
    (h : r.contents buffer = .ok (.normal line)) :
    ∃ a, r = .normal a ∧ read buffer a.line a.length = .ok line := by
  cases r with
  | normal a =>
      rw [LineResult.contents] at h
      cases hread : read buffer a.line a.length with
      | error e => rw [hread] at h; cases h
      | ok bytes => rw [hread] at h; cases h; exact ⟨a, rfl, hread⟩
  | again o =>
      cases o with
      | none => cases h
      | some a =>
          rw [LineResult.contents] at h
          cases hread : read buffer a.line a.length <;> (rw [hread] at h; cases h)
  | eof | error => cases h

/-- A NORMAL copy is the line of a fetch, which fits. -/
theorem lineGetCopy_normal {dest : Nat} (hdest : dest ≠ 0) {s : ZStreamLine}
    {t : ZStreamLine × Child} {line : List UInt8}
    (h : lineGetCopy dest (s, c) = .ok (.normal line, t)) :
    ∃ a, getInternal s c = .ok (.normal a, t) ∧ read t.1.buffer a.line a.length = .ok line := by
  have hcontents {r : LineResult Slice} {u : ZStreamLine} {d : Child}
      (hr : (r.contents u.buffer).map (fun r => (r, u, d)) = .ok (.normal line, t)) :
      ∃ a, r = .normal a ∧ t = (u, d) ∧ read t.1.buffer a.line a.length = .ok line := by
    cases hcont : r.contents u.buffer with
    | error => rw [hcont] at hr; cases hr
    | ok q =>
        rw [hcont] at hr
        cases hr
        obtain ⟨a, ha, hread⟩ := contents_normal hcont
        exact ⟨a, ha, rfl, hread⟩
  cases hget : getInternal s c with
  | error e =>
      rw [lineGetCopy, if_neg hdest] at h
      simp only [hget, bind, Except.bind] at h
      cases h
  | ok p =>
      obtain ⟨r, u, d⟩ := p
      suffices ∃ a, r = .normal a ∧ t = (u, d) ∧ read t.1.buffer a.line a.length = .ok line by
        obtain ⟨a, rfl, rfl, hread⟩ := this
        exact ⟨a, rfl, hread⟩
      rw [lineGetCopy_eq hdest hget] at h
      split at h
      · rename_i a _
        split at h
        · split at h
          · cases hread : read u.buffer a.line dest <;> (rw [hread] at h; cases h)
          · cases hread : read u.buffer a.line a.length <;> (rw [hread] at h; cases h)
        · exact hcontents h
      · exact hcontents h

theorem torn_copySound {s : ZStreamLine} (htorn : Torn s) {dest : Nat}
    (hsafe : CopySafe (.getCopy dest) s) {d : LineResult Delivered}
    (h : Fetch s.flags cap (view s) c d w c') : CopySound s.flags dest d := by
  obtain ⟨hsplit, hlong⟩ := hsafe htorn
  obtain ⟨herr, heof, -, -, -, -, rest, hp⟩ := htorn
  intro e he
  cases h with
  | failed hf => exact absurd (herr.symm.trans hf) (by simp)
  | atEof _ hf => exact absurd (heof.symm.trans hf) (by simp)
  | bad => cases he
  | read _ _ hmore => exact absurd (hp ▸ List.mem_cons_self) hmore
  | buffered _ _ h =>
      cases he
      have hheld := congrArg List.length (fromBuf_held h)
      change e.held.length = (pending s).length at hheld
      by_cases hle : e.length ≤ e.held.length
      · exact .inl hle
      · exact .inr ⟨hsplit, by omega, by omega⟩

/-- A copy into a destination of at least a byte. -/
theorem lineGetCopy_remains {s : ZStreamLine} (h : Wf s) (c : Child) {dest : Nat} (hdest : 0 < dest)
    (hsafe : CopySafe (.getCopy dest) s) :
    (lineGetCopy dest (s, c) = .error .diverges ∧ s.bufsize = 0) ∨
      ∃ r t, lineGetCopy dest (s, c) = .ok (r, t) ∧ Remains s t.1 := by
  have hsound (d : LineResult Delivered) (w : Reader) (c' : Child)
      (hrel : Fetch s.flags s.bufsize (view s) c d w c') : CopySound s.flags dest d := by
    by_cases htorn : Torn s
    · exact torn_copySound htorn hsafe hrel
    · have hd := fetch_sound hrel (fun he hf hcr => htorn ⟨he, hf, hcr⟩)
      exact hd.copySound dest
  obtain ⟨herr, hzero, -⟩ | ⟨d, w, r, t, c', hrun, hrel, hcopied, hremains⟩ :=
    lineGetCopy_refines h c hdest hsound
  · exact .inl ⟨herr, hzero⟩
  · exact .inr ⟨r, (t, c'), hrun, hremains⟩

def LineOp.isFetch : LineOp → Bool
  | .get | .getCopy _ => true
  | _ => false

/-- What an operation leaves, and what it answers about lines. -/
structure Steps (op : LineOp) (s : ZStreamLine) (r : LineAnswer) (t : ZStreamLine) : Prop where
  holds : Holds s t
  told : CacheOk s → Told op s r
  cache : ¬Staling op s → CacheOk s → CacheOk t

theorem remains_holds {s t : ZStreamLine} (h : Remains s t) : Holds s t :=
  ⟨h.wf, h.flags, h.bufsize⟩

theorem unget_steps {s : ZStreamLine} (h : Wf s) (packet : List UInt8) :
    ∃ b t, ungetPacketMethod packet s = .ok (b, t) ∧ Steps (.unget packet) s (.flag b) t := by
  obtain ⟨b, t, hrun, hwf, hflags, hsize, hset, havail, hfit, hpending⟩ :=
    ungetPacketMethod_refines h packet
  refine ⟨b, t, hrun, ⟨hwf, hflags, hsize⟩, fun _ => trivial, fun hstale hc ht => ?_⟩
  have hs := hset.symm.trans ht
  have hb := hc hs
  rw [havail, hb, hasLine, hasLine, hflags, hpending]
  cases b with
  | false => rfl
  | true =>
      by_cases hmem : eolByte s.flags ∈ pending s
      · simp [hmem]
      · have hnone : s.lineAvail = false := by rw [hb, hasLine, decide_eq_false hmem]
        have hpacket : eolByte s.flags ∉ packet := fun hp => hstale ⟨hfit.mp rfl, hs, hnone, hp⟩
        simp [hmem, hpacket]

/-- Every operation on a line stream comes back, unless its buffer cannot hold
a byte. -/
theorem lineStep_steps {s : ZStreamLine} (h : Wf s) (c : Child) {op : LineOp}
    (hdest : ∀ dest, op = .getCopy dest → 0 < dest) (hsafe : CopySafe op s) :
    (lineStep op (s, c) = .error .diverges ∧ s.bufsize = 0) ∨
      ∃ r t, lineStep op (s, c) = .ok (r, t) ∧ Steps op s r t.1 := by
  cases op with
  | get =>
      obtain ⟨herr, hzero, -⟩ | ⟨r, d, t, c', hrun, -, hfetched⟩ := getInternal_refines h c
      · exact .inl ⟨by rw [lineStep, herr]; rfl, hzero⟩
      · refine .inr ⟨.line r, (t, c'), by rw [lineStep, hrun]; rfl,
          ⟨hfetched.wf, hfetched.flags, hfetched.bufsize⟩, fun _ => trivial,
          fun _ => cacheOk_forgotten (hfetched.cache.imp_left And.left)⟩
  | getCopy dest =>
      obtain ⟨herr, hzero⟩ | ⟨r, t, hrun, hremains⟩ := lineGetCopy_remains h c (hdest dest rfl) hsafe
      · exact .inl ⟨by rw [lineStep, herr]; rfl, hzero⟩
      · exact .inr ⟨.copied r, t, by rw [lineStep, hrun]; rfl, remains_holds hremains, fun _ => trivial,
          fun _ => cacheOk_forgotten hremains.cache⟩
  | read count =>
      obtain ⟨r, t, c', hrun, hwf, hflags, hsize, hcache⟩ := readMethod_refines h c count
      exact .inr ⟨.bytes r, (t, c'), by rw [lineStep, hrun]; rfl, ⟨hwf, hflags, hsize⟩,
        fun _ => trivial, fun _ => hcache⟩
  | unget packet =>
      obtain ⟨b, t, hrun, hsteps⟩ := unget_steps h packet
      exact .inr ⟨.flag b, (t, c), by rw [lineStep, hrun]; rfl, hsteps⟩
  | haveLine =>
      obtain ⟨b, t, hrun, hpolled, hb⟩ := haveLine_refines h
      exact .inr ⟨.flag b, (t, c), by rw [lineStep, hrun]; rfl, hpolled.holds h,
        fun hc => congrArg LineAnswer.flag (hb hc), fun _ => hpolled.cache⟩
  | prepare =>
      obtain ⟨p, t, hrun, hpolled, htold⟩ := watchPrepare_refines h
      exact .inr ⟨.prepared p, (t, c), by rw [lineStep, hrun]; rfl, hpolled.holds h, htold,
        fun _ => hpolled.cache⟩
  | check =>
      obtain ⟨b, t, hrun, hpolled, htold⟩ := watchCheck_refines h
      exact .inr ⟨.flag b, (t, c), by rw [lineStep, hrun]; rfl, hpolled.holds h, htold,
        fun _ => hpolled.cache⟩
  | setCond wantRead wantPri wantWrite =>
      exact .inr ⟨.done, ({ s with wantRead := wantRead, wantPri := wantPri, wantWrite := wantWrite }, c),
        rfl, ⟨⟨h.pos_le, h.end_le, h.length, h.lt⟩, rfl, rfl⟩, fun _ => trivial, fun _ => id⟩
  | childReadable =>
      exact .inr ⟨.done, (readCallback s, c), rfl,
        ⟨⟨h.pos_le, h.end_le, h.length, h.lt⟩, rfl, rfl⟩, fun _ => trivial, fun _ => id⟩
  | childPri =>
      exact .inr ⟨.done, (priCallback s, c), rfl,
        ⟨⟨h.pos_le, h.end_le, h.length, h.lt⟩, rfl, rfl⟩, fun _ => trivial, fun _ => id⟩

/-- A line that a fetch brings was taken from the buffer. -/
theorem lineStep_covered {s : ZStreamLine} (h : Wf s) {op : LineOp}
    (hdest : ∀ dest, op = .getCopy dest → 0 < dest) (htorn : op.isFetch = true → ¬Torn s)
    {r : LineAnswer} {t : ZStreamLine × Child} (hrun : lineStep op (s, c) = .ok (r, t)) :
    Covered Inside (s, c) r t := by
  cases op with
  | get =>
      obtain ⟨⟨rc, u⟩, hget, hp⟩ := Run.map_ok hrun
      cases hp
      cases rc with
      | normal a => exact getInternal_taken h c (htorn rfl) hget
      | again | eof | error => trivial
  | getCopy dest =>
      obtain ⟨⟨rc, u⟩, hget, hp⟩ := Run.map_ok hrun
      cases hp
      cases rc with
      | normal line =>
          obtain ⟨a, hget, hread⟩ := lineGetCopy_normal (Nat.ne_of_gt (hdest dest rfl)) hget
          exact ⟨a, getInternal_taken h c (htorn rfl) hget, hread⟩
      | again | eof | error => trivial
  | read | unget | haveLine | prepare | check =>
      obtain ⟨⟨rc, u⟩, hget, hp⟩ := Run.map_ok hrun
      cases hp
      trivial
  | setCond | childReadable | childPri =>
      cases hrun
      trivial

/-- A buffer that cannot hold a byte is read into for ever. -/
def Endless (_ : LineOp) (s : ZStreamLine × Child) (e : Abort) : Prop :=
  e = .diverges ∧ s.1.bufsize = 0

/-- The buffer of a line stream over a run of operations: its positions stay
in order, no byte outside is touched, and lines are taken from a range of it. -/
def Safe (Range : Slice → ZStreamLine → Prop) (ops : List LineOp) (s : ZStreamLine × Child) : Prop :=
  Wf s.1 ∧ Run.Always lineStep Endless (fun _ s r t => Wf t.1 ∧ Covered Range s r t) ops s

theorem lineNew_wf (bufsize : UInt64) (flags : LineFlags) (memory : Nat → UInt8) :
    Wf (lineNew bufsize flags memory) :=
  ⟨Nat.le_refl 0, Nat.zero_le _, by simp [lineNew], bufsize.toNat_lt⟩

/-- Where no fetch starts between a carriage return and its newline, the line
buffer is safe for every order of operations, and a line that was not cut lies
in the range of the buffer that was consumed. -/
theorem lineOps_safe (bufsize : UInt64) (flags : LineFlags) (memory : Nat → UInt8) (c : Child)
    (ops : List LineOp) (hdest : ∀ dest, .getCopy dest ∈ ops → 0 < dest)
    (htorn : Run.Meets lineStep (fun op s => op.isFetch = true → ¬Torn s.1) ops
      (lineNew bufsize flags memory, c)) :
    Safe Inside ops (lineNew bufsize flags memory, c) := by
  have hdests (op : LineOp) (hop : op ∈ ops) (dest : Nat) (h : op = .getCopy dest) : 0 < dest :=
    hdest dest (h ▸ hop)
  let Inv (s : ZStreamLine × Child) : Prop := Wf s.1
  have hnew : Inv (lineNew bufsize flags memory, c) := lineNew_wf bufsize flags memory
  refine ⟨hnew, Run.always_induct ?_ ops hnew (Run.meets_and hdests htorn)⟩
  rintro op ⟨s, c⟩ hwf ⟨hdest, htorn⟩
  have hsafe : CopySafe op s := by
    cases op with
    | getCopy => exact fun ht => absurd ht (htorn rfl)
    | _ => trivial
  obtain ⟨herr, hzero⟩ | ⟨r, t, hrun, hsteps⟩ := lineStep_steps hwf c hdest hsafe
  · exact .inl ⟨_, herr, rfl, hzero⟩
  · exact .inr ⟨r, t, hrun, hsteps.holds.wf, hsteps.holds.wf,
      lineStep_covered hwf hdest htorn hrun⟩

/-- A line, a part of the next one read and pushed back, and that line. -/
theorem lineOps_safe_pushed :
    Safe Inside [.get, .read 1, .unget [99], .getCopy 4]
      (lineNew 8 { eolCrlf := true } (fun _ => 0), [.normal [97, 98, 13, 10, 99, 13], .normal [10]]) :=
  lineOps_safe 8 { eolCrlf := true } (fun _ => 0) [.normal [97, 98, 13, 10, 99, 13], .normal [10]]
    [.get, .read 1, .unget [99], .getCopy 4] (by simp)
    (Run.meets_cons (by decide) rfl (Run.meets_cons (by decide) rfl
      (Run.meets_cons (by decide) rfl (Run.meets_cons (by decide) rfl trivial))))

/-- A cut line is out of the range of its call, and a newline whose carriage
return was read before has the length of an underflow. -/
theorem lineOps_not_safe :
    (¬∀ (bufsize : UInt64) (memory : Nat → UInt8) (c : Child) (ops : List LineOp)
      (_ : ∀ dest, .getCopy dest ∈ ops → 0 < dest),
      Safe InRange ops (lineNew bufsize { eolNl := true, truncate := true } memory, c)) ∧
    ¬∀ (bufsize : UInt64) (memory : Nat → UInt8) (c : Child) (ops : List LineOp)
      (_ : ∀ dest, .getCopy dest ∈ ops → 0 < dest),
      Safe Inside ops (lineNew bufsize { eolCrlf := true } memory, c) := by
  constructor
  · intro h
    have hsafe := h 2 (fun _ => 0) [.normal [97, 98, 99]] [.get] (by simp)
    obtain ⟨⟨-, hrange, -⟩, -⟩ := Run.always_cons hsafe.2 rfl
    exact absurd hrange.2 (by decide)
  · intro h
    have hsafe := h 8 (fun _ => 0) [.normal [97, 98, 13, 10, 99, 100, 13, 10]]
      [.get, .read 3, .get] (by simp)
    obtain ⟨-, hsafe⟩ := Run.always_cons hsafe.2 rfl
    obtain ⟨-, hsafe⟩ := Run.always_cons hsafe rfl
    obtain ⟨⟨-, -, hlong⟩, -⟩ := Run.always_cons hsafe rfl
    exact absurd hlong (by decide)

/-- Where no packet with an end of line is pushed back while it is remembered
that there is no line, the answers about lines are right for every order of
operations. -/
theorem lineOps_current (bufsize : UInt64) (flags : LineFlags) (memory : Nat → UInt8) (c : Child)
    (ops : List LineOp) (hdest : ∀ dest, .getCopy dest ∈ ops → 0 < dest)
    (hfresh : Run.Meets lineStep (fun op s => CopySafe op s.1 ∧ ¬Staling op s.1) ops
      (lineNew bufsize flags memory, c)) :
    Run.Always lineStep Endless (fun op s r _ => Told op s.1 r) ops
      (lineNew bufsize flags memory, c) := by
  have hdests (op : LineOp) (hop : op ∈ ops) (dest : Nat) (h : op = .getCopy dest) : 0 < dest :=
    hdest dest (h ▸ hop)
  let Inv (s : ZStreamLine × Child) : Prop := Wf s.1 ∧ CacheOk s.1
  have hnew : Inv (lineNew bufsize flags memory, c) :=
    ⟨lineNew_wf bufsize flags memory, fun h => absurd h (by simp [lineNew])⟩
  refine Run.always_induct ?_ ops hnew (Run.meets_and hdests hfresh)
  rintro op ⟨s, c⟩ ⟨hwf, hcache⟩ ⟨hdest, hsafe, hstale⟩
  obtain ⟨herr, hzero⟩ | ⟨r, t, hrun, hsteps⟩ := lineStep_steps hwf c hdest hsafe
  · exact .inl ⟨_, herr, rfl, hzero⟩
  · exact .inr ⟨r, t, hrun, ⟨hsteps.holds.wf, hsteps.cache hstale hcache⟩, hsteps.told hcache⟩

/-- A line that is pushed back before anything was asked. -/
theorem lineOps_current_pushed :
    Run.Always lineStep Endless (fun op s r _ => Told op s.1 r)
      [.unget [97, 10], .haveLine, .getCopy 4, .haveLine]
      (lineNew 8 { eolNl := true } (fun _ => 0), []) :=
  lineOps_current 8 { eolNl := true } (fun _ => 0) [] [.unget [97, 10], .haveLine, .getCopy 4, .haveLine]
    (by simp)
    (Run.meets_cons (by decide) rfl (Run.meets_cons (by decide) rfl
      (Run.meets_cons (by decide) rfl (Run.meets_cons (by decide) rfl trivial))))

/-- A line that is pushed back after a poll that found none is not reported. -/
theorem lineOps_not_current :
    ¬∀ (bufsize : UInt64) (flags : LineFlags) (memory : Nat → UInt8) (c : Child)
      (ops : List LineOp) (_ : ∀ dest, .getCopy dest ∈ ops → 0 < dest),
      Run.Always lineStep Endless (fun op s r _ => Told op s.1 r) ops
        (lineNew bufsize flags memory, c) := by
  intro h
  have hcurrent := h 8 { eolNl := true } (fun _ => 0) [] [.haveLine, .unget [97, 10], .haveLine]
    (by simp)
  obtain ⟨-, hcurrent⟩ := Run.always_cons hcurrent rfl
  obtain ⟨-, hcurrent⟩ := Run.always_cons hcurrent rfl
  obtain ⟨htold, -⟩ := Run.always_cons hcurrent rfl
  exact absurd (show LineAnswer.flag false = .flag true from htold) (by decide)

end Libzorpll.LineSafety
