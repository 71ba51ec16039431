import Mathlib.Data.UInt
import Libzorpll.StreamBuf
import Libzorpll.Run

/-! The buffer of a ZStreamBuf as a queue of bytes. -/

namespace Libzorpll.BufferQueue

open StreamBuf

/-- The bytes that are still to be written to the child. -/
def queued (b : ZStreamBuf) : List UInt8 := b.buffers.flatten.drop b.pendingPos

def eventBytes : ChildEvent → List UInt8
  | .wrote bytes => bytes
  | _ => []

/-- The bytes that the child has taken. -/
def taken (child : WriteChild) : List UInt8 := child.events.flatMap eventBytes

/-- Where the position in the head packet is to be. -/
def HeadBefore (Before : Nat → List UInt8 → Prop) (b : ZStreamBuf) : Prop :=
  match b.buffers with
  | [] => b.pendingPos = 0
  | packet :: _ => Before b.pendingPos packet

/-- It is short of the end of the packet, but for an empty one. -/
def Inside (pos : Nat) (packet : List UInt8) : Prop :=
  pos < packet.length ∨ packet = [] ∧ pos = 0

structure Queue (b : ZStreamBuf) : Prop where
  size : b.currentSize = (b.buffers.map List.length).sum
  head : HeadBefore Inside b

variable {b : ZStreamBuf} {child : WriteChild}

theorem inside_zero (packet : List UInt8) : Inside 0 packet := by
  cases packet with
  | nil => exact .inr ⟨rfl, rfl⟩
  | cons => exact .inl (Nat.zero_lt_succ _)

theorem headBefore_zero {b : ZStreamBuf} (h : b.pendingPos = 0) : HeadBefore Inside b := by
  rw [HeadBefore]
  split
  · exact h
  · rw [h]
    exact inside_zero _

theorem Queue.inside (h : Queue b) {packet : List UInt8} {rest : List (List UInt8)}
    (hb : b.buffers = packet :: rest) : Inside b.pendingPos packet := by
  have hhead := h.head
  rw [HeadBefore, hb] at hhead
  exact hhead

theorem Inside.le {pos : Nat} {packet : List UInt8} (h : Inside pos packet) : pos ≤ packet.length := by
  rcases h with hlt | ⟨-, hzero⟩
  · exact Nat.le_of_lt hlt
  · rw [hzero]
    exact Nat.zero_le _

theorem queued_cons {packet : List UInt8} {rest : List (List UInt8)}
    (hb : b.buffers = packet :: rest) (hpos : b.pendingPos ≤ packet.length) :
    queued b = packet.drop b.pendingPos ++ rest.flatten := by
  rw [queued, hb, List.flatten_cons, List.drop_append_of_le_length hpos]

/-- The lengths of what is left of the queued packets. -/
def remaining (b : ZStreamBuf) : List Nat :=
  match b.buffers with
  | [] => []
  | packet :: rest => (packet.length - b.pendingPos) :: rest.map List.length

theorem remaining_eq (h : b.pendingPos = 0) : remaining b = b.buffers.map List.length := by
  rw [remaining]
  split
  · rename_i hb
    rw [hb, List.map_nil]
  · rename_i hb
    rw [hb, List.map_cons, h, Nat.sub_zero]

/-- The child after a write of which it took the given bytes. -/
def wrote (child : WriteChild) (bytes : List UInt8) : WriteChild :=
  { child with writes := child.writes + 1, events := child.events ++ [.wrote bytes] }

@[simp] theorem taken_wrote (child : WriteChild) (bytes : List UInt8) :
    taken (wrote child bytes) = taken child ++ bytes := by
  simp [taken, wrote, eventBytes]

/-- A round in which the child takes something of the head packet. -/
theorem flushRound_normal (h : Queue b) {packet : List UInt8} {rest : List (List UInt8)}
    (hb : b.buffers = packet :: rest) {count : Nat}
    (hanswer : child.answers child.writes = .normal count) :
    ∃ b' bytes, flushRound (b, child) = (true, b', wrote child bytes) ∧ Queue b' ∧
      bytes ++ queued b' = queued b ∧
      remaining b' = if packet.length - b.pendingPos ≤ count then rest.map List.length
        else (packet.length - b.pendingPos - count) :: rest.map List.length := by
  have hpos := (h.inside hb).le
  have hqueued := queued_cons hb hpos
  have hsize := h.size
  rw [hb, List.map_cons, List.sum_cons] at hsize
  have hwrite : childWrite (packet.drop b.pendingPos) child =
      (.normal (min count (packet.length - b.pendingPos)),
        wrote child ((packet.drop b.pendingPos).take count)) := by
    rw [childWrite]
    simp only [hanswer, List.length_drop]
    rfl
  by_cases hall : packet.length - b.pendingPos ≤ count
  · let b' : ZStreamBuf :=
      { b with currentSize := b.currentSize - packet.length, pendingPos := 0, buffers := rest }
    have hhead : HeadBefore Inside b' := headBefore_zero rfl
    refine ⟨b', (packet.drop b.pendingPos).take count, ?_, ⟨?_, hhead⟩, ?_, ?_⟩
    · rw [flushRound]
      simp only [hb, hwrite, Nat.min_eq_right hall, Nat.add_sub_cancel' hpos, Nat.le_refl, ↓reduceIte]
      rfl
    · change b.currentSize - packet.length = (rest.map List.length).sum
      omega
    · rw [List.take_of_length_le (by rwa [List.length_drop]), hqueued]
      rfl
    · rw [if_pos hall]
      exact remaining_eq rfl
  · have hless : b.pendingPos + count < packet.length := by omega
    let b' : ZStreamBuf := { b with pendingPos := b.pendingPos + count }
    have hb' : b'.buffers = packet :: rest := hb
    have hsize' : b'.currentSize = (b'.buffers.map List.length).sum := h.size
    refine ⟨b', (packet.drop b.pendingPos).take count, ?_, ⟨hsize', ?_⟩, ?_, ?_⟩
    · rw [flushRound]
      simp only [hb, hwrite, Nat.min_eq_left (Nat.le_of_not_le hall), if_neg (Nat.not_le_of_lt hless)]
      rw [← hb]
    · rw [HeadBefore, hb']
      exact .inl hless
    · rw [hqueued, queued_cons hb' (Nat.le_of_lt hless), ← List.append_assoc, ← List.drop_drop,
        List.take_append_drop]
    · rw [if_neg hall, remaining, hb', Nat.sub_sub]

/-- A round that stops the loop leaves the queue as it is. -/
theorem flushRound_stops (hstop : ∀ count, child.answers child.writes ≠ .normal count) :
    ∃ b' child', flushRound (b, child) = (false, b', child') ∧ b'.buffers = b.buffers ∧
      b'.pendingPos = b.pendingPos ∧ b'.currentSize = b.currentSize ∧ taken child' = taken child := by
  cases hb : b.buffers with
  | nil => exact ⟨b, child, by rw [flushRound]; simp only [hb], hb, rfl, rfl, rfl⟩
  | cons packet rest =>
      rw [flushRound]
      simp only [hb, childWrite]
      cases hanswer : child.answers child.writes with
      | normal count => exact absurd hanswer (hstop count)
      | again => exact ⟨_, _, rfl, hb, rfl, rfl, rfl⟩
      | eof | error => exact ⟨_, _, rfl, rfl, rfl, rfl, rfl⟩

/-- The queue is sound, and it and the child have the bytes they had together,
in order, and after them the given ones. -/
structure Conserves (s t : ZStreamBuf × WriteChild) (bytes : List UInt8) : Prop where
  queue : Queue t.1
  bytes : taken t.2 ++ queued t.1 = taken s.2 ++ queued s.1 ++ bytes

theorem queue_congr {b b' : ZStreamBuf} (h : Queue b) (hbuffers : b'.buffers = b.buffers)
    (hpos : b'.pendingPos = b.pendingPos) (hsize : b'.currentSize = b.currentSize) :
    Queue b' ∧ queued b' = queued b := by
  refine ⟨⟨?_, ?_⟩, ?_⟩
  · rw [hsize, hbuffers]
    exact h.size
  · rw [HeadBefore, hbuffers, hpos]
    exact h.head
  · rw [queued, queued, hbuffers, hpos]

theorem flushLoop_conserves (i : Nat) (h : Queue b) :
    Conserves (b, child) (flushLoop i (b, child)) [] := by
  induction i generalizing b child with
  | zero => exact ⟨h, (List.append_nil _).symm⟩
  | succ i ih =>
      by_cases hgo : b.buffers ≠ [] ∧ ∃ count, child.answers child.writes = .normal count
      · obtain ⟨hne, count, hanswer⟩ := hgo
        obtain ⟨packet, rest, hb⟩ := List.exists_cons_of_ne_nil hne
        obtain ⟨b', bytes, hround, hqueue, hbytes, -⟩ := flushRound_normal h hb hanswer
        obtain ⟨hlast, hconserved⟩ := @ih b' (wrote child bytes) hqueue
        rw [flushLoop, hround]
        refine ⟨hlast, hconserved.trans ?_⟩
        rw [taken_wrote, List.append_assoc (taken child), hbytes]
      · obtain ⟨b', child', hround, hbuffers, hpos, hsize, htaken⟩ :
            ∃ b' child', flushRound (b, child) = (false, b', child') ∧ b'.buffers = b.buffers ∧
              b'.pendingPos = b.pendingPos ∧ b'.currentSize = b.currentSize ∧
              taken child' = taken child := by
          by_cases hb : b.buffers = []
          · exact ⟨b, child, by rw [flushRound]; simp only [hb], rfl, rfl, rfl, rfl⟩
          · exact flushRound_stops (fun count hanswer => hgo ⟨hb, count, hanswer⟩)
        obtain ⟨hqueue, hqueued⟩ := queue_congr h hbuffers hpos hsize
        rw [flushLoop, hround]
        refine ⟨hqueue, ?_⟩
        rw [htaken, hqueued, List.append_nil]

/-- A packet is put at the end of the queue. -/
theorem append_conserves (h : Queue b) (packet : List UInt8) :
    Conserves (b, child) ({ b with
      buffers := b.buffers ++ [packet], currentSize := b.currentSize + packet.length }, child)
      packet := by
  have hsize := h.size
  refine ⟨⟨?_, ?_⟩, ?_⟩
  · simp [hsize]
  · cases hb : b.buffers with
    | nil =>
        have hhead := h.head
        rw [HeadBefore, hb] at hhead
        exact headBefore_zero hhead
    | cons first rest =>
        rw [HeadBefore]
        exact h.inside hb
  · have hpos : b.pendingPos ≤ b.buffers.flatten.length := by
      cases hb : b.buffers with
      | nil =>
          have hhead := h.head
          rw [HeadBefore, hb] at hhead
          exact Nat.le_of_eq hhead
      | cons first rest =>
          have hle := (h.inside hb).le
          rw [List.flatten_cons, List.length_append]
          omega
    rw [queued, List.flatten_append, List.flatten_singleton, List.drop_append_of_le_length hpos,
      ← List.append_assoc]
    rfl

theorem Conserves.trans {s t u : ZStreamBuf × WriteChild} {bytes more : List UInt8}
    (h : Conserves s t bytes) (h' : Conserves t u more) : Conserves s u (bytes ++ more) := by
  refine ⟨h'.queue, ?_⟩
  rw [h'.bytes, h.bytes, List.append_assoc]

/-- The bytes of a packet that the caller is told were written. -/
def accepted (buf : List UInt8) : WriteResult → List UInt8
  | .normal count => buf.take count
  | .error _ => []

theorem writePacketInternal_conserves (h : Queue b) (packet : List UInt8) :
    Conserves (b, child) (writePacketInternal packet (b, child)).2
      (accepted packet (writePacketInternal packet (b, child)).1) := by
  cases herr : b.flushError with
  | some err =>
      rw [writePacketInternal]
      simp only [herr, accepted]
      exact ⟨h, (List.append_nil _).symm⟩
  | none =>
      have happend : Conserves (b, child) _ packet := append_conserves h packet
      rw [herr] at happend
      rw [writePacketInternal]
      simp only [herr, accepted, List.take_length]
      split
      · have hflush := happend.trans (flushLoop_conserves 10 happend.queue)
        rwa [List.append_nil] at hflush
      · exact happend

/-- The bytes that an operation accepts, by its result. -/
def acceptedBy : BufOp → Option WriteResult → List UInt8
  | .write buf, some r | .writePacket buf, some r | .writeBuf buf _, some r => accepted buf r
  | _, _ => []

theorem bufStep_conserves (op : BufOp) {s : ZStreamBuf × WriteChild} (h : Queue s.1) :
    ∃ r t, bufStep op s = .ok (r, t) ∧ Conserves s t (acceptedBy op r) := by
  obtain ⟨b, child⟩ := s
  cases op with
  | write buf =>
      let child' : WriteChild := { child with timeout := b.timeout }
      obtain ⟨hqueue, hbytes⟩ := @writePacketInternal_conserves b child' h buf
      exact ⟨_, _, rfl, hqueue, hbytes⟩
  | writePacket buf | writeBuf buf => exact ⟨_, _, rfl, writePacketInternal_conserves h buf⟩
  | flush => exact ⟨none, _, rfl, flushLoop_conserves 10 h⟩

/-- All that the operations of a run accept, in order. -/
def acceptedIn (ops : List BufOp) (rs : List (Option WriteResult)) : List UInt8 :=
  (List.zipWith acceptedBy ops rs).flatten

theorem run_conserves (ops : List BufOp) {s : ZStreamBuf × WriteChild} (h : Queue s.1) :
    ∃ rs t, Run.run bufStep ops s = .ok (rs, t) ∧ Conserves s t (acceptedIn ops rs) := by
  induction ops generalizing s with
  | nil => exact ⟨[], s, rfl, h, (List.append_nil _).symm⟩
  | cons op ops ih =>
      obtain ⟨r, t, hstep, hfirst⟩ := bufStep_conserves op h
      obtain ⟨rs, u, hrun, hrest⟩ := ih hfirst.queue
      refine ⟨r :: rs, u, ?_, hfirst.trans hrest⟩
      simp only [Run.run, hstep, hrun, Except.map]

theorem bufNew_queue {bufThreshold : Nat} {immedFlush : Bool} {s : ZStreamBuf × WriteChild}
    (h : bufNew child bufThreshold immedFlush = some s) :
    Queue s.1 ∧ queued s.1 = [] ∧ taken s.2 = taken child := by
  rw [bufNew] at h
  split at h
  · cases h
    refine ⟨⟨rfl, rfl⟩, rfl, ?_⟩
    simp [taken, setNonblock, eventBytes]
  · cases h

/-- After any operations on a new ZStreamBuf, whatever its child answers, the
bytes that the child has taken and the queued ones are those that were
accepted, and the position in the queue is right. -/
theorem buf_fifo (child : WriteChild) (bufThreshold : Nat) (immedFlush : Bool)
    (s : ZStreamBuf × WriteChild) (hnew : bufNew child bufThreshold immedFlush = some s)
    (ops : List BufOp) :
    ∃ rs t, Run.run bufStep ops s = .ok (rs, t) ∧
      taken t.2 ++ queued t.1 = taken child ++ acceptedIn ops rs ∧
      t.1.currentSize = (t.1.buffers.map List.length).sum ∧ HeadBefore Inside t.1 := by
  obtain ⟨hqueue, hempty, htaken⟩ := bufNew_queue hnew
  obtain ⟨rs, t, hrun, hconserves⟩ := run_conserves ops hqueue
  refine ⟨rs, t, hrun, ?_, hconserves.queue.size, hconserves.queue.head⟩
  rw [hconserves.bytes, hempty, htaken, List.append_nil]

/-- Two packets, of which the child takes two bytes at a time, and then asks
to be written to again. -/
theorem buf_fifo_partial :
    ∃ rs t, Run.run bufStep [.write [97, 98, 99], .writeBuf [100] true, .flush]
        ({ immedFlush := false, bufThreshold := 16 },
          setNonblock true { answers := fun k => if k = 1 then .again else .normal 2 }) =
          .ok (rs, t) ∧
      taken t.2 ++ queued t.1 = [] ++ acceptedIn [.write [97, 98, 99], .writeBuf [100] true, .flush] rs ∧
      t.1.currentSize = (t.1.buffers.map List.length).sum ∧ HeadBefore Inside t.1 :=
  buf_fifo { answers := fun k => if k = 1 then .again else .normal 2 } 16 false _ rfl
    [.write [97, 98, 99], .writeBuf [100] true, .flush]

/-- The position in an empty packet is at its end. -/
theorem buf_not_strictly_fifo :
    ¬∀ (child : WriteChild) (bufThreshold : Nat) (immedFlush : Bool) (s : ZStreamBuf × WriteChild)
      (_ : bufNew child bufThreshold immedFlush = some s) (ops : List BufOp),
      ∃ rs t, Run.run bufStep ops s = .ok (rs, t) ∧
        taken t.2 ++ queued t.1 = taken child ++ acceptedIn ops rs ∧
        t.1.currentSize = (t.1.buffers.map List.length).sum ∧
        HeadBefore (fun pos packet => pos < packet.length) t.1 := by
  intro h
  obtain ⟨rs, t, hrun, -, -, hhead⟩ := h { answers := fun _ => .again } 0 false _ rfl [.write []]
  cases hrun
  exact absurd hhead (Nat.not_lt_zero 0)

end Libzorpll.BufferQueue
