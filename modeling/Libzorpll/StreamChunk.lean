import Libzorpll.ChildStream
import Libzorpll.StreamBuf

namespace Libzorpll.StreamChunk

open ChildStream
open StreamBuf (WriteAnswer ChildEvent)

/-- A child that is written to, by the answers it is going to give; after the
last of them it takes every write whole. -/
structure Sink where
  answers : List WriteAnswer
  events : List ChildEvent := []

def eventBytes : ChildEvent → List UInt8
  | .wrote bytes => bytes
  | _ => []

/-- The bytes that the child has accepted. -/
def received (sink : Sink) : List UInt8 := sink.events.flatMap eventBytes

def sinkEvent (event : ChildEvent) (sink : Sink) : Sink :=
  { sink with events := sink.events ++ [event] }

def sinkWrite (bytes : List UInt8) (sink : Sink) : WriteAnswer × Sink :=
  match sink.answers with
  | [] => (.normal bytes.length, sinkEvent (.wrote bytes) sink)
  | .normal count :: answers =>
      (.normal (min count bytes.length),
        sinkEvent (.wrote (bytes.take count)) { sink with answers := answers })
  | answer :: answers => (answer, { sink with answers := answers })

/-- Why a call does not come back: an assertion that fails, an access outside
of allocated memory, or a loop that is not over after the rounds allowed. -/
inductive Halt
  | assertion
  | memory
  | endless
  deriving DecidableEq

/-- A NORMAL, EOF or ERROR; the others do not come out of z_stream_read_chunk
and z_stream_write_chunk. -/
inductive ChunkStatus
  | normal
  | eof
  | error
  deriving DecidableEq

/-- The loop of z_stream_read_chunk. A round uses up an answer of the child, so
that the rounds suffice. -/
def readChunkLoop : Nat → Nat → List UInt8 → Child → Except Halt (ChunkStatus × List UInt8 × Child)
  | 0, _, _, _ => .error .endless
  | rounds + 1, len, got, child =>
      if len = 0 then .ok (.normal, got, child)
      else
        match childRead len child with
        | (.normal data, child) => readChunkLoop rounds (len - data.length) (got ++ data) child
        | (.again, _) => .error .assertion
        | (.eof, child) => .ok (if got = [] then .eof else .normal, got, child)
        | (.error, child) => .ok (.error, got, child)

def readChunk (len : Nat) (child : Child) : Except Halt (ChunkStatus × List UInt8 × Child) :=
  readChunkLoop (childSize child + 1) len [] child

def writeChunkLoop : Nat → List UInt8 → Sink → Except Halt (ChunkStatus × Sink)
  | 0, _, _ => .error .endless
  | rounds + 1, bytes, sink =>
      if bytes = [] then .ok (.normal, sink)
      else
        match sinkWrite bytes sink with
        | (.normal count, sink) => writeChunkLoop rounds (bytes.drop count) sink
        | (.again, _) => .error .assertion
        | (.eof _, sink) => .ok (.eof, sink)
        | (.error _, sink) => .ok (.error, sink)

def writeChunk (bytes : List UInt8) (sink : Sink) : Except Halt (ChunkStatus × Sink) :=
  writeChunkLoop (sink.answers.length + 2) bytes sink

@[simp] theorem received_event (event : ChildEvent) (sink : Sink) :
    received (sinkEvent event sink) = received sink ++ eventBytes event := by
  simp [received, sinkEvent]

@[simp] theorem sinkEvent_answers (event : ChildEvent) (sink : Sink) :
    (sinkEvent event sink).answers = sink.answers := rfl

/-- A sink that takes what it is given, in pieces or whole. -/
def Accepts (sink : Sink) : Prop := ∀ answer ∈ sink.answers, ∃ count, answer = .normal count

/-- A sink that may also put its writer off. -/
def Patient (sink : Sink) : Prop :=
  ∀ answer ∈ sink.answers, answer = .again ∨ ∃ count, answer = .normal count

theorem accepts_counts (counts : List Nat) : Accepts { answers := counts.map .normal } := by
  intro answer hanswer
  obtain ⟨count, -, rfl⟩ := List.mem_map.mp hanswer
  exact ⟨count, rfl⟩

/-- What a write to a patient sink comes to. -/
theorem Patient.write {sink : Sink} (h : Patient sink) (bytes : List UInt8) :
    (∃ after, sinkWrite bytes sink = (.again, after) ∧ received after = received sink ∧
      Patient after ∧ sink.answers ≠ []) ∨
    ∃ count after, sinkWrite bytes sink = (.normal count, after) ∧ count ≤ bytes.length ∧
      received after = received sink ++ bytes.take count ∧ Patient after := by
  obtain ⟨answers, events⟩ := sink
  cases answers with
  | nil =>
      refine .inr ⟨bytes.length, _, rfl, Nat.le_refl _, ?_, h⟩
      rw [received_event, List.take_length]
      rfl
  | cons answer answers =>
      have hrest : ∀ answer ∈ answers, answer = .again ∨ ∃ count, answer = .normal count := by
        intro answer hanswer
        exact h answer (List.mem_cons_of_mem _ hanswer)
      obtain rfl | ⟨count, rfl⟩ := h answer List.mem_cons_self
      · exact .inl ⟨_, rfl, rfl, hrest, List.cons_ne_nil _ _⟩
      · refine .inr ⟨_, _, rfl, Nat.min_le_right _ _, ?_, hrest⟩
        rw [received_event, eventBytes]
        congr 1
        rw [List.take_eq_take_iff, Nat.min_assoc, Nat.min_self]

theorem Accepts.patient {sink : Sink} (h : Accepts sink) : Patient sink :=
  fun answer hanswer => .inr (h answer hanswer)

theorem Accepts.write {sink : Sink} (h : Accepts sink) (bytes : List UInt8) :
    ∃ count after, sinkWrite bytes sink = (.normal count, after) ∧ count ≤ bytes.length ∧
      received after = received sink ++ bytes.take count ∧ Accepts after ∧
      after.answers = sink.answers.tail ∧ (sink.answers = [] → count = bytes.length) := by
  obtain ⟨answers, events⟩ := sink
  cases answers with
  | nil =>
      refine ⟨bytes.length, _, rfl, Nat.le_refl _, ?_, h, rfl, fun _ => rfl⟩
      rw [received_event, List.take_length]
      rfl
  | cons answer answers =>
      obtain ⟨count, rfl⟩ := h answer List.mem_cons_self
      refine ⟨_, _, rfl, Nat.min_le_right _ _, ?_, ?_, rfl, fun hnil => absurd hnil (List.cons_ne_nil _ _)⟩
      · rw [received_event, eventBytes]
        congr 1
        rw [List.take_eq_take_iff, Nat.min_assoc, Nat.min_self]
      · intro answer hanswer
        exact h answer (List.mem_cons_of_mem _ hanswer)

theorem writeChunkLoop_accepts (rounds : Nat) (bytes : List UInt8) {sink : Sink} (h : Accepts sink)
    (hrounds : sink.answers.length + 2 ≤ rounds) :
    ∃ after, writeChunkLoop rounds bytes sink = .ok (.normal, after) ∧
      received after = received sink ++ bytes ∧ Accepts after := by
  induction rounds generalizing bytes sink with
  | zero => omega
  | succ rounds ih =>
      by_cases hbytes : bytes = []
      · refine ⟨sink, ?_, ?_, h⟩
        · rw [writeChunkLoop, if_pos hbytes]
        · rw [hbytes, List.append_nil]
      · obtain ⟨count, after, hwrite, hcount, hreceived, haccepts, hanswers, hall⟩ := h.write bytes
        have hloop : writeChunkLoop (rounds + 1) bytes sink =
            writeChunkLoop rounds (bytes.drop count) after := by
          simp only [writeChunkLoop, hbytes, ↓reduceIte, hwrite]
        cases hlist : sink.answers with
        | nil =>
            have hdone : bytes.drop count = [] := by
              rw [hall hlist, List.drop_length]
            obtain ⟨rounds, rfl⟩ : ∃ n, rounds = n + 1 := ⟨rounds - 1, by omega⟩
            refine ⟨after, ?_, ?_, haccepts⟩
            · rw [hloop, hdone, writeChunkLoop, if_pos rfl]
            · rw [hreceived, hall hlist, List.take_length]
        | cons answer answers =>
            have hleft : after.answers.length + 2 ≤ rounds := by
              rw [hanswers, hlist, List.tail_cons]
              rw [hlist, List.length_cons] at hrounds
              omega
            obtain ⟨last, hlast, hlastReceived, hlastAccepts⟩ := ih (bytes.drop count) haccepts hleft
            refine ⟨last, hloop.trans hlast, ?_, hlastAccepts⟩
            rw [hlastReceived, hreceived, List.append_assoc, List.take_append_drop]

/-- A child that accepts everything gets the whole chunk. -/
theorem writeChunk_accepts (bytes : List UInt8) {sink : Sink} (h : Accepts sink) :
    ∃ after, writeChunk bytes sink = .ok (.normal, after) ∧
      received after = received sink ++ bytes ∧ Accepts after :=
  writeChunkLoop_accepts _ bytes h (Nat.le_refl _)

/-- A sink with no answers left takes every write whole. -/
theorem sinkWrite_whole (bytes : List UInt8) {sink : Sink} (h : sink.answers = []) :
    sinkWrite bytes sink = (.normal bytes.length, sinkEvent (.wrote bytes) sink) := by
  simp only [sinkWrite, h]

theorem writeChunk_whole (bytes : List UInt8) {sink : Sink} (h : sink.answers = []) :
    ∃ after, writeChunk bytes sink = .ok (.normal, after) ∧
      received after = received sink ++ bytes ∧ after.answers = [] := by
  by_cases hbytes : bytes = []
  · refine ⟨sink, ?_, ?_, h⟩
    · rw [writeChunk, writeChunkLoop, if_pos hbytes]
    · rw [hbytes, List.append_nil]
  · refine ⟨sinkEvent (.wrote bytes) sink, ?_, received_event _ _, h⟩
    simp only [writeChunk, writeChunkLoop, hbytes, ↓reduceIte, sinkWrite_whole bytes h,
      List.drop_length]

theorem childRead_size_of_normal {len : Nat} (hlen : 0 < len) {child child' : Child} {data : List UInt8}
    (h : childRead len child = (.normal data, child')) : childSize child' < childSize child := by
  have hne : child ≠ [] := by
    rintro rfl
    cases h
  have hsize := childRead_size hlen hne
  rw [h] at hsize
  exact hsize

/-- The child without its next `n` bytes; the answers behind the last of them
stay. -/
def childDrop : Child → Nat → Child
  | [], _ => []
  | answer :: child, n =>
      if n = 0 then answer :: child
      else if (answerBytes answer).length ≤ n then childDrop child (n - (answerBytes answer).length)
      else .normal ((answerBytes answer).drop n) :: child

@[simp] theorem childDrop_zero (child : Child) : childDrop child 0 = child := by
  cases child <;> simp [childDrop]

theorem childDrop_read {len m : Nat} {child child' : Child} {data : List UInt8}
    (h : childRead len child = (.normal data, child')) (hm : 0 < data.length + m) :
    childDrop child' m = childDrop child (data.length + m) := by
  have hne : data.length + m ≠ 0 := Nat.ne_of_gt hm
  cases child with
  | nil => cases h
  | cons answer child =>
      cases answer with
      | normal whole =>
          by_cases hwhole : whole.length ≤ len
          · simp only [childRead, hwhole, ↓reduceIte, Prod.mk.injEq, ReadResult.normal.injEq] at h
            obtain ⟨rfl, rfl⟩ := h
            simp only [childDrop, hne, ↓reduceIte, answerBytes, Nat.le_add_right,
              Nat.add_sub_cancel_left]
          · simp only [childRead, hwhole, ↓reduceIte, Prod.mk.injEq, ReadResult.normal.injEq] at h
            obtain ⟨rfl, rfl⟩ := h
            have hlen : (whole.take len).length = len := by
              rw [List.length_take]
              omega
            rw [hlen] at hne ⊢
            by_cases hzero : m = 0
            · subst hzero
              rw [Nat.add_zero] at hne
              simp only [childDrop, hne, ↓reduceIte, answerBytes, Nat.add_zero, hwhole]
            · by_cases hall : whole.length - len ≤ m
              · have hall' : whole.length ≤ len + m := by omega
                have hsub : m - (whole.length - len) = len + m - whole.length := by omega
                simp only [childDrop, hzero, hne, ↓reduceIte, answerBytes, List.length_drop, hall,
                  hall', hsub]
              · have hall' : ¬whole.length ≤ len + m := by omega
                simp only [childDrop, hzero, hne, ↓reduceIte, answerBytes, List.length_drop, hall,
                  hall', List.drop_drop]
      | again | eof | error => cases h

@[simp] theorem childBytes_drop (child : Child) (n : Nat) :
    childBytes (childDrop child n) = (childBytes child).drop n := by
  induction child generalizing n with
  | nil => simp [childDrop]
  | cons answer child ih =>
      by_cases hzero : n = 0
      · simp [hzero]
      · by_cases hall : (answerBytes answer).length ≤ n
        · simp only [childDrop, hzero, ↓reduceIte, hall, ih, childBytes_cons, List.drop_append,
            List.drop_of_length_le hall, List.nil_append]
        · have hsub : n - (answerBytes answer).length = 0 := by omega
          simp only [childDrop, hzero, ↓reduceIte, hall, childBytes_cons, List.drop_append, hsub,
            List.drop_zero]
          rfl

theorem childDrop_drop (child : Child) (n m : Nat) :
    childDrop (childDrop child n) m = childDrop child (n + m) := by
  induction child generalizing n with
  | nil => simp [childDrop]
  | cons answer child ih =>
      by_cases hm' : m = 0
      · simp [hm']
      have hne : n + m ≠ 0 := by omega
      by_cases hzero : n = 0
      · simp [hzero]
      · by_cases hall : (answerBytes answer).length ≤ n
        · have hall' : (answerBytes answer).length ≤ n + m := by omega
          have hsub : n - (answerBytes answer).length + m = n + m - (answerBytes answer).length := by
            omega
          simp only [childDrop, hzero, hne, ↓reduceIte, hall, hall', ih, hsub]
        · by_cases hrest : (answerBytes answer).length ≤ n + m
          · have hrest' : (answerBytes answer).length - n ≤ m := by omega
            have hsub : m - ((answerBytes answer).length - n) = n + m - (answerBytes answer).length := by
              omega
            have hdata : answerBytes (.normal ((answerBytes answer).drop n)) =
              (answerBytes answer).drop n := rfl
            simp only [childDrop, hzero, hne, hm', ↓reduceIte, hall, hrest, hdata, List.length_drop,
              hrest', hsub]
          · have hrest' : ¬(answerBytes answer).length - n ≤ m := by omega
            have hdata : answerBytes (.normal ((answerBytes answer).drop n)) =
              (answerBytes answer).drop n := rfl
            simp only [childDrop, hzero, hne, hm', ↓reduceIte, hall, hrest, hdata, List.length_drop,
              hrest', List.drop_drop]

theorem promptBytes_drop {child : Child} {n : Nat} (h : n ≤ (promptBytes child).length) :
    promptBytes (childDrop child n) = (promptBytes child).drop n := by
  induction child generalizing n with
  | nil => simp [childDrop, promptBytes]
  | cons answer child ih =>
      by_cases hzero : n = 0
      · simp [hzero]
      · cases answer with
        | normal data =>
            rw [promptBytes, List.length_append] at h
            by_cases hall : data.length ≤ n
            · have hleft : n - data.length ≤ (promptBytes child).length := by omega
              simp only [childDrop, hzero, ↓reduceIte, answerBytes, hall, ih hleft, promptBytes,
                List.drop_append, List.drop_of_length_le hall, List.nil_append]
            · have hsub : n - data.length = 0 := by omega
              simp only [childDrop, hzero, ↓reduceIte, answerBytes, hall, promptBytes, List.drop_append,
                hsub, List.drop_zero]
        | again | eof | error => simp [promptBytes] at h; omega

theorem childSize_drop (child : Child) (n : Nat) : childSize (childDrop child n) ≤ childSize child := by
  induction child generalizing n with
  | nil => exact Nat.le_refl _
  | cons answer child ih =>
      by_cases hzero : n = 0
      · simp [hzero]
      · by_cases hall : (answerBytes answer).length ≤ n
        · have hless := ih (n - (answerBytes answer).length)
          simp only [childDrop, hzero, ↓reduceIte, hall, childSize]
          omega
        · have hdata : answerBytes (.normal ((answerBytes answer).drop n)) =
              (answerBytes answer).drop n := rfl
          simp only [childDrop, hzero, ↓reduceIte, hall, childSize, hdata, List.length_drop]
          omega

theorem childRead_of_prompt (len : Nat) {child : Child} (h : promptBytes child ≠ []) :
    ∃ data after, childRead len child = (.normal data, after) := by
  cases child with
  | nil => exact absurd rfl h
  | cons answer child =>
      cases answer with
      | normal data =>
          by_cases hdata : data.length ≤ len
          · exact ⟨data, child, by simp only [childRead, hdata, ↓reduceIte]⟩
          · exact ⟨data.take len, .normal (data.drop len) :: child,
              by simp only [childRead, hdata, ↓reduceIte]⟩
      | again | eof | error => exact absurd rfl h

theorem readChunkLoop_prompt (rounds len : Nat) (got : List UInt8) {child : Child}
    (hrounds : childSize child < rounds) (hlen : len ≤ (promptBytes child).length) :
    readChunkLoop rounds len got child =
      .ok (.normal, got ++ (promptBytes child).take len, childDrop child len) := by
  induction rounds generalizing len got child with
  | zero => omega
  | succ rounds ih =>
      by_cases hzero : len = 0
      · subst hzero
        rw [readChunkLoop, if_pos rfl, List.take_zero, List.append_nil, childDrop_zero]
      · have hpos : 0 < len := Nat.pos_of_ne_zero hzero
        have hprompt : promptBytes child ≠ [] := by
          intro hnil
          rw [hnil, List.length_nil] at hlen
          omega
        obtain ⟨data, after, hread⟩ := childRead_of_prompt len hprompt
        have hsplit := (childRead_prompt hread).1
        have hsize := childRead_size_of_normal hpos hread
        have hdata : data.length ≤ len := by
          have h := childRead_length len child
          rw [hread] at h
          exact h
        have hleft : len - data.length ≤ (promptBytes after).length := by
          rw [← hsplit, List.length_append] at hlen
          omega
        have hsum : data.length + (len - data.length) = len := by omega
        have hdrop := childDrop_read (m := len - data.length) hread (by omega)
        rw [hsum] at hdrop
        simp only [readChunkLoop, hzero, ↓reduceIte, hread]
        rw [ih (len - data.length) (got ++ data) (by omega) hleft, hdrop, ← hsplit, List.take_append,
          List.take_of_length_le hdata, List.append_assoc]

/-- A chunk is read whole if the child delivers it without a pause. -/
theorem readChunk_prompt {len : Nat} {child : Child} (hlen : len ≤ (promptBytes child).length) :
    readChunk len child = .ok (.normal, (promptBytes child).take len, childDrop child len) :=
  readChunkLoop_prompt (childSize child + 1) len [] (Nat.lt_succ_self _) hlen

/-- The next bytes of a child come one by one with reads of one byte. -/
def Bytewise : Nat → Child → Prop
  | 0, _ => True
  | n + 1, child => ∃ b after, childRead 1 child = (.normal [b], after) ∧ Bytewise n after

/-- A child that delivers its bytes without a pause, and some with each read. -/
def Solid (child : Child) : Prop := ∀ answer ∈ child, ∃ data, answer = .normal data ∧ data ≠ []

theorem Solid.prompt {child : Child} (h : Solid child) : promptBytes child = childBytes child := by
  induction child with
  | nil => rfl
  | cons answer child ih =>
      obtain ⟨data, rfl, -⟩ := h answer List.mem_cons_self
      rw [promptBytes, ih (fun answer hanswer => h answer (List.mem_cons_of_mem _ hanswer))]
      rfl

theorem Solid.drop {child : Child} (h : Solid child) (n : Nat) : Solid (childDrop child n) := by
  induction child generalizing n with
  | nil => exact h
  | cons answer child ih =>
      have hrest : Solid child := fun answer hanswer => h answer (List.mem_cons_of_mem _ hanswer)
      by_cases hzero : n = 0
      · simpa [hzero] using h
      · by_cases hall : (answerBytes answer).length ≤ n
        · simp only [childDrop, hzero, ↓reduceIte, hall]
          exact ih hrest _
        · simp only [childDrop, hzero, ↓reduceIte, hall]
          intro other hother
          obtain rfl | hother := List.mem_cons.mp hother
          · refine ⟨_, rfl, ?_⟩
            intro hnil
            have hlen := congrArg List.length hnil
            rw [List.length_drop, List.length_nil] at hlen
            omega
          · exact hrest other hother

theorem Solid.bytewise {child : Child} (h : Solid child) {n : Nat} (hn : n ≤ (childBytes child).length) :
    Bytewise n child := by
  induction n generalizing child with
  | zero => trivial
  | succ n ih =>
      have hdrop : childRead 1 child = (.normal ((childBytes child).take 1), childDrop child 1) := by
        cases child with
        | nil => simp at hn
        | cons answer child =>
            obtain ⟨data, rfl, hdata⟩ := h answer List.mem_cons_self
            have hpos : 0 < data.length := List.length_pos_iff.mpr hdata
            have hbytes : childBytes (.normal data :: child) = data ++ childBytes child := rfl
            by_cases hone : data.length ≤ 1
            · have hlen : data.length = 1 := by omega
              have hsub : 1 - data.length = 0 := by omega
              simp only [childRead, hone, ↓reduceIte, hbytes, List.take_append, childDrop,
                Nat.one_ne_zero, answerBytes, List.take_of_length_le hone, hsub, List.take_zero,
                List.append_nil, childDrop_zero]
            · have hsub : 1 - data.length = 0 := by omega
              simp only [childRead, hone, ↓reduceIte, hbytes, List.take_append, childDrop,
                Nat.one_ne_zero, answerBytes, hsub, List.take_zero, List.append_nil]
      have hbyte : ∃ b, (childBytes child).take 1 = [b] := by
        cases hbytes : childBytes child with
        | nil => rw [hbytes, List.length_nil] at hn; omega
        | cons b bytes => exact ⟨b, rfl⟩
      obtain ⟨b, hb⟩ := hbyte
      refine ⟨b, childDrop child 1, by rw [hdrop, hb], ih (h.drop 1) ?_⟩
      rw [childBytes_drop, List.length_drop]
      omega

theorem Bytewise.step {n : Nat} {child : Child} (h : Bytewise (n + 1) child) {b : UInt8}
    {bytes : List UInt8} (hbytes : childBytes child = b :: bytes) :
    childRead 1 child = (.normal [b], childDrop child 1) ∧ Bytewise n (childDrop child 1) := by
  obtain ⟨b', after, hread, hafter⟩ := h
  have hall := childRead_bytes 1 child
  rw [hread, hbytes] at hall
  have hb : b' = b := (List.cons.inj hall).1
  have hdrop := childDrop_read (m := 0) hread Nat.zero_lt_one
  rw [childDrop_zero] at hdrop
  subst hb
  exact ⟨hread.trans (by rw [hdrop]; rfl), hdrop ▸ hafter⟩

theorem Bytewise.take {n m : Nat} {child : Child} (h : Bytewise (n + m) child) : Bytewise n child := by
  induction n generalizing child with
  | zero => trivial
  | succ n ih =>
      rw [Nat.succ_add] at h
      obtain ⟨b, after, hread, hafter⟩ := h
      exact ⟨b, after, hread, ih hafter⟩

theorem Bytewise.drop {n m : Nat} {child : Child} (h : Bytewise (n + m) child)
    (hlen : n ≤ (childBytes child).length) : Bytewise m (childDrop child n) := by
  induction n generalizing child with
  | zero => simpa using h
  | succ n ih =>
      rw [Nat.succ_add] at h
      cases hbytes : childBytes child with
      | nil => rw [hbytes, List.length_nil] at hlen; omega
      | cons b bytes =>
          have hnext := (h.step hbytes).2
          have hlen' : n ≤ (childBytes (childDrop child 1)).length := by
            rw [childBytes_drop, List.length_drop]
            omega
          have hrest := ih hnext hlen'
          rw [childDrop_drop, Nat.add_comm] at hrest
          exact hrest

end Libzorpll.StreamChunk
