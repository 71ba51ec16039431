import Libzorpll.GzipString

namespace Libzorpll.GzipHeader

open ChildStream StreamChunk StreamGzip GzipString

/-- A string of a header that z_stream_gzip_read_gzip_string can hold. -/
def Holds (string : Option (List UInt8)) : Prop :=
  ∀ s ∈ string, 0 ∉ s ∧ s.length < maxGzipHeaderString - 1

/-- The header of a gzip file. -/
structure HeaderText where
  ascii : Bool
  mtime : UInt8 × UInt8 × UInt8 × UInt8
  xflags : UInt8
  os : UInt8
  extra : Option (List UInt8)
  origname : Option (List UInt8)
  comment : Option (List UInt8)
  crc : Option (UInt8 × UInt8)
  extra_length : ∀ e ∈ extra, e.length < 2 ^ 16
  origname_holds : Holds origname
  comment_holds : Holds comment

def flagByte (ascii crc extra origname comment : Bool) : UInt8 :=
  (if ascii then 0x01 else 0) ||| (if crc then 0x02 else 0) ||| (if extra then 0x04 else 0) |||
    (if origname then 0x08 else 0) ||| (if comment then 0x10 else 0)

def extraText : Option (List UInt8) → List UInt8
  | some e => [UInt8.ofNat e.length, UInt8.ofNat (e.length / 2 ^ 8)] ++ e
  | none => []

def stringText : Option (List UInt8) → List UInt8
  | some s => s ++ [0]
  | none => []

def crcText : Option (UInt8 × UInt8) → List UInt8
  | some (a, b) => [a, b]
  | none => []

namespace HeaderText

def flags (h : HeaderText) : UInt8 :=
  flagByte h.ascii h.crc.isSome h.extra.isSome h.origname.isSome h.comment.isSome

def fixed (h : HeaderText) : List UInt8 :=
  [0x1f, 0x8b, 8, h.flags, h.mtime.1, h.mtime.2.1, h.mtime.2.2.1, h.mtime.2.2.2, h.xflags, h.os]

def text (h : HeaderText) : List UInt8 :=
  h.fixed ++ (extraText h.extra ++ (stringText h.origname ++ (stringText h.comment ++ crcText h.crc)))

/-- Where the strings begin, and their length. -/
def stringsStart (h : HeaderText) : Nat := 10 + (extraText h.extra).length

def stringsLength (h : HeaderText) : Nat :=
  (stringText h.origname).length + (stringText h.comment).length

/-- What is held of the header when it has been read. -/
def held (h : HeaderText) : GzipHeader where
  timestamp := h.mtime.1.toNat + 2 ^ 8 * h.mtime.2.1.toNat + 2 ^ 16 * h.mtime.2.2.1.toNat +
    2 ^ 24 * h.mtime.2.2.2.toNat
  extraLen := (h.extra.getD []).length
  extra := h.extra.filter (fun e => decide (e ≠ []))
  origname := h.origname
  comment := h.comment

end HeaderText

theorem flagByte_bits (ascii crc extra origname comment : Bool) :
    flagByte ascii crc extra origname comment &&& 0xe0 = 0 ∧
      (flagByte ascii crc extra origname comment &&& 0x02 = 0 ↔ crc = false) ∧
      (flagByte ascii crc extra origname comment &&& 0x04 = 0 ↔ extra = false) ∧
      (flagByte ascii crc extra origname comment &&& 0x08 = 0 ↔ origname = false) ∧
      (flagByte ascii crc extra origname comment &&& 0x10 = 0 ↔ comment = false) := by
  revert ascii crc extra origname comment
  decide

theorem andThen_of {first next : HeaderStep} {s t : HeaderRead} (h : first s = .ok (true, t)) :
    andThen first next s = next t := by
  simp only [andThen, h]

theorem promptBytes_sub (child : Child) : ∃ more, childBytes child = promptBytes child ++ more := by
  induction child with
  | nil => exact ⟨[], rfl⟩
  | cons answer child ih =>
      cases answer with
      | normal data =>
          obtain ⟨more, hmore⟩ := ih
          refine ⟨more, ?_⟩
          rw [childBytes_cons, hmore, promptBytes, List.append_assoc]
          rfl
      | again | eof | error => exact ⟨_, rfl⟩

/-- The bytes that come next, and what the child has behind them. -/
theorem readChunk_next {child : Child} {bytes rest : List UInt8}
    (h : promptBytes child = bytes ++ rest) :
    readChunk bytes.length child = .ok (.normal, bytes, childDrop child bytes.length) ∧
      promptBytes (childDrop child bytes.length) = rest := by
  have hle : bytes.length ≤ (promptBytes child).length := by
    rw [h, List.length_append]
    exact Nat.le_add_right _ _
  refine ⟨?_, ?_⟩
  · rw [readChunk_prompt hle, h, List.take_left]
  · rw [promptBytes_drop hle, h, List.drop_left]

theorem readExact_next (off : Nat) {s : HeaderRead} {bytes rest : List UInt8} {len : Nat}
    (hlen : bytes.length = len) (h : promptBytes s.child = bytes ++ rest) :
    readExact off len s =
      .ok (true, ⟨store off bytes s.buf, s.header, childDrop s.child len⟩) := by
  subst hlen
  simp only [readExact, (readChunk_next h).1, Except.map, decide_true, and_self]

/-! The whole header -/

/-- Where the reading of a header is after bytes that are not held. -/
structure Took (s t : HeaderRead) (n : Nat) : Prop where
  flags : t.buf 3 = s.buf 3
  child : t.child = childDrop s.child n

theorem byte_add (n : Nat) (h : n < 2 ^ 16) :
    (UInt8.ofNat n).toNat + 2 ^ 8 * (UInt8.ofNat (n / 2 ^ 8)).toNat = n := by
  rw [UInt8.toNat_ofNat', UInt8.toNat_ofNat']
  omega

theorem readFixed (h : HeaderText) (stack : Nat → UInt8) (header : GzipHeader) {child : Child}
    {rest : List UInt8} (hchild : promptBytes child = h.fixed ++ rest) (next : HeaderStep) :
    ∃ t, andThen (readExact 0 4) (andThen readMagic (andThen (readExact 4 6)
        (andThen readTimestamp next))) ⟨stack, header, child⟩ = next t ∧
      t.buf 3 = h.flags ∧ t.header = { header with timestamp := h.held.timestamp } ∧
      t.child = childDrop child 10 := by
  have hfirst : promptBytes child =
      [0x1f, 0x8b, 8, h.flags] ++ ([h.mtime.1, h.mtime.2.1, h.mtime.2.2.1, h.mtime.2.2.2, h.xflags,
        h.os] ++ rest) := hchild
  have hexact : readExact 0 4 ⟨stack, header, child⟩ = _ := readExact_next 0 rfl hfirst
  have hsecond := (readChunk_next hfirst).2
  rw [andThen_of hexact]
  have hmagic : readMagic ⟨store 0 [0x1f, 0x8b, 8, h.flags] stack, header, childDrop child 4⟩ =
      .ok (true, ⟨store 0 [0x1f, 0x8b, 8, h.flags] stack, header, childDrop child 4⟩) := by
    have hbits : h.flags &&& 0xe0 = 0 := (flagByte_bits _ _ _ _ _).1
    simp only [readMagic]
    simp [gzipIsGzipMagic, store, hbits]
  have hexact' : readExact 4 6 ⟨store 0 [0x1f, 0x8b, 8, h.flags] stack, header, childDrop child 4⟩ =
      _ := readExact_next 4 rfl hsecond
  refine ⟨_, (andThen_of hmagic).trans ((andThen_of hexact').trans (andThen_of rfl)), ?_, ?_, ?_⟩
  · simp [store]
  · simp [store, HeaderText.held]
  · exact childDrop_drop child 4 6

theorem Took.trans {s t u : HeaderRead} {n m : Nat} (hst : Took s t n) (htu : Took t u m) :
    Took s u (n + m) :=
  ⟨htu.flags.trans hst.flags, by rw [htu.child, hst.child, childDrop_drop]⟩

theorem Took.refl (s : HeaderRead) : Took s s 0 := ⟨rfl, (childDrop_zero _).symm⟩

theorem readExtra_text {extra : Option (List UInt8)} (hlen : ∀ e ∈ extra, e.length < 2 ^ 16)
    {s : HeaderRead} {rest : List UInt8} (hflag : s.buf 3 &&& 0x04 = 0 ↔ extra.isSome = false)
    (hempty : s.header.extraLen = 0 ∧ s.header.extra = none)
    (hchild : promptBytes s.child = extraText extra ++ rest) :
    ∃ t, readExtra s = .ok (true, t) ∧ Took s t (extraText extra).length ∧
      t.header = { s.header with
        extraLen := (extra.getD []).length, extra := extra.filter (fun e => decide (e ≠ [])) } := by
  cases extra with
  | none =>
      have hzero : s.buf 3 &&& 0x04 = 0 := hflag.mpr rfl
      refine ⟨s, by simp only [readExtra, hzero, ↓reduceIte], Took.refl s, ?_⟩
      obtain ⟨buf, ⟨timestamp, extraLen, extra, origname, comment⟩, child⟩ := s
      obtain ⟨rfl, rfl⟩ := hempty
      rfl
  | some e =>
      have hset : ¬s.buf 3 &&& 0x04 = 0 := fun h => Bool.noConfusion (hflag.mp h)
      have hsize := hlen e rfl
      obtain ⟨buf, header, child⟩ := s
      have hfirst : promptBytes child =
          [UInt8.ofNat e.length, UInt8.ofNat (e.length / 2 ^ 8)] ++ (e ++ rest) := by
        rw [← List.append_assoc]
        exact hchild
      have hexact : readExact 0 2 ⟨buf, header, child⟩ = _ := readExact_next 0 rfl hfirst
      have hsecond := (readChunk_next hfirst).2
      have hnum := byte_add e.length hsize
      refine ⟨⟨store 0 [UInt8.ofNat e.length, UInt8.ofNat (e.length / 2 ^ 8)] buf,
        { header with extraLen := e.length, extra := if e.length = 0 then none else some e },
        childDrop (childDrop child 2) e.length⟩, ?_, ?_, ?_⟩
      · simp only [readExtra, hset, ↓reduceIte, andThen_of hexact, readExtraBytes]
        have hlow : store 0 [UInt8.ofNat e.length, UInt8.ofNat (e.length / 2 ^ 8)] buf 0 =
            UInt8.ofNat e.length := by simp [store]
        have hhigh : store 0 [UInt8.ofNat e.length, UInt8.ofNat (e.length / 2 ^ 8)] buf 1 =
            UInt8.ofNat (e.length / 2 ^ 8) := by simp [store]
        have hchunk : readChunk e.length (childDrop child 2) = _ := (readChunk_next hsecond).1
        simp only [hlow, hhigh, hnum, hchunk, Except.map, and_self, decide_true, Nat.sub_self,
          List.replicate_zero, List.append_nil]
        rfl
      · refine ⟨by simp [store], ?_⟩
        have hlength : (extraText (some e)).length = 2 + e.length := by
          simp only [extraText, List.length_append, List.length_cons, List.length_nil]
        rw [hlength]
        exact childDrop_drop child 2 e.length
      · cases e with
        | nil => rfl
        | cons b e => rfl

theorem readString_text {string : Option (List UInt8)} (hholds : Holds string) {flag : UInt8}
    {set : List UInt8 → StreamGzip.GzipHeader → StreamGzip.GzipHeader} {stack : Nat → UInt8}
    {s : HeaderRead} {rest : List UInt8} (hflag : s.buf 3 &&& flag = 0 ↔ string.isSome = false)
    (hchild : promptBytes s.child = stringText string ++ rest)
    (hbytewise : Bytewise (stringText string).length s.child) :
    ∃ t, readString flag set stack s = .ok (true, t) ∧ Took s t (stringText string).length ∧
      t.header = string.elim s.header (fun dest => set dest s.header) := by
  cases string with
  | none =>
      have hzero : s.buf 3 &&& flag = 0 := hflag.mpr rfl
      exact ⟨s, by simp only [readString, hzero, ↓reduceIte], Took.refl s, rfl⟩
  | some string =>
      have hset : ¬s.buf 3 &&& flag = 0 := fun h => Bool.noConfusion (hflag.mp h)
      obtain ⟨hnul, hsize⟩ := hholds string rfl
      obtain ⟨more, hmore⟩ := promptBytes_sub s.child
      have hbytes : childBytes s.child = string ++ 0 :: (rest ++ more) := by
        rw [hmore, hchild, stringText, List.append_assoc, List.append_assoc]
        rfl
      have hlength : (stringText (some string)).length = string.length + 1 := by
        simp only [stringText, List.length_append, List.length_singleton]
      rw [hlength] at hbytewise ⊢
      have hread := readGzipString_string stack hnul hsize hbytes hbytewise
      refine ⟨⟨s.buf, set string s.header, childDrop s.child (string.length + 1)⟩, ?_, ⟨rfl, rfl⟩, rfl⟩
      simp only [readString, hset, ↓reduceIte, hread]

theorem readHeadCrc_text {crc : Option (UInt8 × UInt8)} {s : HeaderRead} {rest : List UInt8}
    (hflag : s.buf 3 &&& 0x02 = 0 ↔ crc.isSome = false)
    (hchild : promptBytes s.child = crcText crc ++ rest) :
    ∃ t, readHeadCrc s = .ok (true, t) ∧ t.child = childDrop s.child (crcText crc).length ∧
      t.header = s.header := by
  cases crc with
  | none =>
      have hzero : s.buf 3 &&& 0x02 = 0 := hflag.mpr rfl
      exact ⟨s, by simp only [readHeadCrc, hzero, ↓reduceIte], (childDrop_zero _).symm, rfl⟩
  | some pair =>
      obtain ⟨a, b⟩ := pair
      have hset : ¬s.buf 3 &&& 0x02 = 0 := fun h => Bool.noConfusion (hflag.mp h)
      refine ⟨⟨store 0 [a, b] s.buf, s.header, childDrop s.child 2⟩, ?_, rfl, rfl⟩
      rw [readHeadCrc, if_neg hset]
      exact readExact_next 0 rfl hchild

theorem text_lengths (h : HeaderText) :
    h.text.length = h.stringsStart + (h.stringsLength + (crcText h.crc).length) := by
  simp only [HeaderText.text, HeaderText.fixed, HeaderText.stringsStart, HeaderText.stringsLength,
    List.length_append, List.length_cons, List.length_nil]
  omega

/-- A header is read whole, whatever the reads in which it comes; only those
of its strings must not be empty. -/
theorem readHeaderSteps_text (h : HeaderText) (stack : Nat → Nat → UInt8) (timestamp : Int)
    {child : Child} {rest : List UInt8} (hchild : promptBytes child = h.text ++ rest)
    (hstrings : Bytewise h.stringsLength (childDrop child h.stringsStart)) :
    ∃ t, readHeaderSteps stack ⟨stack 0, { timestamp := timestamp }, child⟩ = .ok (true, t) ∧
      t.header = h.held ∧ t.child = childDrop child h.text.length := by
  have hbits := flagByte_bits h.ascii h.crc.isSome h.extra.isSome h.origname.isSome h.comment.isSome
  rw [HeaderText.text, List.append_assoc, List.append_assoc, List.append_assoc,
    List.append_assoc] at hchild
  obtain ⟨a, hfixed, hflags, hheader, htook⟩ :=
    readFixed h (stack 0) { timestamp := timestamp } hchild
      (andThen readExtra (andThen (readOrigname (stack 1)) (andThen (readComment (stack 2)) readHeadCrc)))
  have hextraChild : promptBytes a.child = _ := htook ▸ (readChunk_next hchild).2
  have hempty : a.header.extraLen = 0 ∧ a.header.extra = none := by
    rw [hheader]
    exact ⟨rfl, rfl⟩
  obtain ⟨b, hextra, hb, hbHeader⟩ :=
    readExtra_text h.extra_length (by rw [hflags]; exact hbits.2.2.1) hempty hextraChild
  have horignameChild : promptBytes b.child = _ := hb.child ▸ (readChunk_next hextraChild).2
  have hbChild : b.child = childDrop child h.stringsStart := by
    rw [hb.child, htook, HeaderText.stringsStart, childDrop_drop]
  rw [← hbChild, HeaderText.stringsLength] at hstrings
  obtain ⟨c, horigname, hc, hcHeader⟩ :=
    readString_text h.origname_holds (by rw [hb.flags, hflags]; exact hbits.2.2.2.1)
      horignameChild hstrings.take
  have hcommentChild : promptBytes c.child = _ := hc.child ▸ (readChunk_next horignameChild).2
  have hcommentBytewise : Bytewise (stringText h.comment).length c.child := by
    rw [hc.child]
    apply hstrings.drop
    obtain ⟨more, hmore⟩ := promptBytes_sub b.child
    rw [hmore, horignameChild, List.append_assoc, List.length_append]
    exact Nat.le_add_right _ _
  obtain ⟨d, hcomment, hd, hdHeader⟩ :=
    readString_text h.comment_holds (by rw [hc.flags, hb.flags, hflags]; exact hbits.2.2.2.2)
      hcommentChild hcommentBytewise
  have hcrcChild : promptBytes d.child = _ := hd.child ▸ (readChunk_next hcommentChild).2
  obtain ⟨e, hcrc, heChild, heHeader⟩ :=
    readHeadCrc_text (by rw [hd.flags, hc.flags, hb.flags, hflags]; exact hbits.2.1) hcrcChild
  refine ⟨e, ?_, ?_, ?_⟩
  · rw [readHeaderSteps, hfixed, andThen_of hextra, readOrigname, andThen_of horigname, readComment,
      andThen_of hcomment, hcrc]
  · rw [heHeader, hdHeader, hcHeader, hbHeader, hheader]
    simp only [HeaderText.held]
    cases h.origname <;> cases h.comment <;> rfl
  · rw [heChild, (hc.trans hd).child, hbChild, childDrop_drop, childDrop_drop, text_lengths,
      HeaderText.stringsLength, Nat.add_assoc]

/-! Writing a header -/

theorem writeChunks_accepts (chunks : List (List UInt8)) {sink : Sink} (h : Accepts sink) :
    ∃ after, writeChunks chunks sink = .ok (true, after) ∧
      received after = received sink ++ chunks.flatten ∧ Accepts after := by
  induction chunks generalizing sink with
  | nil => exact ⟨sink, rfl, (List.append_nil _).symm, h⟩
  | cons chunk chunks ih =>
      obtain ⟨mid, hmid, hreceived, haccepts⟩ := writeChunk_accepts chunk h
      obtain ⟨after, hafter, hreceived', haccepts'⟩ := ih haccepts
      refine ⟨after, ?_, ?_, haccepts'⟩
      · simp only [writeChunks, hmid, hafter]
      · rw [hreceived', hreceived, List.flatten_cons, List.append_assoc]

/-- A header reaches a child that takes what it is given. -/
theorem writeGzipHeader_accepts {ζ χ : Type} {self : ZStreamGzip ζ χ}
    (hself : self.gzipHeader = true ∧ self.headerWritten = false) {sink : Sink} (h : Accepts sink) :
    ∃ after, writeGzipHeader self sink = .ok (true, { self with headerWritten := true }, after) ∧
      received after = received sink ++ (headerChunks self.header).flatten ∧ Accepts after := by
  obtain ⟨after, hafter, hreceived, haccepts⟩ := writeChunks_accepts (headerChunks self.header) h
  refine ⟨after, ?_, hreceived, haccepts⟩
  simp only [writeGzipHeader, hself.1, hself.2, Bool.false_eq_true, not_false_eq_true, and_self,
    ↓reduceIte, hafter, Except.map]

theorem timestampByte_toNat (t i : Nat) : (timestampByte t i).toNat = t / 2 ^ (8 * i) % 2 ^ 8 := by
  have hcast : (t : Int) / 2 ^ (8 * i) % 256 = ((t / 2 ^ (8 * i) % 256 : Nat) : Int) := by
    rw [Int.natCast_emod, Int.natCast_ediv, Int.natCast_pow]
    rfl
  rw [timestampByte, hcast, Int.toNat_natCast, UInt8.toNat_ofNat']
  omega

/-- The header that z_stream_gzip_write_gzip_header writes if there is no
extra field. -/
def written (timestamp : Nat) {origname comment : Option (List UInt8)} (horigname : Holds origname)
    (hcomment : Holds comment) : HeaderText where
  ascii := false
  mtime := (timestampByte timestamp 0, timestampByte timestamp 1, timestampByte timestamp 2,
    timestampByte timestamp 3)
  xflags := 0
  os := zGzOsCode
  extra := none
  origname := origname
  comment := comment
  crc := none
  extra_length := fun _ h => by cases h
  origname_holds := horigname
  comment_holds := hcomment

theorem headerFlags_eq (timestamp : Int) (origname comment : Option (List UInt8)) :
    headerFlags { timestamp := timestamp, origname := origname, comment := comment } =
      flagByte false false false origname.isSome comment.isSome := by
  cases origname <;> cases comment <;> simp [headerFlags, flagByte]

theorem written_text (timestamp : Nat) {origname comment : Option (List UInt8)}
    (horigname : Holds origname) (hcomment : Holds comment) :
    (headerChunks { timestamp := timestamp, origname := origname, comment := comment }).flatten =
      (written timestamp horigname hcomment).text := by
  rw [headerChunks, headerFixed, headerFlags_eq]
  cases origname <;> cases comment <;>
    simp [HeaderText.text, HeaderText.fixed, HeaderText.flags, written, extraChunks, stringChunks,
      extraText, stringText, crcText]

theorem written_held {timestamp : Nat} (htimestamp : timestamp < 2 ^ 32)
    {origname comment : Option (List UInt8)} (horigname : Holds origname) (hcomment : Holds comment) :
    (written timestamp horigname hcomment).held =
      { timestamp := timestamp, origname := origname, comment := comment } := by
  simp only [HeaderText.held, written, timestampByte_toNat]
  congr 1
  omega

theorem strdup_holds {string : Option (List UInt8)} (h : Holds string) : strdup string = string := by
  cases string with
  | none => rfl
  | some s => rw [strdup, Option.map_some, takeWhile_string (h s rfl).1]

/-- The fields set on one stream, written to `sink`, are those that another
stream holds when it has read the header from a child with the same bytes. -/
def FieldsRoundTrip {ζ χ : Type} (writer reader : ZStreamGzip ζ χ) (sink : Sink) (now : Int)
    (timestamp : Nat) (origname comment extra : Option (List UInt8)) : Prop :=
  ∃ self self' after text,
    setHeaderFields now timestamp origname comment (extra.getD []).length (extra.getD []) writer =
      .ok self ∧
    writeGzipHeader self sink = .ok (true, self', after) ∧ received after = received sink ++ text ∧
    ∀ (rest : List UInt8) (child : Child) (stack : Nat → Nat → UInt8), Solid child →
      childBytes child = text ++ rest →
      ∃ reader' child', readGzipHeader stack reader child = .ok (true, reader', child') ∧
        childBytes child' = rest ∧
        getHeaderFields reader' = ⟨timestamp, (extra.getD []).length, extra, origname, comment⟩

theorem fields_round_trip {ζ χ : Type} {writer reader : ZStreamGzip ζ χ} {sink : Sink}
    (hwriter : writer.gzipHeader = true ∧ writer.headerWritten = false)
    (hreader : reader.gzipHeader = true ∧ reader.headerRead = false) (hsink : Accepts sink) (now : Int)
    {timestamp : Nat} (hpos : 0 < timestamp) (htimestamp : timestamp < 2 ^ 32)
    {origname comment : Option (List UInt8)} (horigname : Holds origname) (hcomment : Holds comment) :
    FieldsRoundTrip writer reader sink now timestamp origname comment none := by
  have hset : setHeaderFields now timestamp origname comment 0 [] writer = .ok { writer with
      header := { timestamp := timestamp, origname := origname, comment := comment } } := by
    have hne : (timestamp : Int) ≠ 0 := by omega
    simp only [setHeaderFields, hne, ne_eq, not_false_eq_true, ↓reduceIte, Int.lt_irrefl,
      strdup_holds horigname, strdup_holds hcomment, resetGzipHeader]
  have hself : { writer with
      header := { timestamp := timestamp, origname := origname, comment := comment } }.gzipHeader = true ∧
      writer.headerWritten = false := hwriter
  obtain ⟨after, hafter, hreceived, -⟩ := writeGzipHeader_accepts hself hsink
  rw [written_text timestamp horigname hcomment] at hreceived
  refine ⟨_, _, after, _, hset, hafter, hreceived, ?_⟩
  intro rest child stack hsolid hbytes
  have hprompt : promptBytes child = (written timestamp horigname hcomment).text ++ rest := by
    rw [hsolid.prompt, hbytes]
  have hlength := text_lengths (written timestamp horigname hcomment)
  have hstrings : Bytewise (written timestamp horigname hcomment).stringsLength
      (childDrop child (written timestamp horigname hcomment).stringsStart) := by
    apply (hsolid.drop _).bytewise
    rw [childBytes_drop, List.length_drop, hbytes, List.length_append]
    omega
  obtain ⟨t, ht, hheader, hchild⟩ :=
    readHeaderSteps_text _ stack (resetGzipHeader reader.header).timestamp hprompt hstrings
  refine ⟨{ reader with headerRead := true, header := t.header }, t.child, ?_, ?_, ?_⟩
  · have hreset : resetGzipHeader reader.header =
        { timestamp := (resetGzipHeader reader.header).timestamp } := rfl
    simp only [readGzipHeader, hreader.1, hreader.2, Bool.false_eq_true, not_false_eq_true, and_self,
      ↓reduceIte]
    rw [hreset, ht]
    rfl
  · rw [hchild, childBytes_drop, hbytes, List.drop_left]
  · rw [getHeaderFields, hheader, written_held htimestamp]
    rfl

/-- The extra field is copied to memory that was not made, and what is left
of the header is the same on both sides. -/
theorem fields_round_trip_iff {ζ χ : Type} (writer reader : ZStreamGzip ζ χ) (sink : Sink)
    (hwriter : writer.gzipHeader = true ∧ writer.headerWritten = false)
    (hreader : reader.gzipHeader = true ∧ reader.headerRead = false) (hsink : Accepts sink) (now : Int)
    (timestamp : Nat) (htimestamp : 1 ≤ timestamp ∧ timestamp < 2 ^ 32)
    (origname comment extra : Option (List UInt8))
    (horigname : ∀ s ∈ origname, 0 ∉ s ∧ s.length < 4095)
    (hcomment : ∀ s ∈ comment, 0 ∉ s ∧ s.length < 4095)
    (hextra : ∀ e ∈ extra, 1 ≤ e.length ∧ e.length ≤ 65535) :
    FieldsRoundTrip writer reader sink now timestamp origname comment extra ↔ extra = none := by
  constructor
  · rintro ⟨self, self', after, text, hset, -⟩
    cases extra with
    | none => rfl
    | some e =>
        have hlen := (hextra e rfl).1
        have hpos : (0 : Int) < ((some e).getD []).length := by
          rw [Option.getD_some]
          omega
        simp only [setHeaderFields, hpos, ↓reduceIte] at hset
        cases hset
  · rintro rfl
    exact fields_round_trip hwriter hreader hsink now htimestamp.1 htimestamp.2 horigname hcomment

/-- A stream with no coders, for its header alone. -/
def gzipStream : ZStreamGzip Unit Unit where
  syncFlush := false
  gzipHeader := true
  writeEmptyHeader := false
  bufferLength := 16
  encode := ()
  decode := ()

theorem fields_round_trip_iff_named :
    FieldsRoundTrip gzipStream gzipStream
      { answers := [] } 0 1137266444 (some [97, 98]) (some []) none ↔
      (none : Option (List UInt8)) = none :=
  fields_round_trip_iff _ _ { answers := [] } (by decide) (by decide) (by intro _ h; cases h) 0
    1137266444 (by decide) (some [97, 98]) (some []) none (by decide) (by decide)
    (by intro e h; cases h)

theorem fields_not_round_trip :
    ¬FieldsRoundTrip gzipStream gzipStream
      { answers := [] } 0 1 none none (some [101]) := by
  rintro ⟨self, self', after, text, hset, -⟩
  cases hset

end Libzorpll.GzipHeader
