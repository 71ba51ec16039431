import Libzorpll.StreamBuf
import Libzorpll.StreamContext
import Libzorpll.StreamGzip
import Libzorpll.StreamLine

/-! The watch functions of the classes, and the callbacks that they call. -/

namespace Libzorpll.WatchDispatch

open StreamContext
open Region (Abort)

abbrev GIOCondition := BitVec 16

def ioIn : GIOCondition := 1
def ioPri : GIOCondition := 2
def ioOut : GIOCondition := 4
def ioErr : GIOCondition := 8
def ioHup : GIOCondition := 16

def bit : Direction → GIOCondition
  | .read => ioIn
  | .pri => ioPri
  | .write => ioOut

/-- A stream: its callbacks and what it wants, with the fields of its class. -/
structure Watched (P D ρ : Type) where
  watch : Watch P D
  own : ρ

/-- A call of a callback, and the stream before it. -/
structure Call (P D ρ : Type) where
  direction : Direction
  cb : Option P
  cond : GIOCondition
  userData : Option D
  before : Watched P D ρ

/-- What a callback answers, and what it makes of the stream. -/
abbrev Behaviour (P D ρ : Type) :=
  P → GIOCondition → Option D → Watched P D ρ → BitVec 32 × Watched P D ρ

structure Dispatched (P D ρ : Type) where
  calls : List (Call P D ρ) := []
  rc : BitVec 32 := gboolean true
  self : Watched P D ρ

variable {P D ρ : Type}

def wants (d : Direction) (self : Watched P D ρ) : Bool := decide (self.watch.want d ≠ 0)

/-- A callback that is NULL is called, too, and does not come back. -/
def invoke (behave : Behaviour P D ρ) (d : Direction) (cond : GIOCondition) (userData : Option D)
    (self : Watched P D ρ) : Dispatched P D ρ :=
  match (self.watch.callback d).cb with
  | some cb =>
      let (rc, after) := behave cb cond userData self
      { calls := [⟨d, some cb, cond, userData, self⟩], rc := rc, self := after }
  | none => { calls := [⟨d, none, cond, userData, self⟩], rc := gboolean false, self := self }

def invokeOwn (behave : Behaviour P D ρ) (d : Direction) (cond : GIOCondition) (self : Watched P D ρ) :
    Dispatched P D ρ :=
  invoke behave d cond (self.watch.callback d).cbData self

/-- What comes next in the function, unless a callback has answered FALSE. -/
def Dispatched.next (first : Dispatched P D ρ) (test : Watched P D ρ → Bool)
    (body : Watched P D ρ → Dispatched P D ρ) (join : BitVec 32 → BitVec 32 → BitVec 32) :
    Dispatched P D ρ :=
  if first.rc ≠ 0 ∧ test first.self = true then
    let second := body first.self
    { calls := first.calls ++ second.calls, rc := join first.rc second.rc, self := second.self }
  else first

/-! ZStreamLine -/

/-- The fields of ZStreamLine, with what its ZStream wants. -/
def lineOf (self : Watched P D StreamLine.ZStreamLine) : StreamLine.ZStreamLine :=
  { self.own with wantRead := wants .read self, wantPri := wants .pri self, wantWrite := wants .write self }

def lineCheck (self : Watched P D StreamLine.ZStreamLine) :
    Except Abort (Bool × Watched P D StreamLine.ZStreamLine) :=
  (StreamLine.watchCheck (lineOf self)).map fun (ret, line) => (ret, { self with own := line })

def lineDispatch (behave : Behaviour P D StreamLine.ZStreamLine) (self : Watched P D StreamLine.ZStreamLine) :
    Dispatched P D StreamLine.ZStreamLine :=
  if wants .read self then invokeOwn behave .read ioIn self
  else if wants .pri self then invokeOwn behave .pri ioPri self
  else { self := self }

/-! ZStreamBuf -/

def bufCheck (self : Watched P D StreamBuf.ZStreamBuf) : Bool :=
  wants .write self && StreamBuf.spaceAvail self.own

def bufDispatch (behave : Behaviour P D StreamBuf.ZStreamBuf) (self : Watched P D StreamBuf.ZStreamBuf) :
    Dispatched P D StreamBuf.ZStreamBuf :=
  if wants .write self then invoke behave .write ioOut (self.watch.callback .read).cbData self
  else { self := self }

/-! ZStreamGzip -/

variable {ζ χ : Type}

def gzipReadable (self : Watched P D (StreamGzip.ZStreamGzip ζ χ)) : Bool :=
  !self.own.decodeIn.isEmpty || self.own.childCondIn

def gzipWritable (self : Watched P D (StreamGzip.ZStreamGzip ζ χ)) : Bool :=
  decide (StreamGzip.availOut self.own = self.own.bufferLength) || self.own.childCondOut

def gzipCheck (self : Watched P D (StreamGzip.ZStreamGzip ζ χ)) : Bool :=
  wants .read self && gzipReadable self || wants .write self && gzipWritable self

def gzipDispatch (behave : Behaviour P D (StreamGzip.ZStreamGzip ζ χ))
    (self : Watched P D (StreamGzip.ZStreamGzip ζ χ)) : Dispatched P D (StreamGzip.ZStreamGzip ζ χ) :=
  (({ self := self } : Dispatched P D (StreamGzip.ZStreamGzip ζ χ)).next
    (fun self => wants .read self && gzipReadable self) (invokeOwn behave .read ioIn) fun _ rc => rc).next
    (fun self => wants .write self && gzipWritable self) (invokeOwn behave .write ioOut) fun _ rc => rc

/-! ZStreamBlob, of which the own field is poll_cond -/

def blobCheck (self : Watched P D GIOCondition) : Bool × Watched P D GIOCondition :=
  (wants .read self || wants .write self,
    { self with own := (if wants .read self then ioIn else 0) ||| (if wants .write self then ioOut else 0) })

/-- The test of a direction in the functions that look for a NULL callback. -/
def polled (d : Direction) (cond : GIOCondition) (self : Watched P D GIOCondition) : Bool :=
  wants d self && decide (cond &&& bit d ≠ 0) && (self.watch.callback d).cb.isSome

def blobDispatch (behave : Behaviour P D GIOCondition) (self : Watched P D GIOCondition) :
    Dispatched P D GIOCondition :=
  (({ self := self } : Dispatched P D GIOCondition).next
    (fun self => polled .read self.own self) (fun self => invokeOwn behave .read self.own self) fun _ rc => rc).next
    (fun self => polled .write self.own self) (fun self => invokeOwn behave .write self.own self) (· &&& ·)

/-! ZStreamFD, of which the own field is pollfd.revents -/

def fdCheck (self : Watched P D GIOCondition) : Bool := decide (self.own ≠ 0)

def fdDispatch (behave : Behaviour P D GIOCondition) (self : Watched P D GIOCondition) :
    Dispatched P D GIOCondition :=
  let pollCond := self.own
  let self := { self with own := 0 }
  if pollCond &&& (ioErr ||| ioHup) ≠ 0 then
    if wants .read self then invokeOwn behave .read pollCond self
    else if wants .write self then invokeOwn behave .write pollCond self
    else { self := self }
  else
    ((({ self := self } : Dispatched P D GIOCondition).next
      (polled .read pollCond) (invokeOwn behave .read pollCond) fun _ rc => rc).next
      (polled .write pollCond) (invokeOwn behave .write pollCond) (· &&& ·)).next
      (polled .pri pollCond) (invokeOwn behave .pri pollCond) (· &&& ·)

/-! What a callback stands for -/

/-- A read finds a line, or any byte in the other poll mode, or the child has
reported one; and priority data is what the child has reported. -/
def lineHolds (d : Direction) (self : Watched P D StreamLine.ZStreamLine) : Prop :=
  match d with
  | .read => ∃ line, StreamLine.readable (lineOf self) = .ok (true, line)
  | .pri => self.own.childPri = true
  | .write => False

def bufHolds (d : Direction) (self : Watched P D StreamBuf.ZStreamBuf) : Prop :=
  match d with
  | .write => StreamBuf.spaceAvail self.own = true
  | .read | .pri => False

def gzipHolds (d : Direction) (self : Watched P D (StreamGzip.ZStreamGzip ζ χ)) : Prop :=
  match d with
  | .read => gzipReadable self = true
  | .write => gzipWritable self = true
  | .pri => False

def blobHolds (d : Direction) (self : Watched P D GIOCondition) : Prop := self.own &&& bit d ≠ 0

/-- The event is reported, or an error or a hangup. -/
def fdHolds (d : Direction) (self : Watched P D GIOCondition) : Prop :=
  self.own &&& (bit d ||| ioErr ||| ioHup) ≠ 0

/-- The callback has its own data, and is called for what is wanted and was
reported or holds when it is called. -/
structure Proper (holds : Direction → Watched P D ρ → Prop) (reported : Direction → Prop) (call : Call P D ρ) :
    Prop where
  cb : call.cb = (call.before.watch.callback call.direction).cb
  userData : call.userData = (call.before.watch.callback call.direction).cbData
  wanted : wants call.direction call.before = true
  event : reported call.direction ∨ holds call.direction call.before

/-- The calls of a dispatch, in an iteration in which the stream was `checked`
and then dispatched as `self`. Between them others may have been called back. -/
def Minds (holds : Direction → Watched P D ρ → Prop) (checked self : Watched P D ρ)
    (dispatched : Dispatched P D ρ) : Prop :=
  ∀ call ∈ dispatched.calls, Proper holds (fun d => holds d checked ∨ holds d self) call

theorem mem_invoke {behave : Behaviour P D ρ} {d : Direction} {cond : GIOCondition} {userData : Option D}
    {self : Watched P D ρ} {call : Call P D ρ} :
    call ∈ (invoke behave d cond userData self).calls ↔
      call = ⟨d, (self.watch.callback d).cb, cond, userData, self⟩ := by
  unfold invoke
  cases (self.watch.callback d).cb with
  | none => exact List.mem_singleton
  | some cb => exact List.mem_singleton

theorem mem_next {first : Dispatched P D ρ} {test : Watched P D ρ → Bool}
    {body : Watched P D ρ → Dispatched P D ρ} {join : BitVec 32 → BitVec 32 → BitVec 32} {call : Call P D ρ}
    (h : call ∈ (first.next test body join).calls) :
    call ∈ first.calls ∨ test first.self = true ∧ call ∈ (body first.self).calls := by
  rw [Dispatched.next] at h
  split at h
  · rename_i htest
    exact (List.mem_append.mp h).imp_right fun hbody => ⟨htest.2, hbody⟩
  · exact .inl h

variable {holds : Direction → Watched P D ρ → Prop} {checked self : Watched P D ρ}

theorem minds_nothing {rc : BitVec 32} : Minds holds checked self { rc := rc, self := self } :=
  fun _ hcall => absurd hcall List.not_mem_nil

theorem minds_invokeOwn {behave : Behaviour P D ρ} {d : Direction} {cond : GIOCondition} {before : Watched P D ρ}
    (hwants : wants d before = true) :
    Minds holds checked self (invokeOwn behave d cond before) ↔
      (holds d checked ∨ holds d self) ∨ holds d before := by
  constructor
  · intro h
    exact (h _ (mem_invoke.mpr rfl)).event
  · intro hevent call hcall
    obtain rfl := mem_invoke.mp hcall
    exact ⟨rfl, rfl, hwants, hevent⟩

/-- What comes next is minded where its test says so. -/
theorem Minds.next {first : Dispatched P D ρ} (h : Minds holds checked self first) {test : Watched P D ρ → Bool}
    {body : Watched P D ρ → Dispatched P D ρ} {join : BitVec 32 → BitVec 32 → BitVec 32}
    (hbody : ∀ before, test before = true → Minds holds checked self (body before)) :
    Minds holds checked self (first.next test body join) := by
  intro call hcall
  rcases mem_next hcall with hfirst | ⟨htest, hsecond⟩
  · exact h call hfirst
  · exact hbody _ htest call hsecond

/-! The classes -/

/-- What is to be said for the one callback that ZStreamLine calls. -/
def LineReported (checked self : Watched P D StreamLine.ZStreamLine) : Prop :=
  if wants .read self then lineHolds .read checked ∨ lineHolds .read self
  else wants .pri self = true → lineHolds .pri checked ∨ lineHolds .pri self

theorem line_minds_iff (checked self : Watched P D StreamLine.ZStreamLine)
    (behave : Behaviour P D StreamLine.ZStreamLine) :
    Minds lineHolds checked self (lineDispatch behave self) ↔ LineReported checked self := by
  unfold lineDispatch LineReported
  by_cases hread : wants .read self = true
  · rw [if_pos hread, if_pos hread, minds_invokeOwn hread, or_assoc, or_self]
  · rw [if_neg hread, if_neg hread]
    by_cases hpri : wants .pri self = true
    · rw [if_pos hpri, minds_invokeOwn hpri, or_assoc, or_self]
      exact ⟨fun h _ => h, fun h => h hpri⟩
    · rw [if_neg hpri]
      exact iff_of_true minds_nothing fun h => absurd h hpri

theorem haveLine_eq {line line' : StreamLine.ZStreamLine} {found : Bool}
    (h : StreamLine.haveLine line = .ok (found, line')) :
    line' = { line with lineAvailSet := true, lineAvail := found } := by
  unfold StreamLine.haveLine at h
  by_cases hset : line.lineAvailSet = true
  · rw [if_pos hset] at h
    cases h
    rw [← hset]
  · rw [if_neg hset] at h
    obtain ⟨eol, -, hfound⟩ := Run.bind_ok h
    cases hfound
    rfl

/-- Asked again, the stream gives the same answer. -/
theorem readable_again {line line' : StreamLine.ZStreamLine} {ready : Bool}
    (h : StreamLine.readable line = .ok (ready, line')) :
    StreamLine.readable line' = .ok (ready, line') ∧
      ∃ set avail, line' = { line with lineAvailSet := set, lineAvail := avail } := by
  unfold StreamLine.readable at h
  by_cases hpartial : line.flags.pollPartial = true
  · rw [if_pos hpartial] at h
    cases h
    exact ⟨by rw [StreamLine.readable, if_pos hpartial], _, _, rfl⟩
  · rw [if_neg hpartial] at h
    obtain ⟨⟨found, m⟩, hfound, hready⟩ := Run.bind_ok h
    obtain rfl := haveLine_eq hfound
    cases hready
    refine ⟨?_, true, found, rfl⟩
    rw [StreamLine.readable, if_neg hpartial, StreamLine.haveLine, if_pos rfl]
    rfl

theorem watchCheck_eq (line : StreamLine.ZStreamLine) :
    StreamLine.watchCheck line =
      (if line.wantRead then StreamLine.readable line else .ok (false, line)) >>= fun p =>
        .ok (p.1 || p.2.wantPri && p.2.childPri, p.2) := by
  unfold StreamLine.watchCheck
  split
  · rfl
  · rfl

/-- Where the check says TRUE a read would find something, or there is
priority data and a read would find nothing. -/
theorem lineCheck_cases {checked t : Watched P D StreamLine.ZStreamLine} (h : lineCheck checked = .ok (true, t)) :
    t.watch = checked.watch ∧
      if wants .read checked then
        lineHolds .read checked ∨ checked.own.childPri = true ∧ ¬lineHolds .read t
      else checked.own.childPri = true := by
  obtain ⟨⟨ret, line⟩, hcheck, hresult⟩ := Run.map_ok h
  cases hresult
  refine ⟨rfl, ?_⟩
  rw [watchCheck_eq] at hcheck
  obtain ⟨⟨ready, m⟩, hready, hret⟩ := Run.bind_ok hcheck
  have hflag : (ready || m.wantPri && m.childPri) = true := congrArg Prod.fst (Except.ok.inj hret)
  have hline : m = line := congrArg Prod.snd (Except.ok.inj hret)
  subst hline
  by_cases hread : wants .read checked = true
  · rw [if_pos (show (lineOf checked).wantRead = true from hread)] at hready
    rw [if_pos hread]
    obtain ⟨hagain, set, avail, hm⟩ := readable_again hready
    cases ready with
    | true => exact .inl ⟨m, hready⟩
    | false =>
        rw [hm] at hflag hagain
        refine .inr ⟨(Bool.and_eq_true_iff.mp hflag).2, ?_⟩
        rintro ⟨line, hline⟩
        rw [hm] at hline
        cases hagain.symm.trans hline
  · rw [if_neg (show ¬(lineOf checked).wantRead = true from hread)] at hready
    rw [if_neg hread]
    cases hready
    exact (Bool.and_eq_true_iff.mp hflag).2

/-- With nothing in between, a read that is wanted has to find something. -/
theorem line_minds_direct {checked t : Watched P D StreamLine.ZStreamLine} (h : lineCheck checked = .ok (true, t))
    (behave : Behaviour P D StreamLine.ZStreamLine) :
    Minds lineHolds checked t (lineDispatch behave t) ↔ (wants .read checked = true → lineHolds .read checked) := by
  obtain ⟨hwatch, hcases⟩ := lineCheck_cases h
  have hsame : ∀ d, wants d t = wants d checked := fun d => by rw [wants, wants, hwatch]
  rw [line_minds_iff, LineReported, hsame, hsame]
  by_cases hread : wants .read checked = true
  · rw [if_pos hread] at hcases ⊢
    refine ⟨fun hreported _ => ?_, fun hholds => .inl (hholds hread)⟩
    rcases hcases with hbefore | ⟨-, hnothing⟩
    · exact hbefore
    · exact hreported.resolve_right hnothing
  · rw [if_neg hread] at hcases ⊢
    exact iff_of_true (fun _ => .inl hcases) fun hwants => absurd hwants hread

theorem buf_minds_iff {checked : Watched P D StreamBuf.ZStreamBuf} (h : bufCheck checked = true)
    (self : Watched P D StreamBuf.ZStreamBuf) (behave : Behaviour P D StreamBuf.ZStreamBuf) :
    Minds bufHolds checked self (bufDispatch behave self) ↔
      (wants .write self = true → (self.watch.callback .read).cbData = (self.watch.callback .write).cbData) := by
  have hspace : bufHolds .write checked := (Bool.and_eq_true_iff.mp h).2
  unfold bufDispatch
  by_cases hwrite : wants .write self = true
  · rw [if_pos hwrite]
    constructor
    · intro hminds _
      exact (hminds _ (mem_invoke.mpr rfl)).userData
    · intro hdata call hcall
      obtain rfl := mem_invoke.mp hcall
      exact ⟨rfl, hdata hwrite, hwrite, .inl (.inl hspace)⟩
  · rw [if_neg hwrite]
    exact iff_of_true minds_nothing fun hwants => absurd hwants hwrite

/-- Each callback is tested for just in front of its call. -/
theorem gzip_minds (checked self : Watched P D (StreamGzip.ZStreamGzip ζ χ))
    (behave : Behaviour P D (StreamGzip.ZStreamGzip ζ χ)) :
    Minds gzipHolds checked self (gzipDispatch behave self) := by
  refine (minds_nothing.next fun before htest => ?_).next fun before htest => ?_
  · obtain ⟨hwants, hreadable⟩ := Bool.and_eq_true_iff.mp htest
    exact (minds_invokeOwn hwants).mpr (.inr hreadable)
  · obtain ⟨hwants, hwritable⟩ := Bool.and_eq_true_iff.mp htest
    exact (minds_invokeOwn hwants).mpr (.inr hwritable)

theorem polled_cases {d : Direction} {cond : GIOCondition} {self : Watched P D GIOCondition}
    (h : polled d cond self = true) : wants d self = true ∧ cond &&& bit d ≠ 0 := by
  obtain ⟨hpolled, -⟩ := Bool.and_eq_true_iff.mp h
  obtain ⟨hwants, hcond⟩ := Bool.and_eq_true_iff.mp hpolled
  exact ⟨hwants, of_decide_eq_true hcond⟩

theorem blob_minds (checked self : Watched P D GIOCondition) (behave : Behaviour P D GIOCondition) :
    Minds blobHolds checked self (blobDispatch behave self) := by
  refine (minds_nothing.next fun before htest => ?_).next fun before htest => ?_
  · obtain ⟨hwants, hcond⟩ := polled_cases htest
    exact (minds_invokeOwn hwants).mpr (.inr hcond)
  · obtain ⟨hwants, hcond⟩ := polled_cases htest
    exact (minds_invokeOwn hwants).mpr (.inr hcond)

theorem fdHolds_iff (d : Direction) (self : Watched P D GIOCondition) :
    fdHolds d self ↔ self.own &&& bit d ≠ 0 ∨ self.own &&& (ioErr ||| ioHup) ≠ 0 := by
  rw [fdHolds, BitVec.or_assoc, BitVec.and_or_distrib_left]
  exact (not_congr BitVec.or_eq_zero_iff).trans not_and_or

/-- The callbacks may change what is wanted, but not what poll has reported. -/
theorem fd_minds (checked self : Watched P D GIOCondition) (behave : Behaviour P D GIOCondition) :
    Minds fdHolds checked self (fdDispatch behave self) := by
  have hnothing : Minds fdHolds checked self { self := { self with own := 0 } } :=
    fun _ hcall => absurd hcall List.not_mem_nil
  simp only [fdDispatch]
  by_cases herror : self.own &&& (ioErr ||| ioHup) ≠ 0
  · have hreported := fun d => (fdHolds_iff d self).mpr (.inr herror)
    rw [if_pos herror]
    split
    · rename_i hread
      exact (minds_invokeOwn hread).mpr (.inl (.inr (hreported .read)))
    · split
      · rename_i hwrite
        exact (minds_invokeOwn hwrite).mpr (.inl (.inr (hreported .write)))
      · exact hnothing
  · rw [if_neg herror]
    have hevent : ∀ d before, polled d self.own before = true →
        Minds fdHolds checked self (invokeOwn behave d self.own before) := by
      intro d before htest
      obtain ⟨hwants, hcond⟩ := polled_cases htest
      exact (minds_invokeOwn hwants).mpr (.inl (.inr ((fdHolds_iff d self).mpr (.inl hcond))))
    exact ((hnothing.next (hevent .read)).next (hevent .write)).next (hevent .pri)

/-- In an iteration whose check says TRUE, whatever the callbacks do and others
do before: ZStreamLine minds its events just if the one callback that it calls
is reported, with nothing in between just if a read that is wanted finds
something; ZStreamBuf just if a write callback has the data of the read
callback; and the other classes always. -/
theorem callbacks_minded_iff {P D ζ χ : Type} :
    (∀ (checked t : Watched P D StreamLine.ZStreamLine) behave, lineCheck checked = .ok (true, t) →
      (Minds lineHolds checked t (lineDispatch behave t) ↔
        (wants .read checked = true → lineHolds .read checked)) ∧
      ∀ self, Minds lineHolds checked self (lineDispatch behave self) ↔ LineReported checked self) ∧
    (∀ (checked self : Watched P D StreamBuf.ZStreamBuf) behave, bufCheck checked = true →
      (Minds bufHolds checked self (bufDispatch behave self) ↔
        (wants .write self = true →
          (self.watch.callback .read).cbData = (self.watch.callback .write).cbData))) ∧
    (∀ (checked self : Watched P D (StreamGzip.ZStreamGzip ζ χ)) behave, gzipCheck checked = true →
      Minds gzipHolds checked self (gzipDispatch behave self)) ∧
    (∀ (checked t self : Watched P D GIOCondition) behave, blobCheck checked = (true, t) →
      Minds blobHolds checked self (blobDispatch behave self)) ∧
    ∀ (checked self : Watched P D GIOCondition) behave, fdCheck checked = true →
      Minds fdHolds checked self (fdDispatch behave self) := by
  refine ⟨fun checked t behave h => ⟨line_minds_direct h behave, fun self => line_minds_iff checked self behave⟩,
    fun checked self behave h => buf_minds_iff h self behave, ?_, ?_, ?_⟩
  · exact fun checked self behave _ => gzip_minds checked self behave
  · exact fun checked _ self behave _ => blob_minds checked self behave
  · exact fun checked self behave _ => fd_minds checked self behave

/-- A line in the buffer, and a hangup. -/
theorem callbacks_minded_iff_line :
    (∃ checked t : Watched Nat Nat StreamLine.ZStreamLine, lineCheck checked = .ok (true, t) ∧
      Minds lineHolds checked t (lineDispatch (fun _ _ _ self => (1, self)) t)) ∧
    Minds fdHolds { watch := { want := fun _ => 1 }, own := 16 } { watch := { want := fun _ => 1 }, own := 16 }
      (fdDispatch (fun (_ : Nat) _ (_ : Option Nat) self => (0, self))
        { watch := { want := fun _ => 1 }, own := 16 }) := by
  have hall := @callbacks_minded_iff Nat Nat Unit Unit
  obtain ⟨hline, -, -, -, hfd⟩ := hall
  refine ⟨?_, hfd _ _ _ rfl⟩
  refine ⟨{ watch := { want := fun _ => 1 }
            own := { flags := { eolNl := true }, buffer := [97, 10], bufsize := 2, endPos := 2 } }, _, rfl, ?_⟩
  exact ((hline _ _ _ rfl).1).mpr fun _ => ⟨_, rfl⟩

/-- Priority data for a line stream that wants to read, too; and a buffer whose
callbacks have data of their own. -/
theorem callbacks_not_minded :
    (∃ (checked t : Watched Nat Nat StreamLine.ZStreamLine) (behave : Behaviour Nat Nat StreamLine.ZStreamLine),
      lineCheck checked = .ok (true, t) ∧ ¬Minds lineHolds checked t (lineDispatch behave t)) ∧
    ∃ (checked : Watched Nat Nat StreamBuf.ZStreamBuf) (behave : Behaviour Nat Nat StreamBuf.ZStreamBuf),
      bufCheck checked = true ∧ ¬Minds bufHolds checked checked (bufDispatch behave checked) := by
  constructor
  · refine ⟨{ watch := { want := fun _ => 1 }
              own := { flags := { eolNl := true }, buffer := [0], bufsize := 1, childPri := true } }, _,
      fun _ _ _ self => (1, self), rfl, ?_⟩
    intro h
    obtain ⟨line, hline⟩ := (line_minds_direct rfl _).mp h rfl
    cases hline
  · refine ⟨{ watch := { want := fun _ => 1
                         callback := fun d => { cb := some 0, cbData := some (if d = .read then 1 else 2) } }
              own := { immedFlush := false, bufThreshold := 1 } }, fun _ _ _ self => (1, self), rfl, ?_⟩
    intro h
    have hdata := (h _ List.mem_cons_self).userData
    exact absurd hdata (by decide)

end Libzorpll.WatchDispatch
