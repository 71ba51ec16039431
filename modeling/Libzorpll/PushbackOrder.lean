import Libzorpll.Pushback

/-! The order in which a stream without a child gives back what is pushed back
to it. -/

namespace Libzorpll.PushbackOrder

open ChildStream StreamUnget Run
open Pushback (source)

/-- A stream of a source that is the umbrella for reading, as ZStreamFD and
ZStreamBlob are. -/
def sourceNew (child : Child) : State Child := ([⟨true, [], .own child⟩], fun _ => {})

inductive SourceOp
  | unget (buf : List UInt8) (p : Nat)
  | read (count : Nat)

inductive SourceAnswer
  | ungot (res : Bool)
  | read (r : ReadResult)
  deriving DecidableEq

def sourceStep : SourceOp → State Child → Except Abort (SourceAnswer × State Child)
  | .unget buf p, s => (unget buf p s).map (fun (res, s) => (.ungot res, s))
  | .read count, s => (streamRead source count s).map (fun (r, s) => (.read r, s))

/-- Some bytes are given or asked for, and a new packet gets a free place. -/
def Called (op : SourceOp) (s : State Child) : Prop :=
  match op with
  | .unget buf p => buf ≠ [] ∧ s.2 p = {}
  | .read count => 0 < count

/-- What has been pushed back and not been read. -/
def pushed (s : State Child) : List UInt8 :=
  s.1.flatMap (fun layer => layer.ungotBufs.flatMap (fun p => (s.2 p).data))

/-- What the source has still to give. -/
def sourceLeft (s : State Child) : Child :=
  s.1.flatMap (fun layer =>
    match layer.body with
    | .own child => child
    | _ => [])

/-- A read takes what was pushed back or reads from the source, not both. -/
def Ordered (op : SourceOp) (s : State Child) (answer : SourceAnswer) (t : State Child) : Prop :=
  match op, answer with
  | .unget buf _, .ungot res => res = true ∧ pushed t = buf ++ pushed s ∧ sourceLeft t = sourceLeft s
  | .read count, .read r =>
      (∃ bytes, r = .normal bytes ∧ bytes ≠ [] ∧ bytes.length ≤ count ∧ pushed s = bytes ++ pushed t ∧
        sourceLeft t = sourceLeft s) ∨
      (pushed s = [] ∧ pushed t = [] ∧ (r, sourceLeft t) = childRead count (sourceLeft s))
  | _, _ => False

def bytesRead (answers : List SourceAnswer) : List UInt8 :=
  answers.flatMap (fun
    | .ungot _ => []
    | .read r => answerBytes r)

/-- The stream when `n` bytes of it have been read: what is pushed back is put
in front of the others. -/
def arranged : List SourceOp → List SourceAnswer → Nat → List UInt8 → List UInt8
  | .unget buf _ :: ops, .ungot _ :: answers, n, stream =>
      arranged ops answers n (stream.take n ++ buf ++ stream.drop n)
  | .read _ :: ops, .read r :: answers, n, stream =>
      arranged ops answers (n + (answerBytes r).length) stream
  | _, _, _, stream => stream

/-- A stream alone, which is the only one to hold its packets. -/
inductive Alone : State Child → Prop
  | mk {ps : List Nat} {child : Child} {heap : Heap} (hnodup : ps.Nodup)
      (hheld : ∀ p ∈ ps, (heap p).refs = 1 ∧ (heap p).data ≠ []) : Alone ([⟨true, ps, .own child⟩], heap)

theorem sourceNew_alone (child : Child) : Alone (sourceNew child) :=
  .mk List.nodup_nil fun _ hp => absurd hp List.not_mem_nil

/-- Packets elsewhere are as they were. -/
theorem flatMap_update {ps : List Nat} {p : Nat} (hp : p ∉ ps) (heap : Heap) (pack : Packet) :
    ps.flatMap (fun q => (Function.update heap p pack q).data) = ps.flatMap (fun q => (heap q).data) := by
  apply List.flatMap_congr
  intro q hq
  rw [Function.update_of_ne (ne_of_mem_of_not_mem hq hp)]

theorem unget_alone {s : State Child} (h : Alone s) {buf : List UInt8} {p : Nat} (hne : buf ≠ [])
    (hfree : s.2 p = {}) :
    ∃ t, sourceStep (.unget buf p) s = .ok (.ungot true, t) ∧ Alone t ∧
      pushed t = buf ++ pushed s ∧ sourceLeft t = sourceLeft s := by
  obtain @⟨ps, child, heap, hnodup, hheld⟩ := h
  have hp : p ∉ ps := by
    intro hmem
    have hrefs := (hheld p hmem).1
    rw [show heap p = {} from hfree] at hrefs
    cases hrefs
  refine ⟨([⟨true, p :: ps, .own child⟩], Function.update heap p ⟨buf, 1⟩), rfl, .mk ?_ ?_, ?_, rfl⟩
  · exact List.nodup_cons.mpr ⟨hp, hnodup⟩
  · intro q hq
    by_cases hqp : q = p
    · subst hqp
      rw [Function.update_self]
      exact ⟨rfl, hne⟩
    · rw [Function.update_of_ne hqp]
      exact hheld q ((List.mem_cons.mp hq).resolve_left hqp)
  · simp only [pushed, List.flatMap_cons, List.flatMap_nil, List.append_nil, Function.update_self,
      flatMap_update hp]

/-- The read of a packet takes it whole or from its front. -/
theorem readPacket_held (count : Nat) {p : Nat} {heap : Heap} (hrefs : (heap p).refs = 1) :
    readPacket count p heap =
      if (heap p).data.length ≤ count then .ok ((heap p).data, true, Function.update heap p {})
      else .ok ((heap p).data.take count, false,
        Function.update heap p ⟨(heap p).data.drop count, 1⟩) := by
  simp only [readPacket, pktbufUnref, hrefs]
  rfl

theorem read_alone {s : State Child} (h : Alone s) {count : Nat} (hcount : 0 < count) :
    ∃ r t, sourceStep (.read count) s = .ok (.read r, t) ∧ Alone t ∧
      Ordered (.read count) s (.read r) t := by
  obtain @⟨ps, child, heap, hnodup, hheld⟩ := h
  cases ps with
  | nil =>
      refine ⟨(childRead count child).1, ([⟨true, [], .own (childRead count child).2⟩], heap), rfl,
        .mk hnodup hheld, .inr ⟨rfl, rfl, ?_⟩⟩
      simp [sourceLeft]
  | cons p ps =>
      obtain ⟨hp, hrest⟩ := List.nodup_cons.mp hnodup
      obtain ⟨hrefs, hne⟩ := hheld p List.mem_cons_self
      have hothers (pack : Packet) : ∀ q ∈ ps, (Function.update heap p pack q).refs = 1 ∧
          (Function.update heap p pack q).data ≠ [] := by
        intro q hq
        rw [Function.update_of_ne (ne_of_mem_of_not_mem hq hp)]
        exact hheld q (List.mem_cons_of_mem p hq)
      have hpack := readPacket_held count hrefs
      by_cases hwhole : (heap p).data.length ≤ count
      · rw [if_pos hwhole] at hpack
        refine ⟨.normal (heap p).data, ([⟨true, ps, .own child⟩], Function.update heap p {}), ?_,
          .mk hrest (hothers {}), .inl ⟨_, rfl, hne, hwhole, ?_, rfl⟩⟩
        · simp [sourceStep, streamRead, readLayers, hpack, bind, Except.bind, pure, Except.pure, Except.map]
        · simp only [pushed, List.flatMap_cons, List.flatMap_nil, List.append_nil, flatMap_update hp]
      · rw [if_neg hwhole] at hpack
        refine ⟨.normal ((heap p).data.take count), ([⟨true, p :: ps, .own child⟩],
          Function.update heap p ⟨(heap p).data.drop count, 1⟩), ?_, .mk hnodup ?_,
          .inl ⟨_, rfl, ?_, List.length_take_le _ _, ?_, rfl⟩⟩
        · simp [sourceStep, streamRead, readLayers, hpack, bind, Except.bind, pure, Except.pure, Except.map]
        · intro q hq
          by_cases hqp : q = p
          · subst hqp
            rw [Function.update_self]
            refine ⟨rfl, ?_⟩
            rw [ne_eq, List.drop_eq_nil_iff]
            exact hwhole
          · exact hothers _ q ((List.mem_cons.mp hq).resolve_left hqp)
        · rw [ne_eq, List.take_eq_nil_iff]
          exact not_or.mpr ⟨by omega, hne⟩
        · simp only [pushed, List.flatMap_cons, List.flatMap_nil, List.append_nil, Function.update_self,
            flatMap_update hp]
          rw [← List.append_assoc, List.take_append_drop]

theorem sourceStep_ordered (op : SourceOp) {s : State Child} (h : Alone s) (hcalled : Called op s) :
    ∃ answer t, sourceStep op s = .ok (answer, t) ∧ Alone t ∧ Ordered op s answer t := by
  cases op with
  | unget buf p =>
      obtain ⟨t, ht, halone, hpushed, hsource⟩ := unget_alone h hcalled.1 hcalled.2
      exact ⟨_, t, ht, halone, rfl, hpushed, hsource⟩
  | read count =>
      obtain ⟨r, t, ht, halone, hordered⟩ := read_alone h hcalled
      exact ⟨_, t, ht, halone, hordered⟩

/-- What has been read stays, followed by what was pushed back and what the
source has. -/
theorem arranged_run (ops : List SourceOp) {s : State Child} (h : Alone s)
    (hcalled : Meets sourceStep Called ops s) (done : List UInt8) :
    ∃ answers t, run sourceStep ops s = .ok (answers, t) ∧ Alone t ∧
      arranged ops answers done.length (done ++ pushed s ++ childBytes (sourceLeft s)) =
        done ++ bytesRead answers ++ pushed t ++ childBytes (sourceLeft t) := by
  induction ops generalizing s done with
  | nil => exact ⟨[], s, rfl, h, by simp [arranged, bytesRead]⟩
  | cons op ops ih =>
      obtain ⟨answer, t, ht, halone, hordered⟩ := sourceStep_ordered op h hcalled.1
      have hrest := hcalled.2 answer t ht
      cases op with
      | unget buf p =>
          cases answer with
          | read r => exact absurd hordered id
          | ungot res =>
              obtain ⟨-, hpushed, hsource⟩ := hordered
              obtain ⟨answers, u, hrun, halone', heq⟩ := ih halone hrest done
              refine ⟨.ungot res :: answers, u, by simp only [run, ht, hrun, Except.map], halone', ?_⟩
              rw [arranged, List.append_assoc done, List.take_left, List.drop_left]
              rw [hpushed, hsource] at heq
              simp only [List.append_assoc] at heq ⊢
              exact heq
      | read count =>
          cases answer with
          | ungot res => exact absurd hordered id
          | read r =>
              obtain ⟨answers, u, hrun, halone', heq⟩ := ih halone hrest (done ++ answerBytes r)
              refine ⟨.read r :: answers, u, by simp only [run, ht, hrun, Except.map], halone', ?_⟩
              have hnext : answerBytes r ++ (pushed t ++ childBytes (sourceLeft t)) =
                  pushed s ++ childBytes (sourceLeft s) := by
                obtain ⟨bytes, rfl, -, -, hpushed, hsource⟩ | ⟨hnone, hnone', hread⟩ := hordered
                · rw [hpushed, hsource, answerBytes, List.append_assoc]
                · have hbytes := childRead_bytes count (sourceLeft s)
                  rw [← hread] at hbytes
                  rw [hnone, hnone']
                  exact hbytes
              rw [arranged, List.append_assoc done, ← hnext]
              rw [List.length_append] at heq
              simp only [bytesRead, List.flatMap_cons, List.append_assoc] at heq ⊢
              exact heq

/-- Whatever is pushed back in between, the bytes read are the first ones of
the stream so arranged, and no read joins what was pushed back and what the
source gives. -/
theorem pushback_order (child : Child) (ops : List SourceOp)
    (hcalled : Meets sourceStep Called ops (sourceNew child)) :
    ∃ answers t, run sourceStep ops (sourceNew child) = .ok (answers, t) ∧
      arranged ops answers 0 (childBytes child) =
        bytesRead answers ++ (pushed t ++ childBytes (sourceLeft t)) ∧
      bytesRead answers <+: arranged ops answers 0 (childBytes child) ∧
      Always sourceStep (fun _ _ _ => False) Ordered ops (sourceNew child) := by
  obtain ⟨answers, t, hrun, -, harranged⟩ := arranged_run ops (sourceNew_alone child) hcalled []
  have hstart : [] ++ pushed (sourceNew child) ++ childBytes (sourceLeft (sourceNew child)) = childBytes child := by
    simp [pushed, sourceLeft, sourceNew]
  rw [hstart, List.nil_append, List.append_assoc] at harranged
  refine ⟨answers, t, hrun, harranged, ?_, ?_⟩
  · rw [List.length_nil] at harranged
    rw [harranged]
    exact List.prefix_append _ _
  · have hstep (op : SourceOp) (s : State Child) (hs : Alone s) (hcall : Called op s) :
        (∃ e, sourceStep op s = .error e ∧ False) ∨
          ∃ answer t, sourceStep op s = .ok (answer, t) ∧ Alone t ∧ Ordered op s answer t :=
      .inr (sourceStep_ordered op hs hcall)
    exact always_induct hstep ops (sourceNew_alone child) hcalled

def mixedOps : List SourceOp :=
  [.unget [1, 2, 3] 0, .read 2, .unget [4] 1, .read 5, .read 5, .read 5]

/-- A packet that is read in part comes after one that is pushed back later. -/
theorem pushback_order_mixed :
    ∃ answers t, run sourceStep mixedOps (sourceNew [.normal [8, 9]]) = .ok (answers, t) ∧
      arranged mixedOps answers 0 [8, 9] = bytesRead answers ++ (pushed t ++ childBytes (sourceLeft t)) ∧
      bytesRead answers <+: arranged mixedOps answers 0 [8, 9] ∧
      Always sourceStep (fun _ _ _ => False) Ordered mixedOps (sourceNew [.normal [8, 9]]) := by
  apply pushback_order [.normal [8, 9]] mixedOps
  apply meets_cons ⟨by decide, rfl⟩ rfl
  apply meets_cons (P := Called) (i := .read 2) (Nat.succ_pos 1) rfl
  apply meets_cons ⟨by decide, rfl⟩ rfl
  apply meets_cons (P := Called) (i := .read 5) (Nat.succ_pos 4) rfl
  apply meets_cons (P := Called) (i := .read 5) (Nat.succ_pos 4) rfl
  apply meets_cons (P := Called) (i := .read 5) (Nat.succ_pos 4) rfl
  trivial

end Libzorpll.PushbackOrder
