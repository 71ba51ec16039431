import Libzorpll.BufferQueue

/-! Shutting down a ZStreamBuf whose child takes something with every write. -/

namespace Libzorpll.BufferShutdown

open StreamBuf BufferQueue

/-- The writes it takes to hand over r bytes of a packet, from the k-th write
of the child on. An empty packet takes one too. -/
def packetWrites (count : Nat → Nat) (r k : Nat) : Nat :=
  if 0 < count k ∧ count k < r then packetWrites count (r - count k) (k + 1) + 1 else 1
termination_by r

def queueWrites (count : Nat → Nat) : List Nat → Nat → Nat
  | [], _ => 0
  | r :: rs, k => packetWrites count r k + queueWrites count rs (k + packetWrites count r k)

theorem packetWrites_pos (count : Nat → Nat) (r k : Nat) : 0 < packetWrites count r k := by
  rw [packetWrites]
  split
  · exact Nat.succ_pos _
  · exact Nat.one_pos

/-- A child that takes the given counts. -/
def Takes (count : Nat → Nat) (child : WriteChild) : Prop :=
  ∀ k, 0 < count k ∧ child.answers k = .normal (count k)

/-- All that was queued is written before the shutdown of the child, and
nothing is left. -/
def HandsOver (how : ShutdownMode) (b : ZStreamBuf) (child : WriteChild) : Prop :=
  ∃ t, ∃ pieces : List (List UInt8), shutdownMethod how (b, child) = t ∧ t.1.buffers = [] ∧ pieces.flatten = queued b ∧
    t.2.events = child.events ++ [.nonblock false] ++ pieces.map .wrote ++ [.shutdown how]

variable {b : ZStreamBuf} {child : WriteChild} {count : Nat → Nat}

theorem queueWrites_eq_zero {rs : List Nat} {k : Nat} : queueWrites count rs k = 0 ↔ rs = [] := by
  constructor
  · intro h
    cases rs with
    | nil => rfl
    | cons r rs =>
        rw [queueWrites] at h
        have hpos := packetWrites_pos count r k
        omega
  · rintro rfl
    rfl

theorem remaining_nil : remaining b = [] ↔ b.buffers = [] := by
  rw [remaining]
  split
  · rename_i hb
    simp [hb]
  · rename_i hb
    simp [hb]

/-- A round takes one write off those that are needed. -/
theorem queueWrites_round {r k : Nat} (rest : List Nat) (hpos : 0 < count k) :
    queueWrites count (r :: rest) k =
      queueWrites count (if r ≤ count k then rest else (r - count k) :: rest) (k + 1) + 1 := by
  by_cases hall : r ≤ count k
  · have hone : packetWrites count r k = 1 := by
      rw [packetWrites, if_neg (by omega)]
    rw [if_pos hall, queueWrites, hone, Nat.add_comm]
  · have hmore : packetWrites count r k = packetWrites count (r - count k) (k + 1) + 1 := by
      rw [packetWrites, if_pos (by omega)]
    rw [if_neg hall, queueWrites, queueWrites, hmore]
    have hplace : k + 1 + packetWrites count (r - count k) (k + 1) =
        k + (packetWrites count (r - count k) (k + 1) + 1) := by omega
    rw [hplace]
    omega

/-- What i rounds of the flushing come to with such a child. -/
theorem flushLoop_takes (i : Nat) (h : Queue b) (hchild : Takes count child) :
    ∃ b' child', ∃ pieces : List (List UInt8), flushLoop i (b, child) = (b', child') ∧
      queueWrites count (remaining b') child'.writes =
        queueWrites count (remaining b) child.writes - i ∧
      pieces.flatten ++ queued b' = queued b ∧
      child'.events = child.events ++ pieces.map .wrote := by
  induction i generalizing b child with
  | zero => exact ⟨b, child, [], rfl, rfl, rfl, (List.append_nil _).symm⟩
  | succ i ih =>
      cases hb : b.buffers with
      | nil =>
          have hnone := remaining_nil.mpr hb
          refine ⟨b, child, [], ?_, ?_, rfl, (List.append_nil _).symm⟩
          · rw [flushLoop, flushRound]
            simp only [hb]
          · rw [hnone, queueWrites, Nat.zero_sub]
      | cons packet rest =>
          obtain ⟨hcount, hanswer⟩ := hchild child.writes
          obtain ⟨b₁, bytes, hround, hqueue, hbytes, hremaining⟩ := flushRound_normal h hb hanswer
          have hchild' : Takes count (wrote child bytes) := hchild
          obtain ⟨b', child', pieces, hloop, hwrites, hpieces, hevents⟩ := ih hqueue hchild'
          refine ⟨b', child', bytes :: pieces, ?_, ?_, ?_, ?_⟩
          · rw [flushLoop, hround]
            exact hloop
          · have hneed : queueWrites count (remaining b) child.writes =
                queueWrites count (remaining b₁) (child.writes + 1) + 1 := by
              rw [hremaining, remaining, hb]
              exact queueWrites_round _ hcount
            rw [hwrites, hneed, Nat.add_sub_add_right]
            rfl
          · rw [List.flatten_cons, List.append_assoc, hpieces, hbytes]
          · rw [hevents, List.map_cons, wrote, List.append_assoc]
            rfl

/-- Shutting down the write side hands over all of the buffer exactly if this
takes no more writes than one flush makes. -/
theorem shutdown_hands_over (how : ShutdownMode) (hhow : how ≠ .rd) (h : Queue b)
    (hchild : Takes count child) :
    HandsOver how b child ↔ queueWrites count (remaining b) child.writes ≤ 10 := by
  let c : WriteChild := setNonblock false { child with timeout := b.timeout }
  have hc : Takes count c := hchild
  obtain ⟨b', child', pieces, hloop, hwrites, hpieces, hevents⟩ := flushLoop_takes 10 h hc
  have hmode : how = .wr ∨ how = .rdwr := by
    cases how with
    | rd => exact absurd rfl hhow
    | wr => exact .inl rfl
    | rdwr => exact .inr rfl
  have hrun : shutdownMethod how (b, child) =
      (b', { child' with events := child'.events ++ [.shutdown how] }) := by
    rw [shutdownMethod]
    simp only [if_pos hmode]
    rw [flushInternal, hloop]
  have hempty : b'.buffers = [] ↔ queueWrites count (remaining b) child.writes ≤ 10 := by
    rw [← remaining_nil, ← @queueWrites_eq_zero count (remaining b') child'.writes, hwrites,
      Nat.sub_eq_zero_iff_le]
    rfl
  rw [← hempty]
  constructor
  · rintro ⟨t, pieces', ht, hnil, -, -⟩
    rw [hrun] at ht
    subst ht
    exact hnil
  · intro hnil
    refine ⟨_, pieces, hrun, hnil, ?_, ?_⟩
    · rw [← hpieces, queued, hnil]
      simp
    · rw [hevents]
      rfl

/-- Two packets, the first of them written in part already. -/
theorem shutdown_hands_over_partial :
    HandsOver .wr
        { immedFlush := false, bufThreshold := 16, pendingPos := 1, currentSize := 5,
          buffers := [[97, 98, 99], [100, 101]] } { answers := fun _ => .normal 1 } ↔
      queueWrites (fun _ => 1) [2, 2] 0 ≤ 10 :=
  shutdown_hands_over .wr (by decide) ⟨rfl, .inl (by decide)⟩ (fun _ => ⟨Nat.one_pos, rfl⟩)

/-- The last of eleven packets is not written. -/
theorem shutdown_not_handed_over :
    ¬∀ (how : ShutdownMode) (_ : how ≠ .rd) (b : ZStreamBuf) (_ : Queue b) (_ : b.flushError = none)
      (child : WriteChild) (count : Nat → Nat) (_ : Takes count child), HandsOver how b child := by
  intro h
  obtain ⟨t, pieces, hrun, hnil, -⟩ := h .rdwr (by decide)
    { immedFlush := false, bufThreshold := 16, currentSize := 11, buffers := List.replicate 11 [65] }
    ⟨rfl, .inl (by decide)⟩ rfl { answers := fun _ => .normal 6 } (fun _ => 6)
    (fun _ => ⟨Nat.succ_pos 5, rfl⟩)
  subst hrun
  exact absurd hnil (by decide)

end Libzorpll.BufferShutdown
