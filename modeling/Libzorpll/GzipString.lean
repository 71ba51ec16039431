import Mathlib.Data.List.GetD
import Mathlib.Data.List.TakeWhile
import Libzorpll.StreamGzip

namespace Libzorpll.GzipString

open ChildStream StreamChunk StreamGzip

/-! The buffer -/

theorem store_of_ge {off i : Nat} (bytes : List UInt8) (buf : Nat → UInt8)
    (h : off + bytes.length ≤ i) : store off bytes buf i = buf i := by
  have hout : ¬(off ≤ i ∧ i < off + bytes.length) := by omega
  rw [store, if_neg hout]

@[simp] theorem store_nil (off : Nat) (buf : Nat → UInt8) : store off [] buf = buf := by
  funext i
  have hout : ¬(off ≤ i ∧ i < off + ([] : List UInt8).length) := by
    rw [List.length_nil]
    omega
  rw [store, if_neg hout]

@[simp] theorem store_one (off : Nat) (b : UInt8) (buf : Nat → UInt8) : store off [b] buf off = b := by
  simp [store]

/-- Bytes and then others behind them. -/
theorem store_append (off : Nat) (a b : List UInt8) (buf : Nat → UInt8) :
    store (off + a.length) b (store off a buf) = store off (a ++ b) buf := by
  funext i
  simp only [store, List.length_append]
  by_cases hfirst : i < off + a.length
  · have hnot : ¬(off + a.length ≤ i ∧ i < off + a.length + b.length) := by omega
    rw [if_neg hnot]
    by_cases hoff : off ≤ i
    · have hall : off ≤ i ∧ i < off + (a.length + b.length) := by omega
      have hlt : i - off < a.length := by omega
      rw [if_pos ⟨hoff, hfirst⟩, if_pos hall, List.getD_append _ _ _ _ hlt]
    · have hall : ¬(off ≤ i ∧ i < off + (a.length + b.length)) := by omega
      have hone : ¬(off ≤ i ∧ i < off + a.length) := by omega
      rw [if_neg hone, if_neg hall]
  · have hone : ¬(off ≤ i ∧ i < off + a.length) := by omega
    by_cases hlast : i < off + a.length + b.length
    · have hall : off ≤ i ∧ i < off + (a.length + b.length) := by omega
      have hle : a.length ≤ i - off := by omega
      rw [if_pos ⟨by omega, hlast⟩, if_pos hall, List.getD_append_right _ _ _ _ hle, Nat.sub_sub]
    · have hall : ¬(off ≤ i ∧ i < off + (a.length + b.length)) := by omega
      have htwo : ¬(off + a.length ≤ i ∧ i < off + a.length + b.length) := by omega
      rw [if_neg htwo, if_neg hone, if_neg hall]

theorem range_store {n : Nat} {bytes : List UInt8} (h : n ≤ bytes.length) (buf : Nat → UInt8) :
    (List.range n).map (store 0 bytes buf) = bytes.take n := by
  apply List.ext_getElem
  · rw [List.length_map, List.length_range, List.length_take, Nat.min_eq_left h]
  · intro i hi _
    rw [List.length_map, List.length_range] at hi
    have hin : 0 ≤ i ∧ i < 0 + bytes.length := by omega
    rw [List.getElem_map, List.getElem_range, store, if_pos hin, Nat.sub_zero, List.getElem_take,
      List.getD_eq_getElem _ _ (Nat.lt_of_lt_of_le hi h)]

theorem takeWhile_string {string : List UInt8} (hnul : 0 ∉ string) :
    string.takeWhile (· ≠ 0) = string := by
  rw [List.takeWhile_eq_self_iff]
  intro c hc
  simp only [ne_eq, decide_eq_true_eq]
  rintro rfl
  exact hnul hc

/-! The two loops -/

theorem childSize_read {child child' : Child} {b : UInt8}
    (h : childRead 1 child = (.normal [b], child')) : childSize child' < childSize child :=
  childRead_size_of_normal Nat.one_pos h

/-- The loop takes bytes that are not NUL as long as the buffer has room for
them. -/
theorem readStringLoop_reads (string rest : List UInt8) (hnul : 0 ∉ string) (rounds rdlen : Nat)
    (buf : Nat → UInt8) {child : Child} (hrounds : childSize child < rounds)
    (hlen : rdlen + string.length ≤ maxGzipHeaderString - 1)
    (hbytes : childBytes child = string ++ rest) (h : Bytewise string.length child) :
    ∃ left, readStringLoop rounds rdlen buf child =
        readStringLoop (left + 1) (rdlen + string.length) (store rdlen string buf)
          (childDrop child string.length) ∧
      childSize (childDrop child string.length) ≤ left := by
  induction string generalizing rounds rdlen buf child with
  | nil =>
      obtain ⟨left, rfl⟩ : ∃ left, rounds = left + 1 := ⟨rounds - 1, by omega⟩
      refine ⟨left, ?_, ?_⟩
      · simp only [store_nil, List.length_nil, childDrop_zero, Nat.add_zero]
      · rw [List.length_nil, childDrop_zero]
        omega
  | cons c string ih =>
      cases rounds with
      | zero => omega
      | succ rounds =>
          obtain ⟨hread, hnext⟩ := h.step hbytes
          have hsize := childSize_read hread
          rw [List.mem_cons, not_or] at hnul
          rw [List.length_cons] at hlen
          have hlt : rdlen < maxGzipHeaderString - 1 := by omega
          have hc : c ≠ 0 := Ne.symm hnul.1
          have hbytes' : childBytes (childDrop child 1) = string ++ rest := by
            rw [childBytes_drop, hbytes]
            rfl
          obtain ⟨left, hloop, hleft⟩ := ih hnul.2 rounds (rdlen + 1) (store rdlen [c] buf)
            (by omega) (by omega) hbytes' hnext
          have hsum : rdlen + 1 + string.length = rdlen + (c :: string).length := by
            rw [List.length_cons]
            omega
          rw [childDrop_drop, Nat.add_comm 1] at hleft
          rw [childDrop_drop, hsum, Nat.add_comm 1 string.length] at hloop
          have hstore := store_append rdlen [c] string buf
          rw [List.length_singleton, List.singleton_append] at hstore
          rw [hstore] at hloop
          refine ⟨left, ?_, hleft⟩
          simp only [readStringLoop, hlt, ↓reduceIte, hread, store_one, ne_eq, hc, not_false_eq_true,
            List.length_singleton]
          simp only [readStringLoop] at hloop
          exact hloop

theorem skipStringLoop_skips (string rest : List UInt8) (hnul : 0 ∉ string) (rounds : Nat) (ch : UInt8)
    {child : Child} (hrounds : childSize child < rounds) (hbytes : childBytes child = string ++ rest)
    (h : Bytewise string.length child) :
    ∃ left ch', skipStringLoop rounds ch child =
        skipStringLoop (left + 1) ch' (childDrop child string.length) ∧
      childSize (childDrop child string.length) ≤ left := by
  induction string generalizing rounds ch child with
  | nil =>
      obtain ⟨left, rfl⟩ : ∃ left, rounds = left + 1 := ⟨rounds - 1, by omega⟩
      refine ⟨left, ch, ?_, ?_⟩
      · rw [List.length_nil, childDrop_zero]
      · rw [List.length_nil, childDrop_zero]
        omega
  | cons c string ih =>
      cases rounds with
      | zero => omega
      | succ rounds =>
          obtain ⟨hread, hnext⟩ := h.step hbytes
          have hsize := childSize_read hread
          rw [List.mem_cons, not_or] at hnul
          have hc : c ≠ 0 := Ne.symm hnul.1
          have hbytes' : childBytes (childDrop child 1) = string ++ rest := by
            rw [childBytes_drop, hbytes]
            rfl
          obtain ⟨left, ch', hloop, hleft⟩ := ih hnul.2 rounds c (by omega) hbytes' hnext
          rw [childDrop_drop, Nat.add_comm 1] at hleft
          rw [childDrop_drop, Nat.add_comm 1 string.length] at hloop
          refine ⟨left, ch', ?_, hleft⟩
          simp only [skipStringLoop, hread, List.headD_cons, ne_eq, hc, not_false_eq_true, ↓reduceIte]
          simp only [skipStringLoop] at hloop
          exact hloop

/-- A child that delivers nothing any more, whatever it answers. -/
def Ended (child : Child) : Prop := ∀ data, .normal data ∉ child

theorem Ended.read {child : Child} (h : Ended child) (count : Nat) :
    Ended (childRead count child).2 ∧ ∀ data, (childRead count child).1 ≠ .normal data := by
  cases child with
  | nil => exact ⟨h, fun data hdata => by cases hdata⟩
  | cons answer child =>
      cases answer with
      | normal data => exact absurd List.mem_cons_self (h data)
      | again | eof | error =>
          refine ⟨?_, fun data hdata => by cases hdata⟩
          intro data hdata
          exact h data (List.mem_cons_of_mem _ hdata)

theorem readStringLoop_ended (rounds rdlen : Nat) (buf : Nat → UInt8) {child : Child}
    (hlen : rdlen < maxGzipHeaderString - 1) (h : Ended child) :
    ∃ after, readStringLoop (rounds + 1) rdlen buf child = (false, rdlen, buf, after) ∧
      Ended after := by
  obtain ⟨hended, hread⟩ := h.read 1
  refine ⟨_, ?_, hended⟩
  simp only [readStringLoop, hlen, ↓reduceIte]

theorem skipStringLoop_ended (rounds : Nat) (ch : UInt8) {child : Child} (h : Ended child) :
    (skipStringLoop (rounds + 1) ch child).1 = false := by
  obtain ⟨-, hread⟩ := h.read 1
  simp only [skipStringLoop]

/-! The string -/

/-- A string that the buffer holds. -/
theorem readGzipString_string (stack : Nat → UInt8) {string rest : List UInt8} (hnul : 0 ∉ string)
    (hlen : string.length < maxGzipHeaderString - 1) {child : Child}
    (hbytes : childBytes child = string ++ 0 :: rest) (h : Bytewise (string.length + 1) child) :
    readGzipString stack child = (some string, childDrop child (string.length + 1)) := by
  obtain ⟨left, hloop, -⟩ := readStringLoop_reads string (0 :: rest) hnul _ 0 stack
    (Nat.lt_succ_self (childSize child)) (by omega) hbytes h.take
  have hlast : Bytewise 1 (childDrop child string.length) := by
    apply h.drop
    rw [hbytes, List.length_append]
    exact Nat.le_add_right _ _
  have hbytes' : childBytes (childDrop child string.length) = 0 :: rest := by
    rw [childBytes_drop, hbytes, List.drop_left]
  have hread := (hlast.step hbytes').1
  rw [childDrop_drop] at hread
  have hstore := store_append 0 string [0] stack
  rw [Nat.zero_add] at hstore
  have hzero : store 0 (string ++ [0]) stack string.length = 0 := by
    rw [← hstore, store_one]
  have hwhole : readStringLoop (childSize child + 1) 0 stack child =
      (true, string.length, store 0 (string ++ [0]) stack, childDrop child (string.length + 1)) := by
    rw [hloop]
    simp only [readStringLoop, Nat.zero_add, hlen, ↓reduceIte, hread, hstore, hzero, ne_eq,
      not_true_eq_false]
  have hle : string.length ≤ (string ++ [0]).length := by
    rw [List.length_append]
    exact Nat.le_add_right _ _
  have hmap := range_store hle stack
  rw [List.take_left] at hmap
  simp only [readGzipString, hwhole, hzero, ne_eq, not_true_eq_false, ↓reduceIte, hmap]
  rw [takeWhile_string hnul]

/-- A string that fills the buffer leaves its last place as it was, and what
comes behind is skipped if that is not 0. -/
theorem readGzipString_full (stack : Nat → UInt8) {front rest : List UInt8} (hnul : 0 ∉ front)
    (hlen : front.length = maxGzipHeaderString - 1) {child : Child}
    (hbytes : childBytes child = front ++ rest) (h : Bytewise front.length child) :
    readGzipString stack child =
      if stack (maxGzipHeaderString - 1) = 0 then (some front, childDrop child front.length)
      else
        let (ok, after) := skipStringLoop (childSize (childDrop child front.length) + 1)
          (stack maxGzipHeaderString) (childDrop child front.length)
        if ok then (some front, after) else (none, after) := by
  obtain ⟨left, hloop, -⟩ := readStringLoop_reads front rest hnul _ 0 stack
    (Nat.lt_succ_self (childSize child)) (by omega) hbytes h
  have hlast : store 0 front stack (maxGzipHeaderString - 1) = stack (maxGzipHeaderString - 1) :=
    store_of_ge _ _ (by omega)
  have hmap := range_store (Nat.le_refl front.length) stack
  rw [List.take_length] at hmap
  have hwhole : readStringLoop (childSize child + 1) 0 stack child =
      (true, front.length, store 0 front stack, childDrop child front.length) := by
    rw [hloop, Nat.zero_add, hlen]
    simp only [readStringLoop, Nat.lt_irrefl, ↓reduceIte]
  simp only [readGzipString, hwhole]
  rw [hmap, takeWhile_string hnul, hlen, hlast]
  by_cases hcell : stack (maxGzipHeaderString - 1) = 0
  · simp only [hcell, ne_eq, not_true_eq_false, ↓reduceIte]
  · simp only [hcell, ne_eq, not_false_eq_true, ↓reduceIte]

/-- A string that ends with the child before its buffer is full. -/
theorem readGzipString_ended (stack : Nat → UInt8) {string : List UInt8} (hnul : 0 ∉ string)
    (hlen : string.length < maxGzipHeaderString - 1) {child : Child}
    (hbytes : childBytes child = string) (h : Bytewise string.length child)
    (hended : Ended (childDrop child string.length)) : (readGzipString stack child).1 = none := by
  obtain ⟨left, hloop, -⟩ := readStringLoop_reads string [] hnul _ 0 stack
    (Nat.lt_succ_self (childSize child)) (by omega) (by rw [hbytes, List.append_nil]) h
  obtain ⟨after, hstop, hafter⟩ := readStringLoop_ended left (0 + string.length)
    (store 0 string stack) (by omega) hended
  rw [hstop] at hloop
  simp only [readGzipString, hloop]
  by_cases hcell : store 0 string stack (0 + string.length) = 0
  · simp only [hcell, ne_eq, not_true_eq_false, ↓reduceIte, Bool.false_eq_true]
  · simp only [hcell, ne_eq, not_false_eq_true, ↓reduceIte,
      skipStringLoop_ended _ _ hafter, Bool.false_eq_true]

/-- What is behind the front of a long string. -/
theorem skipStringLoop_rest {front back rest : List UInt8} (hnul : 0 ∉ back) (ch : UInt8)
    {child : Child} (hbytes : childBytes child = front ++ (back ++ 0 :: rest))
    (h : Bytewise (front.length + (back.length + 1)) child) :
    skipStringLoop (childSize (childDrop child front.length) + 1) ch (childDrop child front.length) =
      (true, childDrop child (front.length + (back.length + 1))) := by
  have hlong : front.length ≤ (childBytes child).length := by
    rw [hbytes, List.length_append]
    exact Nat.le_add_right _ _
  have hback : childBytes (childDrop child front.length) = back ++ 0 :: rest := by
    rw [childBytes_drop, hbytes, List.drop_left]
  have hbehind := h.drop hlong
  obtain ⟨left, ch', hloop, -⟩ := skipStringLoop_skips back (0 :: rest) hnul _ ch
    (Nat.lt_succ_self _) hback hbehind.take
  have hlast : Bytewise 1 (childDrop (childDrop child front.length) back.length) := by
    apply hbehind.drop
    rw [hback, List.length_append]
    exact Nat.le_add_right _ _
  have hnext : childBytes (childDrop (childDrop child front.length) back.length) = 0 :: rest := by
    rw [childBytes_drop, hback, List.drop_left]
  have hread := (hlast.step hnext).1
  rw [hloop]
  simp only [skipStringLoop, hread, List.headD_cons, ne_eq, not_true_eq_false, ↓reduceIte]
  rw [childDrop_drop, childDrop_drop]

theorem skipStringLoop_none {front back : List UInt8} (hnul : 0 ∉ back) (ch : UInt8) {child : Child}
    (hbytes : childBytes child = front ++ back) (h : Bytewise (front.length + back.length) child)
    (hended : Ended (childDrop child (front.length + back.length))) :
    (skipStringLoop (childSize (childDrop child front.length) + 1) ch
      (childDrop child front.length)).1 = false := by
  have hlong : front.length ≤ (childBytes child).length := by
    rw [hbytes, List.length_append]
    exact Nat.le_add_right _ _
  have hback : childBytes (childDrop child front.length) = back ++ [] := by
    rw [childBytes_drop, hbytes, List.drop_left, List.append_nil]
  obtain ⟨left, ch', hloop, -⟩ := skipStringLoop_skips back [] hnul _ ch (Nat.lt_succ_self _) hback
    (h.drop hlong)
  rw [childDrop_drop] at hloop
  rw [hloop]
  exact skipStringLoop_ended left ch' hended

/-- A string of 4095 bytes or more is read exactly only if the last place of
the buffer happens not to be 0 before; the place is looked at as if it had
been written. -/
theorem gzip_string_exact_iff (stack : Nat → UInt8) (string : List UInt8) (hnul : 0 ∉ string) :
    (∀ (child : Child) (rest : List UInt8), childBytes child = string ++ 0 :: rest →
      Bytewise (string.length + 1) child →
      (readGzipString stack child = (some (string.take (maxGzipHeaderString - 1)),
          childDrop child (string.length + 1)) ↔
        string.length < maxGzipHeaderString - 1 ∨ stack (maxGzipHeaderString - 1) ≠ 0)) ∧
    ∀ child : Child, childBytes child = string → Bytewise string.length child →
      Ended (childDrop child string.length) →
      ((readGzipString stack child).1 = none ↔
        string.length < maxGzipHeaderString - 1 ∨ stack (maxGzipHeaderString - 1) ≠ 0) := by
  by_cases hlen : string.length < maxGzipHeaderString - 1
  · refine ⟨?_, ?_⟩
    · intro child rest hbytes h
      rw [List.take_of_length_le (Nat.le_of_lt hlen), readGzipString_string stack hnul hlen hbytes h]
      exact iff_of_true rfl (.inl hlen)
    · intro child hbytes h hended
      exact iff_of_true (readGzipString_ended stack hnul hlen hbytes h hended) (.inl hlen)
  · obtain ⟨front, back, rfl, hfront⟩ : ∃ front back, string = front ++ back ∧
        front.length = maxGzipHeaderString - 1 :=
      ⟨string.take (maxGzipHeaderString - 1), string.drop (maxGzipHeaderString - 1),
        (List.take_append_drop _ _).symm, by rw [List.length_take]; omega⟩
    rw [List.mem_append, not_or] at hnul
    refine ⟨?_, ?_⟩
    · intro child rest hbytes h
      rw [List.append_assoc] at hbytes
      rw [List.length_append, Nat.add_assoc] at h
      have hfull := readGzipString_full stack hnul.1 hfront hbytes h.take
      have htake : (front ++ back).take (maxGzipHeaderString - 1) = front := by
        rw [← hfront, List.take_left]
      rw [hfull, htake, List.length_append, Nat.add_assoc, skipStringLoop_rest hnul.2 _ hbytes h]
      by_cases hcell : stack (maxGzipHeaderString - 1) = 0
      · rw [if_pos hcell]
        refine iff_of_false ?_ (by rw [← List.length_append]; simp only [hlen, hcell]; simp)
        intro hsame
        have hdrop := congrArg (List.length ∘ childBytes) (Prod.mk.inj hsame).2
        simp only [Function.comp_apply, childBytes_drop, List.length_drop, hbytes, List.length_append,
          List.length_cons] at hdrop
        omega
      · rw [if_neg hcell]
        exact iff_of_true rfl (.inr hcell)
    · intro child hbytes h hended
      rw [List.length_append] at h hended
      have hfull := readGzipString_full stack hnul.1 hfront hbytes h.take
      have hskip := skipStringLoop_none hnul.2 (stack maxGzipHeaderString) hbytes h hended
      rw [hfull]
      by_cases hcell : stack (maxGzipHeaderString - 1) = 0
      · rw [if_pos hcell]
        exact iff_of_false (by simp) (by simp only [hlen, hcell]; simp)
      · rw [if_neg hcell]
        simp only [hskip, Bool.false_eq_true, ↓reduceIte, true_iff]
        exact .inr hcell

theorem gzip_string_exact_iff_short :
    readGzipString (fun _ => 0) [.normal [97], .normal [98, 0, 7]] = (some [97, 98], [.normal [7]]) ∧
      (readGzipString (fun _ => 0) [.normal [97], .normal [98]]).1 = none := by
  have hall := gzip_string_exact_iff (fun _ => 0) [97, 98] (by decide)
  refine ⟨?_, ?_⟩
  · exact (hall.1 [.normal [97], .normal [98, 0, 7]] [7] rfl
      ⟨97, _, rfl, 98, _, rfl, 0, _, rfl, trivial⟩).mpr (.inl (by decide))
  · exact (hall.2 [.normal [97], .normal [98]] rfl ⟨97, _, rfl, 98, _, rfl, trivial⟩
      (by intro data h; cases h)).mpr (.inl (by decide))

theorem readGzipString_cleared {front : List UInt8} (hnul : 0 ∉ front)
    (hlen : front.length = maxGzipHeaderString - 1) (more : List UInt8) :
    readGzipString (fun _ => 0) [.normal (front ++ more)] =
      (some front, childDrop [.normal (front ++ more)] front.length) := by
  have hpos : 0 < front.length := by
    rw [hlen]
    decide
  have hsolid : Solid [.normal (front ++ more)] := by
    intro answer hanswer
    obtain rfl := List.mem_singleton.mp hanswer
    refine ⟨_, rfl, List.ne_nil_of_length_pos ?_⟩
    rw [List.length_append]
    omega
  have hbytes : childBytes [.normal (front ++ more)] = front ++ more := by
    rw [childBytes_cons, childBytes_nil, List.append_nil, answerBytes]
  have hle : front.length ≤ (childBytes [.normal (front ++ more)]).length := by
    rw [hbytes, List.length_append]
    exact Nat.le_add_right _ _
  rw [readGzipString_full (fun _ => 0) hnul hlen hbytes (hsolid.bytewise hle), if_pos rfl]

/-- The NUL of a string of 4095 bytes stays in the child, and a child that ends
with such a string is not noticed. -/
theorem gzip_string_not_exact :
    readGzipString (fun _ => 0) [.normal (List.replicate 4095 97 ++ [0, 7])] ≠
        (some (List.replicate 4095 97), [.normal [7]]) ∧
      (readGzipString (fun _ => 0) [.normal (List.replicate 4095 97)]).1 ≠ none := by
  have hnul : (0 : UInt8) ∉ List.replicate 4095 97 := by
    intro h
    exact absurd (List.eq_of_mem_replicate h) (by decide)
  have hlen : (List.replicate 4095 (97 : UInt8)).length = maxGzipHeaderString - 1 :=
    List.length_replicate
  refine ⟨?_, ?_⟩
  · rw [readGzipString_cleared hnul hlen]
    intro hsame
    have hleft := congrArg childBytes (Prod.mk.inj hsame).2
    rw [childBytes_drop, childBytes_cons, childBytes_nil, List.append_nil, answerBytes,
      List.drop_left] at hleft
    exact absurd hleft (by decide)
  · have hend := readGzipString_cleared hnul hlen []
    rw [List.append_nil] at hend
    rw [hend]
    exact Option.some_ne_none _

end Libzorpll.GzipString
