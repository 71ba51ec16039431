import Libzorpll.CString
import Libzorpll.Rounds
import Mathlib.Data.List.DropRight

/-! z_format_text_dump, and the buffers of which it shows every line. -/

namespace Libzorpll.TextDump

open CString Rounds

inductive Halt
  | outOfBounds
  | endless
  deriving DecidableEq

def cr : UInt8 := 13

def lf : UInt8 := 10

/-- sizeof(line) -/
def lineSize : Nat := 1024

/-- What is ahead in the buffer, the array of the line and what is logged. -/
structure Dump where
  bufc : List UInt8
  len : Nat
  line : List UInt8
  logged : List (List UInt8) := []

/-- The loop that counts the bytes of a line. -/
def scanLine : Nat → List UInt8 → Except Halt Nat
  | 0, _ => .ok 0
  | _ + 1, [] => .error .outOfBounds
  | left + 1, c :: p => if c = 0 ∨ c = cr ∨ c = lf then .ok 0 else (scanLine left p).map (· + 1)

/-- The number of characters to dump. -/
def dumpCount (nl len : Nat) : Nat :=
  let i := if nl < len then nl else nl - 1
  if lineSize ≤ i then lineSize - 1 else i

/-- memcpy(line, bufc, i), and the NUL behind it. -/
def copyLine (line bufc : List UInt8) (i : Nat) : Except Halt (List UInt8) :=
  if line.length < i ∨ bufc.length < i then .error .outOfBounds
  else if line.length ≤ i then .error .outOfBounds
  else .ok ((bufc.take i ++ line.drop i).set i 0)

def skipByte (c : UInt8) (bufc : List UInt8) (len : Nat) : Except Halt (List UInt8 × Nat) :=
  if 0 < len then
    match bufc with
    | [] => .error .outOfBounds
    | b :: p => if b = c then .ok (p, len - 1) else .ok (b :: p, len)
  else .ok (bufc, len)

def logLine (line : List UInt8) : Except Halt (List UInt8) :=
  match string line with
  | none => .error .outOfBounds
  | some text => .ok text

def dumpRound (d : Dump) : Except Halt (Option Unit × Dump) :=
  if 0 < d.len then do
    let nl ← scanLine d.len d.bufc
    let line ← copyLine d.line d.bufc (dumpCount nl d.len)
    let text ← logLine line
    let (bufc, len) ← skipByte cr (d.bufc.drop nl) (d.len - nl)
    let (bufc, len) ← skipByte lf bufc len
    .ok (none, ⟨bufc, len, line, d.logged ++ [text]⟩)
  else .ok (some (), d)

/-- The lines that are logged. The array is not initialised. -/
def zFormatTextDump (fuel : Nat) (line buf : List UInt8) : Except Halt (List (List UInt8)) :=
  (Run.loop dumpRound .endless fuel ⟨buf, buf.length, line, []⟩).map fun (_, d) => d.logged

/-! The lines of a text -/

def inLine (c : UInt8) : Bool := c != cr && c != lf

/-- Behind CR LF, CR or LF. -/
def behindEnd : List UInt8 → List UInt8
  | c :: d :: s => if c = cr ∧ d = lf then s else d :: s
  | _ => []

theorem behindEnd_nil : behindEnd [] = [] := rfl

theorem behindEnd_lt {s : List UInt8} (h : s ≠ []) : (behindEnd s).length < s.length := by
  match s with
  | [] => exact (h rfl).elim
  | [c] => exact Nat.zero_lt_one
  | c :: d :: s =>
      rw [behindEnd]
      split
      · exact Nat.lt_succ_of_lt (Nat.lt_succ_self _)
      · exact Nat.lt_succ_self _

theorem behindEnd_suffix (s : List UInt8) : behindEnd s <:+ s := by
  match s with
  | [] => exact List.suffix_refl []
  | [c] => exact List.nil_suffix
  | c :: d :: s =>
      rw [behindEnd]
      split
      · exact (List.suffix_cons d s).trans (List.suffix_cons c (d :: s))
      · exact List.suffix_cons c (d :: s)

def textLines (s : List UInt8) : List (List UInt8) :=
  if s = [] then [] else s.takeWhile inLine :: textLines (behindEnd (s.dropWhile inLine))
termination_by s.length
decreasing_by
  rename_i hs
  have hle := (List.dropWhile_suffix (l := s) inLine).length_le
  by_cases hend : s.dropWhile inLine = []
  · rw [hend]
    exact List.length_pos_of_ne_nil hs
  · exact Nat.lt_of_lt_of_le (behindEnd_lt hend) hle

/-- The last line, if nothing ends it. -/
def openLine (s : List UInt8) : List UInt8 := s.rtakeWhile inLine

/-- The call comes back and, for a text without a NUL, has logged its lines,
each cut to the bytes that fit. -/
def ShowsEvery (line buf : List UInt8) : Prop :=
  ∃ fuel logged, zFormatTextDump fuel line buf = .ok logged ∧
    (0 ∉ buf → logged = (textLines buf).map (List.take (lineSize - 1)))

variable {s w e : List UInt8} {c : UInt8} {line : List UInt8} {logged : List (List UInt8)}

/-! One round -/

/-- Bytes that the scan goes over. -/
def Scanned (w : List UInt8) : Prop := ∀ b ∈ w, b ≠ 0 ∧ inLine b = true

/-- What it stops at. -/
def Stops (e : List UInt8) : Prop := ∀ c ∈ e.head?, c = 0 ∨ inLine c = false

theorem inLine_iff (c : UInt8) : inLine c = true ↔ c ≠ cr ∧ c ≠ lf := by
  rw [inLine, Bool.and_eq_true, bne_iff_ne, bne_iff_ne]

theorem scanLine_eq (hw : Scanned w) (he : Stops e) : scanLine (w ++ e).length (w ++ e) = .ok w.length := by
  induction w with
  | nil =>
      cases e with
      | nil => rfl
      | cons c e =>
          have hc : c = 0 ∨ c = cr ∨ c = lf := by
            refine (he c rfl).imp_right fun h => ?_
            by_contra hnot
            rw [not_or] at hnot
            exact Bool.eq_false_iff.mp h ((inLine_iff c).mpr hnot)
          exact if_pos hc
  | cons b w ih =>
      obtain ⟨hb, hw⟩ := List.forall_mem_cons.mp hw
      have hnot : ¬(b = 0 ∨ b = cr ∨ b = lf) := by
        have hends := (inLine_iff b).mp hb.2
        rintro (h | h | h)
        · exact hb.1 h
        · exact hends.1 h
        · exact hends.2 h
      change (if b = 0 ∨ b = cr ∨ b = lf then _ else (scanLine (w ++ e).length (w ++ e)).map (· + 1)) = _
      rw [if_neg hnot, ih hw]
      rfl

/-- The line is a string in its array. -/
theorem copyLine_ok {i : Nat} (hline : line.length = lineSize) (hs : i ≤ s.length) (hi : i < lineSize)
    (hzero : 0 ∉ s.take i) :
    ∃ line', copyLine line s i = .ok line' ∧ line'.length = lineSize ∧ logLine line' = .ok (s.take i) := by
  have hlen : (s.take i).length = i := List.length_take_of_le hs
  have hcopied : copyLine line s i = .ok (s.take i ++ 0 :: line.drop (i + 1)) := by
    rw [copyLine, if_neg (by omega), if_neg (by omega)]
    have hdrop : line.drop i = line.get ⟨i, by omega⟩ :: line.drop (i + 1) := List.drop_eq_getElem_cons (by omega)
    rw [List.set_append_right _ _ (by omega), hlen, Nat.sub_self, hdrop, List.set_cons_zero]
  refine ⟨_, hcopied, ?_, ?_⟩
  · rw [List.length_append, hlen, List.length_cons, List.length_drop]
    omega
  · rw [logLine, string_append hzero]

def dropByte (c : UInt8) (s : List UInt8) : List UInt8 := if s.head? = some c then s.tail else s

theorem skipByte_eq (c : UInt8) (s : List UInt8) :
    skipByte c s s.length = .ok (dropByte c s, (dropByte c s).length) := by
  cases s with
  | nil => rfl
  | cons b s =>
      have hhead : (b :: s).head? = some c ↔ b = c := by rw [List.head?_cons, Option.some.injEq]
      have hpos : 0 < (b :: s).length := Nat.zero_lt_succ _
      rw [skipByte, if_pos hpos, dropByte]
      simp only [hhead]
      split
      · rfl
      · rfl

/-- Where the next line begins. -/
def next (e : List UInt8) : List UInt8 := dropByte lf (dropByte cr e)

theorem next_of_end (hc : inLine c = false) : next (c :: e) = behindEnd (c :: e) := by
  have hc : c = cr ∨ c = lf := by
    by_contra hnot
    rw [not_or] at hnot
    exact Bool.eq_false_iff.mp hc ((inLine_iff c).mpr hnot)
  rcases hc with rfl | rfl
  · cases e with
    | nil => rfl
    | cons d e =>
        change dropByte lf (d :: e) = if cr = cr ∧ d = lf then e else d :: e
        simp [dropByte]
  · cases e with
    | nil => rfl
    | cons d e =>
        change dropByte lf (lf :: d :: e) = if lf = cr ∧ d = lf then e else d :: e
        rw [if_neg fun h => absurd h.1 (by decide)]
        rfl

/-- The state in front of these bytes. -/
def ahead (s line : List UInt8) (logged : List (List UInt8)) : Dump := ⟨s, s.length, line, logged⟩

/-- What is logged of a line: all but the last byte of one that nothing ends. -/
def shown (w e : List UInt8) : List UInt8 :=
  w.take (min (if e = [] then w.length - 1 else w.length) (lineSize - 1))

theorem dumpCount_eq (w e : List UInt8) :
    dumpCount w.length (w ++ e).length = min (if e = [] then w.length - 1 else w.length) (lineSize - 1) := by
  have hmore : w.length < (w ++ e).length ↔ ¬e = [] := by
    rw [List.length_append, ← ne_eq, ← List.length_pos_iff]
    omega
  rw [dumpCount]
  simp only [hmore, ite_not]
  generalize (if e = [] then w.length - 1 else w.length) = i
  rw [lineSize]
  split
  · omega
  · omega

theorem dump_round (logged : List (List UInt8)) (hw : Scanned w) (he : Stops e) (hsome : w ++ e ≠ [])
    (hline : line.length = lineSize) :
    ∃ line', line'.length = lineSize ∧
      Next dumpRound (ahead (w ++ e) line logged) (ahead (next e) line' (logged ++ [shown w e])) := by
  have hpos : 0 < (ahead (w ++ e) line logged).len := List.length_pos_of_ne_nil hsome
  have hcount := dumpCount_eq w e
  obtain ⟨i, hi⟩ : ∃ i, i = dumpCount w.length (w ++ e).length := ⟨_, rfl⟩
  rw [← hi] at hcount
  have hle : i ≤ w.length := by
    rw [hcount]
    split
    · omega
    · omega
  have hlt : i < lineSize := by
    rw [hcount]
    exact Nat.lt_of_le_of_lt (Nat.min_le_right _ _) (by decide)
  have htake : (w ++ e).take i = shown w e := by
    rw [List.take_append_of_le_length hle, hcount, shown]
  have hzero : 0 ∉ (w ++ e).take i := by
    rw [List.take_append_of_le_length hle]
    exact fun h => (hw 0 (List.mem_of_mem_take h)).1 rfl
  have hroom : i ≤ (w ++ e).length := by
    rw [List.length_append]
    omega
  obtain ⟨line', hcopy, hline', hlog⟩ := copyLine_ok hline hroom hlt hzero
  have hlen : (w ++ e).length - w.length = e.length := by rw [List.length_append, Nat.add_sub_cancel_left]
  refine ⟨line', hline', ?_⟩
  rw [Next, dumpRound, if_pos hpos]
  change (scanLine (w ++ e).length (w ++ e) >>= fun nl =>
    copyLine line (w ++ e) (dumpCount nl (w ++ e).length) >>= fun line =>
      logLine line >>= fun text =>
        skipByte cr ((w ++ e).drop nl) ((w ++ e).length - nl) >>= fun (bufc, len) =>
          skipByte lf bufc len >>= fun (bufc, len) =>
            Except.ok (none, (⟨bufc, len, line, logged ++ [text]⟩ : Dump))) = _
  rw [scanLine_eq hw he, Run.ok_bind, ← hi, hcopy, Run.ok_bind, hlog, Run.ok_bind, List.drop_left, hlen, skipByte_eq,
    Run.ok_bind]
  simp only [skipByte_eq, Run.ok_bind]
  rw [htake]
  rfl

/-- Every text begins with the bytes of a line. -/
theorem scanned_or_split (s : List UInt8) : ∃ w e, s = w ++ e ∧ Scanned w ∧ Stops e := by
  induction s with
  | nil => exact ⟨[], [], rfl, fun b hb => (List.not_mem_nil hb).elim, by rintro c ⟨⟩⟩
  | cons c s ih =>
      by_cases hc : c = 0 ∨ inLine c = false
      · refine ⟨[], c :: s, rfl, fun b hb => (List.not_mem_nil hb).elim, ?_⟩
        rintro d ⟨⟩
        exact hc
      · rw [not_or, Bool.not_eq_false] at hc
        obtain ⟨w, e, rfl, hw, he⟩ := ih
        exact ⟨c :: w, e, rfl, List.forall_mem_cons.mpr ⟨hc, hw⟩, he⟩

/-! All of them -/

theorem next_lt (h : e ≠ []) (he : Stops e) (hzero : e.head? ≠ some 0) : (next e).length < e.length := by
  obtain ⟨c, e, rfl⟩ := List.exists_cons_of_ne_nil h
  have hc : inLine c = false := (he c rfl).resolve_left fun h => hzero (by rw [h]; rfl)
  rw [next_of_end hc]
  exact behindEnd_lt h

/-- At a NUL there is no way on. -/
theorem endless_of_nul (hline : line.length = lineSize) : Endless dumpRound (ahead (0 :: s) line logged) := by
  have hstart : ∃ line' logged', line'.length = lineSize ∧ ahead (0 :: s) line logged = ahead (0 :: s) line' logged' :=
    ⟨line, logged, hline, rfl⟩
  refine @endless_induct _ _ _ _ _
    (fun d => ∃ line' logged', line'.length = lineSize ∧ d = ahead (0 :: s) line' logged') hstart ?_
  rintro d ⟨line', logged', hline', rfl⟩
  have hnone : Scanned [] := fun b hb => (List.not_mem_nil hb).elim
  have hstops : Stops (0 :: s) := by
    rintro c ⟨⟩
    exact .inl rfl
  obtain ⟨line'', hline'', hnext⟩ := dump_round logged' hnone hstops (List.cons_ne_nil 0 s) hline'
  exact ⟨_, hnext, line'', _, hline'', rfl⟩

theorem mem_dropByte (hc : c ≠ 0) (h : 0 ∈ s) : 0 ∈ dropByte c s := by
  cases s with
  | nil => cases h
  | cons b s =>
      rw [dropByte]
      split
      · rename_i hhead
        refine (List.mem_cons.mp h).resolve_left ?_
        rintro rfl
        exact hc (Option.some.inj hhead).symm
      · exact h

/-- A NUL is never left behind. -/
theorem endless_of_mem (hzero : 0 ∈ s) (hline : line.length = lineSize) : Endless dumpRound (ahead s line logged) := by
  induction hn : s.length using Nat.strong_induction_on generalizing s line logged with
  | h n ih =>
      obtain ⟨w, e, rfl, hw, he⟩ := scanned_or_split s
      have hmem : 0 ∈ e := (List.mem_append.mp hzero).resolve_left fun h => (hw 0 h).1 rfl
      have hne : e ≠ [] := List.ne_nil_of_mem hmem
      obtain ⟨line', hline', hnext⟩ :=
        dump_round logged hw he (List.append_ne_nil_of_right_ne_nil w hne) hline
      refine .before (.single hnext) ?_
      by_cases hhead : e.head? = some 0
      · obtain ⟨c, e, rfl⟩ := List.exists_cons_of_ne_nil hne
        obtain rfl : c = 0 := Option.some.inj hhead
        exact endless_of_nul hline'
      · have hlt := next_lt hne he hhead
        have hmem' : 0 ∈ next e := mem_dropByte (by decide) (mem_dropByte (by decide) hmem)
        rw [List.length_append] at hn
        exact ih (next e).length (by omega) hmem' hline' rfl

theorem textLines_nil : textLines [] = [] := by
  rw [textLines]
  rfl

theorem textLines_append (hw : Scanned w) (he : ∀ c ∈ e.head?, inLine c = false) (hsome : w ++ e ≠ []) :
    textLines (w ++ e) = w :: textLines (behindEnd e) := by
  have hall : ∀ b ∈ w, inLine b = true := fun b hb => (hw b hb).2
  have hsplit : (w ++ e).takeWhile inLine = w ∧ (w ++ e).dropWhile inLine = e := by
    rw [List.takeWhile_append_of_pos hall, List.dropWhile_append_of_pos hall]
    cases e with
    | nil => exact ⟨List.append_nil w, rfl⟩
    | cons c e =>
        have hc := Bool.eq_false_iff.mp (he c rfl)
        exact ⟨by rw [List.takeWhile_cons_of_neg hc, List.append_nil], List.dropWhile_cons_of_neg hc⟩
  rw [textLines, if_neg hsome, hsplit.1, hsplit.2]

theorem openLine_scanned (hw : Scanned w) : openLine w = w :=
  List.rtakeWhile_eq_self_iff.mpr fun b hb => (hw b hb).2

/-- What ends a line ends all that is in front of it. -/
theorem openLine_append (w s : List UInt8) (hc : inLine c = false) : openLine (w ++ c :: s) = openLine s := by
  induction s using List.reverseRecOn with
  | nil => exact List.rtakeWhile_concat_neg inLine w c (Bool.eq_false_iff.mp hc)
  | append_singleton s b ih =>
      have hassoc : w ++ c :: (s ++ [b]) = w ++ c :: s ++ [b] := by rw [List.append_assoc, List.cons_append]
      rw [openLine] at ih ⊢
      rw [hassoc, List.rtakeWhile_concat, ih, openLine, openLine, List.rtakeWhile_concat]

theorem openLine_behindEnd (w : List UInt8) (hc : inLine c = false) :
    openLine (w ++ c :: s) = openLine (behindEnd (c :: s)) := by
  rw [openLine_append w s hc]
  cases s with
  | nil => rfl
  | cons d s =>
      rw [behindEnd]
      split
      · rename_i hboth
        exact openLine_append [] s (by rw [hboth.2]; rfl)
      · rfl

/-- Nothing of the last line is missing. -/
def Complete (s : List UInt8) : Prop := openLine s = [] ∨ lineSize ≤ (openLine s).length

theorem shown_open (hsome : w ≠ []) : shown w [] = w.take (lineSize - 1) ↔ lineSize ≤ w.length := by
  have hpos := List.length_pos_of_ne_nil hsome
  rw [shown, if_pos rfl, List.take_eq_take_iff]
  rw [lineSize]
  omega

theorem shown_ended (hsome : e ≠ []) : shown w e = w.take (lineSize - 1) := by
  rw [shown, if_neg hsome, List.take_eq_take_iff]
  omega

theorem ends_of_text (logged : List (List UInt8)) (hzero : 0 ∉ s) (hline : line.length = lineSize) :
    ∃ line' ls, Ends dumpRound (ahead s line logged) () (ahead [] line' (logged ++ ls)) ∧
      (ls = (textLines s).map (List.take (lineSize - 1)) ↔ Complete s) := by
  induction hn : s.length using Nat.strong_induction_on generalizing s line logged with
  | h n ih =>
      by_cases hnil : s = []
      · rw [hnil, textLines_nil]
        refine ⟨line, [], ?_, iff_of_true rfl (.inl rfl)⟩
        rw [List.append_nil]
        exact ends_now rfl
      · obtain ⟨w, e, rfl, hw, he⟩ := scanned_or_split s
        rw [List.mem_append, not_or] at hzero
        have hends : ∀ c ∈ e.head?, inLine c = false := by
          intro c hc
          refine (he c hc).resolve_left ?_
          rintro rfl
          exact hzero.2 (List.mem_of_mem_head? hc)
        obtain ⟨line', hline', hnext⟩ := dump_round logged hw he hnil hline
        rw [textLines_append hw hends hnil]
        cases e with
        | nil =>
            refine ⟨line', [shown w []], .before (.single hnext) (ends_now rfl), ?_⟩
            rw [List.append_nil] at hnil ⊢
            rw [behindEnd_nil, textLines_nil, List.map_singleton, List.singleton_inj, shown_open hnil, Complete,
              openLine_scanned hw, or_iff_right hnil]
        | cons c e =>
            have hc := hends c rfl
            have hlt := behindEnd_lt (List.cons_ne_nil c e)
            have hbehind : 0 ∉ behindEnd (c :: e) := fun h => hzero.2 ((behindEnd_suffix (c :: e)).mem h)
            rw [List.length_append] at hn
            rw [next_of_end hc] at hnext
            obtain ⟨line'', ls, hrest, hls⟩ := ih (behindEnd (c :: e)).length (by omega)
              (logged ++ [shown w (c :: e)]) hbehind hline' rfl
            refine ⟨line'', shown w (c :: e) :: ls, ?_, ?_⟩
            · rw [List.append_assoc] at hrest
              exact hrest.before (.single hnext)
            · rw [List.map_cons, shown_ended (List.cons_ne_nil c e), List.cons_inj_right, hls, Complete, Complete,
                openLine_behindEnd w hc]

theorem logged_iff (line buf : List UInt8) (logged : List (List UInt8)) :
    (∃ fuel, zFormatTextDump fuel line buf = .ok logged) ↔
      ∃ d, Ends dumpRound (ahead buf line []) () d ∧ d.logged = logged := by
  simp only [ends_iff_loop Halt.endless]
  constructor
  · rintro ⟨fuel, h⟩
    obtain ⟨⟨_, d⟩, hloop, heq⟩ := Run.map_ok h
    exact ⟨d, ⟨fuel, hloop⟩, heq⟩
  · rintro ⟨d, ⟨fuel, hloop⟩, rfl⟩
    refine ⟨fuel, ?_⟩
    rw [zFormatTextDump]
    change (Run.loop dumpRound .endless fuel (ahead buf line [])).map _ = _
    rw [hloop]
    rfl

theorem showsEvery_complete {buf : List UInt8} (hline : line.length = lineSize) (h : ShowsEvery line buf) :
    0 ∉ buf ∧ Complete buf := by
  obtain ⟨fuel, logged, hcall, heq⟩ := h
  obtain ⟨d, hends, rfl⟩ := (logged_iff line buf logged).mp ⟨fuel, hcall⟩
  have hzero : 0 ∉ buf := fun h => not_ends_of_endless (endless_of_mem h hline) hends
  obtain ⟨line', ls, hends', hls⟩ := ends_of_text [] hzero hline
  obtain ⟨-, rfl⟩ := hends.unique hends'
  exact ⟨hzero, hls.mp (heq hzero)⟩

/-- z_format_text_dump shows every line of a text in which there is no NUL and
the last line either ends or is too long for the array. -/
theorem shows_every_iff (line buf : List UInt8) (hline : line.length = lineSize) :
    ShowsEvery line buf ↔ 0 ∉ buf ∧ Complete buf := by
  refine ⟨showsEvery_complete hline, ?_⟩
  rintro ⟨hzero, hcomplete⟩
  obtain ⟨line', ls, hends, hls⟩ := ends_of_text [] hzero hline
  obtain ⟨fuel, hcall⟩ := (logged_iff line buf _).mpr ⟨_, hends, rfl⟩
  exact ⟨fuel, _, hcall, fun _ => hls.mpr hcomplete⟩

theorem shows_every_iff_two :
    ShowsEvery (List.replicate lineSize 0) [97, cr, lf, 98, lf] ↔
      0 ∉ [97, cr, lf, 98, lf] ∧ Complete [97, cr, lf, 98, lf] :=
  shows_every_iff (List.replicate lineSize 0) [97, cr, lf, 98, lf] List.length_replicate

/-- The last byte of a line that does not end is missing. -/
theorem not_shows_every : ¬∀ line buf, line.length = lineSize → ShowsEvery line buf := by
  intro h
  have hline : (List.replicate lineSize (0 : UInt8)).length = lineSize := List.length_replicate
  obtain ⟨-, hcomplete⟩ := showsEvery_complete hline (h _ [97] hline)
  have hopen : openLine [97] = [97] := by decide
  rw [Complete, hopen] at hcomplete
  rcases hcomplete with h | h
  · cases h
  · exact absurd h (by decide)

end Libzorpll.TextDump
