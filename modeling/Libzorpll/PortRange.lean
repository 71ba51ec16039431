import Libzorpll.CString
import Libzorpll.Rounds

/-! z_port_enabled, and the port ranges on which it follows its grammar. -/

namespace Libzorpll.PortRange

open CString Rounds

inductive Halt
  | outOfBounds
  | endless
  deriving DecidableEq

def comma : UInt8 := 44

def hyphen : UInt8 := 45

def reads {α : Type} : Option α → Except Halt α
  | none => .error .outOfBounds
  | some a => .ok a

/-- The second half of a round, behind the two numbers. The port is a guint. -/
def portMatch (port : UInt32) (portl porth : Int) (tmp : Ptr) : Except Halt (Option Bool × Ptr) := do
  let last ← reads (deref tmp)
  if last ≠ 0 ∧ last ≠ comma then return (some false, tmp)
  let tmp := if last ≠ 0 then tmp.tail else tmp
  let next ← reads (deref tmp)
  if last ≠ 0 ∧ next ≤ 48 ∧ 57 ≤ next then return (some false, tmp)
  if portl ≤ port.toNat ∧ port.toNat ≤ porth then return (some true, tmp)
  return (none, tmp)

def portRound (port : UInt32) (tmp : Ptr) : Except Halt (Option Bool × Ptr) := do
  let first ← reads (deref tmp)
  if first = 0 then return (some false, tmp)
  let (portl, tmp) ← reads (strtol tmp)
  let sep ← reads (deref tmp)
  if sep = hyphen then do
    let (porth, tmp) ← reads (strtol tmp.tail)
    portMatch port portl porth tmp
  else portMatch port portl portl tmp

def zPortEnabled (fuel : Nat) (portRange : Ptr) (port : UInt32) : Except Halt Bool := do
  let str ← reads (string portRange)
  if str.length = 0 then return false
  (Run.loop (portRound port) .endless fuel portRange).map Prod.fst

/-! The grammar -/

/-- A number in decimal digits. -/
def IsNumber (w : List UInt8) (n : Nat) : Prop :=
  w ≠ [] ∧ (∀ b ∈ w, isDigit b = true) ∧ n = decimalValue 0 w

/-- port[-port] -/
inductive IsInterval : List UInt8 → Nat → Nat → Prop
  | one {w : List UInt8} {n : Nat} (h : IsNumber w n) : IsInterval w n n
  | two {v w : List UInt8} {m n : Nat} (hlow : IsNumber v m) (hhigh : IsNumber w n) :
      IsInterval (v ++ hyphen :: w) m n

/-- port[-port](,port[-port])* -/
def WellFormed (s : List UInt8) : Prop := ∀ w ∈ s.splitOn comma, ∃ m n, IsInterval w m n

def Within (port : UInt32) (s : List UInt8) : Prop :=
  ∃ w ∈ s.splitOn comma, ∃ m n, IsInterval w m n ∧ m ≤ port.toNat ∧ port.toNat ≤ n

/-- The call comes back with what the grammar says. -/
def Agrees (s : List UInt8) (port : UInt32) : Prop :=
  ∃ fuel answer, zPortEnabled fuel (terminated s) port = .ok answer ∧
    (answer = true ↔ WellFormed s ∧ Within port s)

/-! What is read -/

/-- What strtol makes of a field, if it takes all of it. -/
def interval (w : List UInt8) : Option (Int × Int) :=
  let (portl, w) := number w
  match w with
  | [] => some (portl, portl)
  | c :: w =>
      if c = hyphen then
        let (porth, w) := number w
        if w = [] then some (portl, porth) else none
      else none

/-- One of the fields that are looked at has the port. The search ends at a
field that is not taken, and an empty field is none at the end of the string. -/
def Opens (port : UInt32) : List (List UInt8) → Prop
  | [] => False
  | [w] => w ≠ [] ∧ ∃ lo hi, interval w = some (lo, hi) ∧ lo ≤ port.toNat ∧ port.toNat ≤ hi
  | w :: ws => ∃ lo hi, interval w = some (lo, hi) ∧ ((lo ≤ port.toNat ∧ port.toNat ≤ hi) ∨ Opens port ws)

variable {s w : List UInt8} {port : UInt32} {c : UInt8}

theorem behind_end : Behind 0 := ⟨rfl, rfl, by decide⟩

theorem behind_comma : Behind comma := ⟨rfl, rfl, by decide⟩

/-- The number that a field begins with ends in the field. -/
theorem number_suffix (w : List UInt8) : (number w).2 <:+ w := by
  have hspace := List.dropWhile_suffix (l := w) isSpace
  have hfirst (t : List UInt8) : (if signOf t = true then t.tail else t) <:+ t := by
    split
    · exact List.tail_suffix t
    · exact List.suffix_refl t
  have hlast := ((List.dropWhile_suffix isDigit).trans (hfirst (w.dropWhile isSpace))).trans hspace
  rw [number]
  generalize (if signOf (w.dropWhile isSpace) = true then (w.dropWhile isSpace).tail else w.dropWhile isSpace) = first
    at hlast ⊢
  split
  · exact List.suffix_refl w
  · split
    · exact hlast
    · exact hlast

/-- What a round answers behind a field. -/
def answer (port : UInt32) (next : Ptr) : Option (Int × Int) → Option Bool → Ptr → Prop
  | none, r, _ => r = some false
  | some (lo, hi), r, u => if lo ≤ port.toNat ∧ port.toNat ≤ hi then r = some true else r = none ∧ u = next

/-- Where the next field begins. -/
def behind (c : UInt8) (tl : Ptr) : Ptr := if c = 0 then c :: tl else tl

theorem portMatch_more (port : UInt32) (lo hi : Int) (hzero : c ≠ 0) (hcomma : c ≠ comma) (tl : Ptr) :
    portMatch port lo hi (c :: tl) = .ok (some false, c :: tl) := by
  rw [portMatch]
  change (if c ≠ 0 ∧ c ≠ comma then _ else _) = _
  rw [if_pos ⟨hzero, hcomma⟩]
  rfl

theorem portMatch_end (port : UInt32) (lo hi : Int) (hc : c = 0 ∨ c = comma) {tl : Ptr} (htl : c = comma → tl ≠ []) :
    ∃ r u, portMatch port lo hi (c :: tl) = .ok (r, u) ∧ answer port (behind c tl) (some (lo, hi)) r u := by
  have hanswer (next : Ptr) : ∃ r u, (if lo ≤ port.toNat ∧ port.toNat ≤ hi then Except.ok (some true, next)
      else (Except.ok (none, next) : Except Halt (Option Bool × Ptr))) = .ok (r, u) ∧
        answer port next (some (lo, hi)) r u := by
    by_cases hport : lo ≤ port.toNat ∧ port.toNat ≤ hi
    · exact ⟨some true, next, if_pos hport, by rw [answer, if_pos hport]⟩
    · exact ⟨none, next, if_neg hport, by rw [answer, if_neg hport]; exact ⟨rfl, rfl⟩⟩
  rcases hc with rfl | rfl
  · exact hanswer (0 :: tl)
  · obtain ⟨d, tl, rfl⟩ := List.exists_cons_of_ne_nil (htl rfl)
    have hnever : ¬(comma ≠ 0 ∧ d ≤ 48 ∧ 57 ≤ d) := fun h => absurd (UInt8.le_trans h.2.2 h.2.1) (by decide)
    obtain ⟨r, u, heq, h⟩ := hanswer (d :: tl)
    refine ⟨r, u, ?_, h⟩
    rw [← heq]
    change (if comma ≠ 0 ∧ d ≤ 48 ∧ 57 ≤ d then _ else _) = _
    rw [if_neg hnever]
    rfl

/-- A round in front of the end. -/
theorem portRound_some (port : UInt32) {first : UInt8} (p : Ptr) (h : first ≠ 0) :
    portRound port (first :: p) = reads (strtol (first :: p)) >>= fun (portl, tmp) =>
      reads (deref tmp) >>= fun sep =>
        if sep = hyphen then reads (strtol tmp.tail) >>= fun (porth, tmp) => portMatch port portl porth tmp
        else portMatch port portl portl tmp :=
  if_neg h

theorem portRound_field (port : UInt32) (hw : 0 ∉ w ∧ comma ∉ w) (hc : c = 0 ∨ c = comma) (hsome : c = 0 → w ≠ [])
    {tl : Ptr} (htl : c = comma → tl ≠ []) :
    ∃ r u, portRound port (w ++ c :: tl) = .ok (r, u) ∧ answer port (behind c tl) (interval w) r u := by
  have hbehind : Behind c := by
    rcases hc with rfl | rfl
    · exact behind_end
    · exact behind_comma
  obtain ⟨first, p, heq, hfirst⟩ : ∃ first p, w ++ c :: tl = first :: p ∧ first ≠ 0 := by
    cases w with
    | nil => exact ⟨c, tl, rfl, fun hzero => hsome hzero rfl⟩
    | cons d w => exact ⟨d, w ++ c :: tl, rfl, fun hzero => hw.1 (by rw [hzero]; exact List.mem_cons_self)⟩
  have hrest {v : List UInt8} (hv : v <:+ w) : 0 ∉ v ∧ comma ∉ v := ⟨fun h => hw.1 (hv.mem h), fun h => hw.2 (hv.mem h)⟩
  have hsuffix := number_suffix w
  rw [heq, portRound_some port p hfirst, ← heq, strtol_field w hbehind, interval]
  rcases hnumber : number w with ⟨lo, v⟩
  rw [hnumber] at hsuffix
  cases v with
  | nil =>
      have hsep : c ≠ hyphen := by
        rcases hc with rfl | rfl
        · decide
        · decide
      obtain ⟨r, u, hmatch, h⟩ := portMatch_end port lo lo hc htl
      refine ⟨r, u, ?_, h⟩
      rw [← hmatch]
      exact if_neg hsep
  | cons d v =>
      have hd : 0 ∉ d :: v ∧ comma ∉ d :: v := hrest hsuffix
      rw [List.mem_cons, List.mem_cons, not_or, not_or] at hd
      by_cases hhyphen : d = hyphen
      · have hsuffix' := (number_suffix v).trans ((List.suffix_cons d v).trans hsuffix)
        have hgoes : (reads (some (lo, d :: v ++ c :: tl)) >>= fun (portl, tmp) =>
            reads (deref tmp) >>= fun sep =>
              if sep = hyphen then reads (strtol tmp.tail) >>= fun (porth, tmp) => portMatch port portl porth tmp
              else portMatch port portl portl tmp) =
            portMatch port lo (number v).1 ((number v).2 ++ c :: tl) := by
          change (if d = hyphen then reads (strtol (v ++ c :: tl)) >>= _ else _) = _
          rw [if_pos hhyphen, strtol_field v hbehind]
          rfl
        simp only [hgoes, if_pos hhyphen]
        rcases hnumber' : number v with ⟨hi, u⟩
        rw [hnumber'] at hsuffix'
        cases u with
        | nil => exact portMatch_end port lo hi hc htl
        | cons e u =>
            have he : 0 ∉ e :: u ∧ comma ∉ e :: u := hrest hsuffix'
            rw [List.mem_cons, List.mem_cons, not_or, not_or] at he
            exact ⟨_, _, portMatch_more port lo hi (Ne.symm he.1.1) (Ne.symm he.2.1) _, rfl⟩
      · simp only [if_neg hhyphen]
        refine ⟨some false, d :: (v ++ c :: tl), ?_, rfl⟩
        change (if d = hyphen then _ else portMatch port lo lo (d :: (v ++ c :: tl))) = _
        rw [if_neg hhyphen, portMatch_more port lo lo (Ne.symm hd.1.1) (Ne.symm hd.2.1)]

/-! The whole call -/

theorem opens_cons {ws : List (List UInt8)} (h : ws ≠ []) :
    Opens port (w :: ws) ↔
      ∃ lo hi, interval w = some (lo, hi) ∧ ((lo ≤ port.toNat ∧ port.toNat ≤ hi) ∨ Opens port ws) := by
  obtain ⟨v, ws, rfl⟩ := List.exists_cons_of_ne_nil h
  rfl

/-- A field, and what is said of the fields behind it. -/
theorem field_ends (port : UInt32) (hw : 0 ∉ w ∧ comma ∉ w) (hc : c = 0 ∨ c = comma) (hsome : c = 0 → w ≠ [])
    {tl : Ptr} (htl : c = comma → tl ≠ []) {P : Prop}
    (hnext : ∃ b u, Ends (portRound port) (behind c tl) b u ∧ (b = true ↔ P)) :
    ∃ b u, Ends (portRound port) (w ++ c :: tl) b u ∧
      (b = true ↔ ∃ lo hi, interval w = some (lo, hi) ∧ ((lo ≤ port.toNat ∧ port.toNat ≤ hi) ∨ P)) := by
  obtain ⟨r, u, hround, hanswer⟩ := portRound_field port hw hc hsome htl
  rcases hinterval : interval w with _ | ⟨lo, hi⟩
  · rw [hinterval] at hanswer
    obtain rfl : r = some false := hanswer
    refine ⟨false, u, ends_now hround, iff_of_false Bool.false_ne_true ?_⟩
    rintro ⟨_, _, ⟨⟩, _⟩
  · rw [hinterval, answer] at hanswer
    split at hanswer
    · rename_i hport
      rw [hanswer] at hround
      exact ⟨true, u, ends_now hround, iff_of_true rfl ⟨lo, hi, rfl, .inl hport⟩⟩
    · rename_i hport
      obtain ⟨rfl, rfl⟩ := hanswer
      obtain ⟨b, v, hends, hb⟩ := hnext
      refine ⟨b, v, hends.before (.single hround), hb.trans ⟨fun h => ⟨lo, hi, rfl, .inr h⟩, ?_⟩⟩
      rintro ⟨_, _, ⟨⟩, h | h⟩
      · exact (hport h).elim
      · exact h

/-- The loop comes to an end. -/
theorem ends_with (port : UInt32) (hs : 0 ∉ s) :
    ∃ b u, Ends (portRound port) (terminated s) b u ∧ (b = true ↔ Opens port (s.splitOn comma)) := by
  induction hn : s.length using Nat.strong_induction_on generalizing s with
  | h n ih =>
      have hover : ∃ b u, Ends (portRound port) (behind 0 []) b u ∧ (b = true ↔ False) :=
        ⟨false, [0], ends_now rfl, iff_of_false Bool.false_ne_true id⟩
      rcases plain_or_split (· == comma) hs with hplain | ⟨w, c, t, hw, hc, rfl⟩
      · have hcomma : comma ∉ s := fun hmem => by simpa using (hplain comma hmem).2
        rw [List.splitOn_eq_singleton hcomma]
        by_cases hnil : s = []
        · rw [hnil]
          exact ⟨false, [0], ends_now rfl, iff_of_false Bool.false_ne_true fun h => h.1 rfl⟩
        · have hends := field_ends port ⟨hs, hcomma⟩ (.inl rfl) (fun _ => hnil)
            (fun h => absurd h (by decide)) hover
          rw [← terminated] at hends
          simpa only [Opens, ne_eq, hnil, not_false_eq_true, true_and, or_false] using hends
      · obtain rfl : c = comma := by simpa using hc
        rw [List.mem_append, List.mem_cons, not_or, not_or] at hs
        have hcomma : comma ∉ w := fun hmem => by simpa using (hw comma hmem).2
        have hlen : t.length < n := by
          rw [← hn, List.length_append, List.length_cons]
          omega
        rw [List.splitOn_append_cons_self_of_not_mem hcomma, terminated_append]
        simp only [opens_cons (List.splitOn_ne_nil comma t)]
        exact field_ends port ⟨hs.1, hcomma⟩ (.inr rfl) (fun h => absurd h (by decide))
          (fun _ => List.append_ne_nil_of_right_ne_nil t (List.cons_ne_nil 0 [])) (ih t.length hlen hs.2.2 rfl)

/-- What the call answers. -/
theorem enabled_iff (port : UInt32) (hs : 0 ∉ s) (b : Bool) :
    (∃ fuel, zPortEnabled fuel (terminated s) port = .ok b) ↔ (b = true ↔ Opens port (s.splitOn comma)) := by
  obtain ⟨b', u, hends, hb'⟩ := ends_with port hs
  have hcall (fuel : Nat) : zPortEnabled fuel (terminated s) port =
      if s.length = 0 then .ok false else (Run.loop (portRound port) .endless fuel (terminated s)).map Prod.fst := by
    rw [zPortEnabled, string_terminated hs]
    rfl
  have hiff : (∃ fuel, zPortEnabled fuel (terminated s) port = .ok b) ↔ b = b' := by
    simp only [hcall]
    by_cases hnil : s.length = 0
    · obtain rfl := List.eq_nil_of_length_eq_zero hnil
      have hfalse : b' = false := Bool.eq_false_iff.mpr fun h => (hb'.mp h).1 rfl
      rw [hfalse]
      simp [eq_comm]
    · simp only [if_neg hnil]
      constructor
      · rintro ⟨fuel, hfuel⟩
        obtain ⟨⟨b'', v⟩, hloop, rfl⟩ := Run.map_ok hfuel
        exact (((ends_iff_loop Halt.endless).mpr ⟨fuel, hloop⟩).unique hends).1
      · rintro rfl
        obtain ⟨fuel, hloop⟩ := (ends_iff_loop Halt.endless).mp hends
        exact ⟨fuel, by rw [hloop]; rfl⟩
  rw [hiff, ← hb', Bool.eq_iff_iff]

/-! The range of the numbers -/

theorem number_of_isNumber {n : Nat} (h : IsNumber w n) {g : List UInt8} (hg : ∀ b ∈ g.head?, isDigit b = false) :
    number (w ++ g) = (min (2 ^ 63 - 1) (n : Int), g) := by
  obtain ⟨hsome, hdigits, rfl⟩ := h
  exact number_digits hsome hdigits hg

theorem number_whole {n : Nat} (h : IsNumber w n) : number w = (min (2 ^ 63 - 1) (n : Int), []) := by
  have hnumber := number_of_isNumber h (g := []) (by rintro b ⟨⟩)
  rwa [List.append_nil] at hnumber

/-- A long is large enough for every port. -/
theorem interval_of_isInterval {m n : Nat} (h : IsInterval w m n) :
    ∃ lo hi, interval w = some (lo, hi) ∧ ∀ port : UInt32, (lo ≤ port.toNat ∧ port.toNat ≤ hi) ↔
      m ≤ port.toNat ∧ port.toNat ≤ n := by
  refine ⟨min (2 ^ 63 - 1) m, min (2 ^ 63 - 1) n, ?_, fun port => ?_⟩
  · cases h with
    | one h => rw [interval, number_whole h]
    | @two v w m n hlow hhigh =>
        have hnumber := number_of_isNumber hlow (g := hyphen :: w) (by rintro b ⟨⟩; rfl)
        rw [interval, hnumber]
        simp only [if_true, number_whole hhigh]
  · have hport := port.toNat_lt
    omega

theorem within_iff {lo hi : Int} (h : ∃ m n, IsInterval w m n) (hinterval : interval w = some (lo, hi)) :
    (lo ≤ port.toNat ∧ port.toNat ≤ hi) ↔ ∃ m n, IsInterval w m n ∧ m ≤ port.toNat ∧ port.toNat ≤ n := by
  have hevery {m n : Nat} (hw : IsInterval w m n) :
      (lo ≤ port.toNat ∧ port.toNat ≤ hi) ↔ m ≤ port.toNat ∧ port.toNat ≤ n := by
    obtain ⟨lo', hi', heq, hport⟩ := interval_of_isInterval hw
    rw [hinterval] at heq
    cases heq
    exact hport port
  obtain ⟨m, n, hw⟩ := h
  constructor
  · exact fun hport => ⟨m, n, hw, (hevery hw).mp hport⟩
  · rintro ⟨m', n', hw', hport⟩
    exact (hevery hw').mpr hport

theorem ne_nil_of_isInterval {m n : Nat} (h : IsInterval w m n) : w ≠ [] := by
  cases h with
  | one h => exact h.1
  | two hlow hhigh => exact List.append_ne_nil_of_left_ne_nil hlow.1 _

/-- On the ranges of the grammar the search finds the interval. -/
theorem opens_of_intervals (port : UInt32) {ws : List (List UInt8)} (hws : ∀ w ∈ ws, ∃ m n, IsInterval w m n) :
    Opens port ws ↔ ∃ w ∈ ws, ∃ m n, IsInterval w m n ∧ m ≤ port.toNat ∧ port.toNat ≤ n := by
  induction ws with
  | nil => exact iff_of_false id fun ⟨_, hmem, _⟩ => List.not_mem_nil hmem
  | cons w ws ih =>
      obtain ⟨hw, hws⟩ := List.forall_mem_cons.mp hws
      obtain ⟨m, n, hinterval⟩ := hw
      obtain ⟨lo, hi, heq, -⟩ := interval_of_isInterval hinterval
      have hread {P : Prop} : (∃ lo hi, interval w = some (lo, hi) ∧ ((lo ≤ port.toNat ∧ port.toNat ≤ hi) ∨ P)) ↔
          (∃ m n, IsInterval w m n ∧ m ≤ port.toNat ∧ port.toNat ≤ n) ∨ P := by
        rw [← within_iff ⟨m, n, hinterval⟩ heq]
        constructor
        · rintro ⟨lo', hi', heq', h⟩
          rw [heq] at heq'
          cases heq'
          exact h
        · exact fun h => ⟨lo, hi, heq, h⟩
      simp only [List.mem_cons, exists_eq_or_imp]
      cases ws with
      | nil =>
          have hone := hread (P := False)
          simp only [or_false] at hone
          rw [Opens, and_iff_right (ne_nil_of_isInterval hinterval), hone]
          exact (or_iff_left fun ⟨_, hmem, _⟩ => List.not_mem_nil hmem).symm
      | cons v ws =>
          rw [opens_cons (List.cons_ne_nil v ws), hread, ih hws]

theorem agrees_iff_opens (hs : 0 ∉ s) :
    Agrees s port ↔ (Opens port (s.splitOn comma) ↔ WellFormed s ∧ Within port s) := by
  constructor
  · rintro ⟨fuel, b, hcall, hb⟩
    rw [← (enabled_iff port hs b).mp ⟨fuel, hcall⟩, hb]
  · intro h
    obtain ⟨b, u, -, hb⟩ := ends_with port hs
    obtain ⟨fuel, hcall⟩ := (enabled_iff port hs b).mpr hb
    exact ⟨fuel, b, hcall, hb.trans h⟩

/-- Where z_port_enabled follows its grammar: on the strings that have this
form and on those of which it opens no field. -/
theorem port_enabled_iff (s : List UInt8) (port : UInt32) (hs : 0 ∉ s) :
    Agrees s port ↔ WellFormed s ∨ ¬Opens port (s.splitOn comma) := by
  rw [agrees_iff_opens hs]
  by_cases hform : WellFormed s
  · have hopens : Opens port (s.splitOn comma) ↔ Within port s := opens_of_intervals port hform
    simp [hform, hopens]
  · simp [hform]

theorem port_enabled_iff_two :
    Agrees [56, 48, comma, 57] 80 ↔ WellFormed [56, 48, comma, 57] ∨ ¬Opens 80 ([56, 48, comma, 57].splitOn comma) :=
  port_enabled_iff [56, 48, comma, 57] 80 (by decide)

/-- The first field opens the port, before the rest has been looked at. -/
theorem port_not_enabled : ¬∀ s port, 0 ∉ s → Agrees s port := by
  intro h
  have hs : (0 : UInt8) ∉ [56, 48, comma, 120] := by decide
  have hsplit : [56, 48, comma, 120].splitOn comma = [[56, 48], [120]] := by
    change ([56, 48] ++ comma :: [120]).splitOn comma = _
    rw [List.splitOn_append_cons_self_of_not_mem (by decide), List.splitOn_eq_singleton (by decide)]
  have hopens : Opens 80 ([56, 48, comma, 120].splitOn comma) := by
    rw [hsplit]
    exact ⟨80, 80, by decide, .inl (by decide)⟩
  obtain ⟨hform, -⟩ := ((agrees_iff_opens hs).mp (h _ _ hs)).mp hopens
  obtain ⟨m, n, hinterval⟩ := hform [120] (by rw [hsplit]; decide)
  obtain ⟨lo, hi, heq, -⟩ := interval_of_isInterval hinterval
  have hnone : interval [120] = none := by decide
  rw [hnone] at heq
  cases heq

end Libzorpll.PortRange
