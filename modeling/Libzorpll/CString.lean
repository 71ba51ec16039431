import Mathlib.Data.List.Basic
import Mathlib.Data.Nat.Digits.Defs

/-! Pointers into memory in which strings end with a NUL. -/

namespace Libzorpll.CString

/-- A pointer is the memory from where it points on. There is nothing to read
past its end. -/
abbrev Ptr := List UInt8

/-- The memory of a string. -/
def terminated (s : List UInt8) : Ptr := s ++ [0]

def deref (p : Ptr) : Option UInt8 := p.head?

/-- The pointer difference `stop - start`. -/
def distance (start stop : Ptr) : Int := start.length - stop.length

/-- Goes on to a byte that is NUL or one of these. -/
def skip (stops : UInt8 → Bool) : Ptr → Option Ptr
  | [] => none
  | c :: p => if c = 0 ∨ stops c then some (c :: p) else skip stops p

/-- The string a pointer points to. -/
def string : Ptr → Option (List UInt8)
  | [] => none
  | c :: p => if c = 0 then some [] else (string p).map (c :: ·)

def isSpace (c : UInt8) : Bool := c == 32 || (9 ≤ c && c ≤ 13)

def isDigit (c : UInt8) : Bool := 48 ≤ c && c ≤ 57

def isXDigit (c : UInt8) : Bool := isDigit c || (65 ≤ c && c ≤ 70) || (97 ≤ c && c ≤ 102)

def skipSpace : Ptr → Option Ptr
  | [] => none
  | c :: p => if isSpace c then skipSpace p else some (c :: p)

/-- The number that begins here, added to the digits before it, and where it
ends. -/
def digits (n : Nat) : Ptr → Option (Nat × Ptr)
  | [] => none
  | c :: p => if isDigit c then digits (10 * n + (c.toNat - 48)) p else some (n, c :: p)

/-- strtoul to base 10 with an unsigned long of 64 bits. Where there is no
number, it is zero and ends where it begins. -/
def strtoul (p : Ptr) : Option (Nat × Ptr) := do
  let start ← skipSpace p
  let sign ← deref start
  let first := if sign = 45 ∨ sign = 43 then start.tail else start
  let (n, stop) ← digits 0 first
  if stop.length = first.length then some (0, p)
  else if 2 ^ 64 ≤ n then some (2 ^ 64 - 1, stop)
  else if sign = 45 then some ((2 ^ 64 - n) % 2 ^ 64, stop)
  else some (n, stop)

variable {stops : UInt8 → Bool}

/-- Bytes over which a search with these stops goes. -/
def Plain (stops : UInt8 → Bool) (w : List UInt8) : Prop := ∀ b ∈ w, b ≠ 0 ∧ stops b = false

theorem skip_append {w : List UInt8} (hw : Plain stops w) {c : UInt8} (hc : c = 0 ∨ stops c)
    (rest : Ptr) : skip stops (w ++ c :: rest) = some (c :: rest) := by
  induction w with
  | nil => rw [List.nil_append, skip, if_pos hc]
  | cons b w ih =>
      have hb := hw b List.mem_cons_self
      have hnot : ¬(b = 0 ∨ stops b = true) := by
        rw [hb.2]
        exact not_or_intro hb.1 Bool.false_ne_true
      rw [List.cons_append, skip, if_neg hnot]
      exact ih (fun x hx => hw x (List.mem_cons_of_mem b hx))

/-- What a search goes over, and what it stops at. -/
theorem skip_some {p q : Ptr} (h : skip stops p = some q) :
    ∃ w c rest, Plain stops w ∧ (c = 0 ∨ stops c) ∧ p = w ++ c :: rest ∧ q = c :: rest := by
  induction p with
  | nil => cases h
  | cons b p ih =>
      rw [skip] at h
      split at h
      · rename_i hb
        refine ⟨[], b, p, ?_, hb, rfl, (Option.some.inj h).symm⟩
        intro x hx
        cases hx
      · rename_i hb
        rw [not_or, Bool.not_eq_true] at hb
        obtain ⟨w, c, rest, hw, hc, rfl, hq⟩ := ih h
        refine ⟨b :: w, c, rest, ?_, hc, rfl, hq⟩
        intro x hx
        rcases List.mem_cons.mp hx with rfl | hx
        · exact hb
        · exact hw x hx

theorem plain_or_split (stops : UInt8 → Bool) {a : List UInt8} (h : 0 ∉ a) :
    Plain stops a ∨ ∃ w c rest, Plain stops w ∧ stops c ∧ a = w ++ c :: rest := by
  induction a with
  | nil =>
      left
      intro x hx
      cases hx
  | cons b a ih =>
      rw [List.mem_cons, not_or] at h
      cases hb : stops b with
      | true =>
          right
          refine ⟨[], b, a, ?_, hb, rfl⟩
          intro x hx
          cases hx
      | false =>
          have hcons {w : List UInt8} (hw : Plain stops w) : Plain stops (b :: w) := by
            intro x hx
            rcases List.mem_cons.mp hx with rfl | hx
            · exact ⟨Ne.symm h.1, hb⟩
            · exact hw x hx
          rcases ih h.2 with hplain | ⟨w, c, rest, hw, hc, rfl⟩
          · exact .inl (hcons hplain)
          · exact .inr ⟨b :: w, c, rest, hcons hw, hc, rfl⟩

theorem terminated_append (s t : List UInt8) : terminated (s ++ t) = s ++ terminated t :=
  List.append_assoc s t [0]

theorem string_append {s : List UInt8} (h : 0 ∉ s) (tl : Ptr) : string (s ++ 0 :: tl) = some s := by
  induction s with
  | nil => rfl
  | cons b s ih =>
      rw [List.mem_cons, not_or] at h
      rw [List.cons_append, string, if_neg (Ne.symm h.1), ih h.2]
      rfl

theorem string_terminated {s : List UInt8} (h : 0 ∉ s) : string (terminated s) = some s := string_append h []

theorem distance_append (w q : Ptr) : distance (w ++ q) q = w.length := by
  rw [distance, List.length_append]
  omega

/-- The number printed to base 10. -/
def decimal (n : Nat) : List UInt8 :=
  if n = 0 then [48] else (Nat.digits 10 n).reverse.map (fun d => 48 + UInt8.ofNat d)

theorem decimal_of_lt {n : Nat} (h : n < 10) : decimal n = [48 + UInt8.ofNat n] := by
  rw [decimal]
  split
  · rename_i h0
    rw [h0]
    rfl
  · rename_i h0
    rw [Nat.digits_of_lt 10 n h0 h]
    rfl

theorem decimal_of_le {n : Nat} (h : 10 ≤ n) :
    decimal n = decimal (n / 10) ++ [48 + UInt8.ofNat (n % 10)] := by
  have h0 : n ≠ 0 := by omega
  have hdiv : n / 10 ≠ 0 := by omega
  rw [decimal, decimal, if_neg h0, if_neg hdiv,
    Nat.digits_def' (by decide) (Nat.pos_of_ne_zero h0), List.reverse_cons, List.map_append,
    List.map_singleton]

theorem digit_spec {d : Nat} (h : d < 10) :
    isDigit (48 + UInt8.ofNat d) = true ∧ (48 + UInt8.ofNat d).toNat - 48 = d := by
  revert d
  decide

theorem digits_decimal (n : Nat) (rest : Ptr) : digits 0 (decimal n ++ rest) = digits n rest := by
  induction n using Nat.strong_induction_on generalizing rest with
  | h n ih =>
      rcases Nat.lt_or_ge n 10 with hlt | hge
      · obtain ⟨hdigit, hvalue⟩ := digit_spec hlt
        rw [decimal_of_lt hlt, List.singleton_append, digits, if_pos hdigit, hvalue,
          Nat.mul_zero, Nat.zero_add]
      · obtain ⟨hdigit, hvalue⟩ := digit_spec (Nat.mod_lt n (by decide : 10 > 0))
        rw [decimal_of_le hge, List.append_assoc, ih (n / 10) (Nat.div_lt_self (by omega) (by decide)),
          List.singleton_append, digits, if_pos hdigit, hvalue, Nat.div_add_mod]

theorem decimal_head (n : Nat) : ∃ d ds, decimal n = d :: ds ∧ isDigit d = true := by
  induction n using Nat.strong_induction_on with
  | h n ih =>
      rcases Nat.lt_or_ge n 10 with hlt | hge
      · exact ⟨_, [], decimal_of_lt hlt, (digit_spec hlt).1⟩
      · obtain ⟨d, ds, heq, hd⟩ := ih (n / 10) (Nat.div_lt_self (by omega) (by decide))
        exact ⟨d, ds ++ [48 + UInt8.ofNat (n % 10)], by rw [decimal_of_le hge, heq]; rfl, hd⟩

theorem decimal_digits (n : Nat) : ∀ b ∈ decimal n, isDigit b = true := by
  induction n using Nat.strong_induction_on with
  | h n ih =>
      intro b hb
      rcases Nat.lt_or_ge n 10 with hlt | hge
      · rw [decimal_of_lt hlt, List.mem_singleton] at hb
        rw [hb]
        exact (digit_spec hlt).1
      · rw [decimal_of_le hge, List.mem_append, List.mem_singleton] at hb
        rcases hb with hb | rfl
        · exact ih (n / 10) (Nat.div_lt_self (by omega) (by decide)) b hb
        · exact (digit_spec (Nat.mod_lt n (by decide))).1

theorem not_space_of_digit {c : UInt8} (h : isDigit c = true) :
    isSpace c = false ∧ c ≠ 45 ∧ c ≠ 43 := by
  simp only [isDigit, Bool.and_eq_true, decide_eq_true_eq] at h
  refine ⟨?_, ?_, ?_⟩
  · have h32 : (c == 32) = false := by
      rw [beq_eq_false_iff_ne]
      rintro rfl
      exact absurd h.1 (by decide)
    have h13 : decide (c ≤ 13) = false := by
      rw [decide_eq_false_iff_not]
      intro hle
      exact absurd (UInt8.le_trans h.1 hle) (by decide)
    rw [isSpace, h32, h13, Bool.and_false, Bool.or_false]
  · rintro rfl
    exact absurd h.1 (by decide)
  · rintro rfl
    exact absurd h.1 (by decide)

theorem skip_suffix {p q : Ptr} (h : skip stops p = some q) : q <:+ p := by
  induction p with
  | nil => cases h
  | cons c p ih =>
      rw [skip] at h
      split at h
      · cases h
        exact List.suffix_refl _
      · exact (ih h).trans (List.suffix_cons c p)

theorem skipSpace_suffix {p q : Ptr} (h : skipSpace p = some q) : q <:+ p := by
  induction p with
  | nil => cases h
  | cons c p ih =>
      rw [skipSpace] at h
      split at h
      · exact (ih h).trans (List.suffix_cons c p)
      · cases h
        exact List.suffix_refl _

theorem digits_suffix {n m : Nat} {p q : Ptr} (h : digits n p = some (m, q)) : q <:+ p := by
  induction p generalizing n with
  | nil => cases h
  | cons c p ih =>
      rw [digits] at h
      split at h
      · exact (ih h).trans (List.suffix_cons c p)
      · cases h
        exact List.suffix_refl _

theorem strtoul_suffix {p stop : Ptr} {n : Nat} (h : strtoul p = some (n, stop)) : stop <:+ p := by
  simp only [strtoul, Option.bind_eq_bind, Option.bind_eq_some_iff] at h
  obtain ⟨start, hstart, sign, -, ⟨m, last⟩, hdigits, hanswer⟩ := h
  have hfirst : (if sign = 45 ∨ sign = 43 then start.tail else start) <:+ start := by
    split
    · exact List.tail_suffix start
    · exact List.suffix_refl start
  generalize (if sign = 45 ∨ sign = 43 then start.tail else start) = first at hdigits hanswer hfirst
  have hlast : last <:+ p := (digits_suffix hdigits).trans (hfirst.trans (skipSpace_suffix hstart))
  split at hanswer
  · cases hanswer
    exact List.suffix_refl p
  · split at hanswer
    · cases hanswer
      exact hlast
    · split at hanswer
      · cases hanswer
        exact hlast
      · cases hanswer
        exact hlast

/-! What is read as a number -/

/-- The number that digits stand for, behind those of another number. -/
def decimalValue (n : Nat) (ds : List UInt8) : Nat := ds.foldl (fun n c => 10 * n + (c.toNat - 48)) n

/-- White space, a sign and digits, of which only the digits have to be there. -/
structure Numeral (spaces sign ds : List UInt8) : Prop where
  space : ∀ b ∈ spaces, isSpace b = true
  sign : sign = [] ∨ sign = [43] ∨ sign = [45]
  some : ds ≠ []
  digit : ∀ b ∈ ds, isDigit b = true

theorem skipSpace_append {spaces : List UInt8} (hspaces : ∀ b ∈ spaces, isSpace b = true) {c : UInt8}
    (hc : isSpace c = false) (rest : Ptr) : skipSpace (spaces ++ c :: rest) = some (c :: rest) := by
  induction spaces with
  | nil => rw [List.nil_append, skipSpace, if_neg (Bool.eq_false_iff.mp hc)]
  | cons b spaces ih =>
      rw [List.cons_append, skipSpace, if_pos (hspaces b List.mem_cons_self)]
      exact ih fun x hx => hspaces x (List.mem_cons_of_mem b hx)

theorem skipSpace_some {p q : Ptr} (h : skipSpace p = some q) :
    ∃ spaces, (∀ b ∈ spaces, isSpace b = true) ∧ p = spaces ++ q := by
  induction p with
  | nil => cases h
  | cons b p ih =>
      rw [skipSpace] at h
      split at h
      · rename_i hb
        obtain ⟨spaces, hspaces, rfl⟩ := ih h
        exact ⟨b :: spaces, List.forall_mem_cons.mpr ⟨hb, hspaces⟩, rfl⟩
      · cases h
        exact ⟨[], fun b hb => (List.not_mem_nil hb).elim, rfl⟩

theorem digits_append {ds : List UInt8} (hds : ∀ b ∈ ds, isDigit b = true) {c : UInt8}
    (hc : isDigit c = false) (rest : Ptr) (n : Nat) :
    digits n (ds ++ c :: rest) = some (decimalValue n ds, c :: rest) := by
  induction ds generalizing n with
  | nil =>
      rw [List.nil_append, digits, if_neg (Bool.eq_false_iff.mp hc)]
      rfl
  | cons d ds ih =>
      rw [List.cons_append, digits, if_pos (hds d List.mem_cons_self)]
      exact ih (fun x hx => hds x (List.mem_cons_of_mem d hx)) _

theorem digits_some {n m : Nat} {p q : Ptr} (h : digits n p = some (m, q)) :
    ∃ ds, (∀ b ∈ ds, isDigit b = true) ∧ p = ds ++ q ∧ m = decimalValue n ds := by
  induction p generalizing n with
  | nil => cases h
  | cons b p ih =>
      rw [digits] at h
      split at h
      · rename_i hb
        obtain ⟨ds, hds, rfl, hm⟩ := ih h
        exact ⟨b :: ds, List.forall_mem_cons.mpr ⟨hb, hds⟩, rfl, hm⟩
      · cases h
        exact ⟨[], fun b hb => (List.not_mem_nil hb).elim, rfl, rfl⟩

/-- The first byte behind white space, where the digits begin, their value and
where they end. -/
def scanned (p : Ptr) : Option (UInt8 × Ptr × Nat × Ptr) := do
  let start ← skipSpace p
  let sign ← deref start
  let first := if sign = 45 ∨ sign = 43 then start.tail else start
  let (n, stop) ← digits 0 first
  some (sign, first, n, stop)

theorem strtoul_eq (p : Ptr) :
    strtoul p = (scanned p).bind fun (sign, first, n, stop) =>
      if stop.length = first.length then some (0, p)
      else if 2 ^ 64 ≤ n then some (2 ^ 64 - 1, stop)
      else if sign = 45 then some ((2 ^ 64 - n) % 2 ^ 64, stop)
      else some (n, stop) := by
  simp only [strtoul, scanned, Option.bind_eq_bind, Option.bind_assoc, Option.bind_some]

theorem scanned_numeral {spaces sign ds : List UInt8} (h : Numeral spaces sign ds) {c : UInt8}
    (hc : isDigit c = false) (rest : Ptr) :
    scanned (spaces ++ (sign ++ (ds ++ c :: rest))) =
      some ((sign ++ ds).headD 0, ds ++ c :: rest, decimalValue 0 ds, c :: rest) := by
  have hdigits := digits_append h.digit hc rest 0
  obtain ⟨d, ds, rfl⟩ := List.exists_cons_of_ne_nil h.some
  obtain ⟨hspace, hminus, hplus⟩ := not_space_of_digit (h.digit d List.mem_cons_self)
  rcases h.sign with rfl | rfl | rfl
  · rw [scanned, List.nil_append, List.cons_append, skipSpace_append h.space hspace]
    simp only [Option.bind_eq_bind, Option.bind_some, deref, List.head?_cons, hminus, hplus, or_self, if_false]
    rw [← List.cons_append, hdigits]
    rfl
  · rw [scanned, List.singleton_append, skipSpace_append h.space rfl]
    simp only [Option.bind_eq_bind, Option.bind_some, deref, List.head?_cons, or_true, if_true, List.tail_cons, hdigits]
    rfl
  · rw [scanned, List.singleton_append, skipSpace_append h.space rfl]
    simp only [Option.bind_eq_bind, Option.bind_some, deref, List.head?_cons, true_or, if_true, List.tail_cons, hdigits]
    rfl

theorem scanned_some {p first stop : Ptr} {sgn : UInt8} {n : Nat} (h : scanned p = some (sgn, first, n, stop)) :
    stop.length = first.length ∨ ∃ spaces sign ds, Numeral spaces sign ds ∧
      p = spaces ++ (sign ++ (ds ++ stop)) ∧ first = ds ++ stop ∧ n = decimalValue 0 ds ∧
      sgn = (sign ++ ds).headD 0 := by
  simp only [scanned, Option.bind_eq_bind, Option.bind_eq_some_iff] at h
  obtain ⟨start, hstart, sign, hsign, ⟨m, last⟩, hdigits, hanswer⟩ := h
  cases hanswer
  obtain ⟨spaces, hspaces, rfl⟩ := skipSpace_some hstart
  obtain ⟨b, start, rfl⟩ := List.exists_cons_of_ne_nil (List.ne_nil_of_mem (List.mem_of_mem_head? hsign))
  obtain rfl : b = sgn := Option.some.inj hsign
  obtain ⟨ds, hds, hfirst, hvalue⟩ := digits_some hdigits
  by_cases hnone : ds = []
  · left
    rw [hfirst, hnone, List.nil_append]
  · right
    rw [hfirst]
    split at hfirst
    · rename_i hsgn
      refine ⟨spaces, [b], ds, ⟨hspaces, ?_, hnone, hds⟩, ?_, rfl, hvalue, rfl⟩
      · rcases hsgn with rfl | rfl
        · exact .inr (.inr rfl)
        · exact .inr (.inl rfl)
      · rw [List.singleton_append, ← hfirst, List.tail_cons]
    · refine ⟨spaces, [], ds, ⟨hspaces, .inl rfl, hnone, hds⟩, ?_, rfl, hvalue, ?_⟩
      · rw [List.nil_append, hfirst]
      · obtain ⟨d, ds, rfl⟩ := List.exists_cons_of_ne_nil hnone
        exact (List.cons.inj hfirst).1

/-- The text that strtoul takes up to its end: a numeral or nothing. -/
def Taken (w : List UInt8) : Prop :=
  w = [] ∨ ∃ spaces sign ds, Numeral spaces sign ds ∧ w = spaces ++ (sign ++ ds)

/-- Bytes that belong to no numeral. -/
structure Behind (c : UInt8) : Prop where
  digit : isDigit c = false
  space : isSpace c = false
  sign : c ≠ 45 ∧ c ≠ 43

theorem scanned_nothing {c : UInt8} (hc : Behind c) (rest : Ptr) :
    scanned (c :: rest) = some (c, c :: rest, 0, c :: rest) := by
  have hskip : skipSpace (c :: rest) = some (c :: rest) := if_neg (Bool.eq_false_iff.mp hc.space)
  have hdigits : digits 0 (c :: rest) = some (0, c :: rest) := if_neg (Bool.eq_false_iff.mp hc.digit)
  rw [scanned, hskip]
  simp only [Option.bind_eq_bind, Option.bind_some, deref, List.head?_cons, hc.sign.1, hc.sign.2, or_self, if_false,
    hdigits]

theorem strtoul_takes_iff {w : List UInt8} {c : UInt8} (hc : Behind c) (rest : Ptr) :
    (∃ n stop, strtoul (w ++ c :: rest) = some (n, stop) ∧ stop.length = (c :: rest).length) ↔ Taken w := by
  constructor
  · rintro ⟨n, stop, hcall, hlen⟩
    rw [strtoul_eq, Option.bind_eq_some_iff] at hcall
    obtain ⟨⟨sgn, first, m, last⟩, hscan, hanswer⟩ := hcall
    simp only at hanswer
    rcases scanned_some hscan with hnone | ⟨spaces, sign, ds, hnumeral, hp, hfirst, -⟩
    · left
      rw [if_pos hnone] at hanswer
      cases hanswer
      rw [List.length_append] at hlen
      exact List.eq_nil_of_length_eq_zero (by omega)
    · right
      have hsome : last.length ≠ first.length := by
        have hpos := List.length_pos_of_ne_nil hnumeral.some
        rw [hfirst, List.length_append]
        omega
      have hstop : last = stop := by
        rw [if_neg hsome] at hanswer
        split at hanswer
        · exact congrArg Prod.snd (Option.some.inj hanswer)
        · split at hanswer
          · exact congrArg Prod.snd (Option.some.inj hanswer)
          · exact congrArg Prod.snd (Option.some.inj hanswer)
      refine ⟨spaces, sign, ds, hnumeral, ?_⟩
      rw [hstop, ← List.append_assoc, ← List.append_assoc, List.append_assoc spaces] at hp
      exact (List.append_inj' hp hlen.symm).1
  · rintro (rfl | ⟨spaces, sign, ds, hnumeral, rfl⟩)
    · refine ⟨0, c :: rest, ?_, rfl⟩
      rw [List.nil_append, strtoul_eq, scanned_nothing hc, Option.bind_some]
      exact if_pos rfl
    · have hscan := scanned_numeral hnumeral hc.digit rest
      have hpos := List.length_pos_of_ne_nil hnumeral.some
      have hsome : (c :: rest).length ≠ (ds ++ c :: rest).length := by
        rw [List.length_append]
        omega
      rw [List.append_assoc, List.append_assoc, strtoul_eq, hscan, Option.bind_some]
      simp only [if_neg hsome]
      split
      · exact ⟨_, _, rfl, rfl⟩
      · split
        · exact ⟨_, _, rfl, rfl⟩
        · exact ⟨_, _, rfl, rfl⟩

/-- Digits alone have the value they stand for. -/
theorem strtoul_digits {ds : List UInt8} (hsome : ds ≠ []) (hds : ∀ b ∈ ds, isDigit b = true)
    (hvalue : decimalValue 0 ds < 2 ^ 64) {c : UInt8} (hc : isDigit c = false) (rest : Ptr) :
    strtoul (ds ++ c :: rest) = some (decimalValue 0 ds, c :: rest) := by
  have hnumeral : Numeral [] [] ds := ⟨fun b hb => (List.not_mem_nil hb).elim, .inl rfl, hsome, hds⟩
  have hscan := scanned_numeral hnumeral hc rest
  have hpos := List.length_pos_of_ne_nil hsome
  have hlen : (c :: rest).length ≠ (ds ++ c :: rest).length := by
    rw [List.length_append]
    omega
  obtain ⟨d, ds, rfl⟩ := List.exists_cons_of_ne_nil hsome
  have hminus := (not_space_of_digit (hds d List.mem_cons_self)).2.1
  rw [List.nil_append, List.nil_append] at hscan
  rw [strtoul_eq, hscan, Option.bind_some]
  simp only [if_neg hlen, if_neg (Nat.not_le_of_lt hvalue), List.nil_append, List.headD_cons]
  exact if_neg hminus

/-! The number at the front of a text -/

/-- strtol to base 10 with a long of 64 bits. -/
def strtol (p : Ptr) : Option (Int × Ptr) := do
  let (sign, first, n, stop) ← scanned p
  if stop.length = first.length then some (0, p)
  else if sign = 45 then some (max (-2 ^ 63) (-n), stop)
  else some (min (2 ^ 63 - 1) n, stop)

def signOf (w : List UInt8) : Bool := w.head? = some 45 ∨ w.head? = some 43

/-- Its value, and the text that is left. -/
def number (w : List UInt8) : Int × List UInt8 :=
  let start := w.dropWhile isSpace
  let first := if signOf start then start.tail else start
  let ds := first.takeWhile isDigit
  if ds = [] then (0, w)
  else if start.head? = some 45 then (max (-2 ^ 63) (-decimalValue 0 ds), first.dropWhile isDigit)
  else (min (2 ^ 63 - 1) (decimalValue 0 ds), first.dropWhile isDigit)

theorem skipSpace_field (w : List UInt8) {c : UInt8} (hc : Behind c) (tl : Ptr) :
    skipSpace (w ++ c :: tl) = some (w.dropWhile isSpace ++ c :: tl) := by
  induction w with
  | nil => exact if_neg (Bool.eq_false_iff.mp hc.space)
  | cons b w ih =>
      rw [List.cons_append, skipSpace, List.dropWhile_cons]
      split
      · exact ih
      · rfl

theorem digits_field (w : List UInt8) {c : UInt8} (hc : Behind c) (tl : Ptr) (n : Nat) :
    digits n (w ++ c :: tl) = some (decimalValue n (w.takeWhile isDigit), w.dropWhile isDigit ++ c :: tl) := by
  induction w generalizing n with
  | nil => exact if_neg (Bool.eq_false_iff.mp hc.digit)
  | cons b w ih =>
      rw [List.cons_append, digits, List.takeWhile_cons, List.dropWhile_cons]
      split
      · rw [ih]
        rfl
      · rfl

theorem scanned_field (w : List UInt8) {c : UInt8} (hc : Behind c) (tl : Ptr) :
    ∃ sign, (sign = 45 ↔ (w.dropWhile isSpace).head? = some 45) ∧ scanned (w ++ c :: tl) =
      let start := w.dropWhile isSpace
      let first := if signOf start then start.tail else start
      some (sign, first ++ c :: tl, decimalValue 0 (first.takeWhile isDigit), first.dropWhile isDigit ++ c :: tl) := by
  rw [scanned, skipSpace_field w hc]
  generalize w.dropWhile isSpace = start
  cases start with
  | nil =>
      refine ⟨c, iff_of_false hc.sign.1 nofun, ?_⟩
      have hdigits := digits_field [] hc tl 0
      rw [List.nil_append] at hdigits
      simp only [Option.bind_eq_bind, Option.bind_some, List.nil_append, deref, List.head?_cons, hc.sign.1, hc.sign.2,
        or_self, if_false, hdigits]
      rfl
  | cons b start =>
      refine ⟨b, by simp, ?_⟩
      simp only [Option.bind_eq_bind, Option.bind_some, List.cons_append, deref, List.head?_cons, List.tail_cons]
      by_cases hsign : b = 45 ∨ b = 43
      · have hb : signOf (b :: start) = true := by simpa [signOf] using hsign
        rw [if_pos hsign, if_pos hb, digits_field start hc]
        rfl
      · have hb : ¬signOf (b :: start) = true := by simpa [signOf] using hsign
        have hdigits := digits_field (b :: start) hc tl 0
        rw [List.cons_append] at hdigits
        rw [if_neg hsign, if_neg hb, hdigits]
        rfl

theorem strtol_field (w : List UInt8) {c : UInt8} (hc : Behind c) (tl : Ptr) :
    strtol (w ++ c :: tl) = some ((number w).1, (number w).2 ++ c :: tl) := by
  obtain ⟨sign, hsign, hscan⟩ := scanned_field w hc tl
  rw [strtol, hscan, number]
  simp only [Option.bind_eq_bind, Option.bind_some]
  generalize w.dropWhile isSpace = start at hsign
  generalize (if signOf start = true then start.tail else start) = first
  have hlen : (first.dropWhile isDigit ++ c :: tl).length = (first ++ c :: tl).length ↔
      first.takeWhile isDigit = [] := by
    have hsplit := congrArg List.length (List.takeWhile_append_dropWhile (p := isDigit) (l := first))
    rw [List.length_append] at hsplit
    rw [List.length_append, List.length_append, ← List.length_eq_zero_iff]
    omega
  simp only [hlen, hsign]
  split
  · rfl
  · split
    · rfl
    · rfl

theorem number_digits {ds g : List UInt8} (hsome : ds ≠ []) (hds : ∀ b ∈ ds, isDigit b = true)
    (hg : ∀ b ∈ g.head?, isDigit b = false) :
    number (ds ++ g) = (min (2 ^ 63 - 1) (decimalValue 0 ds : Int), g) := by
  have htake : (ds ++ g).takeWhile isDigit = ds ∧ (ds ++ g).dropWhile isDigit = g := by
    rw [List.takeWhile_append_of_pos hds, List.dropWhile_append_of_pos hds]
    cases g with
    | nil => exact ⟨List.append_nil ds, rfl⟩
    | cons b g =>
        have hb := Bool.eq_false_iff.mp (hg b rfl)
        exact ⟨by rw [List.takeWhile_cons_of_neg hb, List.append_nil], List.dropWhile_cons_of_neg hb⟩
  obtain ⟨d, ds, rfl⟩ := List.exists_cons_of_ne_nil hsome
  obtain ⟨hspace, hminus, hplus⟩ := not_space_of_digit (hds d List.mem_cons_self)
  have hstart : (d :: ds ++ g).dropWhile isSpace = d :: ds ++ g :=
    List.dropWhile_cons_of_neg (Bool.eq_false_iff.mp hspace)
  have hsign : ¬signOf (d :: ds ++ g) = true := by simp [signOf, hminus, hplus]
  have hhead : ¬(d :: ds ++ g).head? = some 45 := by simp [hminus]
  rw [number, hstart]
  simp only [if_neg hsign, if_neg hhead, htake.1, htake.2, if_neg hsome]

end Libzorpll.CString
