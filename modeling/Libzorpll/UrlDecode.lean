import Libzorpll.UrlReturns
import Libzorpll.Run
import Mathlib.Logic.Relation

/-! What the decoder makes of a part that the splitting loop has cut. -/

namespace Libzorpll.UrlDecode

open CString UrlParse UrlReturns

/-- The byte of two hexadecimal digits. -/
def escaped (x y : UInt8) : UInt8 := UInt8.ofInt (xdigitValue x * 16 + xdigitValue y)

/-- The bytes that a part stands for, if its escapes are right. -/
def decode : List UInt8 → Option (List UInt8)
  | [] => some []
  | c :: w =>
      if c = percent then
        match w with
        | x :: y :: v => if isXDigit x ∧ isXDigit y then (decode v).map (escaped x y :: ·) else none
        | _ => none
      else (decode w).map (c :: ·)

/-- From left to right there is a percent sign without two hexadecimal digits
behind it. -/
inductive Broken : List UInt8 → Prop
  | escape {w : List UInt8} (h : ∀ x y v, w = x :: y :: v → ¬(isXDigit x ∧ isXDigit y)) :
      Broken (percent :: w)
  | plain {c : UInt8} {w : List UInt8} (hc : c ≠ percent) (h : Broken w) : Broken (c :: w)
  | triple {x y : UInt8} {w : List UInt8} (hx : isXDigit x) (hy : isXDigit y) (h : Broken w) :
      Broken (percent :: x :: y :: w)

theorem decode_plain {c : UInt8} (hc : c ≠ percent) (w : List UInt8) :
    decode (c :: w) = (decode w).map (c :: ·) := by
  rw [decode.eq_def]
  exact if_neg hc

theorem decode_escape (x y : UInt8) (w : List UInt8) :
    decode (percent :: x :: y :: w) =
      if isXDigit x ∧ isXDigit y then (decode w).map (escaped x y :: ·) else none := by
  rw [decode, if_pos rfl]

theorem decode_none_iff {w : List UInt8} : decode w = none ↔ Broken w := by
  constructor
  · intro h
    induction w using decode.induct with
    | case1 => cases h
    | case2 x y v hhex ih =>
        rw [decode_escape, if_pos hhex, Option.map_eq_none_iff] at h
        exact .triple hhex.1 hhex.2 (ih h)
    | case3 x y v hhex =>
        refine .escape ?_
        intro x' y' v' heq
        cases heq
        exact hhex
    | case4 w hshort =>
        exact .escape fun x y v heq => (hshort x y v heq).elim
    | case5 c w hc ih =>
        rw [decode_plain hc, Option.map_eq_none_iff] at h
        exact .plain hc (ih h)
  · intro h
    induction h with
    | @escape w h =>
        rcases w with _ | ⟨x, _ | ⟨y, v⟩⟩
        · rfl
        · rfl
        · rw [decode_escape, if_neg (h x y v rfl)]
    | plain hc _ ih => rw [decode_plain hc, ih, Option.map_none]
    | triple hx hy _ ih => rw [decode_escape, if_pos ⟨hx, hy⟩, ih, Option.map_none]

/-! The loop -/

theorem decodeRound_left {src src' : Ptr} {left left' : Int} {c : UInt8}
    (h : decodeRound src left = .ok (c, src', left')) : left' < left := by
  obtain ⟨b, hb, h⟩ := Run.bind_ok h
  split at h
  · split at h
    · cases h
    · obtain ⟨v, hv, h⟩ := Run.bind_ok h
      cases h
      omega
  · cases h
    omega

/-- Below zero the counter never gets to zero. -/
theorem decodeLoop_negative {room : Nat} {src : Ptr} {left : Int} (hleft : left < 0)
    (bytes : List UInt8) : decodeLoop room src left ≠ .ok bytes := by
  intro h
  induction room generalizing src left bytes with
  | zero =>
      rw [decodeLoop, if_neg (by omega)] at h
      obtain ⟨r, -, h⟩ := Run.bind_ok h
      cases h
  | succ room ih =>
      rw [decodeLoop, if_neg (by omega)] at h
      obtain ⟨⟨c, src', left'⟩, hround, h⟩ := Run.bind_ok h
      obtain ⟨rest, hrest, -⟩ := Run.bind_ok h
      have hless := decodeRound_left hround
      exact ih (by omega) rest hrest

theorem cons_ok_iff {x : Except Stop (List UInt8)} {o : Option (List UInt8)}
    (h : ∀ bytes, x = .ok bytes ↔ o = some bytes) (v : UInt8) (bytes : List UInt8) :
    (x >>= fun rest => .ok (v :: rest)) = .ok bytes ↔ o.map (v :: ·) = some bytes := by
  constructor
  · intro hx
    obtain ⟨rest, hrest, heq⟩ := Run.bind_ok hx
    cases heq
    rw [(h rest).mp hrest, Option.map_some]
  · intro ho
    obtain ⟨rest, hrest, rfl⟩ := Option.map_eq_some_iff.mp ho
    rw [(h rest).mpr hrest]
    rfl

/-- The loop decodes so many bytes, where these end with no escape begun. -/
theorem decodeLoop_ok_iff {room n : Nat} {p : Ptr} (hn : n ≤ p.length) (hroom : n < room)
    (bytes : List UInt8) : decodeLoop room p n = .ok bytes ↔ decode (p.take n) = some bytes := by
  induction room generalizing n p bytes with
  | zero => exact absurd hroom (Nat.not_lt_zero n)
  | succ room ih =>
      rcases n with _ | n
      · simp only [decodeLoop, decode, Nat.cast_zero, List.take_zero, ↓reduceIte, Except.ok.injEq, Option.some.injEq]
      obtain ⟨b, p, rfl⟩ := List.exists_cons_of_length_pos (by omega : 0 < p.length)
      rw [List.length_cons] at hn
      by_cases hb : b = percent
      · subst hb
        rcases n with _ | _ | n
        · exact iff_of_false (by rintro ⟨⟩) (by rintro ⟨⟩)
        · obtain ⟨x, p, rfl⟩ := List.exists_cons_of_length_pos (by omega : 0 < p.length)
          refine iff_of_false ?_ ?_
          · -- the second digit is behind the end, and the counter goes below zero
            intro h
            rw [decodeLoop_escape _ _ (by omega)] at h
            obtain ⟨v, -, h⟩ := Run.bind_ok h
            obtain ⟨rest, hrest, -⟩ := Run.bind_ok h
            exact decodeLoop_negative (by omega) rest hrest
          · rintro ⟨⟩
        · obtain ⟨x, p, rfl⟩ := List.exists_cons_of_length_pos (by omega : 0 < p.length)
          rw [List.length_cons] at hn
          obtain ⟨y, p, rfl⟩ := List.exists_cons_of_length_pos (by omega : 0 < p.length)
          rw [List.length_cons] at hn
          have hleft : ((n + 1 + 1 + 1 : Nat) : Int) - 3 = n := by omega
          rw [decodeLoop_escape _ _ (by omega), hleft, decodeHexByte_cons, List.take_succ_cons,
            List.take_succ_cons, List.take_succ_cons, decode_escape]
          by_cases hhex : isXDigit x = true ∧ isXDigit y = true
          · rw [if_pos hhex.1, if_pos hhex.2, if_pos hhex]
            have hrest : n ≤ p.length := by omega
            exact cons_ok_iff (ih hrest (by omega)) _ _
          · rw [if_neg hhex]
            refine iff_of_false ?_ (by rintro ⟨⟩)
            rw [not_and] at hhex
            split
            · rw [if_neg (hhex ‹_›)]
              rintro ⟨⟩
            · rintro ⟨⟩
      · have hleft : ((n + 1 : Nat) : Int) - 1 = n := by omega
        rw [decodeLoop_plain hb _ _ (by omega), hleft, List.take_succ_cons, decode_plain hb]
        exact cons_ok_iff (ih (by omega) (by omega)) _ _

/-! Parts -/

/-- The decoder goes on in its loop. -/
def Round (s t : Ptr × Int) : Prop := s.2 ≠ 0 ∧ ∃ c, decodeRound s.1 s.2 = .ok (c, t.1, t.2)

theorem decodeRound_plain {b : UInt8} (hb : b ≠ percent) (src : Ptr) (left : Int) :
    decodeRound (b :: src) left = .ok (b, src, left - 1) := if_neg hb

theorem decodeRound_short (src : Ptr) {left : Int} (hleft : left < 2) :
    decodeRound (percent :: src) left = .error (.failed "Hexadecimal encoding too short") := if_pos hleft

theorem decodeRound_escape (src : Ptr) {left : Int} (hleft : ¬left < 2) :
    decodeRound (percent :: src) left = decodeHexByte src >>= fun c => .ok (c, src.drop 2, left - 3) :=
  if_neg hleft

/-- A round that begins in a part ends in it, because no escape goes on over
its end. -/
theorem round_inside {v : List UInt8} {c : UInt8} (hc : isXDigit c = false) {rest : Ptr} {t : Ptr × Int}
    (h : Round (v ++ c :: rest, (v.length : Int)) t) :
    ∃ u, u <:+ v ∧ t = (u ++ c :: rest, (u.length : Int)) := by
  obtain ⟨src, left⟩ := t
  obtain ⟨hsome, b, hround⟩ := h
  simp only at hsome hround
  cases v with
  | nil => exact absurd rfl hsome
  | cons a v =>
      rw [List.cons_append] at hround
      by_cases ha : a = percent
      · subst ha
        by_cases hleft : ((percent :: v).length : Int) < 2
        · rw [decodeRound_short _ hleft] at hround
          cases hround
        rw [decodeRound_escape _ hleft] at hround
        obtain ⟨byte, hbyte, hround⟩ := Run.bind_ok hround
        obtain ⟨-, hsrc, hcount⟩ : byte = b ∧ (v ++ c :: rest).drop 2 = src ∧
            ((percent :: v).length : Int) - 3 = left := by
          simpa only [Except.ok.injEq, Prod.mk.injEq] using hround
        rcases v with _ | ⟨x, _ | ⟨y, v⟩⟩
        · exact absurd (by decide) hleft
        · rw [List.singleton_append, decodeHexByte_end hc] at hbyte
          cases hbyte
        · refine ⟨v, (List.suffix_cons y v).trans ((List.suffix_cons x _).trans (List.suffix_cons _ _)), ?_⟩
          rw [← hsrc, ← hcount, Prod.mk.injEq]
          refine ⟨rfl, ?_⟩
          simp only [List.length_cons]
          omega
      · rw [decodeRound_plain ha] at hround
        obtain ⟨-, hsrc, hcount⟩ : a = b ∧ v ++ c :: rest = src ∧ ((a :: v).length : Int) - 1 = left := by
          simpa only [Except.ok.injEq, Prod.mk.injEq] using hround
        refine ⟨v, List.suffix_cons a v, ?_⟩
        rw [← hsrc, ← hcount, Prod.mk.injEq]
        refine ⟨rfl, ?_⟩
        simp only [List.length_cons]
        omega

theorem rounds_inside {w : List UInt8} {c : UInt8} (hc : isXDigit c = false) {rest : Ptr} {t : Ptr × Int}
    (h : Relation.ReflTransGen Round (w ++ c :: rest, (w.length : Int)) t) :
    ∃ v, v <:+ w ∧ t = (v ++ c :: rest, (v.length : Int)) := by
  induction h with
  | refl => exact ⟨w, List.suffix_refl w, rfl⟩
  | tail _ hround ih =>
      obtain ⟨v, hv, rfl⟩ := ih
      obtain ⟨u, hu, rfl⟩ := round_inside hc hround
      exact ⟨u, hu.trans hv, rfl⟩

/-- A part and what ends it. -/
def Cut (start stop : Ptr) : Prop :=
  ∃ w c rest, Plain isSep w ∧ (c = 0 ∨ isSep c = true) ∧ start = w ++ c :: rest ∧ stop = c :: rest

theorem splitLoop_cuts {n i i' : Nat} {p q : Ptr} {part sep part' sep' : Cuts}
    (hold : ∀ k start stop, part k = some start → sep k = some stop → Cut start stop)
    (h : splitLoop n i p part sep = .ok (i', q, part', sep')) (k : Nat) (start stop : Ptr)
    (hstart : part' k = some start) (hstop : sep' k = some stop) : Cut start stop := by
  induction n generalizing i p part sep with
  | zero =>
      cases h
      exact hold k start stop hstart hstop
  | succ n ih =>
      obtain ⟨r, hskip, h⟩ := Run.bind_ok h
      obtain ⟨b, -, h⟩ := Run.bind_ok h
      have hr : skip isSep p = some r := by
        cases hp : skip isSep p with
        | none =>
            rw [hp] at hskip
            cases hskip
        | some r' =>
            rw [hp] at hskip
            cases hskip
            rfl
      have hnew : ∀ k start stop, Function.update part i (some p) k = some start →
          Function.update sep i (some r) k = some stop → Cut start stop := by
        intro k start stop hstart hstop
        by_cases hk : k = i
        · subst hk
          rw [Function.update_self] at hstart hstop
          cases hstart
          cases hstop
          exact skip_some hr
        · rw [Function.update_of_ne hk] at hstart hstop
          exact hold k start stop hstart hstop
      split at h
      · cases h
        exact hnew k start stop hstart hstop
      · exact ih hnew h

/-- The splitting loop cuts this part out of the string. -/
def Delimited (s : List UInt8) (start stop : Ptr) : Prop :=
  ∃ scheme p i q part sep k, parseScheme (terminated s) = .ok (scheme, p) ∧
    splitLoop 4 0 p (fun _ => none) (fun _ => none) = .ok (i, q, part, sep) ∧
    part k = some start ∧ sep k = some stop

theorem Delimited.cut {s : List UInt8} {start stop : Ptr} (h : Delimited s start stop) : Cut start stop := by
  obtain ⟨scheme, p, i, q, part, sep, k, -, hsplit, hstart, hstop⟩ := h
  refine splitLoop_cuts ?_ hsplit k start stop hstart hstop
  intro k start stop hpart
  cases hpart

/-- What a call with the length of a part does, whatever is in memory behind
the byte that ends it: the counter is always the length of what is left of the
part, and the answer is the bytes of the part, in their own length and the
NUL, or FALSE. -/
def Decodes (w : List UInt8) (c : UInt8) : Prop :=
  ∀ rest : Ptr,
    (∀ src left, Relation.ReflTransGen Round (w ++ c :: rest, (w.length : Int)) (src, left) →
      ∃ v, v <:+ w ∧ src = v ++ c :: rest ∧ left = v.length) ∧
    ((∃ text, assignUrlDecode (w ++ c :: rest) (gint w.length) = .error (.failed text)) ↔ Broken w) ∧
    (¬Broken w → ∃ bytes, decode w = some bytes ∧
      assignUrlDecode (w ++ c :: rest) (gint w.length) = .ok bytes)

theorem assignUrlDecode_ok_iff {w : List UInt8} (hlen : w.length < 2 ^ 31) (q : Ptr) (bytes : List UInt8) :
    assignUrlDecode (w ++ q) (gint w.length) = .ok bytes ↔ decode w = some bytes := by
  have hroom : w.length ≤ (w ++ q).length := by
    rw [List.length_append]
    exact Nat.le_add_right _ _
  rw [gint_of_lt hlen, assignUrlDecode, if_neg (Int.not_lt.mpr (Int.natCast_nonneg _)), Int.toNat_natCast,
    decodeLoop_ok_iff hroom (Nat.lt_succ_self _), List.take_left]

theorem decodes_of_short {w : List UInt8} (hlen : w.length < 2 ^ 31) {c : UInt8} (hc : c = 0 ∨ isSep c = true) :
    Decodes w c := by
  intro rest
  have hdigit := not_xdigit_of_end hc
  refine ⟨?_, ?_, ?_⟩
  · intro src left h
    obtain ⟨v, hv, heq⟩ := rounds_inside hdigit h
    cases heq
    exact ⟨v, hv, rfl, rfl⟩
  · rw [← decode_none_iff]
    constructor
    · rintro ⟨text, htext⟩
      rw [Option.eq_none_iff_forall_ne_some]
      intro bytes hbytes
      rw [(assignUrlDecode_ok_iff hlen _ bytes).mpr hbytes] at htext
      cases htext
    · intro hnone
      cases hcall : assignUrlDecode (w ++ c :: rest) (gint w.length) with
      | ok bytes =>
          rw [assignUrlDecode_ok_iff hlen, hnone] at hcall
          cases hcall
      | error stop =>
          rw [gint_of_lt hlen] at hcall
          obtain ⟨text, rfl⟩ := assignUrlDecode_returns hdigit rest stop hcall
          exact ⟨text, rfl⟩
  · intro hright
    rw [← decode_none_iff] at hright
    obtain ⟨bytes, hbytes⟩ := Option.ne_none_iff_exists'.mp hright
    exact ⟨bytes, hbytes, (assignUrlDecode_ok_iff hlen _ bytes).mpr hbytes⟩

/-- A part of a URL that is shorter than a gint can count is decoded just as
far as it goes. -/
theorem decode_exact {s : List UInt8} {start stop : Ptr} (h : Delimited s start stop)
    (hlen : distance start stop < 2 ^ 31) :
    ∃ w c rest, start = w ++ c :: rest ∧ stop = c :: rest ∧ (c = 0 ∨ isSep c = true) ∧
      distance start stop = w.length ∧ Decodes w c := by
  obtain ⟨w, c, rest, -, hc, rfl, rfl⟩ := h.cut
  rw [distance_append] at hlen
  exact ⟨w, c, rest, rfl, rfl, hc, distance_append w _, decodes_of_short (by omega) hc⟩

/-- "b%3a" in "a://b%3a@c" -/
theorem decode_exact_escape :
    ∃ w c rest, [98, 37, 51, 97, 64, 99, 0] = w ++ c :: rest ∧ [64, 99, 0] = c :: rest ∧
      (c = 0 ∨ isSep c = true) ∧ distance [98, 37, 51, 97, 64, 99, 0] [64, 99, 0] = w.length ∧ Decodes w c :=
  decode_exact (s := [97, 58, 47, 47, 98, 37, 51, 97, 64, 99])
    ⟨[97], [98, 37, 51, 97, 64, 99, 0], 1, [0], _, _, 0, rfl, rfl, rfl, rfl⟩ (by decide)

theorem decode_letters (n : Nat) : decode (List.replicate n 97) = some (List.replicate n 97) := by
  induction n with
  | zero => rfl
  | succ n ih => rw [List.replicate_succ, decode_plain (by decide), ih, Option.map_some]

theorem plain_letters (n : Nat) : Plain isSep (List.replicate n 97) := by
  intro b hb
  rw [List.eq_of_mem_replicate hb]
  decide

/-- The host of 2 ^ 32 letters is cut out, but nothing of it is decoded. -/
theorem decode_not_exact :
    ¬∀ (s : List UInt8) (start stop : Ptr), Delimited s start stop →
      ∃ w c rest, start = w ++ c :: rest ∧ stop = c :: rest ∧ (c = 0 ∨ isSep c = true) ∧
        distance start stop = w.length ∧ Decodes w c := by
  intro h
  have hpart (n : Nat) : Delimited ([97] ++ colon :: slash :: slash :: List.replicate n 97)
      (List.replicate n 97 ++ [0]) [0] := by
    refine ⟨[97], List.replicate n 97 ++ [0], 0, [0], _, _, 0, ?_, splitLoop_last (plain_letters n) (.inl rfl) _ _ _ _ _,
      Function.update_self _ _ _, Function.update_self _ _ _⟩
    rw [terminated_append]
    exact parseScheme_ok (by decide) (by decide) _
  have hempty (n : Nat) (hn : n = 2 ^ 32) : List.replicate n (97 : UInt8) = [] := by
    obtain ⟨w, c, rest, hstart, hstop, -, -, hdecodes⟩ := h _ _ _ (hpart n)
    cases hstop
    obtain rfl := List.append_cancel_right hstart
    obtain ⟨-, -, hright⟩ := hdecodes []
    have hsome : ¬Broken (List.replicate n 97) := by
      rw [← decode_none_iff, decode_letters]
      exact nofun
    obtain ⟨bytes, hbytes, hcall⟩ := hright hsome
    rw [decode_letters] at hbytes
    cases hbytes
    have hzero : gint n = 0 := by
      rw [hn]
      rfl
    rw [List.length_replicate, hzero] at hcall
    exact (Except.ok.inj hcall).symm
  have hlen := congrArg List.length (hempty (2 ^ 32) rfl)
  rw [List.length_replicate] at hlen
  exact absurd hlen (by decide)

end Libzorpll.UrlDecode
