import Libzorpll.LogSpec
import Libzorpll.Rounds
import Libzorpll.UrlParse

/-! z_log_spec_glob_match on the memory of its strings. -/

namespace Libzorpll.GlobMatch

open CString Rounds LogSpec
open UrlParse (gint gint_of_lt)

inductive Halt
  | outOfBounds
  | endless
  deriving DecidableEq

def dot : UInt8 := 46

def star : UInt8 := 42

def reads {α : Type} : Option α → Except Halt α
  | none => .error .outOfBounds
  | some a => .ok a

/-- The pointer to the first such byte, or NULL. -/
def strchr (p : Ptr) (c : UInt8) : Except Halt (Option Ptr) := do
  let q ← reads (skip (· == c) p)
  return if q.head? = some c then some q else none

/-- Whether memcmp says that so many bytes, as a size_t, are the same. -/
def memcmpSame (p q : Ptr) (n : Int) : Except Halt Bool :=
  if n < 0 ∨ p.length < n ∨ q.length < n then .error .outOfBounds
  else .ok (p.take n.toNat == q.take n.toNat)

def isStar (glob : Ptr) (len1 : Int) : Except Halt Bool :=
  if len1 ≠ 1 then .ok false else memcmpSame glob [star, 0] 1

/-- A part of the pattern is no star and not that of the tag either. -/
def differs (glob tag : Ptr) (len1 len2 : Int) : Except Halt Bool := do
  let any ← isStar glob len1
  if any then return false
  if len1 ≠ len2 then return true
  let same ← memcmpSame glob tag len1
  return !same

/-- What p += n points to. -/
def advance (p : Ptr) (n : Int) : Except Halt Ptr :=
  if n < 0 ∨ p.length < n then .error .outOfBounds else .ok (p.drop n.toNat)

/-- The length of a part, up to the dot or to the end. -/
def partLen (p : Ptr) (p1 : Option Ptr) : Except Halt Int :=
  match p1 with
  | some q => .ok (gint (distance p q))
  | none => do
      let s ← reads (string p)
      return gint s.length

/-- What is behind the loop. -/
def globLast (glob tag : Ptr) (p1 p2 : Option Ptr) : Except Halt Bool := do
  let len1 ← partLen glob p1
  let len2 ← partLen tag p2
  let no ← differs glob tag len1 len2
  if no then return false
  let glob ← advance glob len1
  let tag ← advance tag len2
  let rest1 ← reads (string glob)
  let rest2 ← reads (string tag)
  return !(decide (rest2.length < rest1.length))

def globRound (p : Ptr × Ptr) : Except Halt (Option Bool × (Ptr × Ptr)) := do
  let (glob, tag) := p
  let p1 ← strchr glob dot
  let p2 ← strchr tag dot
  match p1, p2 with
  | some q1, some q2 =>
      let no ← differs glob tag (gint (distance glob q1)) (gint (distance tag q2))
      if no then return (some false, p)
      return (none, (q1.tail, q2.tail))
  | _, _ =>
      let answer ← globLast glob tag p1 p2
      return (some answer, p)

def zLogSpecGlobMatch (fuel : Nat) (glob tag : Ptr) : Except Halt Bool :=
  (Run.loop globRound .endless fuel (glob, tag)).map Prod.fst

/-! The parts -/

/-- Each part of a pattern is a star or that of the tag at its place. -/
def Agree (gs ts : List (List UInt8)) : Prop :=
  ∀ (i : Nat) g t, gs[i]? = some g → ts[i]? = some t → g = [star] ∨ g = t

/-- The pattern has no more parts than the tag, and they agree. -/
def Matches (glob tag : List UInt8) : Prop :=
  (glob.splitOn dot).length ≤ (tag.splitOn dot).length ∧ Agree (glob.splitOn dot) (tag.splitOn dot)

/-- The length of a part is a gint. -/
def Short (s : List UInt8) : Prop := ∀ w ∈ s.splitOn dot, w.length < 2 ^ 31

instance (s : List UInt8) : Decidable (Short s) := inferInstanceAs (Decidable (∀ w ∈ s.splitOn dot, w.length < 2 ^ 31))

theorem parts_ne_nil (s : List UInt8) : parts s ≠ [] := by
  cases s with
  | nil => exact List.cons_ne_nil _ _
  | cons c s =>
      rw [parts]
      split
      · exact List.cons_ne_nil _ _
      · split
        · exact List.cons_ne_nil _ _
        · exact List.cons_ne_nil _ _

theorem parts_eq_splitOn (s : List UInt8) : parts s = s.splitOn dot := by
  induction s with
  | nil => rfl
  | cons c s ih =>
      rw [parts, List.splitOn_cons_eq_if_modifyHead, ← ih]
      obtain ⟨w, ws, heq⟩ := List.exists_cons_of_ne_nil (parts_ne_nil s)
      rw [heq]
      simp [dot]

theorem agree_nil (ts : List (List UInt8)) : Agree [] ts := by
  intro i g t hg
  cases hg

theorem agree_cons (g t : List UInt8) (gs ts : List (List UInt8)) :
    Agree (g :: gs) (t :: ts) ↔ (g = [star] ∨ g = t) ∧ Agree gs ts := by
  constructor
  · exact fun h => ⟨h 0 g t rfl rfl, fun i g' t' hg ht => h (i + 1) g' t' hg ht⟩
  · rintro ⟨hfirst, hrest⟩ i g' t' hg ht
    cases i with
    | zero =>
        cases hg
        cases ht
        exact hfirst
    | succ i => exact hrest i g' t' hg ht

theorem partMatch_iff (g t : List UInt8) : partMatch g t = true ↔ g = [star] ∨ g = t := by
  rw [partMatch, Bool.or_eq_true, beq_iff_eq, beq_iff_eq]
  rfl

theorem partsMatch_last (g t : List UInt8) (ts : List (List UInt8)) : partsMatch [g] (t :: ts) = partMatch g t := by
  cases ts with
  | nil => exact Bool.and_true _
  | cons t' ts => exact Bool.and_true _

theorem partsMatch_more {gs : List (List UInt8)} (hgs : gs ≠ []) (g t : List UInt8) :
    partsMatch (g :: gs) [t] = false := by
  obtain ⟨g', gs, rfl⟩ := List.exists_cons_of_ne_nil hgs
  exact Bool.and_false _

theorem partsMatch_both {gs ts : List (List UInt8)} (hgs : gs ≠ []) (hts : ts ≠ []) (g t : List UInt8) :
    partsMatch (g :: gs) (t :: ts) = (partMatch g t && partsMatch gs ts) := by
  obtain ⟨g', gs, rfl⟩ := List.exists_cons_of_ne_nil hgs
  obtain ⟨t', ts, rfl⟩ := List.exists_cons_of_ne_nil hts
  rfl

theorem partsMatch_iff (gs ts : List (List UInt8)) (hgs : gs ≠ []) :
    partsMatch gs ts = true ↔ gs.length ≤ ts.length ∧ Agree gs ts := by
  induction gs generalizing ts with
  | nil => exact (hgs rfl).elim
  | cons g gs ih =>
      cases ts with
      | nil =>
          have hnone : partsMatch (g :: gs) [] = false := by cases gs <;> rfl
          rw [hnone]
          exact iff_of_false Bool.false_ne_true fun h => Nat.not_succ_le_zero _ h.1
      | cons t ts =>
          rw [agree_cons, ← partMatch_iff, List.length_cons, List.length_cons, Nat.succ_le_succ_iff]
          by_cases hnil : gs = []
          · rw [hnil, partsMatch_last]
            exact ⟨fun h => ⟨Nat.zero_le _, h, agree_nil ts⟩, fun h => h.2.1⟩
          · by_cases hend : ts = []
            · rw [hend, partsMatch_more hnil]
              refine iff_of_false Bool.false_ne_true fun h => hnil ?_
              exact List.eq_nil_of_length_eq_zero (Nat.le_zero.mp h.1)
            · rw [partsMatch_both hnil hend, Bool.and_eq_true, ih ts hnil]
              exact and_left_comm

/-! One round -/

variable {w v s t : List UInt8} {c d : UInt8} {p q : Ptr}

theorem memcmpSame_append (p q : Ptr) (h : w.length = v.length) :
    memcmpSame (w ++ p) (v ++ q) w.length = .ok (w == v) := by
  have hroom : ¬((w.length : Int) < 0 ∨ ((w ++ p).length : Int) < w.length ∨ ((v ++ q).length : Int) < w.length) := by
    rw [List.length_append, List.length_append]
    omega
  rw [memcmpSame, if_neg hroom, Int.toNat_natCast, List.take_left, h, List.take_left]

theorem isStar_append (w p : List UInt8) : isStar (w ++ p) w.length = .ok (w == [star]) := by
  by_cases hone : w.length = 1
  · have hcmp := memcmpSame_append (w := w) (v := [star]) p [0] hone
    rw [hone] at hcmp ⊢
    exact hcmp
  · have hne : (w == [star]) = false := by
      rw [beq_eq_false_iff_ne]
      rintro rfl
      exact hone rfl
    rw [isStar, if_pos (by omega), hne]

/-- Parts whose lengths are gints are compared whole. -/
theorem differs_append (hw : w.length < 2 ^ 31) (hv : v.length < 2 ^ 31) (p q : Ptr) :
    differs (w ++ p) (v ++ q) (gint w.length) (gint v.length) = .ok (!partMatch w v) := by
  rw [gint_of_lt hw, gint_of_lt hv, differs, isStar_append, Run.ok_bind, partMatch]
  change (if (w == [42]) = true then _ else _) = Except.ok (!(w == [42] || w == v))
  cases w == [42] with
  | true => rfl
  | false =>
      by_cases hlen : w.length = v.length
      · have hcmp := memcmpSame_append p q hlen
        change (if (w.length : Int) ≠ v.length then _ else memcmpSame (w ++ p) (v ++ q) w.length >>= fun same =>
          Except.ok (!same)) = _
        rw [if_neg (by omega), hcmp]
        rfl
      · have hne : (w == v) = false := by
          rw [beq_eq_false_iff_ne]
          rintro rfl
          exact hlen rfl
        change (if (w.length : Int) ≠ v.length then Except.ok true else _) = _
        rw [if_pos (by omega), hne]
        rfl

/-- The memory behind a part: the NUL, or a dot and the rest of the string. -/
def behind : Option (List UInt8) → Ptr
  | none => [0]
  | some s => dot :: terminated s

/-- The bytes of one part. -/
def IsPart (w : List UInt8) : Prop := 0 ∉ w ∧ dot ∉ w

theorem IsPart.plain (h : IsPart w) : Plain (· == dot) w := by
  intro b hb
  refine ⟨?_, ?_⟩
  · rintro rfl
    exact h.1 hb
  · rw [beq_eq_false_iff_ne]
    rintro rfl
    exact h.2 hb

/-- Every string begins with a part. -/
theorem exists_part (hs : 0 ∉ s) :
    ∃ w rest, IsPart w ∧ terminated s = w ++ behind rest ∧
      s.splitOn dot = w :: rest.elim [] (·.splitOn dot) ∧ ∀ r ∈ rest, 0 ∉ r ∧ r.length < s.length := by
  rcases plain_or_split (· == dot) hs with hplain | ⟨w, c, r, hw, hc, rfl⟩
  · have hdot : dot ∉ s := fun hmem => by simpa using (hplain dot hmem).2
    exact ⟨s, none, ⟨hs, hdot⟩, rfl, List.splitOn_eq_singleton hdot, by rintro r ⟨⟩⟩
  · obtain rfl : c = dot := by simpa using hc
    have hdot : dot ∉ w := fun hmem => by simpa using (hw dot hmem).2
    rw [List.mem_append, List.mem_cons, not_or, not_or] at hs
    refine ⟨w, some r, ⟨hs.1, hdot⟩, terminated_append w (dot :: r),
      List.splitOn_append_cons_self_of_not_mem hdot r, ?_⟩
    rintro r ⟨⟩
    refine ⟨hs.2.2, ?_⟩
    rw [List.length_append, List.length_cons]
    omega

theorem strchr_part (hw : IsPart w) (rest : Option (List UInt8)) :
    strchr (w ++ behind rest) dot = .ok (rest.map fun r => dot :: terminated r) := by
  cases rest with
  | none =>
      rw [strchr, behind, skip_append hw.plain (.inl rfl)]
      rfl
  | some r =>
      rw [strchr, behind, skip_append hw.plain (.inr rfl)]
      rfl

theorem partLen_part (hw : IsPart w) (rest : Option (List UInt8)) :
    partLen (w ++ behind rest) (rest.map fun r => dot :: terminated r) = .ok (gint w.length) := by
  cases rest with
  | none =>
      rw [Option.map_none, partLen, behind, string_append hw.1]
      rfl
  | some r =>
      change Except.ok (gint (distance (w ++ dot :: terminated r) (dot :: terminated r))) = _
      rw [distance_append]

theorem advance_append (hw : w.length < 2 ^ 31) (p : Ptr) : advance (w ++ p) (gint w.length) = .ok p := by
  have hroom : ¬((w.length : Int) < 0 ∨ ((w ++ p).length : Int) < w.length) := by
    rw [List.length_append]
    omega
  rw [gint_of_lt hw, advance, if_neg hroom, Int.toNat_natCast, List.drop_left]

theorem string_behind {rest : Option (List UInt8)} (hrest : ∀ r ∈ rest, 0 ∉ r) :
    string (behind rest) = some (rest.elim [] (dot :: ·)) := by
  cases rest with
  | none => rfl
  | some r =>
      have hbytes : 0 ∉ dot :: r := by
        rw [List.mem_cons, not_or]
        exact ⟨by decide, hrest r rfl⟩
      exact string_terminated hbytes

/-- At the end of one of the strings. -/
theorem globLast_part (hw : IsPart w) (hv : IsPart v) (hshort : w.length < 2 ^ 31 ∧ v.length < 2 ^ 31)
    {rest rest' : Option (List UInt8)} (hrest : ∀ r ∈ rest, 0 ∉ r) (hrest' : ∀ r ∈ rest', 0 ∉ r)
    (hend : rest = none ∨ rest' = none) :
    globLast (w ++ behind rest) (v ++ behind rest') (rest.map fun r => dot :: terminated r)
      (rest'.map fun r => dot :: terminated r) = .ok (partMatch w v && rest.isNone) := by
  rw [globLast, partLen_part hw, Run.ok_bind, partLen_part hv, Run.ok_bind, differs_append hshort.1 hshort.2,
    Run.ok_bind]
  cases partMatch w v with
  | false => rfl
  | true =>
      change (advance (w ++ behind rest) (gint w.length) >>= _) = _
      rw [advance_append hshort.1, Run.ok_bind, advance_append hshort.2, Run.ok_bind, string_behind hrest,
        string_behind hrest']
      rcases hend with rfl | rfl
      · rfl
      · cases rest with
        | none => rfl
        | some r =>
            have hmore : decide (0 < (dot :: r).length) = true := decide_eq_true (Nat.zero_lt_succ _)
            change Except.ok (!decide (0 < (dot :: r).length)) = _
            rw [hmore]
            rfl

/-- With a dot in both. -/
theorem globRound_dots (hw : IsPart w) (hv : IsPart v) (s t : List UInt8) {no : Bool}
    (hdiffers : differs (w ++ behind (some s)) (v ++ behind (some t)) (gint w.length) (gint v.length) = .ok no) :
    globRound (w ++ behind (some s), v ++ behind (some t)) =
      .ok (if no = true then (some false, (w ++ behind (some s), v ++ behind (some t)))
        else (none, (terminated s, terminated t))) := by
  rw [globRound, strchr_part hw, Run.ok_bind, strchr_part hv, Run.ok_bind]
  change (differs (w ++ dot :: terminated s) (v ++ dot :: terminated t)
    (gint (distance (w ++ dot :: terminated s) (dot :: terminated s)))
    (gint (distance (v ++ dot :: terminated t) (dot :: terminated t))) >>= _) = _
  rw [distance_append, distance_append]
  change (differs (w ++ behind (some s)) (v ++ behind (some t)) (gint w.length) (gint v.length) >>= _) = _
  rw [hdiffers, Run.ok_bind]
  cases no with
  | true => rfl
  | false => rfl

theorem globRound_last (hw : IsPart w) (hv : IsPart v) (hshort : w.length < 2 ^ 31 ∧ v.length < 2 ^ 31)
    {rest rest' : Option (List UInt8)} (hrest : ∀ r ∈ rest, 0 ∉ r) (hrest' : ∀ r ∈ rest', 0 ∉ r)
    (hend : rest = none ∨ rest' = none) :
    globRound (w ++ behind rest, v ++ behind rest') =
      .ok (some (partMatch w v && rest.isNone), (w ++ behind rest, v ++ behind rest')) := by
  have hlast := globLast_part hw hv hshort hrest hrest' hend
  rw [globRound, strchr_part hw, Run.ok_bind, strchr_part hv, Run.ok_bind]
  rcases hend with rfl | rfl
  · change (globLast _ _ _ _ >>= _) = _
    rw [hlast]
    rfl
  · cases rest with
    | none =>
        change (globLast _ _ _ _ >>= _) = _
        rw [hlast]
        rfl
    | some r =>
        change (globLast _ _ _ _ >>= _) = _
        rw [hlast]
        rfl

/-! The whole call -/

theorem short_cons {ws : List (List UInt8)} (h : s.splitOn dot = w :: ws) (hshort : Short s) :
    w.length < 2 ^ 31 ∧ ∀ v ∈ ws, v.length < 2 ^ 31 := by
  rw [Short, h] at hshort
  exact List.forall_mem_cons.mp hshort

/-- The loop compares the parts one after the other. -/
theorem ends_parts (hs : 0 ∉ s) (ht : 0 ∉ t) (hshort : Short s) (hshort' : Short t) :
    ∃ u, Ends globRound (terminated s, terminated t) (partsMatch (s.splitOn dot) (t.splitOn dot)) u := by
  induction hn : s.length using Nat.strong_induction_on generalizing s t with
  | h n ih =>
      obtain ⟨w, rest, hw, hmem, hsplit, hrest⟩ := exists_part hs
      obtain ⟨v, rest', hv, hmem', hsplit', hrest'⟩ := exists_part ht
      obtain ⟨hlen, hmore⟩ := short_cons hsplit hshort
      obtain ⟨hlen', hmore'⟩ := short_cons hsplit' hshort'
      rw [hmem, hmem', hsplit, hsplit']
      by_cases hend : rest = none ∨ rest' = none
      · have hlast := globRound_last hw hv ⟨hlen, hlen'⟩ (fun r hr => (hrest r hr).1) (fun r hr => (hrest' r hr).1) hend
        have heq : partsMatch (w :: rest.elim [] (·.splitOn dot)) (v :: rest'.elim [] (·.splitOn dot)) =
            (partMatch w v && rest.isNone) := by
          cases rest with
          | none => exact (partsMatch_last w v _).trans (Bool.and_true _).symm
          | some r =>
              obtain rfl := hend.resolve_left (Option.some_ne_none r)
              exact (partsMatch_more (List.splitOn_ne_nil dot r) w v).trans (Bool.and_false _).symm
        rw [heq]
        exact ⟨_, ends_now hlast⟩
      · rw [not_or] at hend
        obtain ⟨r, rfl⟩ := Option.ne_none_iff_exists'.mp hend.1
        obtain ⟨r', rfl⟩ := Option.ne_none_iff_exists'.mp hend.2
        have hround := globRound_dots hw hv r r' (differs_append hlen hlen' _ _)
        have heq : partsMatch (w :: r.splitOn dot) (v :: r'.splitOn dot) =
            (partMatch w v && partsMatch (r.splitOn dot) (r'.splitOn dot)) :=
          partsMatch_both (List.splitOn_ne_nil dot r) (List.splitOn_ne_nil dot r') w v
        change ∃ u, Ends globRound _ (partsMatch (w :: r.splitOn dot) (v :: r'.splitOn dot)) u
        rw [heq]
        cases hpart : partMatch w v with
        | false =>
            rw [hpart] at hround
            exact ⟨_, ends_now hround⟩
        | true =>
            rw [hpart] at hround
            obtain ⟨hbytes, hlt⟩ := hrest r rfl
            obtain ⟨u, hends⟩ := ih r.length (by omega) hbytes (hrest' r' rfl).1 hmore hmore' rfl
            exact ⟨u, hends.before (.single hround)⟩

theorem glob_call_iff (glob tag : List UInt8) (b : Bool) :
    (∃ fuel, zLogSpecGlobMatch fuel (terminated glob) (terminated tag) = .ok b) ↔
      ∃ u, Ends globRound (terminated glob, terminated tag) b u := by
  simp only [ends_iff_loop Halt.endless]
  constructor
  · rintro ⟨fuel, h⟩
    obtain ⟨⟨b', u⟩, hloop, rfl⟩ := Run.map_ok h
    exact ⟨u, fuel, hloop⟩
  · rintro ⟨u, fuel, hloop⟩
    exact ⟨fuel, by rw [zLogSpecGlobMatch, hloop]; rfl⟩

/-- The call answers what the evaluation of a specification uses. -/
theorem glob_call_eq {glob tag : List UInt8} (hglob : 0 ∉ glob) (htag : 0 ∉ tag) (hshort : Short glob)
    (hshort' : Short tag) (b : Bool) :
    (∃ fuel, zLogSpecGlobMatch fuel (terminated glob) (terminated tag) = .ok b) ↔ b = logSpecGlobMatch glob tag := by
  obtain ⟨u, hends⟩ := ends_parts hglob htag hshort hshort'
  rw [glob_call_iff, logSpecGlobMatch, parts_eq_splitOn, parts_eq_splitOn]
  constructor
  · rintro ⟨u', hends'⟩
    exact (hends'.unique hends).1
  · rintro rfl
    exact ⟨u, hends⟩

/-- z_log_spec_glob_match compares part by part. -/
theorem glob_match_iff (glob tag : List UInt8) (hglob : 0 ∉ glob) (htag : 0 ∉ tag) (hshort : Short glob)
    (hshort' : Short tag) (b : Bool) :
    (∃ fuel, zLogSpecGlobMatch fuel (terminated glob) (terminated tag) = .ok b) ↔
      (b = true ↔ Matches glob tag) := by
  rw [glob_call_eq hglob htag hshort hshort', Matches, ← partsMatch_iff _ _ (List.splitOn_ne_nil dot glob),
    logSpecGlobMatch, parts_eq_splitOn, parts_eq_splitOn, Bool.eq_iff_iff]

theorem glob_match_iff_core :
    (∃ fuel, zLogSpecGlobMatch fuel (terminated [99, dot, star]) (terminated [99, dot, 105, dot]) = .ok true) ↔
      (true = true ↔ Matches [99, dot, star] [99, dot, 105, dot]) := by
  refine glob_match_iff [99, dot, star] [99, dot, 105, dot] (by decide) (by decide) ?_ ?_ true
  · decide
  · decide

/-- The length of a part of 2^32 bytes is counted as 0, as that of an empty
part. -/
theorem glob_not_match : ¬∀ glob tag, 0 ∉ glob → 0 ∉ tag → ∀ b,
    (∃ fuel, zLogSpecGlobMatch fuel (terminated glob) (terminated tag) = .ok b) ↔ (b = true ↔ Matches glob tag) := by
  intro h
  obtain ⟨w, hw, hlen⟩ : ∃ w : List UInt8, IsPart w ∧ w.length = 2 ^ 32 := by
    refine ⟨List.replicate (2 ^ 32) 97, ⟨?_, ?_⟩, List.length_replicate⟩
    · exact fun hmem => absurd (List.eq_of_mem_replicate hmem) (by decide)
    · exact fun hmem => absurd (List.eq_of_mem_replicate hmem) (by decide)
  have hnone : IsPart [] := ⟨List.not_mem_nil, List.not_mem_nil⟩
  have hlengths : gint w.length = 0 ∧ gint ([] : List UInt8).length = 0 := by
    rw [hlen]
    decide
  have hdiffers : differs (w ++ behind (some [])) ([] ++ behind (some [])) (gint w.length)
      (gint ([] : List UInt8).length) = .ok false := by
    rw [hlengths.1, hlengths.2]
    rfl
  have hends : Ends globRound (terminated (w ++ [dot]), terminated [dot]) true (terminated [], terminated []) := by
    have hround := globRound_dots hw hnone [] [] hdiffers
    rw [terminated_append]
    exact .before (.single hround) (ends_now rfl)
  have hmatch : ¬Matches (w ++ [dot]) [dot] := by
    rintro ⟨-, hagree⟩
    have hsplit := List.splitOn_append_cons_self_of_not_mem hw.2 []
    rw [hsplit] at hagree
    rcases hagree 0 w [] rfl rfl with rfl | rfl
    · exact absurd hlen (by decide)
    · exact absurd hlen (by decide)
  have hbytes : 0 ∉ w ++ [dot] := by
    rw [List.mem_append, not_or]
    exact ⟨hw.1, by decide⟩
  have hcall := (h (w ++ [dot]) [dot] hbytes (by decide) true).mp ((glob_call_iff _ _ true).mpr ⟨_, hends⟩)
  exact hmatch (hcall.mp rfl)

end Libzorpll.GlobMatch
