import Libzorpll.CString
import Libzorpll.Region
import Libzorpll.Signed

/-! md5_crypt, and the room that its string takes in the buffer. -/

namespace Libzorpll.Md5Crypt

open CString Region Signed

/-- "$1$" -/
def magic : List UInt8 := [36, 49, 36]

def dollar : UInt8 := 36

/-- 0 to 63 => ascii - 64 -/
def md5CryptB64t : List UInt8 := (List.range' 46 12 ++ List.range' 65 26 ++ List.range' 97 26).map Nat.toUInt8

def b64 (v : UInt32) : UInt8 := md5CryptB64t.getD (v &&& 0x3f).toNat 0

def md5CryptTo64 (s : Nat) (v : UInt32) : Nat → List UInt8 → Except Abort (List UInt8)
  | 0, m => .ok m
  | n + 1, m => do
      let m ← write m s [b64 v]
      md5CryptTo64 (s + 1) (v >>> 6) n m

/-- The salt without the magic string. -/
def skipMagic (salt : List UInt8) : List UInt8 := if salt.take 3 = magic then salt.drop 3 else salt

/-- It stops at the first '$', and after so many characters. -/
def saltLength : Nat → Ptr → Nat
  | left + 1, c :: ep => if c ≠ 0 ∧ c ≠ dollar then saltLength left ep + 1 else 0
  | _, _ => 0

/-- A context is what was fed to it. No object is as long as a negative length
is as a size_t. -/
def md5Update (ctx data : List UInt8) (len : Int) : Except Abort (List UInt8) :=
  if 0 ≤ len then (read data 0 len.toNat).map (ctx ++ ·) else .error .outOfBounds

def addFinal (final : List UInt8) (ctx : List UInt8) (i : Nat) : Except Abort (List UInt8) :=
  if 0 < i then do
    let ctx ← md5Update ctx final (if 16 < i then 16 else (i : Int))
    addFinal final ctx (i - 16)
  else .ok ctx
termination_by i

/-- Then something really weird... -/
def addBits (final pw : List UInt8) (ctx : List UInt8) (i : Nat) : Except Abort (List UInt8) :=
  if i ≠ 0 then do
    let ctx ← (if i % 2 ≠ 0 then md5Update ctx final 1 else md5Update ctx pw 1)
    addBits final pw ctx (i / 2)
  else .ok ctx
termination_by i

variable (md5 : List UInt8 → Vector UInt8 16)

def round (pw sp : Ptr) (pwl : Int) (sl : Nat) (final : Vector UInt8 16) (i : Nat) :
    Except Abort (Vector UInt8 16) := do
  let ctx ← (if i % 2 ≠ 0 then md5Update [] pw pwl else md5Update [] final.toList 16)
  let ctx ← (if i % 3 ≠ 0 then md5Update ctx sp sl else .ok ctx)
  let ctx ← (if i % 7 ≠ 0 then md5Update ctx pw pwl else .ok ctx)
  let ctx ← (if i % 2 ≠ 0 then md5Update ctx final.toList 16 else md5Update ctx pw pwl)
  .ok (md5 ctx)

def digest (pw sp : Ptr) (pwl : Int) (sl : Nat) : Except Abort (Vector UInt8 16) := do
  let ctx ← md5Update [] pw pwl
  let ctx ← md5Update ctx magic 3
  let ctx ← md5Update ctx sp sl
  let altCtx ← md5Update [] pw pwl
  let altCtx ← md5Update altCtx sp sl
  let altCtx ← md5Update altCtx pw pwl
  let final := md5 altCtx
  let ctx ← addFinal final.toList ctx pwl.toNat
  let final := final.set 0 0
  let ctx ← addBits final.toList pw ctx pwl.toNat
  (List.range 1000).foldlM (round md5 pw sp pwl sl) (md5 ctx)

def triple (a b c : UInt8) : UInt32 := a.toUInt32 <<< 16 ||| b.toUInt32 <<< 8 ||| c.toUInt32

def writeHash (final : Vector UInt8 16) (p : Nat) (m : List UInt8) : Except Abort (List UInt8) := do
  let m ← md5CryptTo64 p (triple final[0] final[6] final[12]) 4 m
  let m ← md5CryptTo64 (p + 4) (triple final[1] final[7] final[13]) 4 m
  let m ← md5CryptTo64 (p + 8) (triple final[2] final[8] final[14]) 4 m
  let m ← md5CryptTo64 (p + 12) (triple final[3] final[9] final[15]) 4 m
  let m ← md5CryptTo64 (p + 16) (triple final[4] final[10] final[5]) 4 m
  let m ← md5CryptTo64 (p + 20) final[11].toUInt32 2 m
  write m (p + 22) [0]

/-- The length of the whole text, and the buffer with what fits of it. -/
def snprintf (m text : List UInt8) : Except Abort (Nat × List UInt8) :=
  if m.length = 0 then .ok (text.length, m)
  else (write m 0 (text.take (m.length - 1) ++ [0])).map (text.length, ·)

/-- The password and the salt are strings; the result is what is in the buffer
before the call and after it. -/
def md5Crypt (pw salt result : List UInt8) : Except Abort (List UInt8) := do
  let sp := skipMagic salt
  let sl := saltLength 8 (terminated sp)
  let pwl := narrow 32 pw.length
  let final ← digest md5 (terminated pw) (terminated sp) pwl sl
  let (i, m) ← snprintf result (magic ++ sp.take sl ++ [dollar])
  if 0 < i ∧ i < result.length then
    if 23 < result.length then writeHash final i m else .ok m
  else .ok m

/-- The salt that is used: without the magic string, up to a '$', of 8
characters at most. -/
def refined (salt : List UInt8) : List UInt8 := ((skipMagic salt).takeWhile (· ≠ dollar)).take 8

def head (salt : List UInt8) : List UInt8 := magic ++ refined salt ++ [dollar]

/-- The call stays in the buffer, and where it is to write the hash, the
string in it is the head with 22 characters behind it. -/
def FitsBuffer (pw salt result : List UInt8) : Prop :=
  ∃ m, md5Crypt md5 pw salt result = .ok m ∧ m.length = result.length ∧
    ((head salt).length < result.length → 23 < result.length →
      ∃ hash, hash.length = 22 ∧ (∀ c ∈ hash, c ∈ md5CryptB64t) ∧ string m = some (head salt ++ hash))

variable {md5 : List UInt8 → Vector UInt8 16} {pw salt sp result m : List UInt8}

/-! The digest -/

theorem ok_bind {α β : Type} {x : Except Abort α} {f : α → Except Abort β} (hx : ∃ a, x = .ok a)
    (hf : ∀ a, ∃ b, f a = .ok b) : ∃ b, x >>= f = .ok b := by
  obtain ⟨a, rfl⟩ := hx
  exact hf a

theorem md5Update_ok (ctx : List UInt8) {data : List UInt8} {len : Int} (hpos : 0 ≤ len)
    (hlen : len ≤ data.length) : ∃ ctx', md5Update ctx data len = .ok ctx' := by
  rw [md5Update, if_pos hpos, read_eq (by omega)]
  exact ⟨_, rfl⟩

theorem addFinal_ok {final : List UInt8} (hfinal : final.length = 16) (ctx : List UInt8) (i : Nat) :
    ∃ ctx', addFinal final ctx i = .ok ctx' := by
  induction i using Nat.strongRecOn generalizing ctx with
  | ind i ih =>
      rw [addFinal]
      split
      · rename_i hpos
        refine ok_bind (md5Update_ok ctx ?_ ?_) fun ctx => ih (i - 16) (by omega) ctx
        · split <;> omega
        · split <;> omega
      · exact ⟨ctx, rfl⟩

theorem addBits_ok {final pw : List UInt8} (hfinal : 0 < final.length) (hpw : 0 < pw.length) (ctx : List UInt8)
    (i : Nat) : ∃ ctx', addBits final pw ctx i = .ok ctx' := by
  induction i using Nat.strongRecOn generalizing ctx with
  | ind i ih =>
      rw [addBits]
      split
      · refine ok_bind ?_ fun ctx => ih (i / 2) (by omega) ctx
        split
        · exact md5Update_ok ctx (by decide) (by omega)
        · exact md5Update_ok ctx (by decide) (by omega)
      · exact ⟨ctx, rfl⟩

section

variable {pwl : Int} {sl : Nat} (hpos : 0 ≤ pwl) (hpwl : pwl ≤ pw.length) (hsl : sl ≤ sp.length)
include hpos hpwl hsl

theorem round_ok (final : Vector UInt8 16) (i : Nat) : ∃ final', round md5 pw sp pwl sl final i = .ok final' := by
  have hpw (ctx : List UInt8) := md5Update_ok ctx hpos hpwl
  have hsp (ctx : List UInt8) := md5Update_ok ctx (Int.natCast_nonneg sl) (Int.ofNat_le.mpr hsl)
  have hfinal (ctx : List UInt8) : ∃ ctx', md5Update ctx final.toList 16 = .ok ctx' :=
    md5Update_ok ctx (by decide) (by rw [Vector.length_toList]; decide)
  refine ok_bind ?_ fun ctx => ok_bind ?_ fun ctx => ok_bind ?_ fun ctx => ok_bind ?_ fun ctx => ⟨md5 ctx, rfl⟩
  · split
    · exact hpw []
    · exact hfinal []
  · split
    · exact hsp ctx
    · exact ⟨ctx, rfl⟩
  · split
    · exact hpw ctx
    · exact ⟨ctx, rfl⟩
  · split
    · exact hfinal ctx
    · exact hpw ctx

theorem rounds_ok (is : List Nat) (final : Vector UInt8 16) :
    ∃ final', is.foldlM (round md5 pw sp pwl sl) final = .ok final' := by
  induction is generalizing final with
  | nil => exact ⟨final, rfl⟩
  | cons i is ih => exact ok_bind (round_ok hpos hpwl hsl final i) ih

theorem digest_ok (hsome : 0 < pw.length) : ∃ final, digest md5 pw sp pwl sl = .ok final := by
  have hpw (ctx : List UInt8) := md5Update_ok ctx hpos hpwl
  have hsp (ctx : List UInt8) := md5Update_ok ctx (Int.natCast_nonneg sl) (Int.ofNat_le.mpr hsl)
  refine ok_bind (hpw []) fun ctx => ok_bind (md5Update_ok ctx (by decide) (by decide)) fun ctx => ?_
  refine ok_bind (hsp ctx) fun ctx => ok_bind (hpw []) fun altCtx => ok_bind (hsp altCtx) fun altCtx => ?_
  refine ok_bind (hpw altCtx) fun altCtx => ok_bind (addFinal_ok (Vector.length_toList) ctx _) fun ctx => ?_
  refine ok_bind (addBits_ok (by rw [Vector.length_toList]; decide) hsome ctx _) fun ctx => ?_
  exact rounds_ok hpos hpwl hsl _ _

end

theorem digest_negative {pwl : Int} (hneg : pwl < 0) (sl : Nat) : digest md5 pw sp pwl sl = .error .outOfBounds := by
  rw [digest, md5Update, if_neg (Int.not_le.mpr hneg)]
  rfl

/-! The salt -/

theorem saltLength_le (left : Nat) (p : Ptr) : saltLength left p ≤ p.length := by
  induction p generalizing left with
  | nil => cases left <;> exact Nat.le_refl 0
  | cons c p ih =>
      cases left with
      | zero => exact Nat.zero_le _
      | succ left =>
          rw [saltLength]
          split
          · exact Nat.succ_le_succ (ih left)
          · exact Nat.zero_le _

theorem take_saltLength (hsp : 0 ∉ sp) (left : Nat) :
    sp.take (saltLength left (terminated sp)) = (sp.takeWhile (· ≠ dollar)).take left := by
  induction sp generalizing left with
  | nil => rw [List.take_nil, List.takeWhile_nil, List.take_nil]
  | cons c sp ih =>
      rw [List.mem_cons, not_or] at hsp
      cases left with
      | zero => rfl
      | succ left =>
          by_cases hc : c = dollar
          · have hstop : saltLength (left + 1) (terminated (c :: sp)) = 0 := if_neg fun h => h.2 hc
            rw [hstop, List.takeWhile_cons_of_neg (by simpa using hc)]
            rfl
          · have hgo : saltLength (left + 1) (terminated (c :: sp)) = saltLength left (terminated sp) + 1 :=
              if_pos ⟨Ne.symm hsp.1, hc⟩
            rw [hgo, List.takeWhile_cons_of_pos (by simpa using hc), List.take_succ_cons, List.take_succ_cons,
              ih hsp.2]

theorem skipMagic_bytes (hsalt : 0 ∉ salt) : 0 ∉ skipMagic salt := by
  rw [skipMagic]
  split
  · exact fun h => hsalt (List.mem_of_mem_drop h)
  · exact hsalt

theorem refined_bytes (hsalt : 0 ∉ salt) : 0 ∉ refined salt := fun h =>
  skipMagic_bytes hsalt (List.takeWhile_sublist _ |>.subset (List.mem_of_mem_take h))

theorem head_length (salt : List UInt8) : (head salt).length = (refined salt).length + 4 := by
  rw [head, List.length_append, List.length_append]
  change 3 + _ + 1 = _
  omega

theorem refined_length (salt : List UInt8) : (refined salt).length ≤ 8 := List.length_take_le 8 _

theorem head_bytes (hsalt : 0 ∉ salt) : 0 ∉ head salt := by
  have hends : (0 : UInt8) ∉ magic ∧ (0 : UInt8) ∉ [dollar] := by decide
  rw [head, List.mem_append, List.mem_append, not_or, not_or]
  exact ⟨⟨hends.1, refined_bytes hsalt⟩, hends.2⟩

/-! The hash -/

def sixBits (v : UInt32) : Nat → List UInt8
  | 0 => []
  | n + 1 => b64 v :: sixBits (v >>> 6) n

theorem b64_mem (v : UInt32) : b64 v ∈ md5CryptB64t := by
  have hlt : (v &&& 0x3f).toNat < md5CryptB64t.length := by
    have hle : (v &&& 0x3f).toNat ≤ 63 := by
      rw [UInt32.toNat_and]
      exact Nat.and_le_right
    exact Nat.lt_succ_of_le hle
  rw [b64, List.getD_eq_getElem?_getD, List.getElem?_eq_getElem hlt, Option.getD_some]
  exact List.getElem_mem hlt

theorem sixBits_length (v : UInt32) (n : Nat) : (sixBits v n).length = n := by
  induction n generalizing v with
  | zero => rfl
  | succ n ih => rw [sixBits, List.length_cons, ih]

theorem sixBits_mem {v : UInt32} {n : Nat} : ∀ c ∈ sixBits v n, c ∈ md5CryptB64t := by
  induction n generalizing v with
  | zero => rintro c ⟨⟩
  | succ n ih =>
      intro c hc
      obtain rfl | hc := List.mem_cons.mp hc
      · exact b64_mem v
      · exact ih c hc

theorem md5CryptTo64_eq {s : Nat} (hs : s ≤ m.length) (v : UInt32) (n : Nat) :
    md5CryptTo64 s v n m = write m s (sixBits v n) := by
  induction n generalizing s v m with
  | zero =>
      rw [sixBits, write_eq (by rw [List.length_nil, Nat.add_zero]; exact hs), put_nil]
      rfl
  | succ n ih =>
      rw [md5CryptTo64]
      change _ = write m s ([b64 v] ++ sixBits (v >>> 6) n)
      rw [← write_append]
      by_cases h : s + 1 ≤ m.length
      · rw [write_eq h]
        exact ih (by rw [put_length h]; exact h) _
      · rw [write_error (Nat.not_le.mp h)]
        rfl

/-- The characters go on behind what is written before them. -/
theorem to64_after {p k : Nat} (xs : List UInt8) (hk : k = p + xs.length) (v : UInt32) (n : Nat) :
    (write m p xs >>= md5CryptTo64 k v n) = write m p (xs ++ sixBits v n) := by
  subst hk
  rw [← write_append]
  by_cases h : p + xs.length ≤ m.length
  · rw [write_eq h]
    exact md5CryptTo64_eq (by rw [put_length h]; exact h) v n
  · rw [write_error (Nat.not_le.mp h)]
    rfl

def hashText (final : Vector UInt8 16) : List UInt8 :=
  sixBits (triple final[0] final[6] final[12]) 4 ++ sixBits (triple final[1] final[7] final[13]) 4 ++
    sixBits (triple final[2] final[8] final[14]) 4 ++ sixBits (triple final[3] final[9] final[15]) 4 ++
      sixBits (triple final[4] final[10] final[5]) 4 ++ sixBits final[11].toUInt32 2

theorem hashText_length (final : Vector UInt8 16) : (hashText final).length = 22 := by
  simp only [hashText, List.length_append, sixBits_length]

theorem hashText_mem (final : Vector UInt8 16) : ∀ c ∈ hashText final, c ∈ md5CryptB64t := by
  intro c hc
  simp only [hashText, List.mem_append, or_assoc] at hc
  obtain hc | hc | hc | hc | hc | hc := hc
  all_goals exact sixBits_mem c hc

theorem hashText_bytes (final : Vector UInt8 16) : 0 ∉ hashText final := fun h =>
  absurd (hashText_mem final 0 h) (by decide)

theorem writeHash_eq {p : Nat} (hp : p ≤ m.length) (final : Vector UInt8 16) :
    writeHash final p m = write m p (hashText final ++ [0]) := by
  have hlen := hashText_length final
  simp only [hashText, List.length_append, sixBits_length] at hlen
  rw [writeHash]
  simp only [← bind_assoc]
  rw [md5CryptTo64_eq hp]
  rw [to64_after _ (by simp only [sixBits_length]), to64_after _ (by simp only [List.length_append, sixBits_length])]
  rw [to64_after _ (by simp only [List.length_append, sixBits_length]),
    to64_after _ (by simp only [List.length_append, sixBits_length])]
  rw [to64_after _ (by simp only [List.length_append, sixBits_length]), ← hashText, ← write_append, hashText_length]

/-! The buffer -/

theorem snprintf_ok (m text : List UInt8) :
    ∃ m', snprintf m text = .ok (text.length, m') ∧ m'.length = m.length := by
  rw [snprintf]
  split
  · exact ⟨m, rfl, rfl⟩
  · have hfits : 0 + (text.take (m.length - 1) ++ [0]).length ≤ m.length := by
      have hle := List.length_take_le (m.length - 1) text
      rw [List.length_append, List.length_singleton]
      omega
    rw [write_eq hfits]
    exact ⟨_, rfl, put_length hfits⟩

theorem snprintf_whole {text : List UInt8} (h : text.length < m.length) :
    snprintf m text = .ok (text.length, put m 0 (text ++ [0])) := by
  have hfits : 0 + (text ++ [0]).length ≤ m.length := by
    rw [List.length_append, List.length_singleton]
    omega
  rw [snprintf, if_neg (by omega), List.take_of_length_le (by omega), write_eq hfits]
  rfl

theorem narrow_le (n : Nat) : narrow 32 n ≤ n := by
  rw [narrow, Int.bmod_def]
  omega

theorem md5Crypt_negative (hneg : narrow 32 pw.length < 0) (salt result : List UInt8) :
    md5Crypt md5 pw salt result = .error .outOfBounds := by
  rw [md5Crypt, digest_negative hneg]
  rfl

theorem md5Crypt_eq (hsalt : 0 ∉ salt) (hpos : 0 ≤ narrow 32 pw.length) :
    ∃ final, md5Crypt md5 pw salt result = snprintf result (head salt) >>= fun r =>
      if 0 < r.1 ∧ r.1 < result.length then
        if 23 < result.length then writeHash final r.1 r.2 else .ok r.2
      else .ok r.2 := by
  have hpwl : narrow 32 pw.length ≤ (terminated pw).length := by
    have hle := narrow_le pw.length
    rw [terminated, List.length_append, List.length_singleton]
    omega
  have hsome : 0 < (terminated pw).length := by
    rw [terminated, List.length_append, List.length_singleton]
    omega
  obtain ⟨final, hfinal⟩ := @digest_ok md5 _ _ _ _ hpos hpwl (saltLength_le 8 (terminated (skipMagic salt))) hsome
  refine ⟨final, ?_⟩
  rw [md5Crypt, hfinal, take_saltLength (skipMagic_bytes hsalt)]
  rfl

theorem md5Crypt_short (hsalt : 0 ∉ salt) (hpos : 0 ≤ narrow 32 pw.length)
    (hshort : result.length ≤ 23) : ∃ m, md5Crypt md5 pw salt result = .ok m ∧ m.length = result.length := by
  obtain ⟨final, heq⟩ := @md5Crypt_eq md5 pw salt result hsalt hpos
  obtain ⟨m, hm, hlen⟩ := snprintf_ok result (head salt)
  refine ⟨m, ?_, hlen⟩
  rw [heq, hm]
  change (if _ then _ else _) = _
  rw [if_neg (Nat.not_lt.mpr hshort), ite_self]

theorem md5Crypt_long (hsalt : 0 ∉ salt) (hpos : 0 ≤ narrow 32 pw.length) (hlong : 23 < result.length) :
    ∃ final, md5Crypt md5 pw salt result =
      write (put result 0 (head salt ++ [0])) (head salt).length (hashText final ++ [0]) := by
  obtain ⟨final, heq⟩ := @md5Crypt_eq md5 pw salt result hsalt hpos
  have hhead := head_length salt
  have hrefined := refined_length salt
  have hfits : 0 + (head salt ++ [0]).length ≤ result.length := by
    rw [List.length_append, List.length_singleton]
    omega
  refine ⟨final, ?_⟩
  rw [heq, snprintf_whole (by omega)]
  change (if _ then _ else _) = _
  rw [if_pos ⟨by omega, by omega⟩, if_pos hlong]
  exact writeHash_eq (by rw [put_length hfits]; omega) final

/-- Behind the head the hash and its NUL take 23 more bytes. -/
theorem fits_of_room (hsalt : 0 ∉ salt) (hpos : 0 ≤ narrow 32 pw.length)
    (hroom : result.length ≤ 23 ∨ (refined salt).length + 27 ≤ result.length) :
    FitsBuffer md5 pw salt result := by
  obtain hshort | hroom := hroom
  · obtain ⟨m, hm, hlen⟩ := @md5Crypt_short md5 pw salt result hsalt hpos hshort
    exact ⟨m, hm, hlen, fun _ hlong => absurd hlong (Nat.not_lt.mpr hshort)⟩
  · obtain ⟨final, heq⟩ := @md5Crypt_long md5 pw salt result hsalt hpos (by omega)
    have hhead := head_length salt
    have hhash : (hashText final ++ [0]).length = 23 := by
      rw [List.length_append, hashText_length, List.length_singleton]
    have hfits : 0 + (head salt ++ [0]).length ≤ result.length := by
      rw [List.length_append, List.length_singleton]
      omega
    have hwrite : (head salt).length + (hashText final ++ [0]).length ≤ (put result 0 (head salt ++ [0])).length := by
      rw [put_length hfits, hhash]
      omega
    rw [write_eq hwrite] at heq
    refine ⟨_, heq, (put_length hwrite).trans (put_length hfits), fun _ _ => ?_⟩
    refine ⟨hashText final, hashText_length final, hashText_mem final, ?_⟩
    have hbytes : 0 ∉ head salt ++ hashText final := by
      rw [List.mem_append, not_or]
      exact ⟨head_bytes hsalt, hashText_bytes final⟩
    have htake : (put result 0 (head salt ++ [0])).take (head salt).length = head salt := by
      rw [put, List.take_zero, List.nil_append, List.append_assoc, List.take_left]
    rw [put, htake, ← List.append_assoc, List.append_assoc _ [0], List.singleton_append]
    exact string_append hbytes _

theorem room_of_fits (hsalt : 0 ∉ salt) (h : FitsBuffer md5 pw salt result) :
    0 ≤ narrow 32 pw.length ∧ (result.length ≤ 23 ∨ (refined salt).length + 27 ≤ result.length) := by
  obtain ⟨m, hm, -⟩ := h
  have hpos : 0 ≤ narrow 32 pw.length := by
    by_contra hneg
    rw [md5Crypt_negative (Int.not_le.mp hneg)] at hm
    cases hm
  refine ⟨hpos, ?_⟩
  by_contra hroom
  rw [not_or] at hroom
  obtain ⟨final, heq⟩ := @md5Crypt_long md5 pw salt result hsalt hpos (Nat.not_le.mp hroom.1)
  have hhead := head_length salt
  have hrefined := refined_length salt
  have hfits : 0 + (head salt ++ [0]).length ≤ result.length := by
    rw [List.length_append, List.length_singleton]
    omega
  have hover : (put result 0 (head salt ++ [0])).length < (head salt).length + (hashText final ++ [0]).length := by
    rw [put_length hfits, List.length_append, hashText_length, List.length_singleton]
    omega
  rw [heq, write_error hover] at hm
  cases hm

/-- The result stays in its buffer but for a length between the one that is
tested and the one that head and hash have. -/
theorem fits_iff (md5 : List UInt8 → Vector UInt8 16) (pw salt result : List UInt8) (hsalt : 0 ∉ salt) :
    FitsBuffer md5 pw salt result ↔
      0 ≤ narrow 32 pw.length ∧ (result.length ≤ 23 ∨ (refined salt).length + 27 ≤ result.length) :=
  ⟨room_of_fits hsalt, fun h => fits_of_room hsalt h.1 h.2⟩

/-- A salt of two characters with the magic string before it, in 29 bytes. -/
theorem fits_iff_two :
    FitsBuffer (fun _ => Vector.replicate 16 7) [112, 119] [36, 49, 36, 97, 98] (List.replicate 29 0) ↔
      0 ≤ narrow 32 ([112, 119] : List UInt8).length ∧ ((List.replicate 29 (0 : UInt8)).length ≤ 23 ∨
        (refined [36, 49, 36, 97, 98]).length + 27 ≤ (List.replicate 29 (0 : UInt8)).length) :=
  fits_iff _ _ _ _ (by decide)

/-- With a salt of eight characters, 24 bytes are taken for enough. -/
theorem not_fits : ¬∃ md5 : List UInt8 → Vector UInt8 16,
    FitsBuffer md5 [112, 119] [97, 98, 99, 100, 101, 102, 103, 104] (List.replicate 24 0) := by
  rintro ⟨md5, hfits⟩
  exact absurd (room_of_fits (by decide) hfits).2 (by decide)

end Libzorpll.Md5Crypt
