import Libzorpll.CString
import Mathlib.Data.Int.DivMod
import Mathlib.Logic.Function.Basic

/-! z_url_parse on the memory of a string. -/

namespace Libzorpll.UrlParse

open CString

/-- What ends a call early: FALSE with the text of the error, or the end of
the program. -/
inductive Stop
  | failed (text : String)
  | outOfBounds
  | uninitialised
  | notReached
  | noMemory
  deriving DecidableEq

structure ZURL where
  scheme : List UInt8 := []
  user : List UInt8 := []
  passwd : List UInt8 := []
  host : List UInt8 := []
  port : Nat := 0
  file : List UInt8 := []
  deriving DecidableEq

def colon : UInt8 := 58

def slash : UInt8 := 47

def atSign : UInt8 := 64

def percent : UInt8 := 37

/-- The bytes that end a part. -/
def isSep (c : UInt8) : Bool := c == colon || c == slash || c == atSign || c == 63 || c == 35

def reads {α : Type} : Option α → Except Stop α
  | none => .error .outOfBounds
  | some a => .ok a

/-- What a gint keeps of a number. -/
def gint (n : Int) : Int := n.bmod (2 ^ 32)

def tolower (c : UInt8) : UInt8 := if 65 ≤ c ∧ c ≤ 90 then c + 32 else c

def xdigitValue (c : UInt8) : Int :=
  let c := tolower c
  if 48 ≤ c ∧ c ≤ 57 then c.toNat - 48
  else if 97 ≤ c ∧ c ≤ 102 then c.toNat - 97 + 10
  else -1

def decodeHexByte (src : Ptr) : Except Stop UInt8 := do
  let high ← reads (deref src)
  if isXDigit high then
    let low ← reads (deref (src.drop 1))
    if isXDigit low then .ok (UInt8.ofInt (xdigitValue high * 16 + xdigitValue low))
    else .error (.failed "Invalid hexadecimal encoding")
  else .error (.failed "Invalid hexadecimal encoding")

/-- One round of the loop that decodes: a byte, the rest of the source and
what is left of its length. -/
def decodeRound (src : Ptr) (left : Int) : Except Stop (UInt8 × Ptr × Int) := do
  let c ← reads (deref src)
  if c = percent then
    if left < 2 then .error (.failed "Hexadecimal encoding too short")
    else
      -- the error of decodeHexByte stays: g_set_error keeps the first
      let c ← decodeHexByte (src.drop 1)
      .ok (c, src.drop 3, left - 3)
  else .ok (c, src.drop 1, left - 1)

/-- The loop goes on until left is exactly 0. The destination has room for so
many bytes, the closing NUL included. -/
def decodeLoop : Nat → Ptr → Int → Except Stop (List UInt8)
  | 0, src, left =>
      if left = 0 then .error .outOfBounds
      else do
        let _ ← decodeRound src left
        .error .outOfBounds
  | room + 1, src, left =>
      if left = 0 then .ok []
      else do
        let (c, src, left) ← decodeRound src left
        let rest ← decodeLoop room src left
        .ok (c :: rest)

/-- g_string_set_size takes a gsize: a negative length is more than there can
be memory. -/
def assignUrlDecode (src : Ptr) (len : Int) : Except Stop (List UInt8) :=
  if len < 0 then .error .noMemory else decodeLoop (len.toNat + 1) src len

/-- The arrays part and sep. -/
abbrev Cuts := Nat → Option Ptr

def written (cuts : Cuts) (k : Nat) : Except Stop Ptr :=
  match cuts k with
  | none => .error .uninitialised
  | some p => .ok p

/-- The splitting loop, with the number of rounds up to its bound: i, p and
the arrays that it leaves. -/
def splitLoop : Nat → Nat → Ptr → Cuts → Cuts → Except Stop (Nat × Ptr × Cuts × Cuts)
  | 0, i, p, part, sep => .ok (i, p, part, sep)
  | n + 1, i, p, part, sep => do
      let part := Function.update part i (some p)
      let p ← reads (skip isSep p)
      let sep := Function.update sep i (some p)
      let c ← reads (deref p)
      if c = 0 ∨ c = slash then .ok (i, p, part, sep)
      else splitLoop n (i + 1) (p.drop 1) part sep

def decodePart (part sep : Cuts) (k : Nat) : Except Stop (List UInt8) := do
  let start ← written part k
  let stop ← written sep k
  assignUrlDecode start (gint (distance start stop))

def parsePort (part sep : Cuts) (k : Nat) : Except Stop Nat := do
  let start ← written part k
  let (n, stop) ← reads (strtoul start)
  let limit ← written sep k
  if stop.length ≠ limit.length then .error (.failed "Error parsing port number")
  else .ok (n % 2 ^ 32)

/-- Whether these separators stand at sep[k] and after it. -/
def sepsAre (sep : Cuts) : Nat → List UInt8 → Except Stop Bool
  | _, [] => .ok true
  | k, c :: cs => do
      let p ← written sep k
      let b ← reads (deref p)
      if b = c then sepsAre sep (k + 1) cs else .ok false

def unrecognized {α : Type} : Except Stop α := .error (.failed "Unrecognized URL construct")

def switchParts (url : ZURL) (i : Nat) (part sep : Cuts) : Except Stop ZURL :=
  match i with
  | 0 => do
      let host ← decodePart part sep 0
      .ok { url with host := host }
  | 1 => do
      if ← sepsAre sep 0 [colon] then
        let host ← decodePart part sep 0
        let port ← parsePort part sep 1
        .ok { url with host := host, port := port }
      else if ← sepsAre sep 0 [atSign] then
        let user ← decodePart part sep 0
        let host ← decodePart part sep 1
        .ok { url with user := user, host := host }
      else unrecognized
  | 2 => do
      if ← sepsAre sep 0 [atSign, colon] then
        let user ← decodePart part sep 0
        let host ← decodePart part sep 1
        let port ← parsePort part sep 2
        .ok { url with user := user, host := host, port := port }
      else if ← sepsAre sep 0 [colon, atSign] then
        let user ← decodePart part sep 0
        let passwd ← decodePart part sep 1
        let host ← decodePart part sep 2
        .ok { url with user := user, passwd := passwd, host := host }
      else unrecognized
  | 3 => do
      if ← sepsAre sep 0 [colon, atSign, colon] then
        let user ← decodePart part sep 0
        let passwd ← decodePart part sep 1
        let host ← decodePart part sep 2
        let port ← parsePort part sep 3
        .ok { url with user := user, passwd := passwd, host := host, port := port }
      else unrecognized
  | _ => .error .notReached

def assignFile (url : ZURL) (fileStart : Ptr) : Except Stop ZURL := do
  let c ← reads (deref fileStart)
  if c ≠ slash then
    if c = 0 then .ok { url with file := [slash] }
    else .error (.failed "Invalid path component in URL")
  else
    let file ← reads (string fileStart)
    .ok { url with file := file }

/-- The pointer after the separator of the scheme, and the scheme. -/
def parseScheme (urlStr : Ptr) : Except Stop (List UInt8 × Ptr) := do
  let p ← reads (skip (· == colon) urlStr)
  let c ← reads (deref p)
  if c = 0 then .error (.failed "URL has no scheme, colon missing")
  else
    let first ← reads (deref (p.drop 1))
    if first ≠ slash then .error (.failed "Scheme not followed by '//'")
    else
      let second ← reads (deref (p.drop 2))
      if second ≠ slash then .error (.failed "Scheme not followed by '//'")
      else .ok (urlStr.take (distance urlStr p).toNat, p.drop 3)

def zUrlParse (urlStr : Ptr) : Except Stop ZURL := do
  let (scheme, p) ← parseScheme urlStr
  let (i, p, part, sep) ← splitLoop 4 0 p (fun _ => none) (fun _ => none)
  let url ← switchParts { scheme := scheme } i part sep
  assignFile url p

theorem gint_of_lt {n : Nat} (h : n < 2 ^ 31) : gint n = n := by
  rw [gint, Int.bmod_eq_of_le]
  · omega
  · omega

theorem decodeHexByte_cons (x y : UInt8) (rest : Ptr) :
    decodeHexByte (x :: y :: rest) =
      if isXDigit x then
        if isXDigit y then .ok (UInt8.ofInt (xdigitValue x * 16 + xdigitValue y))
        else .error (.failed "Invalid hexadecimal encoding")
      else .error (.failed "Invalid hexadecimal encoding") := rfl

theorem decodeLoop_plain {b : UInt8} (hb : b ≠ percent) (room : Nat) (src : Ptr) {left : Int}
    (hleft : left ≠ 0) :
    decodeLoop (room + 1) (b :: src) left =
      decodeLoop room src (left - 1) >>= fun rest => .ok (b :: rest) := by
  have hround : decodeRound (b :: src) left = .ok (b, src, left - 1) := if_neg hb
  rw [decodeLoop, if_neg hleft, hround]
  rfl

theorem decodeLoop_escape (room : Nat) (src : Ptr) {left : Int} (hleft : 2 ≤ left) :
    decodeLoop (room + 1) (percent :: src) left =
      decodeHexByte src >>= fun v =>
        decodeLoop room (src.drop 2) (left - 3) >>= fun rest => .ok (v :: rest) := by
  have hround : decodeRound (percent :: src) left =
      decodeHexByte src >>= fun v => .ok (v, src.drop 2, left - 3) := if_neg (Int.not_lt.mpr hleft)
  have hne : left ≠ 0 := by omega
  rw [decodeLoop, if_neg hne, hround]
  cases decodeHexByte src with
  | error e => rfl
  | ok v => rfl

theorem splitLoop_next {w : List UInt8} (hw : Plain isSep w) {c : UInt8} (hc : isSep c)
    (h0 : c ≠ 0) (hslash : c ≠ slash) (n i : Nat) (rest : Ptr) (part sep : Cuts) :
    splitLoop (n + 1) i (w ++ c :: rest) part sep =
      splitLoop n (i + 1) rest (Function.update part i (some (w ++ c :: rest)))
        (Function.update sep i (some (c :: rest))) := by
  rw [splitLoop, skip_append hw (.inr hc)]
  exact if_neg (not_or_intro h0 hslash)

theorem splitLoop_last {w : List UInt8} (hw : Plain isSep w) {c : UInt8} (hc : c = 0 ∨ c = slash)
    (n i : Nat) (rest : Ptr) (part sep : Cuts) :
    splitLoop (n + 1) i (w ++ c :: rest) part sep =
      .ok (i, c :: rest, Function.update part i (some (w ++ c :: rest)),
        Function.update sep i (some (c :: rest))) := by
  have hstop : c = 0 ∨ isSep c := by
    rcases hc with rfl | rfl
    · exact .inl rfl
    · exact .inr rfl
  rw [splitLoop, skip_append hw hstop]
  exact if_pos hc

theorem plain_colon {scheme : List UInt8} (h0 : 0 ∉ scheme) (hcolon : colon ∉ scheme) :
    Plain (· == colon) scheme := by
  intro b hb
  refine ⟨fun heq => h0 (heq ▸ hb), ?_⟩
  rw [beq_eq_false_iff_ne]
  exact fun heq => hcolon (heq ▸ hb)

theorem parseScheme_ok {scheme : List UInt8} (h0 : 0 ∉ scheme) (hcolon : colon ∉ scheme)
    (rest : Ptr) : parseScheme (scheme ++ colon :: slash :: slash :: rest) = .ok (scheme, rest) := by
  rw [parseScheme, skip_append (plain_colon h0 hcolon) (.inr rfl)]
  change Except.ok (List.take (distance _ _).toNat _, rest) = _
  rw [distance_append, Int.toNat_natCast, List.take_left]

end Libzorpll.UrlParse
