import Libzorpll.UrlParse
import Libzorpll.Base64

/-! URLs that are built and parsed. -/

namespace Libzorpll.UrlBuild

open CString UrlParse

def isAlnum (c : UInt8) : Bool :=
  (48 ≤ c && c ≤ 57) || (65 ≤ c && c ≤ 90) || (97 ≤ c && c ≤ 122)

def hexDigit (upper : Bool) (v : UInt8) : UInt8 :=
  if v < 10 then 48 + v else if upper then 55 + v else 87 + v

def encodeByte (upper : Bool) (b : UInt8) : List UInt8 :=
  if isAlnum b then [b] else [percent, hexDigit upper (b >>> 4), hexDigit upper (b &&& 15)]

def percentEncode (upper : Bool) (bytes : List UInt8) : List UInt8 := bytes.flatMap (encodeByte upper)

/-- The parts of a URL, as they are before they are encoded. -/
structure Url where
  scheme : List UInt8
  user : Option (List UInt8 × Option (List UInt8)) := none
  host : List UInt8
  port : Option (BitVec 32) := none
  file : Option (List UInt8) := none
  scheme_ne_nil : scheme ≠ []
  scheme_bytes : colon ∉ scheme ∧ 0 ∉ scheme
  file_bytes : ∀ f, file = some f → f.head? = some slash ∧ 0 ∉ f

/-- What the parser is to find. -/
def parts (u : Url) : ZURL where
  scheme := u.scheme
  user := (u.user.map Prod.fst).getD []
  passwd := (u.user.bind Prod.snd).getD []
  host := u.host
  port := (u.port.map BitVec.toNat).getD 0
  file := u.file.getD [slash]

/-- The encoded parts have lengths that fit a gint. -/
structure Fits (upper : Bool) (u : Url) : Prop where
  user : ∀ user passwd, u.user = some (user, passwd) → (percentEncode upper user).length < 2 ^ 31
  passwd : ∀ user passwd, u.user = some (user, some passwd) →
    (percentEncode upper passwd).length < 2 ^ 31
  host : (percentEncode upper u.host).length < 2 ^ 31

theorem encodeByte_plain (upper : Bool) (b : UInt8) : Plain isSep (encodeByte upper b) := by
  have hall : (encodeByte upper b).all (fun x => x != 0 && !isSep x) = true := by
    revert b
    cases upper with
    | false => exact Base64.forall_byte (by decide +kernel)
    | true => exact Base64.forall_byte (by decide +kernel)
  intro x hx
  have hplain := List.all_eq_true.mp hall x hx
  rw [Bool.and_eq_true, bne_iff_ne, Bool.not_eq_true'] at hplain
  exact hplain

theorem encode_plain (upper : Bool) (bytes : List UInt8) : Plain isSep (percentEncode upper bytes) := by
  intro x hx
  obtain ⟨b, -, hb⟩ := List.mem_flatMap.mp hx
  exact encodeByte_plain upper b x hb

section Switch

variable {part sep : Cuts} {k : Nat}

theorem sepsAre_cons {c : UInt8} {rest : Ptr} (hsep : sep k = some (c :: rest)) (cs : List UInt8) :
    sepsAre sep k (c :: cs) = sepsAre sep (k + 1) cs := by
  rw [sepsAre, written, hsep]
  exact if_pos rfl

variable (url : ZURL) {user passwd host : List UInt8} {port : Nat} {p q r : Ptr}

end Switch

theorem not_digit_of_tail {c : UInt8} (hc : c = 0 ∨ c = slash) : isDigit c = false := by
  rcases hc with rfl | rfl
  · rfl
  · rfl

end Libzorpll.UrlBuild
