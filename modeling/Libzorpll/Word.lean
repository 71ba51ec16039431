import Mathlib.Data.UInt
import Mathlib.Data.List.Basic

/-! Numbers of a fixed number of bytes, and the order of the bytes in memory. -/

namespace Libzorpll.Word

inductive ByteOrder
  | little
  | big
  deriving DecidableEq

def ByteOrder.flip : ByteOrder → ByteOrder
  | .little => .big
  | .big => .little

/-- The lowest bytes of a number, beginning with the lowest. -/
def digits : Nat → Nat → List UInt8
  | 0, _ => []
  | w + 1, n => UInt8.ofNat n :: digits w (n / 256)

def value : List UInt8 → Nat
  | [] => 0
  | b :: bs => b.toNat + 256 * value bs

def arrange (order : ByteOrder) (bytes : List UInt8) : List UInt8 :=
  match order with
  | .little => bytes
  | .big => bytes.reverse

def encode (order : ByteOrder) (w n : Nat) : List UInt8 := arrange order (digits w n)

def decode (order : ByteOrder) (bytes : List UInt8) : Nat := value (arrange order bytes)

/-- A number with its bytes the other way round. -/
def swap (w n : Nat) : Nat := value (digits w n).reverse

@[simp] theorem digits_length (w n : Nat) : (digits w n).length = w := by
  induction w generalizing n with
  | zero => rfl
  | succ w ih => rw [digits, List.length_cons, ih]

@[simp] theorem arrange_length (order : ByteOrder) (bytes : List UInt8) :
    (arrange order bytes).length = bytes.length := by
  cases order with
  | little => rfl
  | big => exact List.length_reverse

@[simp] theorem encode_length (order : ByteOrder) (w n : Nat) : (encode order w n).length = w := by
  rw [encode, arrange_length, digits_length]

theorem value_digits {w n : Nat} (h : n < 256 ^ w) : value (digits w n) = n := by
  induction w generalizing n with
  | zero =>
      rw [Nat.pow_zero, Nat.lt_one_iff] at h
      rw [h]
      rfl
  | succ w ih =>
      have hdiv : n / 256 < 256 ^ w := by
        apply Nat.div_lt_of_lt_mul
        rw [Nat.mul_comm, ← Nat.pow_succ]
        exact h
      rw [digits, value, ih hdiv, UInt8.toNat_ofNat']
      exact Nat.mod_add_div n 256

theorem digits_value (bytes : List UInt8) : digits bytes.length (value bytes) = bytes := by
  induction bytes with
  | nil => rfl
  | cons b bytes ih =>
      have hb : b.toNat < 256 := b.toNat_lt
      have hhead : UInt8.ofNat (b.toNat + 256 * value bytes) = b := by
        apply UInt8.toNat_inj.mp
        rw [UInt8.toNat_ofNat']
        omega
      have htail : (b.toNat + 256 * value bytes) / 256 = value bytes := by omega
      rw [List.length_cons, value, digits, hhead, htail, ih]

theorem value_lt (bytes : List UInt8) : value bytes < 256 ^ bytes.length := by
  induction bytes with
  | nil => exact Nat.one_pos
  | cons b bytes ih =>
      have hb : b.toNat < 256 := b.toNat_lt
      rw [value, List.length_cons, Nat.pow_succ]
      omega

@[simp] theorem arrange_arrange (order : ByteOrder) (bytes : List UInt8) :
    arrange order (arrange order bytes) = bytes := by
  cases order with
  | little => rfl
  | big => exact List.reverse_reverse bytes

theorem arrange_reverse (order : ByteOrder) (bytes : List UInt8) :
    arrange order bytes.reverse = arrange order.flip bytes := by
  cases order with
  | little => rfl
  | big => exact List.reverse_reverse bytes

/-- What is written in an order is read back in that order. -/
theorem decode_encode (order : ByteOrder) {w n : Nat} (h : n < 256 ^ w) :
    decode order (encode order w n) = n := by
  rw [decode, encode, arrange_arrange, value_digits h]

theorem decode_lt (order : ByteOrder) (bytes : List UInt8) : decode order bytes < 256 ^ bytes.length := by
  have hlt := value_lt (arrange order bytes)
  rwa [arrange_length] at hlt

theorem digits_swap (w n : Nat) : digits w (swap w n) = (digits w n).reverse := by
  have h := digits_value (digits w n).reverse
  rwa [List.length_reverse, digits_length] at h

/-- To write a swapped number in one order is to write the number in the
other. -/
theorem encode_swap (order : ByteOrder) (w n : Nat) :
    encode order w (swap w n) = encode order.flip w n := by
  rw [encode, digits_swap, arrange_reverse, encode]

theorem digits_decode (order : ByteOrder) (bytes : List UInt8) :
    digits bytes.length (decode order bytes) = arrange order bytes := by
  have hdigits := digits_value (arrange order bytes)
  rwa [arrange_length] at hdigits

theorem swap_decode (order : ByteOrder) (bytes : List UInt8) :
    swap bytes.length (decode order bytes) = decode order.flip bytes := by
  rw [swap, digits_decode, decode]
  cases order with
  | little => rfl
  | big => exact congrArg value (List.reverse_reverse bytes)

theorem encode_decode (order : ByteOrder) (bytes : List UInt8) :
    encode order bytes.length (decode order bytes) = bytes := by
  rw [encode, digits_decode, arrange_arrange]

/-- A word read, swapped and written is the same bytes in reverse. -/
theorem encode_swap_decode (order : ByteOrder) (bytes : List UInt8) :
    encode order bytes.length (swap bytes.length (decode order bytes)) = bytes.reverse := by
  rw [encode_swap, encode, digits_decode]
  cases order with
  | little => rfl
  | big => rfl

/-- So many words of an array, each with its bytes the other way round. -/
def flipWords (w : Nat) : Nat → List UInt8 → List UInt8
  | 0, _ => []
  | k + 1, bytes => (bytes.take w).reverse ++ flipWords w k (bytes.drop w)

def words (order : ByteOrder) (w : Nat) : Nat → List UInt8 → List Nat
  | 0, _ => []
  | k + 1, bytes => decode order (bytes.take w) :: words order w k (bytes.drop w)

def encodeAll (order : ByteOrder) (w : Nat) (xs : List Nat) : List UInt8 := xs.flatMap (encode order w)

@[simp] theorem encodeAll_length (order : ByteOrder) (w : Nat) (xs : List Nat) :
    (encodeAll order w xs).length = xs.length * w := by
  induction xs with
  | nil => exact (Nat.zero_mul w).symm
  | cons x xs ih =>
      rw [encodeAll, List.flatMap_cons, List.length_append, encode_length, ← encodeAll, ih,
        List.length_cons, Nat.succ_mul, Nat.add_comm]

theorem take_encodeAll (order : ByteOrder) (w x : Nat) (xs : List Nat) :
    (encodeAll order w (x :: xs)).take w = encode order w x ∧
      (encodeAll order w (x :: xs)).drop w = encodeAll order w xs := by
  have hlen := encode_length order w x
  rw [encodeAll, List.flatMap_cons]
  constructor
  · exact List.take_left' hlen
  · exact List.drop_left' hlen

theorem flipWords_encodeAll (order : ByteOrder) (w : Nat) (xs : List Nat) :
    flipWords w xs.length (encodeAll order w xs) = encodeAll order.flip w xs := by
  induction xs with
  | nil => rfl
  | cons x xs ih =>
      obtain ⟨htake, hdrop⟩ := take_encodeAll order w x xs
      rw [List.length_cons, flipWords, htake, hdrop, ih, encodeAll, encodeAll, List.flatMap_cons]
      congr 1
      rw [encode, encode]
      cases order with
      | little => rfl
      | big => exact List.reverse_reverse _

/-- An array is read back in the order it was written in. -/
theorem words_encodeAll (order : ByteOrder) {w : Nat} {xs : List Nat} (h : ∀ x ∈ xs, x < 256 ^ w) :
    words order w xs.length (encodeAll order w xs) = xs := by
  induction xs with
  | nil => rfl
  | cons x xs ih =>
      obtain ⟨htake, hdrop⟩ := take_encodeAll order w x xs
      rw [List.length_cons, words, htake, hdrop, decode_encode order (h x List.mem_cons_self),
        ih (fun y hy => h y (List.mem_cons_of_mem x hy))]

theorem flipWords_length {w k : Nat} {bytes : List UInt8} (h : bytes.length = k * w) :
    (flipWords w k bytes).length = k * w := by
  induction k generalizing bytes with
  | zero => exact (Nat.zero_mul w).symm
  | succ k ih =>
      rw [Nat.succ_mul] at h ⊢
      have hdrop : (bytes.drop w).length = k * w := by
        rw [List.length_drop]
        omega
      rw [flipWords, List.length_append, List.length_reverse, List.length_take, ih hdrop]
      omega

@[simp] theorem words_length (order : ByteOrder) (w k : Nat) (bytes : List UInt8) :
    (words order w k bytes).length = k := by
  induction k generalizing bytes with
  | zero => rfl
  | succ k ih => rw [words, List.length_cons, ih]

/-- The words of an array, written one after the other, are the array. -/
theorem encodeAll_words (order : ByteOrder) {w k : Nat} {bytes : List UInt8}
    (h : bytes.length = k * w) : encodeAll order w (words order w k bytes) = bytes := by
  induction k generalizing bytes with
  | zero =>
      rw [Nat.zero_mul] at h
      exact (List.eq_nil_of_length_eq_zero h).symm
  | succ k ih =>
      rw [Nat.succ_mul] at h
      have htake : (bytes.take w).length = w := by
        rw [List.length_take]
        omega
      have hdrop : (bytes.drop w).length = k * w := by
        rw [List.length_drop]
        omega
      have hfirst := encode_decode order (bytes.take w)
      rw [htake] at hfirst
      have hrest := ih hdrop
      rw [encodeAll] at hrest
      rw [words, encodeAll, List.flatMap_cons, hfirst, hrest, List.take_append_drop]

theorem words_lt (order : ByteOrder) {w k : Nat} {bytes : List UInt8} (h : bytes.length = k * w) :
    ∀ x ∈ words order w k bytes, x < 256 ^ w := by
  induction k generalizing bytes with
  | zero =>
      intro x hx
      cases hx
  | succ k ih =>
      rw [Nat.succ_mul] at h
      have htake : (bytes.take w).length = w := by
        rw [List.length_take]
        omega
      have hdrop : (bytes.drop w).length = k * w := by
        rw [List.length_drop]
        omega
      intro x hx
      obtain rfl | hx := List.mem_cons.mp hx
      · have hlt := decode_lt order (bytes.take w)
        rw [htake] at hlt
        exact hlt
      · exact ih hdrop x hx

end Libzorpll.Word
