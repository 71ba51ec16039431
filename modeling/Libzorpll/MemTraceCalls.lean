import Libzorpll.MemTrace
import Mathlib.Data.Finset.Card

/-! The calls that the program makes with tracing on, over those of the C
library. What is in the blocks (the canaries, fills and copies) is left out. -/

namespace Libzorpll.MemTraceCalls

open MemTrace Signed

structure Settings where
  canaries : Bool
  tempHeap : Nat

/-- What the C library answers in one call. A realloc that fails leaves the
block as it is; it may also release one, and answer NULL. -/
structure Allocator where
  malloc : Nat → Nat
  calloc : Nat → Nat → Nat
  realloc : Nat → Nat → Option Nat

/-- The pointer that a call returns, and the one it gave to old_free. -/
structure Answer where
  ptr : Nat
  tables : Tables
  freed : Option Nat

def canarySize : Nat := 24

def Settings.withOverhead (c : Settings) (size : Nat) : Nat :=
  (size + if c.canaries then canarySize * 2 else 0) % 2 ^ 64

def Settings.fillCanaries (c : Settings) (rawPtr : Nat) : Nat :=
  if rawPtr = 0 then 0 else if c.canaries then rawPtr + canarySize else rawPtr

def Settings.checkCanaries (c : Settings) (userPtr : Nat) : Nat :=
  if userPtr = 0 then 0 else if c.canaries then userPtr - canarySize else userPtr

/-- The difference is an unsigned int. -/
def Settings.tmpAllocated (c : Settings) (ptr : Nat) : Bool := ((ptr : Int) - c.tempHeap) % 2 ^ 32 < 65536

def zMalloc (c : Settings) (old : Allocator) (size : Nat) (s : Tables) : Option Answer :=
  let rawPtr := old.malloc (c.withOverhead size)
  let userPtr := c.fillCanaries rawPtr
  if userPtr = 0 then some ⟨userPtr, s, none⟩
  else (zMemTraceAdd userPtr (narrow 32 size) s).map fun added =>
    if added.1 then ⟨userPtr, added.2, none⟩ else ⟨0, added.2, some rawPtr⟩

/-- The assertion fails for a block that is not tracked. -/
def untrack (userPtr : Nat) (s : Tables) : Option Tables :=
  if userPtr = 0 then some s
  else (zMemTraceDel userPtr s).bind fun deleted => if deleted.1 then some deleted.2 else none

def zFree (c : Settings) (userPtr : Nat) (s : Tables) : Option Answer :=
  (untrack userPtr s).map fun t =>
    let rawPtr := c.checkCanaries userPtr
    ⟨0, t, if c.tmpAllocated rawPtr then none else some rawPtr⟩

/-- The old block of a realloc, of which the recorded size is read before. -/
def forget (userPtr : Nat) (s : Tables) : Option Tables :=
  if userPtr = 0 then some s
  else (zMemTraceGetsize userPtr s).bind fun oldSize => if oldSize = -1 then none else untrack userPtr s

/-- The new block, which is on the real heap also when the old one was not. -/
def newPtr (c : Settings) (old : Allocator) (userPtr size : Nat) : Nat :=
  let rawPtr := c.checkCanaries userPtr
  if c.tmpAllocated rawPtr then c.fillCanaries (old.malloc (c.withOverhead size))
  else c.fillCanaries ((old.realloc rawPtr (c.withOverhead size)).getD 0)

def zRealloc (c : Settings) (old : Allocator) (userPtr size : Nat) (s : Tables) : Option Answer :=
  (forget userPtr s).bind fun t =>
    let ptr := newPtr c old userPtr size
    if ptr = 0 then some ⟨ptr, t, none⟩
    -- a full table is not noticed
    else (zMemTraceAdd ptr (narrow 32 size) t).map fun added => ⟨ptr, added.2, none⟩

def zCalloc (c : Settings) (old : Allocator) (nmemb size : Nat) (s : Tables) : Option Answer :=
  let userPtr := c.fillCanaries (old.calloc nmemb (c.withOverhead size))
  -- nor here, and NULL is added like any other pointer
  (zMemTraceAdd userPtr (narrow 32 (nmemb * size % 2 ^ 64 : Nat)) s).map fun added => ⟨userPtr, added.2, none⟩

/-! Runs -/

inductive Call
  | malloc (size : Nat)
  | free (userPtr : Nat)
  | realloc (userPtr size : Nat)
  | calloc (nmemb size : Nat)

def step (c : Settings) (old : Allocator) : Call → Tables → Option Answer
  | .malloc size, s => zMalloc c old size s
  | .free userPtr, s => zFree c userPtr s
  | .realloc userPtr size, s => zRealloc c old userPtr size s
  | .calloc nmemb size, s => zCalloc c old nmemb size s

/-- Whether there is no new block, so that the old one stays as it is. -/
def failed (c : Settings) (old : Allocator) (userPtr size : Nat) : Bool :=
  let rawPtr := c.checkCanaries userPtr
  if c.tmpAllocated rawPtr then old.malloc (c.withOverhead size) = 0
  else old.realloc rawPtr (c.withOverhead size) = none

def own (ptr : Nat) (owned : Finset Nat) : Finset Nat := if ptr = 0 then owned else insert ptr owned

/-- What the program owns after a call that returned a pointer. -/
def owns (c : Settings) (old : Allocator) (ptr : Nat) : Call → Finset Nat → Finset Nat
  | .malloc _, owned => own ptr owned
  | .free userPtr, owned => owned.erase userPtr
  | .realloc userPtr size, owned => if failed c old userPtr size then owned else own ptr (owned.erase userPtr)
  | .calloc _ _, owned => own ptr owned

/-- The program gives back what it owns, or NULL, and the C library gives it
what it does not own. -/
def Allowed (c : Settings) (old : Allocator) (owned : Finset Nat) : Call → Prop
  | .malloc size => c.fillCanaries (old.malloc (c.withOverhead size)) ∉ owned
  | .free userPtr => userPtr = 0 ∨ userPtr ∈ owned
  | .realloc userPtr size => (userPtr = 0 ∨ userPtr ∈ owned) ∧ newPtr c old userPtr size ∉ owned.erase userPtr
  | .calloc nmemb size => c.fillCanaries (old.calloc nmemb (c.withOverhead size)) ∉ owned

def Tracked (ptr : Nat) (s : Tables) : Prop := ∃ i, zMemTraceLookupChain ptr s = some i ∧ i ≠ eol

def Exact (s : Tables) (owned : Finset Nat) : Prop := ∀ ptr, Tracked ptr s ↔ ptr ∈ owned

/-- Each call comes back, and what is tracked then is what the program owns. -/
def Sound (c : Settings) : List (Allocator × Call) → Tables → Finset Nat → Prop
  | [], _, _ => True
  | (old, call) :: calls, s, owned =>
      ∃ answer, step c old call s = some answer ∧ Exact answer.tables (owns c old answer.ptr call owned) ∧
        Sound c calls answer.tables (owns c old answer.ptr call owned)

/-- A calloc fails if and only if no entry is free; a realloc of NULL fails or
finds a free entry; one of a block does not fail, and the size of the block is
not recorded as -1. -/
def Meets (c : Settings) (old : Allocator) (s : Tables) (owned : Finset Nat) : Call → Prop
  | .malloc _ => True
  | .free _ => True
  | .realloc userPtr size =>
      if userPtr = 0 then newPtr c old userPtr size = 0 ∨ owned.card < heapSize
      else zMemTraceGetsize userPtr s ≠ some (-1) ∧ failed c old userPtr size = false
  | .calloc nmemb size => old.calloc nmemb (c.withOverhead size) ≠ 0 ↔ owned.card < heapSize

variable {s t : Tables} {book : Book} {c : Settings} {old : Allocator} {owned ptrs : Finset Nat} {ptr size : Nat}

/-! What the tables track -/

theorem mem_keys_iff : ptr ∈ book.map Prod.fst ↔ (book.lookup ptr).isSome := by
  cases hlookup : book.lookup ptr with
  | none => exact iff_of_false (not_mem_keys hlookup) (by rintro ⟨⟩)
  | some size =>
      obtain ⟨b₁, b₂, rfl, -⟩ := book_split hlookup
      refine iff_of_true ?_ rfl
      rw [List.map_append, List.map_cons]
      exact List.mem_append_right _ List.mem_cons_self

/-- The pointers of the book that the tables are for. -/
def TracksSet (s : Tables) (ptrs : Finset Nat) : Prop :=
  ∃ book, Tracks s book ∧ (book.map Prod.fst).toFinset = ptrs

theorem keys_nodup (h : Tracks s book) : (book.map Prod.fst).Nodup := by
  obtain ⟨free, chain, -, hc⟩ := h
  exact hc.keys

theorem card_keys (h : Tracks s book) : (book.map Prod.fst).toFinset.card = book.length := by
  rw [List.toFinset_card_of_nodup (keys_nodup h), List.length_map]

theorem TracksSet.card_le (h : TracksSet s ptrs) : ptrs.card ≤ heapSize := by
  obtain ⟨book, htracks, rfl⟩ := h
  obtain ⟨free, chain, hs, hc⟩ := htracks
  rw [card_keys ⟨free, chain, hs, hc⟩]
  exact hc.length_le hs

theorem TracksSet.add (h : TracksSet s ptrs) (hptr : ptr ∉ ptrs) {n : Int} (hn : Fits 32 n) :
    ∃ ok t, zMemTraceAdd ptr n s = some (ok, t) ∧ (ok = true ↔ ptrs.card < heapSize) ∧
      TracksSet t (if ok then insert ptr ptrs else ptrs) := by
  have hle := h.card_le
  obtain ⟨book, htracks, rfl⟩ := h
  have hnone : book.lookup ptr = none := by
    rw [List.mem_toFinset, mem_keys_iff, Bool.not_eq_true, Option.isSome_eq_false_iff, Option.isNone_iff_eq_none] at hptr
    exact hptr
  obtain ⟨ok, t, hadd, hok, ht⟩ := htracks.add hnone hn
  refine ⟨ok, t, hadd, ?_, _, ht, ?_⟩
  · rw [hok, Ne, htracks.full_iff, card_keys htracks]
    rw [card_keys htracks] at hle
    omega
  · cases ok with
    | false => rfl
    | true => exact List.toFinset_cons

theorem mem_keys_del (h : Tracks s book) {q : Nat} :
    q ∈ (Book.del ptr book).map Prod.fst ↔ q ≠ ptr ∧ q ∈ book.map Prod.fst := by
  have hnodup := keys_nodup h
  cases hlookup : book.lookup ptr with
  | none =>
      rw [book_del_none hlookup]
      exact ⟨fun hq => ⟨fun heq => not_mem_keys hlookup (heq ▸ hq), hq⟩, And.right⟩
  | some size =>
      obtain ⟨b₁, b₂, rfl, hdel⟩ := book_split hlookup
      rw [List.map_append, List.map_cons] at hnodup ⊢
      have hout := (List.nodup_cons.mp (List.nodup_middle.mp hnodup)).1
      rw [hdel, List.map_append, List.perm_middle.mem_iff, List.mem_cons]
      refine ⟨fun hq => ⟨fun heq => hout (heq ▸ hq), Or.inr hq⟩, ?_⟩
      rintro ⟨hne, heq | hq⟩
      · exact absurd heq hne
      · exact hq

theorem TracksSet.del (h : TracksSet s ptrs) (ptr : Nat) :
    ∃ ok t, zMemTraceDel ptr s = some (ok, t) ∧ (ok = true ↔ ptr ∈ ptrs) ∧ TracksSet t (ptrs.erase ptr) := by
  obtain ⟨book, htracks, rfl⟩ := h
  obtain ⟨ok, t, hdel, hok, ht⟩ := htracks.del ptr
  refine ⟨ok, t, hdel, ?_, _, ht, ?_⟩
  · rw [hok, List.mem_toFinset, mem_keys_iff]
  · ext q
    rw [List.mem_toFinset, mem_keys_del htracks, Finset.mem_erase, List.mem_toFinset]

end Libzorpll.MemTraceCalls
