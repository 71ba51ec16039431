import Libzorpll.LinkArray
import Libzorpll.Signed

/-! The tables of the memory tracer: one array of entries, which are on the
free list or on the chain of a hash. Deleted entries go back (mem_trace_hard
is off). -/

namespace Libzorpll.MemTrace

open LinkArray Signed

def heapSize : Nat := 300000

def hashSize : Nat := 32768

/-- MEMTRACE_EOL, the greatest guint32. -/
def eol : Nat := 4294967295

/-- The fields of the entries by their index, the lists by their hash. The
counts are guint32. -/
structure Tables where
  next : Nat → Nat
  ptr : Nat → Nat
  size : Nat → Nat
  list : Nat → Nat
  freeList : Nat
  blockCount : Int
  allocCount : Int
  allocatedSize : Int

def zMemTraceInit : Tables where
  next i := if i = heapSize - 1 then eol else i + 1
  ptr _ := 0
  size _ := 0
  list _ := eol
  freeList := 0
  blockCount := 0
  allocCount := 0
  allocatedSize := 0

def zMemTraceHash (ptr : Nat) : Nat := ((ptr &&& (32767 <<< 3)) % 2 ^ 32) >>> 3

/-- What a gint is as a gsize. -/
def gsize (n : Int) : Nat := (n % 2 ^ 64).toNat

def valid (i : Nat) : Bool := i < heapSize

/-- An index outside of the array has no result. -/
def zMemTraceAdd (ptr : Nat) (size : Int) (s : Tables) : Option (Bool × Tables) :=
  if s.freeList = eol then some (false, s)
  else if valid s.freeList then
    some (true, { s with
      blockCount := (s.blockCount + 1) % 2 ^ 32
      allocCount := (s.allocCount + 1) % 2 ^ 32
      allocatedSize := (s.allocatedSize + size) % 2 ^ 32
      freeList := s.next s.freeList
      ptr := Function.update s.ptr s.freeList ptr
      size := Function.update s.size s.freeList (gsize size)
      next := Function.update s.next s.freeList (s.list (zMemTraceHash ptr))
      list := Function.update s.list (zMemTraceHash ptr) s.freeList })
  else none

/-- The loop along a chain, with the entry before the one found. There are
rounds for all entries. -/
def search (ptr : Nat) (s : Tables) : Option (Option Nat × Nat) :=
  walk s.next eol valid (fun i => s.ptr i = ptr) (heapSize + 1) none (s.list (zMemTraceHash ptr))

def zMemTraceDel (ptr : Nat) (s : Tables) : Option (Bool × Tables) :=
  (search ptr s).map fun found =>
    if found.2 = eol then (false, s)
    else
      let cur := found.2
      let unlinked := unlink s.next (s.list (zMemTraceHash ptr)) cur found.1
      (true, { s with
        list := Function.update s.list (zMemTraceHash ptr) unlinked.2
        next := Function.update unlinked.1 cur s.freeList
        freeList := cur
        blockCount := (s.blockCount - 1) % 2 ^ 32
        allocatedSize := (s.allocatedSize - s.size cur) % 2 ^ 32 })

def zMemTraceLookupChain (ptr : Nat) (s : Tables) : Option Nat := (search ptr s).map Prod.snd

def zMemTraceGetsize (ptr : Nat) (s : Tables) : Option Int :=
  (zMemTraceLookupChain ptr s).map fun cur => if cur ≠ eol then narrow 32 (s.size cur) else -1

/-- The blocks that are tracked, the latest first, each with its size. -/
abbrev Book := List (Nat × Int)

def Book.del (ptr : Nat) (book : Book) : Book := book.eraseP (·.1 = ptr)

/-- A pointer that is added is not tracked yet. -/
inductive Run : Tables → Book → Prop
  | init : Run zMemTraceInit []
  | add {s t : Tables} {book : Book} {ptr : Nat} {size : Int} {ok : Bool} : Run s book → book.lookup ptr = none →
      Fits 32 size → zMemTraceAdd ptr size s = some (ok, t) → Run t (if ok then (ptr, size) :: book else book)
  | del {s t : Tables} {book : Book} {ptr : Nat} {ok : Bool} : Run s book → zMemTraceDel ptr s = some (ok, t) →
      Run t (book.del ptr)

def tracked (chain : Nat → List Nat) : List Nat := (List.range hashSize).flatMap chain

/-- The lists that the links are, every index on one of them. -/
structure Chained (s : Tables) (free : List Nat) (chain : Nat → List Nat) : Prop where
  freeList : Threads s.next eol s.freeList free
  chains {h : Nat} : h < hashSize → Threads s.next eol (s.list h) (chain h)
  places : (free ++ tracked chain).Perm (List.range heapSize)
  hashed {h i : Nat} : h < hashSize → i ∈ chain h → zMemTraceHash (s.ptr i) = h

def entry (s : Tables) (i : Nat) : Nat × Int := (s.ptr i, narrow 32 (s.size i))

/-- The blocks of the book are the entries on the chains, and are counted. -/
structure Counted (s : Tables) (chain : Nat → List Nat) (book : Book) : Prop where
  entries : ((tracked chain).map (entry s)).Perm book
  keys : (book.map Prod.fst).Nodup
  blocks : s.blockCount = book.length
  allocated : s.allocatedSize = (book.map Prod.snd).sum % 2 ^ 32

variable {s t : Tables} {free : List Nat} {chain : Nat → List Nat} {book : Book} {ptr h i : Nat} {size : Int}

theorem hash_lt (ptr : Nat) : zMemTraceHash ptr < hashSize := by
  have hle : ptr &&& (32767 <<< 3) ≤ 32767 <<< 3 := Nat.and_le_right
  rw [zMemTraceHash, Nat.shiftRight_eq_div_pow]
  have hlit : 32767 <<< 3 = 262136 := rfl
  rw [hlit] at hle ⊢
  rw [hashSize]
  omega

theorem narrow_gsize (hsize : Fits 32 size) : narrow 32 (gsize size) = size := by
  have hmod : ((gsize size : Nat) : Int) = size % 2 ^ 64 := Int.toNat_of_nonneg (Int.emod_nonneg size (by decide))
  have hfits : narrow 32 size = size := narrow_of_fits (by decide) hsize
  rw [narrow, Int.bmod_def] at hfits ⊢
  rw [hmod]
  omega

/-! Where the indices are -/

theorem mem_tracked : i ∈ tracked chain ↔ ∃ h, h < hashSize ∧ i ∈ chain h := by
  rw [tracked, List.mem_flatMap]
  simp only [List.mem_range]

theorem Chained.nodup (hs : Chained s free chain) : (free ++ tracked chain).Nodup :=
  hs.places.nodup_iff.mpr List.nodup_range

theorem Chained.lt_of_free (hs : Chained s free chain) (hi : i ∈ free) : i < heapSize :=
  List.mem_range.mp (hs.places.mem_iff.mp (List.mem_append_left _ hi))

theorem Chained.lt_of_chain (hs : Chained s free chain) (hh : h < hashSize) (hi : i ∈ chain h) : i < heapSize :=
  List.mem_range.mp (hs.places.mem_iff.mp (List.mem_append_right _ (mem_tracked.mpr ⟨h, hh, hi⟩)))

theorem Chained.not_free (hs : Chained s free chain) (hh : h < hashSize) (hi : i ∈ chain h) : i ∉ free :=
  fun hfree => List.disjoint_of_nodup_append hs.nodup hfree (mem_tracked.mpr ⟨h, hh, hi⟩)

/-- An index is on one chain only, the one of its pointer. -/
theorem Chained.chain_unique (hs : Chained s free chain) {k : Nat} (hh : h < hashSize) (hk : k < hashSize)
    (hi : i ∈ chain h) (hi' : i ∈ chain k) : h = k :=
  (hs.hashed hh hi).symm.trans (hs.hashed hk hi')

theorem Chained.chain_nodup (hs : Chained s free chain) (hh : h < hashSize) : (chain h).Nodup :=
  (List.nodup_flatMap.mp (List.nodup_append.mp hs.nodup).2.1).1 h (List.mem_range.mpr hh)

theorem Chained.chain_length (hs : Chained s free chain) (hh : h < hashSize) : (chain h).length ≤ heapSize := by
  have hsub : (chain h).length ≤ (List.range heapSize).length := by
    refine ((hs.chain_nodup hh).subperm fun i hi => ?_).length_le
    exact List.mem_range.mpr (hs.lt_of_chain hh hi)
  rw [List.length_range] at hsub
  exact hsub

theorem valid_iff : valid i = true ↔ i < heapSize := decide_eq_true_iff

theorem lt_eol (hi : i < heapSize) : i ≠ eol := by
  have hle : heapSize ≤ eol := by decide
  omega

/-! At the start -/

theorem threads_init (start len : Nat) (hlen : start + len + 1 = heapSize) :
    Threads zMemTraceInit.next eol start (List.range' start (len + 1)) := by
  induction len generalizing start with
  | zero =>
      refine ⟨rfl, lt_eol (by omega), ?_⟩
      exact if_pos (by omega)
  | succ len ih =>
      have hnext : zMemTraceInit.next start = start + 1 := if_neg (by omega)
      refine ⟨rfl, lt_eol (by omega), ?_⟩
      rw [hnext]
      exact ih (start + 1) (by omega)

theorem tracked_nil : tracked (fun _ => []) = [] := List.flatMap_eq_nil_iff.mpr fun _ _ => rfl

theorem init_chained : Chained zMemTraceInit (List.range heapSize) fun _ => [] := by
  refine ⟨?_, fun _ => rfl, ?_, by rintro h i - ⟨⟩⟩
  · rw [List.range_eq_range']
    exact threads_init 0 299999 rfl
  · rw [tracked_nil, List.append_nil]

theorem init_counted : Counted zMemTraceInit (fun _ => []) [] := by
  refine ⟨?_, List.nodup_nil, rfl, rfl⟩
  rw [tracked_nil]
  exact List.Perm.nil

/-! The book -/

theorem Counted.length_le (hs : Chained s free chain) (hc : Counted s chain book) : book.length ≤ heapSize := by
  have hplaces := hs.places.length_eq
  have hentries := hc.entries.length_eq
  rw [List.length_append, List.length_range] at hplaces
  rw [List.length_map] at hentries
  omega

theorem not_mem_keys (h : book.lookup ptr = none) : ptr ∉ book.map Prod.fst := by
  intro hmem
  obtain ⟨b, hb, rfl⟩ := List.mem_map.mp hmem
  exact bne_iff_ne.mp (List.lookup_eq_none_iff.mp h b hb) rfl

/-- A block that is tracked is in one place of the book, which it is deleted from. -/
theorem book_split (h : book.lookup ptr = some size) :
    ∃ b₁ b₂, book = b₁ ++ (ptr, size) :: b₂ ∧ Book.del ptr book = b₁ ++ b₂ := by
  obtain ⟨b₁, b₂, rfl, hfirst⟩ := List.lookup_eq_some_iff.mp h
  refine ⟨b₁, b₂, rfl, ?_⟩
  have hnot : ∀ b ∈ b₁, ¬decide (b.1 = ptr) = true := fun b hb heq =>
    bne_iff_ne.mp (hfirst b hb) (decide_eq_true_iff.mp heq).symm
  rw [Book.del, List.eraseP_append_right _ hnot]
  exact congrArg (b₁ ++ ·) (@List.eraseP_cons_of_pos _ (ptr, size) b₂ (fun b => b.1 = ptr) (decide_eq_true rfl))

theorem book_del_none (h : book.lookup ptr = none) : Book.del ptr book = book := by
  refine List.eraseP_of_forall_not fun b hb heq => ?_
  exact bne_iff_ne.mp (List.lookup_eq_none_iff.mp h b hb) (decide_eq_true_iff.mp heq).symm

theorem Counted.ptr_inj (hc : Counted s chain book) {j : Nat} (hi : i ∈ tracked chain) (hj : j ∈ tracked chain)
    (hptr : s.ptr i = s.ptr j) : i = j := by
  have hkeys : ((tracked chain).map s.ptr).Nodup := by
    have hperm := hc.entries.map Prod.fst
    rw [List.map_map] at hperm
    exact hperm.nodup_iff.mpr hc.keys
  exact List.inj_on_of_nodup_map hkeys hi hj hptr

/-! Searching -/

theorem search_none (hs : Chained s free chain) (hc : Counted s chain book) (hptr : book.lookup ptr = none) :
    ∃ prev, search ptr s = some (prev, eol) := by
  have hh := hash_lt ptr
  refine ⟨_, walk_ends (hs.chains hh) (fun j hj => valid_iff.mpr (hs.lt_of_chain hh hj)) (fun j hj => ?_)
    (Nat.lt_succ_of_le (hs.chain_length hh)) none⟩
  refine decide_eq_false fun heq => not_mem_keys hptr ?_
  have hentry : entry s j ∈ book := hc.entries.mem_iff.mp (List.mem_map_of_mem (mem_tracked.mpr ⟨_, hh, hj⟩))
  exact List.mem_map.mpr ⟨entry s j, hentry, heq⟩

/-- The search finds the entry of a block that is tracked. -/
theorem search_some (hs : Chained s free chain) (hc : Counted s chain book) (hptr : book.lookup ptr = some size) :
    ∃ i l₁ l₂, chain (zMemTraceHash ptr) = l₁ ++ i :: l₂ ∧ entry s i = (ptr, size) ∧
      search ptr s = some (behind none l₁, i) := by
  obtain ⟨b₁, b₂, hbook, -⟩ := book_split hptr
  have hmem : (ptr, size) ∈ book := hbook ▸ List.mem_append_right _ List.mem_cons_self
  obtain ⟨i, hi, hentry⟩ := List.mem_map.mp (hc.entries.mem_iff.mpr hmem)
  have hiptr : s.ptr i = ptr := congrArg Prod.fst hentry
  obtain ⟨h, hh, hchain⟩ := mem_tracked.mp hi
  obtain rfl : zMemTraceHash ptr = h := hiptr ▸ hs.hashed hh hchain
  obtain ⟨l₁, l₂, hsplit⟩ := List.append_of_mem hchain
  have hlength := hs.chain_length hh
  have hnodup := hs.chain_nodup hh
  have hthreads := hs.chains hh
  rw [hsplit] at hlength hnodup hthreads
  rw [List.length_append, List.length_cons] at hlength
  refine ⟨i, l₁, l₂, hsplit, hentry, walk_finds hthreads (fun j hj => ?_) (fun j hj => ?_)
    (decide_eq_true hiptr) (by omega) none⟩
  · refine valid_iff.mpr (hs.lt_of_chain hh ?_)
    rw [hsplit, List.append_cons]
    exact List.mem_append_left l₂ hj
  · refine decide_eq_false fun heq => ?_
    have hj' : j ∈ tracked chain := mem_tracked.mpr ⟨_, hh, hsplit ▸ List.mem_append_left _ hj⟩
    have hij : i = j := hc.ptr_inj hi hj' (hiptr.trans heq.symm)
    exact List.disjoint_of_nodup_append hnodup hj (hij ▸ List.mem_cons_self)

theorem getsize_eq (hs : Chained s free chain) (hc : Counted s chain book) (ptr : Nat) :
    zMemTraceGetsize ptr s = some ((book.lookup ptr).getD (-1)) := by
  cases hptr : book.lookup ptr with
  | none =>
      obtain ⟨prev, hsearch⟩ := search_none hs hc hptr
      rw [zMemTraceGetsize, zMemTraceLookupChain, hsearch, Option.map_some, Option.map_some,
        if_neg (not_not_intro rfl), Option.getD_none]
  | some size =>
      obtain ⟨i, l₁, l₂, hsplit, hentry, hsearch⟩ := search_some hs hc hptr
      have hi : i ∈ chain (zMemTraceHash ptr) := hsplit ▸ List.mem_append_right _ List.mem_cons_self
      rw [zMemTraceGetsize, zMemTraceLookupChain, hsearch]
      rw [Option.map_some, Option.map_some, if_pos (lt_eol (hs.lt_of_chain (hash_lt ptr) hi))]
      rw [entry, Prod.mk.injEq] at hentry
      rw [hentry.2, Option.getD_some]

/-! Adding -/

theorem add_none (hfree : s.freeList = eol) : zMemTraceAdd ptr size s = some (false, s) := if_pos hfree

/-- The tables after an entry was taken from the free list. -/
def added (ptr : Nat) (size : Int) (s : Tables) : Tables :=
  { s with
    blockCount := (s.blockCount + 1) % 2 ^ 32
    allocCount := (s.allocCount + 1) % 2 ^ 32
    allocatedSize := (s.allocatedSize + size) % 2 ^ 32
    freeList := s.next s.freeList
    ptr := Function.update s.ptr s.freeList ptr
    size := Function.update s.size s.freeList (gsize size)
    next := Function.update s.next s.freeList (s.list (zMemTraceHash ptr))
    list := Function.update s.list (zMemTraceHash ptr) s.freeList }

def pushed (ptr i : Nat) (chain : Nat → List Nat) : Nat → List Nat :=
  Function.update chain (zMemTraceHash ptr) (i :: chain (zMemTraceHash ptr))

theorem tracked_pushed (ptr i : Nat) (chain : Nat → List Nat) :
    (tracked (pushed ptr i chain)).Perm (i :: tracked chain) := by
  refine flatMap_perm_cons (List.mem_range.mpr (hash_lt ptr)) List.nodup_range ?_ fun k _ hk => ?_
  · rw [pushed, Function.update_self]
  · rw [pushed, Function.update_of_ne hk]

theorem add_valid (hfree : s.freeList < heapSize) : zMemTraceAdd ptr size s = some (true, added ptr size s) := by
  rw [zMemTraceAdd, if_neg (lt_eol hfree), if_pos (valid_iff.mpr hfree)]
  rfl

theorem add_some (hs : Chained s (i :: free) chain) : zMemTraceAdd ptr size s = some (true, added ptr size s) :=
  add_valid (hs.freeList.1 ▸ hs.lt_of_free List.mem_cons_self)

theorem added_chained (hs : Chained s (i :: free) chain) :
    Chained (added ptr size s) free (pushed ptr i chain) := by
  obtain ⟨hstart, hne, hfree⟩ := hs.freeList
  have hnodup := hs.nodup
  rw [List.cons_append, List.nodup_cons, List.mem_append, not_or] at hnodup
  have hout {h : Nat} (hh : h < hashSize) : i ∉ chain h := fun hi =>
    hnodup.1.2 (mem_tracked.mpr ⟨h, hh, hi⟩)
  refine ⟨?_, fun {h} hh => ?_, ?_, fun {h j} hh hj => ?_⟩
  · change Threads (Function.update s.next s.freeList _) eol (s.next s.freeList) free
    rw [hstart]
    exact hfree.update hnodup.1.1 _
  · change Threads (Function.update s.next s.freeList _) eol (Function.update s.list _ s.freeList h) _
    rw [hstart, pushed]
    by_cases hhash : h = zMemTraceHash ptr
    · subst hhash
      rw [Function.update_self, Function.update_self]
      exact (hs.chains hh).push (hout hh) hne
    · rw [Function.update_of_ne hhash, Function.update_of_ne hhash]
      exact (hs.chains hh).update (hout hh) _
  · exact ((tracked_pushed ptr i chain).append_left free).trans (List.perm_middle.trans hs.places)
  · change zMemTraceHash (Function.update s.ptr s.freeList ptr j) = h
    rw [hstart]
    have hself : zMemTraceHash (Function.update s.ptr i ptr i) = zMemTraceHash ptr := by rw [Function.update_self]
    rw [pushed] at hj
    by_cases hhash : h = zMemTraceHash ptr
    · subst hhash
      rw [Function.update_self] at hj
      obtain rfl | hj := List.mem_cons.mp hj
      · exact hself
      · rw [Function.update_of_ne fun hji : j = i => hout hh (hji ▸ hj)]
        exact hs.hashed hh hj
    · rw [Function.update_of_ne hhash] at hj
      rw [Function.update_of_ne fun hji : j = i => hout hh (hji ▸ hj)]
      exact hs.hashed hh hj

theorem added_counted (hs : Chained s (i :: free) chain) (hc : Counted s chain book) (hptr : book.lookup ptr = none)
    (hsize : Fits 32 size) : Counted (added ptr size s) (pushed ptr i chain) ((ptr, size) :: book) := by
  obtain ⟨hstart, -, -⟩ := hs.freeList
  have hnodup := hs.nodup
  rw [List.cons_append, List.nodup_cons, List.mem_append, not_or] at hnodup
  have hlength := hc.length_le hs
  rw [heapSize] at hlength
  have hentry : entry (added ptr size s) i = (ptr, size) := by
    change (Function.update s.ptr s.freeList ptr i,
      narrow 32 (Function.update s.size s.freeList (gsize size) i : Nat)) = _
    rw [hstart, Function.update_self, Function.update_self, narrow_gsize hsize]
  have hothers : (tracked chain).map (entry (added ptr size s)) = (tracked chain).map (entry s) := by
    refine List.map_congr_left fun j hj => ?_
    have hji : j ≠ i := fun hji => hnodup.1.2 (hji ▸ hj)
    change (Function.update s.ptr s.freeList ptr j,
      narrow 32 (Function.update s.size s.freeList (gsize size) j : Nat)) = _
    rw [hstart, Function.update_of_ne hji, Function.update_of_ne hji]
    rfl
  refine ⟨?_, ?_, ?_, ?_⟩
  · refine ((tracked_pushed ptr i chain).map _).trans ?_
    rw [List.map_cons, hentry, hothers]
    exact hc.entries.cons _
  · exact List.nodup_cons.mpr ⟨not_mem_keys hptr, hc.keys⟩
  · change (s.blockCount + 1) % 2 ^ 32 = _
    rw [hc.blocks, List.length_cons]
    omega
  · change (s.allocatedSize + size) % 2 ^ 32 = _
    rw [hc.allocated, List.map_cons, List.sum_cons]
    omega

/-! Deleting -/

theorem del_none (hs : Chained s free chain) (hc : Counted s chain book) (hptr : book.lookup ptr = none) :
    zMemTraceDel ptr s = some (false, s) := by
  obtain ⟨prev, hsearch⟩ := search_none hs hc hptr
  rw [zMemTraceDel, hsearch, Option.map_some, if_pos rfl]

/-- The tables after an entry went back to the free list, from behind these
ones of its chain. -/
def deleted (ptr i : Nat) (l₁ : List Nat) (s : Tables) : Tables :=
  let unlinked := unlink s.next (s.list (zMemTraceHash ptr)) i (behind none l₁)
  { s with
    list := Function.update s.list (zMemTraceHash ptr) unlinked.2
    next := Function.update unlinked.1 i s.freeList
    freeList := i
    blockCount := (s.blockCount - 1) % 2 ^ 32
    allocatedSize := (s.allocatedSize - s.size i) % 2 ^ 32 }

variable {l₁ l₂ : List Nat}

theorem del_some (hs : Chained s free chain) (hsplit : chain (zMemTraceHash ptr) = l₁ ++ i :: l₂)
    (hsearch : search ptr s = some (behind none l₁, i)) : zMemTraceDel ptr s = some (true, deleted ptr i l₁ s) := by
  have hi : i ∈ chain (zMemTraceHash ptr) := hsplit ▸ List.mem_append_right _ List.mem_cons_self
  rw [zMemTraceDel, hsearch, Option.map_some, if_neg (lt_eol (hs.lt_of_chain (hash_lt ptr) hi))]
  rfl

def popped (ptr : Nat) (l : List Nat) (chain : Nat → List Nat) : Nat → List Nat :=
  Function.update chain (zMemTraceHash ptr) l

theorem tracked_popped (hsplit : chain (zMemTraceHash ptr) = l₁ ++ i :: l₂) :
    (tracked chain).Perm (i :: tracked (popped ptr (l₁ ++ l₂) chain)) := by
  refine flatMap_perm_cons (List.mem_range.mpr (hash_lt ptr)) List.nodup_range ?_ fun k _ hk => ?_
  · rw [popped, Function.update_self, hsplit]
    exact List.perm_middle
  · rw [popped, Function.update_of_ne hk]

theorem deleted_chained (hs : Chained s free chain) (hsplit : chain (zMemTraceHash ptr) = l₁ ++ i :: l₂) :
    Chained (deleted ptr i l₁ s) (i :: free) (popped ptr (l₁ ++ l₂) chain) := by
  have hh := hash_lt ptr
  have hnodup := hs.chain_nodup hh
  have hthreads := hs.chains hh
  have hi : i ∈ chain (zMemTraceHash ptr) := hsplit ▸ List.mem_append_right _ List.mem_cons_self
  have hbefore {j : Nat} (hj : j ∈ l₁) : j ∈ chain (zMemTraceHash ptr) := hsplit ▸ List.mem_append_left _ hj
  rw [hsplit] at hnodup hthreads
  have hkept {j : Nat} (hj : j ∈ l₁ ++ l₂) : j ∈ chain (zMemTraceHash ptr) ∧ j ≠ i := by
    obtain ⟨hout, -⟩ := List.nodup_cons.mp (List.perm_middle.nodup_iff.mp hnodup)
    refine ⟨?_, fun hji => hout (hji ▸ hj)⟩
    rw [hsplit, List.perm_middle.mem_iff]
    exact List.mem_cons_of_mem _ hj
  refine ⟨?_, fun {h} hk => ?_, ?_, fun {h j} hk hj => ?_⟩
  · refine ⟨rfl, lt_eol (hs.lt_of_chain hh hi), ?_⟩
    have hlink : (deleted ptr i l₁ s).next i = s.freeList := Function.update_self _ _ _
    rw [hlink]
    refine Threads.update (hs.freeList.congr fun j hj => ?_) (hs.not_free hh hi) _
    exact unlink_of_not_mem (fun hj' => hs.not_free hh (hbefore hj') hj) _ _
  · change Threads (Function.update _ i s.freeList) eol (Function.update s.list _ _ h) _
    rw [popped]
    by_cases hhash : h = zMemTraceHash ptr
    · subst hhash
      rw [Function.update_self, Function.update_self]
      exact (hthreads.unlink hnodup).update (fun hj => (hkept hj).2 rfl) _
    · rw [Function.update_of_ne hhash, Function.update_of_ne hhash]
      refine Threads.update ((hs.chains hk).congr fun j hj => ?_) (fun hj => hhash (hs.chain_unique hk hh hj hi)) _
      exact unlink_of_not_mem (fun hj' => hhash (hs.chain_unique hk hh hj (hbefore hj'))) _ _
  · refine List.Perm.trans ?_ hs.places
    exact List.perm_middle.symm.trans ((tracked_popped hsplit).symm.append_left free)
  · rw [popped] at hj
    by_cases hhash : h = zMemTraceHash ptr
    · subst hhash
      rw [Function.update_self] at hj
      exact hs.hashed hh (hkept hj).1
    · rw [Function.update_of_ne hhash] at hj
      exact hs.hashed hk hj

theorem deleted_counted (hs : Chained s free chain) (hc : Counted s chain book)
    (hsplit : chain (zMemTraceHash ptr) = l₁ ++ i :: l₂) (hentry : entry s i = (ptr, size))
    (hptr : book.lookup ptr = some size) :
    Counted (deleted ptr i l₁ s) (popped ptr (l₁ ++ l₂) chain) (book.del ptr) := by
  obtain ⟨b₁, b₂, rfl, hdel⟩ := book_split hptr
  rw [hdel]
  have hlength := hc.length_le hs
  rw [heapSize, List.length_append, List.length_cons] at hlength
  have hkeys := hc.keys
  rw [List.map_append, List.map_cons] at hkeys
  have hsize : narrow 32 (s.size i) = size := by
    rw [entry, Prod.mk.injEq] at hentry
    exact hentry.2
  refine ⟨?_, ?_, ?_, ?_⟩
  · have hperm : (entry s i :: (tracked (popped ptr (l₁ ++ l₂) chain)).map (entry s)).Perm
        ((ptr, size) :: (b₁ ++ b₂)) :=
      (((tracked_popped hsplit).map (entry s)).symm.trans hc.entries).trans List.perm_middle
    rw [hentry] at hperm
    exact hperm.cons_inv
  · rw [List.map_append]
    exact (List.nodup_middle.mp hkeys).of_cons
  · change (s.blockCount - 1) % 2 ^ 32 = _
    rw [hc.blocks, List.length_append, List.length_append, List.length_cons]
    omega
  · change (s.allocatedSize - s.size i) % 2 ^ 32 = _
    rw [narrow, Int.bmod_def] at hsize
    rw [hc.allocated, List.map_append, List.map_append, List.map_cons, List.sum_append, List.sum_append,
      List.sum_cons]
    omega

/-! Runs -/

/-- Some lists are in the links, with what the book says. -/
def Tracks (s : Tables) (book : Book) : Prop := ∃ free chain, Chained s free chain ∧ Counted s chain book

theorem Tracks.full_iff (h : Tracks s book) : s.freeList = eol ↔ book.length = heapSize := by
  obtain ⟨free, chain, hs, hc⟩ := h
  have hplaces := hs.places.length_eq
  have hentries := hc.entries.length_eq
  rw [List.length_append, List.length_range] at hplaces
  rw [List.length_map] at hentries
  cases free with
  | nil =>
      rw [List.length_nil] at hplaces
      exact iff_of_true hs.freeList (by omega)
  | cons i free =>
      rw [List.length_cons] at hplaces
      exact iff_of_false (hs.freeList.1 ▸ hs.freeList.2.1) (by omega)

theorem Tracks.add (h : Tracks s book) (hptr : book.lookup ptr = none) (hsize : Fits 32 size) :
    ∃ ok t, zMemTraceAdd ptr size s = some (ok, t) ∧ (ok = true ↔ s.freeList ≠ eol) ∧
      Tracks t (if ok then (ptr, size) :: book else book) := by
  obtain ⟨free, chain, hs, hc⟩ := h
  cases free with
  | nil =>
      have hfree : s.freeList = eol := hs.freeList
      exact ⟨false, s, add_none hfree, iff_of_false (by rintro ⟨⟩) (not_not_intro hfree), [], chain, hs, hc⟩
  | cons i free =>
      exact ⟨true, _, add_some hs, iff_of_true rfl (hs.freeList.1 ▸ hs.freeList.2.1), free, _, added_chained hs,
        added_counted hs hc hptr hsize⟩

theorem Tracks.del (h : Tracks s book) (ptr : Nat) :
    ∃ ok t, zMemTraceDel ptr s = some (ok, t) ∧ (ok = true ↔ (book.lookup ptr).isSome) ∧
      Tracks t (book.del ptr) := by
  obtain ⟨free, chain, hs, hc⟩ := h
  cases hptr : book.lookup ptr with
  | none =>
      refine ⟨false, s, del_none hs hc hptr, iff_of_false (by rintro ⟨⟩) (by rintro ⟨⟩), free, chain, hs, ?_⟩
      rw [book_del_none hptr]
      exact hc
  | some size =>
      obtain ⟨i, l₁, l₂, hsplit, hentry, hsearch⟩ := search_some hs hc hptr
      exact ⟨true, _, del_some hs hsplit hsearch, iff_of_true rfl rfl, i :: free, _, deleted_chained hs hsplit,
        deleted_counted hs hc hsplit hentry hptr⟩

theorem Run.tracks (h : Run s book) : Tracks s book := by
  induction h with
  | init => exact ⟨_, _, init_chained, init_counted⟩
  | add _ hptr hsize hadd ih =>
      obtain ⟨ok, t, hadd', -, ht⟩ := ih.add hptr hsize
      cases hadd.symm.trans hadd'
      exact ht
  | @del _ _ _ ptr _ _ hdel ih =>
      obtain ⟨ok, t, hdel', -, ht⟩ := ih.del ptr
      cases hdel.symm.trans hdel'
      exact ht

/-- Every index is on the free list or on the chain of its pointer's hash, the
blocks are counted, their sizes added up modulo 2 ^ 32, and found again. -/
theorem tables_partition (h : Run s book) :
    (∃ free chain, Chained s free chain ∧ Counted s chain book) ∧
      (∀ ptr, zMemTraceGetsize ptr s = some ((book.lookup ptr).getD (-1))) ∧
        (∀ ptr size, book.lookup ptr = none → Fits 32 size → ∃ ok t, zMemTraceAdd ptr size s = some (ok, t)) ∧
          ∀ ptr, ∃ ok t, zMemTraceDel ptr s = some (ok, t) := by
  have htracks := h.tracks
  obtain ⟨free, chain, hs, hc⟩ := h.tracks
  refine ⟨⟨free, chain, hs, hc⟩, getsize_eq hs hc, fun ptr size hptr hsize => ?_, fun ptr => ?_⟩
  · obtain ⟨ok, t, hadd, -⟩ := htracks.add hptr hsize
    exact ⟨ok, t, hadd⟩
  · obtain ⟨ok, t, hdel, -⟩ := htracks.del ptr
    exact ⟨ok, t, hdel⟩

/-- Two blocks of one chain. -/
theorem tables_partition_two :
    (∃ free chain, Chained (added 262152 3 (added 8 5 zMemTraceInit)) free chain ∧
      Counted (added 262152 3 (added 8 5 zMemTraceInit)) chain [(262152, 3), (8, 5)]) ∧
    (∀ ptr, zMemTraceGetsize ptr (added 262152 3 (added 8 5 zMemTraceInit)) =
      some ((([(262152, 3), (8, 5)] : Book).lookup ptr).getD (-1))) ∧
    (∀ ptr size, ([(262152, 3), (8, 5)] : Book).lookup ptr = none → Fits 32 size →
      ∃ ok t, zMemTraceAdd ptr size (added 262152 3 (added 8 5 zMemTraceInit)) = some (ok, t)) ∧
    ∀ ptr, ∃ ok t, zMemTraceDel ptr (added 262152 3 (added 8 5 zMemTraceInit)) = some (ok, t) :=
  tables_partition ((Run.init.add rfl (by decide) (add_valid (by decide))).add rfl (by decide) (add_valid (by decide)))

/-- Three of the longest blocks have a sum that is no guint32. -/
theorem not_sum : ∃ s book, Run s book ∧ s.allocatedSize ≠ (book.map Prod.snd).sum := by
  have hone := Run.init.add rfl (by decide : Fits 32 2147483647) (@add_valid _ 8 _ (by decide))
  have htwo := hone.add rfl (by decide : Fits 32 2147483647) (@add_valid _ 16 _ (by decide))
  have hthree := htwo.add rfl (by decide : Fits 32 2147483647) (@add_valid _ 24 _ (by decide))
  exact ⟨_, _, hthree, by decide⟩

end Libzorpll.MemTrace
