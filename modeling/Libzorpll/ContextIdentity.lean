import Mathlib.Logic.Relation
import Libzorpll.StreamContext

/-! A context that is saved and restored. -/

namespace Libzorpll.ContextIdentity

open Region Word StreamContext

variable {P D : Type}

/-- The mode that the topmost stream with one is in. -/
def nonblocking : Stack P D → Option (BitVec 32)
  | [] => none
  | s :: child =>
      match s.own with
      | .fd flags => some (gboolean (flags &&& flagNonblock ≠ 0))
      | .blob => some (gboolean (s.timeout = 0))
      | _ => nonblocking child

/-- A stack after that stream is put into a mode. -/
def setMode (nonblock : BitVec 32) : Stack P D → Stack P D
  | [] => []
  | s :: child =>
      match s.own with
      | .fd flags =>
          { s with own := .fd (if nonblock ≠ 0 then flags ||| flagNonblock
            else flags &&& ~~~flagNonblock) } :: child
      | .blob => { s with timeout := if nonblock ≠ 0 then 0 else -1 } :: child
      | _ => s :: setMode nonblock child

theorem ctrl_getNonblock (stack : Stack P D) (forward : Bool) (v : BitVec 32) :
    (ctrl stack forward .getNonblock (.int v)).value = .int ((nonblocking stack).getD v) := by
  induction stack generalizing forward with
  | nil => rfl
  | cons s child ih =>
      rcases s with ⟨own, timeout, watch⟩
      cases own with
      | fd | blob => rfl
      | line | buf | tee | gzip | ssl =>
          cases child with
          | nil => rfl
          | cons => exact ih _

theorem getNonblock_eq (uninit : BitVec 32) (stack : Stack P D) :
    getNonblock uninit stack = (nonblocking stack).getD uninit := by
  rw [getNonblock, ctrl_getNonblock]

theorem ctrl_setNonblock (stack : Stack P D) (forward : Bool) (v : BitVec 32) :
    (ctrl stack forward .setNonblock (.int v)).stack = setMode v stack := by
  induction stack generalizing forward with
  | nil => rfl
  | cons s child ih =>
      rcases s with ⟨own, timeout, watch⟩
      cases own with
      | fd | blob => rfl
      | line | buf | tee | gzip | ssl =>
          cases child with
          | nil => rfl
          | cons => exact congrArg (_ :: ·) (ih _)

theorem setNonblock_eq (stack : Stack P D) (v : BitVec 32) : setNonblock stack v = setMode v stack :=
  ctrl_setNonblock stack false v

/-- The class of a stream without the fields of its own. -/
def kind : StreamContext.Class → StreamContext.Class
  | .fd _ => .fd 0
  | .line _ => .line 0
  | own => own

/-- Two states of a stack of the same classes. -/
abbrev SameClasses (s t : Stack P D) : Prop := List.Forall₂ (fun s t => kind s.own = kind t.own) s t

/-- What the method of a class saves. -/
def extraWord : StreamContext.Class → Option (BitVec 32)
  | .fd flags => some (gboolean (flags &&& flagNonblock ≠ 0))
  | .line flags => some (flags &&& savedFlagsMask)
  | _ => none

/-- A class with what is restored. -/
def adoptWord (word : BitVec 32) : StreamContext.Class → StreamContext.Class
  | .fd flags => .fd (if word ≠ 0 then flags ||| flagNonblock else flags &&& ~~~flagNonblock)
  | .line flags => .line ((flags &&& ~~~savedFlagsMask) ||| (word &&& savedFlagsMask))
  | own => own

def adopt : Stack P D → Stack P D → Stack P D
  | s :: below, t :: below' =>
      { t with own := ((extraWord s.own).map (adoptWord · t.own)).getD t.own } :: adopt below below'
  | _, t => t

theorem gboolean_eq_zero (b : Bool) : gboolean b = 0 ↔ b = false := by
  cases b <;> decide

theorem and_or_nonblock (flags : BitVec 32) (b : Bool) :
    gboolean ((if gboolean b ≠ 0 then flags ||| flagNonblock else flags &&& ~~~flagNonblock) &&&
      flagNonblock ≠ 0) = gboolean b := by
  cases b with
  | false =>
      have h : flags &&& ~~~flagNonblock &&& flagNonblock = 0 := by
        rw [BitVec.and_assoc]
        exact BitVec.and_zero
      simp [gboolean, h]
  | true =>
      have h : (flags ||| flagNonblock) &&& flagNonblock ≠ 0 := by
        intro h0
        have hbit := congrArg (fun v : BitVec 32 => v.getLsbD 1) h0
        simp [flagNonblock] at hbit
      simpa [gboolean] using h

theorem timeout_mode (b : Bool) :
    gboolean (decide ((if gboolean b ≠ 0 then (0 : BitVec 32) else -1) = 0)) = gboolean b := by
  cases b <;> decide

theorem mask_restored (flags saved : BitVec 32) :
    ((flags &&& ~~~savedFlagsMask) ||| (saved &&& savedFlagsMask &&& savedFlagsMask)) &&&
      savedFlagsMask = saved &&& savedFlagsMask := by
  apply BitVec.eq_of_getLsbD_eq
  intro i hi
  simp only [BitVec.getLsbD_and, BitVec.getLsbD_or, BitVec.getLsbD_not, hi, decide_true,
    Bool.true_and]
  cases savedFlagsMask.getLsbD i <;> simp

/-- What was restored would be saved again. -/
theorem extraWord_adopt {s t : StreamContext.Class} {word : BitVec 32} (hkind : kind s = kind t)
    (hword : extraWord s = some word) : extraWord (adoptWord word t) = some word := by
  cases s with
  | fd flags =>
      cases t with
      | fd flags' =>
          rw [extraWord, Option.some.injEq] at hword
          rw [adoptWord, extraWord, ← hword, and_or_nonblock]
      | line | buf | tee | gzip | ssl | blob => cases hkind
  | line flags =>
      cases t with
      | line flags' =>
          rw [extraWord, Option.some.injEq] at hword
          rw [adoptWord, extraWord, ← hword, mask_restored]
      | fd | buf | tee | gzip | ssl | blob => cases hkind
  | buf | tee | gzip | ssl | blob => cases hword

theorem sameClasses_setMode (v : BitVec 32) {s t : Stack P D} (h : SameClasses s t) :
    SameClasses s (setMode v t) := by
  induction h with
  | nil => exact .nil
  | @cons s t below below' hst hrest ih =>
      rcases t with ⟨own, timeout, watch⟩
      cases own with
      | fd | blob => exact .cons hst hrest
      | line | buf | tee | gzip | ssl => exact .cons hst ih

/-- A mode that is set is the mode that a stack of the same classes had. -/
theorem nonblocking_setMode (uninit : BitVec 32) {s t : Stack P D} (h : SameClasses s t) :
    nonblocking (setMode ((nonblocking s).getD uninit) t) = nonblocking s := by
  induction h with
  | nil => rfl
  | @cons s t below below' hst hrest ih =>
      rcases s with ⟨own, timeout, watch⟩
      rcases t with ⟨own', timeout', watch'⟩
      cases own with
      | fd flags =>
          cases own' with
          | fd flags' => exact congrArg some (and_or_nonblock flags' _)
          | line | buf | tee | gzip | ssl | blob => cases hst
      | blob =>
          cases own' with
          | blob => exact congrArg some (timeout_mode _)
          | fd | line | buf | tee | gzip | ssl => cases hst
      | line | buf | tee | gzip | ssl =>
          cases own' with
          | line | buf | tee | gzip | ssl => exact ih
          | fd | blob => cases hst

theorem nonblocking_adopt {s t : Stack P D} (h : SameClasses s t)
    (hmode : nonblocking t = nonblocking s) : nonblocking (adopt s t) = nonblocking s := by
  induction h with
  | nil => rfl
  | @cons s t below below' hst hrest ih =>
      rcases s with ⟨own, timeout, watch⟩
      rcases t with ⟨own', timeout', watch'⟩
      cases own with
      | fd flags =>
          cases own' with
          | fd flags' => exact congrArg some (and_or_nonblock flags' _)
          | line | buf | tee | gzip | ssl | blob => cases hst
      | blob =>
          cases own' with
          | blob => exact hmode
          | fd | line | buf | tee | gzip | ssl => cases hst
      | line | buf | tee | gzip | ssl =>
          cases own' with
          | line | buf | tee | gzip | ssl => exact ih hmode
          | fd | blob => cases hst

theorem words_adopt {s t : Stack P D} (h : SameClasses s t) :
    List.Forall₂ (fun s t => extraWord t.own = extraWord s.own) s (adopt s t) := by
  induction h with
  | nil => exact .nil
  | @cons s t below below' hst hrest ih =>
      refine .cons ?_ ih
      cases hword : extraWord s.own with
      | some word => exact extraWord_adopt hst hword
      | none =>
          change extraWord t.own = none
          cases hs : s.own with
          | fd | line => rw [hs] at hword; cases hword
          | buf | tee | gzip | ssl | blob =>
              cases ht : t.own with
              | buf | tee | gzip | ssl | blob => rfl
              | fd | line => rw [hs, ht] at hst; cases hst

/-- The block that a stack fills, with the part of the bottom first. -/
def extraBlock (host : ByteOrder) : Stack P D → List UInt8
  | [] => []
  | s :: child =>
      match extraWord s.own with
      | some word => extraBlock host child ++ encode host 4 word.toNat
      | none => extraBlock host child

variable (host : ByteOrder)

theorem extraBlock_length (s : Stack P D) : (extraBlock host s).length = extraGetSize s := by
  induction s with
  | nil => rfl
  | cons s child ih =>
      rcases s with ⟨own, timeout, watch⟩
      cases own with
      | fd | line =>
          rw [extraBlock, extraGetSize]
          simp only [extraWord]
          rw [List.length_append, encode_length, ih]
      | buf | tee | gzip | ssl | blob => exact ih

theorem extraSave_eq (uninit : BitVec 32) (s : Stack P D) {extra : List UInt8}
    (h : extraGetSize s ≤ extra.length) :
    extraSave host uninit s extra = .ok (extraGetSize s, put extra 0 (extraBlock host s)) := by
  induction s with
  | nil => exact congrArg (fun e => Except.ok (0, e)) (by simp [put, extraBlock])
  | cons s child ih =>
      rcases s with ⟨own, timeout, watch⟩
      have hword (word : BitVec 32) (hle : extraGetSize child + 4 ≤ extra.length) :
          write (put extra 0 (extraBlock host child)) (extraGetSize child)
            (encode host 4 word.toNat) =
          .ok (put extra 0 (extraBlock host child ++ encode host 4 word.toNat)) := by
        have hlen := extraBlock_length host child
        rw [write_eq (by rw [put_length (by omega), encode_length]; exact hle)]
        have happ : put (put extra 0 (extraBlock host child)) (0 + (extraBlock host child).length)
            (encode host 4 word.toNat) = put extra 0 (extraBlock host child ++ _) :=
          put_append _ (by omega)
        rw [Nat.zero_add, hlen] at happ
        rw [happ]
      cases own with
      | fd flags =>
          have hle : extraGetSize child + 4 ≤ extra.length := h
          have hmode : getNonblock uninit (⟨.fd flags, timeout, watch⟩ :: child) =
              gboolean (flags &&& flagNonblock ≠ 0) := getNonblock_eq uninit _
          rw [extraSave, ih (by omega)]
          simp only [bind, Except.bind]
          rw [hmode, hword _ hle]
          rfl
      | line flags =>
          have hle : extraGetSize child + 4 ≤ extra.length := h
          rw [extraSave, ih (by omega)]
          simp only [bind, Except.bind]
          rw [hword _ hle]
          rfl
      | buf | tee | gzip | ssl | blob =>
          have hle : extraGetSize child ≤ extra.length := h
          rw [extraSave, ih hle]
          rfl

theorem word_back (word : BitVec 32) :
    BitVec.ofNat 32 (decode host (encode host 4 word.toNat)) = word := by
  rw [decode_encode host word.isLt, BitVec.ofNat_toNat, BitVec.setWidth_eq]

/-- The word of a stream is where the words of the streams below it end. -/
theorem read_word (below : Stack P D) (word : BitVec 32) (rest : List UInt8) :
    read (extraBlock host below ++ encode host 4 word.toNat ++ rest) (extraGetSize below) 4 =
      .ok (encode host 4 word.toNat) := by
  have h := read_middle (extraBlock host below) (encode host 4 word.toNat) rest
  rwa [encode_length, extraBlock_length, ← List.append_assoc] at h

theorem extraRestore_eq {s t : Stack P D} (h : SameClasses s t) (rest : List UInt8) :
    extraRestore host (extraBlock host s ++ rest) t = .ok (extraGetSize s, adopt s t) := by
  induction h generalizing rest with
  | nil => rfl
  | @cons s t below below' hst hrest ih =>
      rcases s with ⟨own, timeout, watch⟩
      rcases t with ⟨own', timeout', watch'⟩
      cases own with
      | fd flags =>
          cases own' with
          | fd flags' =>
              have hread := read_word host below (gboolean (flags &&& flagNonblock ≠ 0)) rest
              rw [List.append_assoc] at hread
              rw [extraRestore, extraBlock]
              simp only [extraWord]
              rw [List.append_assoc, ih]
              simp only [bind, Except.bind]
              rw [hread]
              simp only [word_back]
              rw [setNonblock_eq]
              rfl
          | line | buf | tee | gzip | ssl | blob => cases hst
      | line flags =>
          cases own' with
          | line flags' =>
              have hread := read_word host below (flags &&& savedFlagsMask) rest
              rw [List.append_assoc] at hread
              rw [extraRestore, extraBlock]
              simp only [extraWord]
              rw [List.append_assoc, ih]
              simp only [bind, Except.bind]
              rw [hread]
              simp only [word_back]
              rfl
          | fd | buf | tee | gzip | ssl | blob => cases hst
      | buf | tee | gzip | ssl | blob =>
          cases own' with
          | buf | tee | gzip | ssl | blob =>
              rw [extraRestore, extraBlock]
              simp only [extraWord]
              rw [ih]
              rfl
          | fd | line => cases hst

/-- The method of each class finds what it has saved at the offset where it
begins to read. -/
def ReadsBack (extra : List UInt8) : Stack P D → Stack P D → Prop
  | s :: below, _ :: below' =>
      (∀ word, extraWord s.own = some word → ∃ ofs u, extraRestore host extra below' = .ok (ofs, u) ∧
        read extra ofs 4 = .ok (encode host 4 word.toNat)) ∧ ReadsBack extra below below'
  | _, _ => True

theorem extraBlock_split (s : ZStream P D) (below : Stack P D) (rest : List UInt8) :
    ∃ bytes, extraBlock host (s :: below) ++ rest = extraBlock host below ++ (bytes ++ rest) ∧
      ∀ word, extraWord s.own = some word → bytes = encode host 4 word.toNat := by
  rw [extraBlock]
  cases extraWord s.own with
  | none =>
      refine ⟨[], rfl, ?_⟩
      intro word hword
      cases hword
  | some word =>
      refine ⟨_, List.append_assoc _ _ _, ?_⟩
      intro word' hword
      rw [Option.some.inj hword]

theorem readsBack {s t : Stack P D} (h : SameClasses s t) (rest : List UInt8) :
    ReadsBack host (extraBlock host s ++ rest) s t := by
  induction h generalizing rest with
  | nil => trivial
  | @cons s _ below _ hst hrest ih =>
      obtain ⟨bytes, hsplit, hbytes⟩ := extraBlock_split host s below rest
      rw [hsplit]
      refine ⟨?_, ih (bytes ++ rest)⟩
      intro word hword
      refine ⟨_, _, extraRestore_eq host hrest (bytes ++ rest), ?_⟩
      have hread := read_word host below word rest
      rw [List.append_assoc] at hread
      rw [hbytes word hword]
      exact hread

/-- A stack with the settings of another one. -/
structure SameSettings (s : ZStream P D) (below : Stack P D) (u : ZStream P D) (below' : Stack P D) : Prop where
  watch : u.watch = s.watch
  timeout : u.timeout = s.timeout
  nonblock : ∀ uninit, getNonblock uninit (u :: below') = getNonblock uninit (s :: below)
  words : List.Forall₂ (fun s u => extraWord u.own = extraWord s.own) (s :: below) (u :: below')

theorem extraSave_malloc0 (uninit : BitVec 32) (s : Stack P D) :
    extraSave host uninit s ((malloc0 (extraGetSize s)).getD []) =
      .ok (extraGetSize s, extraBlock host s) := by
  have hlen : ((malloc0 (extraGetSize s)).getD []).length = extraGetSize s := by
    rw [malloc0]
    split
    · rename_i hzero
      exact hzero.symm
    · exact List.length_replicate
  rw [extraSave_eq host uninit s (Nat.le_of_eq hlen.symm),
    put_all ((extraBlock_length host s).trans hlen.symm)]

def savedContext (uninit : BitVec 32) (self : ZStream P D) (child : Stack P D) : Context P D where
  restored := false
  watch := self.watch
  timeout := self.timeout
  nonblocking := (nonblocking (self :: child)).getD uninit
  streamExtra := (malloc0 (extraGetSize (self :: child))).map (fun _ => extraBlock host (self :: child))

theorem saveContext_eq (uninit : BitVec 32) (self : ZStream P D) (child : Stack P D) :
    saveContext host uninit self child =
      .ok ({ self with watch := {} }, savedContext host uninit self child) := by
  rw [saveContext, extraSave_malloc0, getNonblock_eq]
  rfl

theorem adopt_eq_self {s t : Stack P D} (h : SameClasses s t) (hsize : extraGetSize s = 0) :
    adopt s t = t := by
  induction h with
  | nil => rfl
  | @cons s t _ _ hst hrest ih =>
      rcases s with ⟨own, timeout, watch⟩
      cases own with
      | fd | line => cases hsize
      | buf | tee | gzip | ssl | blob => exact congrArg (t :: ·) (ih hsize)

/-- The top stream with the fields that are restored at once. -/
def refilled (self t : ZStream P D) : ZStream P D := { t with watch := self.watch, timeout := self.timeout }

theorem restoreExtra_eq {s t : Stack P D} (h : SameClasses s t) :
    restoreExtra host ((malloc0 (extraGetSize s)).map (fun _ => extraBlock host s)) t =
      .ok (adopt s t) := by
  by_cases hsize : extraGetSize s = 0
  · rw [malloc0, if_pos hsize, adopt_eq_self h hsize]
    rfl
  · have hrestore := extraRestore_eq host h []
    rw [List.append_nil] at hrestore
    rw [malloc0, if_neg hsize, Option.map_some]
    exact congrArg (Except.map Prod.snd) hrestore

theorem restoreContext_eq (uninit : BitVec 32) {self t : ZStream P D} {child below : Stack P D}
    (h : SameClasses (self :: child) (t :: below)) :
    restoreContext host t below (savedContext host uninit self child) =
      .ok { res := true
            notified := notifyAll t.watch.callback
            stack := adopt (self :: child)
              (setMode ((nonblocking (self :: child)).getD uninit) (refilled self t :: below))
            context := { savedContext host uninit self child with
              streamExtra := none, restored := true } } := by
  have hsame : SameClasses (self :: child) (refilled self t :: below) := by
    cases h with
    | cons hst hrest => exact .cons hst hrest
  have hset := sameClasses_setMode ((nonblocking (self :: child)).getD uninit) hsame
  have hextra := restoreExtra_eq host hset
  rw [restoreContext, if_neg (by simp [savedContext])]
  simp only [setNonblock_eq]
  exact congrArg (· >>= _) hextra

/-- A save and a restore with a stack of the same classes in between give the
top stream its settings back. -/
def Identity (uninit : BitVec 32) (self : ZStream P D) (child : Stack P D) (t : ZStream P D)
    (below : Stack P D) : Prop :=
  ∃ saved context restored u below', saveContext host uninit self child = .ok (saved, context) ∧
    restoreContext host t below context = .ok restored ∧ restored.res = true ∧
    restored.stack = u :: below' ∧ SameSettings self child u below' ∧
    ∀ extra, context.streamExtra = some extra → ReadsBack host extra (self :: child) (t :: below)

theorem savedContext_extra (uninit : BitVec 32) {self : ZStream P D} {child : Stack P D}
    {extra : List UInt8} (h : (savedContext host uninit self child).streamExtra = some extra) :
    extra = extraBlock host (self :: child) := by
  obtain ⟨-, -, hextra⟩ := Option.map_eq_some_iff.mp h
  exact hextra.symm

theorem setMode_cons (v : BitVec 32) (s : ZStream P D) (below : Stack P D) :
    ∃ u below', setMode v (s :: below) = u :: below' ∧ u.watch = s.watch ∧
      u.timeout = if s.own = .blob then (if v ≠ 0 then 0 else -1) else s.timeout := by
  rcases s with ⟨own, timeout, watch⟩
  cases own with
  | fd | blob => exact ⟨_, _, rfl, rfl, rfl⟩
  | line | buf | tee | gzip | ssl => exact ⟨_, _, rfl, rfl, rfl⟩

theorem kind_blob {c : StreamContext.Class} (h : kind .blob = kind c) : c = .blob := by
  cases c with
  | blob => rfl
  | fd | line | buf | tee | gzip | ssl => cases h

theorem nonblocking_blob {s : ZStream P D} (child : Stack P D) (h : s.own = .blob) :
    nonblocking (s :: child) = some (gboolean (s.timeout = 0)) := by
  rcases s with ⟨own, timeout, watch⟩
  cases h
  rfl

/-- A blob stream keeps its mode in its timeout. -/
theorem blob_timeout (timeout : BitVec 32) :
    (if gboolean (timeout = 0) ≠ 0 then (0 : BitVec 32) else -1) = timeout ↔
      timeout = 0 ∨ timeout = -1 := by
  by_cases hz : timeout = 0
  · rw [hz]
    decide
  · have hmode : gboolean (timeout = 0) = 0 := (gboolean_eq_zero _).mpr (decide_eq_false hz)
    rw [hmode, if_neg (not_not_intro rfl)]
    constructor
    · intro h
      exact .inr h.symm
    · rintro (h | h)
      · exact absurd h hz
      · exact h.symm

theorem sameClasses_refilled {self t : ZStream P D} {child below : Stack P D}
    (h : SameClasses (self :: child) (t :: below)) :
    SameClasses (self :: child) (refilled self t :: below) := by
  cases h with
  | cons hst hrest => exact .cons hst hrest

/-- The timeout of the top stream after its mode has been set. -/
theorem setMode_timeout (uninit : BitVec 32) {self t : ZStream P D} {child below : Stack P D}
    (h : SameClasses (self :: child) (t :: below)) :
    ∃ u below', setMode ((nonblocking (self :: child)).getD uninit) (refilled self t :: below) =
      u :: below' ∧ u.watch = self.watch ∧
      (u.timeout = self.timeout ↔ (self.own = .blob → self.timeout = 0 ∨ self.timeout = -1)) := by
  have hkind : kind self.own = kind t.own := by
    cases h with
    | cons hst _ => exact hst
  obtain ⟨u, below', hset, hwatch, htimeout⟩ :=
    setMode_cons ((nonblocking (self :: child)).getD uninit) (refilled self t) below
  refine ⟨u, below', hset, hwatch, ?_⟩
  rw [htimeout]
  by_cases hblob : self.own = .blob
  · have ht : (refilled self t).own = .blob := kind_blob (hblob ▸ hkind)
    rw [if_pos ht, nonblocking_blob child hblob, Option.getD_some, blob_timeout]
    exact ⟨fun h _ => h, fun h => h hblob⟩
  · have ht : (refilled self t).own ≠ .blob := by
      intro ht
      have ht' : t.own = .blob := ht
      rw [ht'] at hkind
      exact hblob (kind_blob hkind.symm)
    rw [if_neg ht]
    exact ⟨fun _ h => absurd h hblob, fun _ => rfl⟩

variable {self t : ZStream P D} {child below : Stack P D}

theorem timeout_of_identity (uninit : BitVec 32) (h : SameClasses (self :: child) (t :: below))
    (hid : Identity host uninit self child t below) :
    self.own = .blob → self.timeout = 0 ∨ self.timeout = -1 := by
  obtain ⟨u, below', hset, -, htimeout⟩ := setMode_timeout uninit h
  have hrestore := restoreContext_eq host uninit h
  rw [hset] at hrestore
  obtain ⟨saved, context, restored, u', below'', hsave, hrest, -, hstack, hsettings, -⟩ := hid
  rw [saveContext_eq] at hsave
  obtain ⟨-, rfl⟩ := Prod.mk.inj (Except.ok.inj hsave)
  rw [hrestore] at hrest
  obtain rfl := Except.ok.inj hrest
  obtain ⟨rfl, -⟩ := List.cons.inj hstack
  exact htimeout.mp hsettings.timeout

theorem identity_of_timeout (uninit : BitVec 32) (h : SameClasses (self :: child) (t :: below))
    (hcond : self.own = .blob → self.timeout = 0 ∨ self.timeout = -1) :
    Identity host uninit self child t below := by
  have hsame := sameClasses_refilled h
  have hclasses := sameClasses_setMode ((nonblocking (self :: child)).getD uninit) hsame
  have hmode := nonblocking_adopt hclasses (nonblocking_setMode uninit hsame)
  have hwords := words_adopt hclasses
  have hrestore := restoreContext_eq host uninit h
  obtain ⟨u, below', hset, hwatch, htimeout⟩ := setMode_timeout uninit h
  rw [hset] at hrestore hmode hwords
  refine ⟨_, _, _, _, _, saveContext_eq host uninit self child, hrestore, rfl, rfl, ?_, ?_⟩
  · refine ⟨hwatch, htimeout.mpr hcond, ?_, hwords⟩
    intro v
    rw [getNonblock_eq, getNonblock_eq]
    exact congrArg (Option.getD · v) hmode
  · intro extra hextra
    have hback := readsBack host h []
    rwa [List.append_nil, ← savedContext_extra host uninit hextra] at hback

/-- What is restored is what was saved, but for the timeout of a blob stream
that is neither of the two which stand for its mode. -/
theorem identity_iff (uninit : BitVec 32) (h : SameClasses (self :: child) (t :: below)) :
    Identity host uninit self child t below ↔
      (self.own = .blob → self.timeout = 0 ∨ self.timeout = -1) :=
  ⟨timeout_of_identity host uninit h, identity_of_timeout host uninit h⟩

/-- A line stream over an fd stream, both with other flags and another timeout
by the time of the restore. -/
theorem identity_line_over_fd :
    Identity .little 0 ({ own := .line 0x261, timeout := 7 } : ZStream Unit Unit) [{ own := .fd 2 }]
      { own := .line 0x10002, timeout := 0 } [{ own := .fd 0 }] := by
  have hclasses : SameClasses [({ own := .line 0x261, timeout := 7 } : ZStream Unit Unit), { own := .fd 2 }]
      [{ own := .line 0x10002, timeout := 0 }, { own := .fd 0 }] := .cons rfl (.cons rfl .nil)
  apply (identity_iff .little 0 hclasses).mpr
  intro h
  cases h

/-- A blob stream has another timeout from the start. -/
theorem identity_blob_lost :
    ¬∀ (self t : ZStream Unit Unit) (child below : Stack Unit Unit),
      SameClasses (self :: child) (t :: below) → Identity .little 0 self child t below := by
  intro h
  have hid := h { own := .blob } { own := .blob } [] [] (.cons rfl .nil)
  have htimeout := timeout_of_identity .little 0 (.cons rfl .nil) hid rfl
  exact absurd htimeout (by decide)

theorem kind_classReply {s : ZStream P D} {function : CtrlFunction} {value : Value P D} {r : Reply P D}
    (h : classReply s function value = some r) : kind r.stream.own = kind s.own := by
  rcases s with ⟨own, timeout, watch⟩
  cases own with
  | fd | blob | line =>
      cases function with
      | setNonblock | getNonblock | lineSet | lineGet =>
          cases value <;> cases h <;> rfl
      | getCond | setCond | getCallback | setCallback | setTimeoutBlock => cases h
  | buf | tee | gzip | ssl => cases h

theorem own_baseReply {s : ZStream P D} {function : CtrlFunction} {value : Value P D} {r : Reply P D}
    (h : baseReply s function value = some r) : r.stream.own = s.own := by
  cases function with
  | getCond | setCond | getCallback | setCallback | setTimeoutBlock =>
      cases value <;> cases h <;> rfl
  | setNonblock | getNonblock | lineSet | lineGet => cases h

theorem sameClasses_refl (s : Stack P D) : SameClasses s s := by
  induction s with
  | nil => exact .nil
  | cons s below ih => exact .cons rfl ih

theorem sameClasses_ctrl (s : Stack P D) (forward : Bool) (function : CtrlFunction) (value : Value P D) :
    SameClasses s (ctrl s forward function value).stack := by
  induction s generalizing forward value with
  | nil => exact .nil
  | cons s below ih =>
      rw [ctrl]
      cases hclass : classReply s function value with
      | some r => exact .cons (kind_classReply hclass).symm (sameClasses_refl below)
      | none =>
          simp only [ctrlMethod]
          cases hbase : baseReply s function value with
          | none =>
              simp only
              split
              · rename_i hnil
                rw [hnil]
                exact .cons rfl .nil
              · exact .cons rfl (ih _ _)
          | some r =>
              have hown := congrArg kind (own_baseReply hbase)
              simp only
              split
              · exact .cons hown.symm (ih _ _)
              · exact .cons hown.symm (sameClasses_refl below)

/-- The calls that change settings, of the top of a stack or of a stream in
it. -/
inductive Change : Stack P D → Stack P D → Prop
  | ctrl (above s : Stack P D) (forward : Bool) (function : CtrlFunction) (value : Value P D) :
      Change (above ++ s) (above ++ (ctrl s forward function value).stack)
  | timeout (above : Stack P D) (s : ZStream P D) (below : Stack P D) (timeout : BitVec 32) :
      Change (above ++ s :: below) (above ++ { s with timeout := timeout } :: below)

theorem sameClasses_append (above : Stack P D) {s t : Stack P D} (h : SameClasses s t) :
    SameClasses (above ++ s) (above ++ t) := by
  induction above with
  | nil => exact h
  | cons a above ih => exact .cons rfl ih

theorem sameClasses_change {s t : Stack P D} (h : Change s t) : SameClasses s t := by
  cases h with
  | ctrl above s forward function value =>
      exact sameClasses_append above (sameClasses_ctrl s forward function value)
  | timeout above s below timeout =>
      exact sameClasses_append above (.cons rfl (sameClasses_refl below))

theorem sameClasses_trans {s t u : Stack P D} (hst : SameClasses s t) (htu : SameClasses t u) :
    SameClasses s u := by
  induction hst generalizing u with
  | nil => exact htu
  | cons hst _ ih =>
      cases htu with
      | cons htu hrest => exact .cons (hst.trans htu) (ih hrest)

theorem sameClasses_changes {s t : Stack P D} (h : Relation.ReflTransGen Change s t) :
    SameClasses s t := by
  induction h with
  | refl => exact sameClasses_refl s
  | tail _ hchange ih => exact sameClasses_trans ih (sameClasses_change hchange)

/-- Whatever calls come between the save and the restore. -/
theorem identity_after_changes (uninit : BitVec 32)
    (hcond : self.own = .blob → self.timeout = 0 ∨ self.timeout = -1)
    (h : Relation.ReflTransGen Change ({ self with watch := {} } :: child) (t :: below)) :
    Identity host uninit self child t below := by
  have hsame := sameClasses_changes h
  apply identity_of_timeout host uninit ?_ hcond
  cases hsame with
  | cons hst hrest => exact .cons hst hrest

end Libzorpll.ContextIdentity
