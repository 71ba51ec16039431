import Mathlib.Data.UInt
import Libzorpll.LogCache
import Libzorpll.Memo
import Libzorpll.Run

namespace Libzorpll.LogDecision

open LogSpec LogCache

variable {T : Type}

/-- What the array knows of a tag. -/
def mappedVerb (mapTag : Tag → Nat → Int) (verbs : List UInt8) (tag : Tag) : UInt8 :=
  if mapTag tag tag.length < 0 then 0 else verbs.getD (mapTag tag tag.length).toNat 0

/-- No two tags have the same ID. -/
def DistinctIds (mapTag : Tag → Nat → Int) : Prop :=
  ∀ a b : Tag, mapTag a a.length = mapTag b b.length → mapTag a a.length ≠ -1 → a = b

/-- All that is remembered is of the specification as it is now. -/
structure Inv (s : LogState T) : Prop where
  hashed : ∀ lc ∈ s.logtagCaches, lc.emptyHash = false →
    Memo.Agrees (· + 1) (logSpecEval s.logSpec) lc.tagHash
  mapped : ∀ mapTag, s.logMapTag = some mapTag →
    Memo.Agrees verbByte (logSpecEval s.logSpec) (mappedVerb mapTag s.logMappedTagsVerb)
  distinct : ∀ mapTag, s.logMapTag = some mapTag → DistinctIds mapTag
  current : ∀ thread i, s.currentLogtagCache thread = some i → i < s.logtagCaches.length

/-! What a query does -/

/-- The tag has an ID in the array. -/
def isMapped (s : LogState T) (tag : Tag) : Bool :=
  match s.logMapTag with
  | some mapTag => mapTag tag tag.length != -1
  | none => false

/-- The verbosity that decides: the one of the specification, but the global
one for a thread without a cache and a tag without an ID. -/
def verbosity (s : LogState T) (thread : T) (tag : Tag) : Int :=
  if s.logSpec.items ≠ [] ∧ isMapped s tag = false ∧ s.currentLogtagCache thread = none then
    s.logSpec.verboseLevel
  else logSpecEval s.logSpec tag

/-- The decision, where the byte of a tag with an ID has room for its
verbosity. -/
def Decides (s : LogState T) (thread : T) (tag : Tag) (level : Int) (r : Bool) : Prop :=
  (s.logSpec.items ≠ [] → isMapped s tag = true →
      0 ≤ logSpecEval s.logSpec tag ∧ logSpecEval s.logSpec tag ≤ 255) →
    r = decide (level ≤ verbosity s thread tag)

/-- An ID that is no index, or a verbosity that has no successor. -/
def Stops (s : LogState T) (tag : Tag) : Halt → Prop
  | .assertion => False
  | .overflow => logSpecEval s.logSpec tag = gintMax
  | .memory => ∃ mapTag, s.logMapTag = some mapTag ∧ mapTag tag tag.length ≠ -1 ∧
      (mapTag tag tag.length < 0 ∨ s.logMappedTagsVerb.length ≤ (mapTag tag tag.length).toNat)

theorem eval_nil {spec : LogSpec} (h : spec.items = []) (tag : Tag) :
    logSpecEval spec tag = spec.verboseLevel := by
  rw [logSpecEval, h, evalItems]

theorem verbByte_decode {verbose : Int} (h : 0 ≤ verbose ∧ verbose ≤ 255) (hsome : verbByte verbose ≠ 0) :
    ((verbByte verbose).toNat : Int) - 1 = verbose := by
  have hmod : verbose % 256 = verbose := Int.emod_eq_of_lt h.1 (by omega)
  have hbyte : verbByte verbose = UInt8.ofNat (verbose.toNat + 1) := by rw [verbByte, hmod]
  by_cases hlast : verbose = 255
  · rw [hlast] at hsome
    exact absurd rfl hsome
  · have hsmall : verbose.toNat + 1 < 2 ^ 8 := by omega
    rw [hbyte, UInt8.toNat_ofNat_of_lt' hsmall]
    omega

theorem mappedVerb_zeros (mapTag : Tag → Nat → Int) (tag : Tag) {verbs : List UInt8}
    (h : ∀ verb ∈ verbs, verb = 0) : mappedVerb mapTag verbs tag = 0 := by
  rw [mappedVerb, List.getD_eq_getElem?_getD]
  split
  · rfl
  · cases hread : verbs[(mapTag tag tag.length).toNat]? with
    | none => rfl
    | some verb => exact h verb (List.mem_of_getElem? hread)

/-- A new byte for a tag changes what is known of no other. -/
theorem mappedVerb_set {mapTag : Tag → Nat → Int} (hdistinct : DistinctIds mapTag) {verbs : List UInt8}
    {tag : Tag} (hlow : ¬mapTag tag tag.length < 0)
    (hhigh : (mapTag tag tag.length).toNat < verbs.length) (verb : UInt8) :
    mappedVerb mapTag (verbs.set (mapTag tag tag.length).toNat verb) =
      Function.update (mappedVerb mapTag verbs) tag verb := by
  funext other
  by_cases hsame : other = tag
  · rw [hsame, Function.update_self, mappedVerb, if_neg hlow, List.getD_eq_getElem?_getD,
      List.getElem?_set_self hhigh, Option.getD_some]
  · rw [Function.update_of_ne hsame, mappedVerb, mappedVerb]
    by_cases hneg : mapTag other other.length < 0
    · rw [if_pos hneg, if_pos hneg]
    · have hids : (mapTag tag tag.length).toNat ≠ (mapTag other other.length).toNat := by
        intro hnat
        apply hsame
        exact hdistinct other tag (by omega) (by omega)
      rw [if_neg hneg, if_neg hneg, List.getD_eq_getElem?_getD, List.getD_eq_getElem?_getD,
        List.getElem?_set_ne hids]

variable {s : LogState T}

theorem enabledMapped_spec (h : Inv s) {mapTag : Tag → Nat → Int} (hmap : s.logMapTag = some mapTag)
    {tag : Tag} (hmapped : mapTag tag tag.length ≠ -1) (level : Int) :
    (∃ e, enabledMapped (mapTag tag tag.length) tag level s = .error e ∧ Stops s tag e) ∨
      ∃ r t, enabledMapped (mapTag tag tag.length) tag level s = .ok (r, t) ∧ Inv t ∧
        t.logSpec = s.logSpec ∧
        (0 ≤ logSpecEval s.logSpec tag ∧ logSpecEval s.logSpec tag ≤ 255 →
          r = decide (level ≤ logSpecEval s.logSpec tag)) := by
  by_cases hlow : mapTag tag tag.length < 0
  · left
    exact ⟨.memory, by rw [enabledMapped, if_pos hlow], mapTag, hmap, hmapped, .inl hlow⟩
  · by_cases hhigh : (mapTag tag tag.length).toNat < s.logMappedTagsVerb.length
    · right
      have hagrees := h.mapped mapTag hmap
      have hread : s.logMappedTagsVerb[(mapTag tag tag.length).toNat]? =
          some (mappedVerb mapTag s.logMappedTagsVerb tag) := by
        rw [mappedVerb, if_neg hlow, List.getD_eq_getElem?_getD, List.getElem?_eq_getElem hhigh, Option.getD_some]
      by_cases hknown : mappedVerb mapTag s.logMappedTagsVerb tag = 0
      · have hstored := Memo.agrees_store hagrees tag
        rw [← mappedVerb_set (h.distinct mapTag hmap) hlow hhigh] at hstored
        refine ⟨decide (level ≤ logSpecEval s.logSpec tag), { s with
            logMappedTagsVerb := s.logMappedTagsVerb.set (mapTag tag tag.length).toNat
              (verbByte (logSpecEval s.logSpec tag)) },
          by simp only [enabledMapped, hlow, hread, hknown, ↓reduceIte, ne_eq, not_true_eq_false],
          ⟨h.hashed, ?_, h.distinct, h.current⟩, rfl, fun _ => rfl⟩
        intro other hother
        obtain rfl : mapTag = other := Option.some.inj (hmap.symm.trans hother)
        exact hstored
      · refine ⟨decide (level ≤ ((mappedVerb mapTag s.logMappedTagsVerb tag).toNat : Int) - 1), s,
          by simp only [enabledMapped, hlow, hread, hknown, ↓reduceIte, ne_eq, not_false_eq_true],
          h, rfl, fun hfits => ?_⟩
        have hbyte := hagrees tag hknown
        have hdecode := verbByte_decode hfits (hbyte ▸ hknown)
        rw [hbyte, hdecode]
    · left
      have hnone : s.logMappedTagsVerb[(mapTag tag tag.length).toNat]? = none :=
        List.getElem?_eq_none (Nat.le_of_not_lt hhigh)
      refine ⟨.memory, ?_, mapTag, hmap, hmapped, .inr (Nat.le_of_not_lt hhigh)⟩
      rw [enabledMapped, if_neg hlow, hnone]

theorem inv_set (h : Inv s) {i : Nat} {lc : LogTagCache}
    (hlc : lc.emptyHash = false → Memo.Agrees (· + 1) (logSpecEval s.logSpec) lc.tagHash) :
    Inv { s with logtagCaches := s.logtagCaches.set i lc } := by
  refine ⟨fun other hother hfresh => ?_, h.mapped, h.distinct, fun thread j hj => ?_⟩
  · rcases List.mem_or_eq_of_mem_set hother with hmem | rfl
    · exact h.hashed other hmem hfresh
    · exact hlc hfresh
  · rw [List.length_set]
    exact h.current thread j hj

/-- What is known in a cache that was to be emptied is nothing. -/
theorem agrees_emptied (h : Inv s) {lc : LogTagCache} (hlc : lc ∈ s.logtagCaches) :
    Memo.Agrees (· + 1) (logSpecEval s.logSpec)
      (if lc.emptyHash then { lc with tagHash := fun _ => 0, emptyHash := false } else lc).tagHash := by
  cases hempty : lc.emptyHash with
  | true => exact Memo.agrees_empty _ _
  | false => exact h.hashed lc hlc hempty

theorem enabledHashed_spec (h : Inv s) (thread : T) (tag : Tag) (level : Int) :
    (∃ e, enabledHashed thread tag level s = .error e ∧ Stops s tag e) ∨
      ∃ r t, enabledHashed thread tag level s = .ok (r, t) ∧ Inv t ∧ t.logSpec = s.logSpec ∧
        r = decide (level ≤ if s.currentLogtagCache thread = none then s.logSpec.verboseLevel
          else logSpecEval s.logSpec tag) := by
  cases hcurrent : s.currentLogtagCache thread with
  | none =>
      right
      exact ⟨decide (level ≤ s.logSpec.verboseLevel), s, by rw [enabledHashed, hcurrent], h, rfl,
        by rw [if_pos rfl]⟩
  | some i =>
      have hi := h.current thread i hcurrent
      have hread : s.logtagCaches[i]? = some s.logtagCaches[i] := List.getElem?_eq_getElem hi
      have hagrees := agrees_emptied h (List.getElem_mem hi)
      rw [if_neg (by simp)]
      simp only [enabledHashed, hcurrent, hread]
      generalize (if s.logtagCaches[i].emptyHash then
        { s.logtagCaches[i] with tagHash := fun _ => 0, emptyHash := false } else s.logtagCaches[i]) = lc at hagrees ⊢
      by_cases hknown : lc.tagHash tag = 0
      · by_cases hmax : logSpecEval s.logSpec tag = gintMax
        · left
          exact ⟨.overflow, by rw [if_pos hknown, if_pos hmax], hmax⟩
        · right
          refine ⟨decide (level ≤ logSpecEval s.logSpec tag), { s with
              logtagCaches := s.logtagCaches.set i
                { lc with tagHash := Function.update lc.tagHash tag (logSpecEval s.logSpec tag + 1) } },
            by rw [if_pos hknown, if_neg hmax], inv_set h fun _ => Memo.agrees_store hagrees tag, rfl, rfl⟩
      · right
        refine ⟨decide (level ≤ lc.tagHash tag - 1), { s with logtagCaches := s.logtagCaches.set i lc },
          by rw [if_neg hknown], inv_set h fun _ => hagrees, rfl, ?_⟩
        have hstored : lc.tagHash tag = logSpecEval s.logSpec tag + 1 := hagrees tag hknown
        rw [hstored, Int.add_sub_cancel]

/-- A query keeps what is remembered true, and decides by the specification. -/
theorem enabledLen_spec (h : Inv s) (thread : T) (tag : Tag) (level : Int) :
    (∃ e, enabledLen thread tag tag.length level s = .error e ∧ Stops s tag e) ∨
      ∃ r t, enabledLen thread tag tag.length level s = .ok (r, t) ∧ Inv t ∧ t.logSpec = s.logSpec ∧
        Decides s thread tag level r := by
  by_cases hitems : s.logSpec.items = []
  · right
    refine ⟨decide (level ≤ s.logSpec.verboseLevel), s, by rw [enabledLen, if_pos hitems], h, rfl, fun _ => ?_⟩
    rw [verbosity, if_neg (fun hcond => hcond.1 hitems), eval_nil hitems]
  · cases hmapped : isMapped s tag with
    | true =>
        obtain ⟨mapTag, hmap, hid⟩ : ∃ mapTag, s.logMapTag = some mapTag ∧ mapTag tag tag.length ≠ -1 := by
          rw [isMapped] at hmapped
          split at hmapped
          · rename_i mapTag hmap
            exact ⟨mapTag, hmap, bne_iff_ne.mp hmapped⟩
          · cases hmapped
        have hsame : enabledLen thread tag tag.length level s =
            enabledMapped (mapTag tag tag.length) tag level s := by
          simp only [enabledLen, hitems, hmap, hid, ↓reduceIte, ne_eq, not_false_eq_true]
        rw [hsame]
        rcases enabledMapped_spec h hmap hid level with hstop | ⟨r, t, hr, ht, hspec, hright⟩
        · exact .inl hstop
        · right
          refine ⟨r, t, hr, ht, hspec, fun hfits => ?_⟩
          rw [verbosity, if_neg (fun hcond => Bool.noConfusion (hcond.2.1.symm.trans hmapped))]
          exact hright (hfits hitems hmapped)
    | false =>
        have hsame : enabledLen thread tag tag.length level s = enabledHashed thread tag level s := by
          rw [isMapped] at hmapped
          split at hmapped
          · rename_i mapTag hmap
            have hid : mapTag tag tag.length = -1 := by
              rw [bne_eq_false_iff_eq] at hmapped
              exact hmapped
            simp only [enabledLen, hitems, hmap, hid, ↓reduceIte, ne_eq, not_true_eq_false]
          · rename_i hmap
            simp only [enabledLen, hitems, hmap, ↓reduceIte]
        rw [hsame]
        rcases enabledHashed_spec h thread tag level with hstop | ⟨r, t, hr, ht, hspec, hright⟩
        · exact .inl hstop
        · right
          refine ⟨r, t, hr, ht, hspec, fun _ => ?_⟩
          rw [hright, verbosity]
          by_cases hcurrent : s.currentLogtagCache thread = none
          · rw [if_pos hcurrent, if_pos ⟨hitems, hmapped, hcurrent⟩]
          · rw [if_neg hcurrent, if_neg (fun hcond => hcurrent hcond.2.2)]

theorem log_spec (h : Inv s) (thread : T) (tag : Tag) (level : Int) :
    (∃ e, log thread tag level s = .error e ∧ Stops s tag e) ∨
      ∃ t, log thread tag level s = .ok t ∧ Inv t ∧ t.logSpec = s.logSpec := by
  rcases enabledLen_spec h thread tag level with ⟨e, he, hstop⟩ | ⟨r, t, hr, ht, hspec, -⟩
  · exact .inl ⟨e, by rw [log, he]; rfl, hstop⟩
  · exact .inr ⟨t, by rw [log, hr]; rfl, ht, hspec⟩

/-! What the other calls do -/

/-- With the caches cleared, any specification will do. -/
theorem clearCaches_inv (h : Inv s) (spec : LogSpec) : Inv (clearCaches { s with logSpec := spec }) := by
  refine ⟨fun lc hlc hfresh => ?_, fun mapTag _ tag htag => ?_, h.distinct, fun thread i hi => ?_⟩
  · obtain ⟨other, -, rfl⟩ := List.mem_map.mp hlc
    cases hfresh
  · have hzero : mappedVerb mapTag (clearCaches { s with logSpec := spec }).logMappedTagsVerb tag = 0 := by
      refine mappedVerb_zeros mapTag tag fun verb hverb => ?_
      obtain ⟨_, -, hclear⟩ := List.mem_map.mp hverb
      exact hclear.symm
    exact absurd hzero htag
  · exact (h.current thread i hi).trans_eq (List.length_map _).symm

theorem stops_cleared {spec : LogSpec} {tag : Tag} {e : Halt}
    (h : Stops (clearCaches { s with logSpec := spec }) tag e) : Stops { s with logSpec := spec } tag e := by
  cases e with
  | assertion => exact h
  | overflow => exact h
  | memory =>
      obtain ⟨mapTag, hmap, hid, hindex⟩ := h
      exact ⟨mapTag, hmap, hid, hindex.imp_right fun hle => (List.length_map _).symm.trans_le hle⟩

theorem enableTagMapCache_inv (h : Inv s) {mapTags : Tag → Nat → Int} (hdistinct : DistinctIds mapTags)
    (maxTag : Nat) :
    Inv { s with logMapTag := some mapTags, logMappedTagsVerb := List.replicate maxTag 0 } := by
  refine ⟨h.hashed, fun mapTag hmap tag htag => ?_, fun mapTag hmap => ?_, h.current⟩
  · have hzero : mappedVerb mapTag (List.replicate maxTag 0) tag = 0 :=
      mappedVerb_zeros mapTag tag fun verb hverb => List.eq_of_mem_replicate hverb
    cases hmap
    exact absurd hzero htag
  · cases hmap
    exact hdistinct

theorem releaseCache_inv (h : Inv s) (thread : T) : Inv (releaseCache thread s) := by
  rw [releaseCache]
  split
  · exact h
  · rename_i i _
    refine ⟨fun other hother hfresh => ?_, h.mapped, h.distinct, fun other j hj => ?_⟩
    · obtain ⟨j, hj, rfl⟩ := List.getElem_of_mem hother
      have hin : j < s.logtagCaches.length := (List.length_modify _ _ _).symm.trans_gt hj
      have hmem := List.getElem_mem hin
      rw [List.getElem_modify] at hfresh ⊢
      split at hfresh
      · rw [if_pos ‹_›]
        exact h.hashed s.logtagCaches[j] hmem hfresh
      · rw [if_neg ‹_›]
        exact h.hashed s.logtagCaches[j] hmem hfresh
    · rw [List.length_modify]
      exact h.current other j hj

/-! Runs -/

/-- What callers promise: the length of the tag, and a map that tells tags
apart. -/
def Given : LogOp T → Prop
  | .enabled _ tag tagLen _ => tagLen = tag.length
  | .enableTagMapCache mapTags _ => DistinctIds mapTags
  | _ => True

/-- The specification that is current behind a call. -/
def specAfter (op : LogOp T) (s : LogState T) : LogSpec :=
  match op with
  | .changeVerboseLevel _ direction value =>
      { s.logSpec with verboseLevel := min 10 (max 0 (changedLevel direction value s.logSpec.verboseLevel)) }
  | .changeLogspec _ (some str) => (logSpecInit str s.logSpec.verboseLevel).getD s.logSpec
  | _ => s.logSpec

/-- Why a call does not come back; one that changes the specification reports
it as a message. -/
def Stop (op : LogOp T) (s : LogState T) (e : Halt) : Prop :=
  match op with
  | .enabled _ tag _ _ => Stops s tag e
  | .changeVerboseLevel _ direction value =>
      (e = .overflow ∧ (changedLevel direction value s.logSpec.verboseLevel < gintMin ∨
        gintMax < changedLevel direction value s.logSpec.verboseLevel)) ∨
      Stops { s with logSpec := specAfter op s } coreInfo e
  | .changeLogspec _ _ =>
      Stops { s with logSpec := specAfter op s } coreInfo e ∨ Stops { s with logSpec := specAfter op s } coreError e
  | .enableTagMapCache _ _ => e = .assertion ∧ s.logMapTag.isSome = true
  | _ => False

def Right (op : LogOp T) (s : LogState T) (r : Bool) (t : LogState T) : Prop :=
  t.logSpec = specAfter op s ∧
    ∀ thread tag tagLen level, op = .enabled thread tag tagLen level → Decides s thread tag level r

theorem clamp_eq (level : Int) :
    (if 10 < (if level < 0 then 0 else level) then 10 else if level < 0 then 0 else level) =
      min 10 (max 0 level) := by
  split
  · split at *
    · omega
    · omega
  · split at *
    · omega
    · omega

theorem changeVerboseLevel_spec (h : Inv s) (thread : T) (direction value : Int) :
    (∃ e, changeVerboseLevel thread direction value s = .error e ∧
        Stop (.changeVerboseLevel thread direction value) s e) ∨
      ∃ t, changeVerboseLevel thread direction value s = .ok t ∧ Inv t ∧
        t.logSpec = specAfter (.changeVerboseLevel thread direction value) s := by
  by_cases hrange : changedLevel direction value s.logSpec.verboseLevel < gintMin ∨
      gintMax < changedLevel direction value s.logSpec.verboseLevel
  · exact .inl ⟨.overflow, by rw [changeVerboseLevel, if_pos hrange], .inl ⟨rfl, hrange⟩⟩
  · simp only [changeVerboseLevel, hrange, ↓reduceIte, clamp_eq]
    by_cases hother : s.logSpec.verboseLevel ≠
        min 10 (max 0 (changedLevel direction value s.logSpec.verboseLevel))
    · rw [if_pos hother]
      rcases log_spec (clearCaches_inv h (specAfter (.changeVerboseLevel thread direction value) s)) thread
        coreInfo 0 with ⟨e, he, hstop⟩ | ⟨t, ht, hinv, hspec⟩
      · exact .inl ⟨e, he, .inr (stops_cleared hstop)⟩
      · exact .inr ⟨t, ht, hinv, hspec⟩
    · have hsame : specAfter (.changeVerboseLevel thread direction value) s = s.logSpec := by
        rw [specAfter, ← not_ne_iff.mp hother]
      rw [if_neg hother, ← not_ne_iff.mp hother, hsame]
      exact .inr ⟨s, rfl, h, rfl⟩

theorem changeLogspec_spec (h : Inv s) (thread : T) (newLogSpecStr : Option (List UInt8)) :
    (∃ e, changeLogspec thread newLogSpecStr s = .error e ∧ Stop (.changeLogspec thread newLogSpecStr) s e) ∨
      ∃ r t, changeLogspec thread newLogSpecStr s = .ok (r, t) ∧ Inv t ∧
        t.logSpec = specAfter (.changeLogspec thread newLogSpecStr) s := by
  cases newLogSpecStr with
  | none => exact .inr ⟨true, s, rfl, h, rfl⟩
  | some str =>
      cases hparse : logSpecInit str s.logSpec.verboseLevel with
      | some newSpec =>
          have hafter : specAfter (.changeLogspec thread (some str)) s = newSpec := by
            rw [specAfter, hparse, Option.getD_some]
          rcases log_spec (clearCaches_inv h newSpec) thread coreInfo 0 with ⟨e, he, hstop⟩ | ⟨t, ht, hinv, hspec⟩
          · refine .inl ⟨e, ?_, .inl ?_⟩
            · simp only [changeLogspec, hparse, he, Except.map]
            · rw [hafter]
              exact stops_cleared hstop
          · refine .inr ⟨true, t, ?_, hinv, hspec.trans hafter.symm⟩
            simp only [changeLogspec, hparse, ht, Except.map]
      | none =>
          have hafter : specAfter (.changeLogspec thread (some str)) s = s.logSpec := by
            rw [specAfter, hparse, Option.getD_none]
          rcases log_spec h thread coreError 0 with ⟨e, he, hstop⟩ | ⟨t, ht, hinv, hspec⟩
          · refine .inl ⟨e, ?_, .inr ?_⟩
            · simp only [changeLogspec, hparse, he, Except.map]
            · rw [hafter]
              exact hstop
          · refine .inr ⟨false, t, ?_, hinv, hspec.trans hafter.symm⟩
            simp only [changeLogspec, hparse, ht, Except.map]

theorem init_inv (spec : LogSpec) : Inv ({ logSpec := spec } : LogState T) := by
  refine ⟨fun _ hlc => ?_, fun _ hmap => ?_, fun _ hmap => ?_, fun _ _ hi => ?_⟩
  · cases hlc
  · cases hmap
  · cases hmap
  · cases hi

variable [DecidableEq T]

theorem grabCache_inv (h : Inv s) (thread : T) : Inv (grabCache thread s) := by
  have hlength : ∀ other i, Function.update s.currentLogtagCache thread
      (some (s.logtagCaches.findIdx fun lc => !lc.used)) other = some i →
      i = s.logtagCaches.findIdx (fun lc => !lc.used) ∨ i < s.logtagCaches.length := by
    intro other i hi
    by_cases hsame : other = thread
    · rw [hsame, Function.update_self] at hi
      exact .inl (Option.some.inj hi).symm
    · rw [Function.update_of_ne hsame] at hi
      exact .inr (h.current other i hi)
  cases hfound : s.logtagCaches[s.logtagCaches.findIdx fun lc => !lc.used]? with
  | some lc =>
      obtain ⟨hin, hlc⟩ := List.getElem?_eq_some_iff.mp hfound
      simp only [grabCache, hfound]
      refine ⟨fun other hother hfresh => ?_, h.mapped, h.distinct, fun other i hi => ?_⟩
      · rcases List.mem_or_eq_of_mem_set hother with hmem | rfl
        · exact h.hashed other hmem hfresh
        · exact h.hashed lc (hlc ▸ List.getElem_mem hin) hfresh
      · rw [List.length_set]
        rcases hlength other i hi with rfl | hlt
        · exact hin
        · exact hlt
  | none =>
      have hend : s.logtagCaches.findIdx (fun lc => !lc.used) ≤ s.logtagCaches.length := List.findIdx_le_length
      simp only [grabCache, hfound]
      refine ⟨fun other hother hfresh => ?_, h.mapped, h.distinct, fun other i hi => ?_⟩
      · rcases List.mem_append.mp hother with hmem | hnew
        · exact h.hashed other hmem hfresh
        · obtain rfl := List.mem_singleton.mp hnew
          exact Memo.agrees_empty _ _
      · rw [List.length_append, List.length_singleton]
        rcases hlength other i hi with rfl | hlt
        · omega
        · omega

theorem step_spec (h : Inv s) (op : LogOp T) (hgiven : Given op) :
    (∃ e, step op s = .error e ∧ Stop op s e) ∨
      ∃ r t, step op s = .ok (r, t) ∧ Inv t ∧ Right op s r t := by
  cases op with
  | enabled thread tag tagLen level =>
      have hlen : tagLen = tag.length := hgiven
      subst hlen
      rcases enabledLen_spec h thread tag level with hstop | ⟨r, t, hr, ht, hspec, hdecides⟩
      · exact .inl hstop
      · refine .inr ⟨r, t, hr, ht, hspec, fun thread' tag' tagLen' level' hop => ?_⟩
        cases hop
        exact hdecides
  | changeVerboseLevel thread direction value =>
      rcases changeVerboseLevel_spec h thread direction value with ⟨e, he, hstop⟩ | ⟨t, ht, hinv, hspec⟩
      · exact .inl ⟨e, by rw [step, he]; rfl, hstop⟩
      · exact .inr ⟨true, t, by rw [step, ht]; rfl, hinv, hspec, fun _ _ _ _ hop => by cases hop⟩
  | changeLogspec thread newLogSpecStr =>
      rcases changeLogspec_spec h thread newLogSpecStr with hstop | ⟨r, t, ht, hinv, hspec⟩
      · exact .inl hstop
      · exact .inr ⟨r, t, ht, hinv, hspec, fun _ _ _ _ hop => by cases hop⟩
  | grabCache thread =>
      exact .inr ⟨true, grabCache thread s, rfl, grabCache_inv h thread, rfl, fun _ _ _ _ hop => by cases hop⟩
  | releaseCache thread =>
      refine .inr ⟨true, releaseCache thread s, rfl, releaseCache_inv h thread, ?_, fun _ _ _ _ hop => by cases hop⟩
      rw [releaseCache]
      split
      · rfl
      · rfl
  | enableTagMapCache mapTags maxTag =>
      by_cases hmapped : s.logMapTag.isSome = true
      · exact .inl ⟨.assertion, by rw [step, enableTagMapCache, if_pos hmapped]; rfl, rfl, hmapped⟩
      · refine .inr ⟨true, _, by rw [step, enableTagMapCache, if_neg hmapped]; rfl,
          enableTagMapCache_inv h hgiven maxTag, rfl, fun _ _ _ _ hop => by cases hop⟩

/-- Whatever queries and changes came before, a query is decided by the
specification as it is, but for a thread without a cache. -/
theorem log_decision (spec : LogSpec) (ops : List (LogOp T)) (hgiven : ∀ op ∈ ops, Given op) :
    Run.Always step Stop Right ops ({ logSpec := spec } : LogState T) :=
  Run.always_induct (fun op _ h hop => step_spec h op hop) ops (init_inv spec)
    (Run.meets_true step ops _ fun op hop _ => hgiven op hop)

/-- The tag "core.info" is the only one with an ID. -/
def mapCoreInfo (tag : Tag) (_ : Nat) : Int := if tag = coreInfo then 0 else -1

theorem mapCoreInfo_distinct : DistinctIds mapCoreInfo := by
  intro a b hsame hsome
  by_cases ha : a = coreInfo
  · by_cases hb : b = coreInfo
    · rw [ha, hb]
    · rw [mapCoreInfo, mapCoreInfo, if_pos ha, if_neg hb] at hsame
      exact absurd hsame (by decide)
  · rw [mapCoreInfo, if_neg ha] at hsome
    exact absurd rfl hsome

/-- A thread with a cache, a map, the specification "core.*:5" and queries of
a tag with an ID and of one without. -/
theorem log_decision_mapped :
    Run.Always step Stop Right
      [.grabCache 0, .enableTagMapCache mapCoreInfo 1,
        .changeLogspec 0 (some [0x63, 0x6f, 0x72, 0x65, 0x2e, 0x2a, 0x3a, 0x35]),
        .enabled 0 coreInfo 9 5, .enabled 0 coreError 10 6, .changeVerboseLevel 0 1 2, .enabled 1 coreError 10 6]
      ({ logSpec := { verboseLevel := 3 } } : LogState Nat) := by
  apply log_decision
  intro op hop
  simp only [List.mem_cons, List.not_mem_nil, or_false] at hop
  rcases hop with rfl | rfl | rfl | rfl | rfl | rfl | rfl
  · trivial
  · exact mapCoreInfo_distinct
  · trivial
  · rfl
  · rfl
  · trivial
  · rfl

/-- A thread without a cache, with the specification "core.*:5", and a
verbosity that does not fit in its byte, of "core.info:256". -/
theorem log_decision_differs :
    (¬∀ (ops : List (LogOp Nat)) (rs : List Bool) (s t : LogState Nat) (tag : Tag) (level : Int) (r : Bool),
      (∀ op ∈ ops, Given op) → Run.run step ops { logSpec := { verboseLevel := 3 } } = .ok (rs, s) →
        s.logMapTag = none → enabledLen 0 tag tag.length level s = .ok (r, t) →
          r = decide (level ≤ logSpecEval s.logSpec tag)) ∧
    ¬∀ (ops : List (LogOp Nat)) (rs : List Bool) (s t : LogState Nat) (tag : Tag) (level : Int) (r : Bool),
      (∀ op ∈ ops, Given op) → Run.run step ops { logSpec := { verboseLevel := 3 } } = .ok (rs, s) →
        s.currentLogtagCache 0 ≠ none → enabledLen 0 tag tag.length level s = .ok (r, t) →
          r = decide (level ≤ logSpecEval s.logSpec tag) := by
  refine ⟨fun h => ?_, fun h => ?_⟩
  · have hanswer := h [.changeLogspec 0 (some [0x63, 0x6f, 0x72, 0x65, 0x2e, 0x2a, 0x3a, 0x35])] _ _ _ coreInfo 5 _
      (fun op hop => by rw [List.mem_singleton.mp hop]; trivial) rfl rfl rfl
    exact absurd hanswer (by decide)
  · have hanswer := h [.grabCache 0, .enableTagMapCache mapCoreInfo 1,
        .changeLogspec 0 (some (coreInfo ++ [0x3a, 0x32, 0x35, 0x36]))] _ _ _ coreInfo 5 _ ?_ rfl ?_ rfl
    · exact absurd hanswer (by decide)
    · intro op hop
      simp only [List.mem_cons, List.not_mem_nil, or_false] at hop
      rcases hop with rfl | rfl | rfl
      · trivial
      · exact mapCoreInfo_distinct
      · trivial
    · exact Option.some_ne_none 0

end Libzorpll.LogDecision
