import Libzorpll.LogRace

/-! The caches never answer with a specification that was replaced before the
query began. -/

namespace Libzorpll.LogFresh

open LogSpec LogCache LogDecision LogRace Versions

variable {T : Type}

/-- The numbers of the specifications for which the caches and the bytes of
the array have been cleared. -/
structure Cleared where
  cache : Nat → Nat
  byte : Nat → Nat

def FreshHash (history : List LogSpec) (since : Nat) (table : Tag → Int) : Prop :=
  Fresh (· + 1) logSpecEval history since table

/-- What a thread relies on where it is. -/
def PcOk (c : Cleared) (s : Sys T) (t : T) : Pc → Prop
  | .idle | .stopped | .parsed _ => True
  | .entered q | .mapping q | .unmapped q | .hashing q =>
      q.since ≤ s.settled ∧ q.cached = (s.currentLogtagCache t).isSome
  | .plain q => q.since ≤ s.settled ∧ (q.cached = false ∨ Since s.history q.since fun spec => spec.items = [])
  | .emptying q i => q.since ≤ s.settled ∧ s.currentLogtagCache t = some i ∧
      ∀ lc, s.logtagCaches[i]? = some lc → lc.tagHash = fun _ => 0
  | .looking q i => q.since ≤ s.settled ∧ s.currentLogtagCache t = some i ∧
      ∀ lc, s.logtagCaches[i]? = some lc → FreshHash s.history q.since lc.tagHash
  | .missing q i => q.since ≤ s.settled ∧ s.currentLogtagCache t = some i
  | .storing q i verbose => s.currentLogtagCache t = some i ∧
      (Since s.history q.since fun spec => verbose = logSpecEval spec q.tag) ∧
      ∀ lc, s.logtagCaches[i]? = some lc → lc.emptyHash = false →
        Since s.history (c.cache i) fun spec => verbose = logSpecEval spec q.tag
  | .levelRead _ _ old => old = s.logSpec.verboseLevel ∧ s.settled + 1 = s.history.length
  | .levelSet old v => v + 1 = s.history.length ∧ (old = s.logSpec.verboseLevel → v ≤ s.settled)
  | .waiting v => v < s.history.length
  | .clearing v i => v < s.history.length ∧ ∀ k < i, v ≤ c.cache k
  | .wiping v j => v < s.history.length ∧ (∀ k < s.logtagCaches.length, v ≤ c.cache k) ∧ ∀ k < j, v ≤ c.byte k

/-- What is remembered is of a specification that is not older than the last
one for which it has been cleared. -/
structure Shared (c : Cleared) (s : Sys T) : Prop where
  last : s.history.getLast? = some s.logSpec
  settled : s.settled < s.history.length
  cacheOld : ∀ k, c.cache k < s.history.length
  byteOld : ∀ k, c.byte k < s.history.length
  cacheSettled : ∀ k < s.logtagCaches.length, s.settled ≤ c.cache k
  byteSettled : ∀ k < s.logMappedTagsVerb.length, s.settled ≤ c.byte k
  hashed : ∀ i lc, s.logtagCaches[i]? = some lc → lc.emptyHash = false → FreshHash s.history (c.cache i) lc.tagHash
  mapped : ∀ tag ndx verb, tagNdx s tag = some ndx → 0 ≤ ndx → s.logMappedTagsVerb[ndx.toNat]? = some verb →
    verb ≠ 0 → Since s.history (c.byte ndx.toNat) fun spec => verb = verbByte (logSpecEval spec tag)
  distinct : ∀ mapTag, s.logMapTag = some mapTag → DistinctIds mapTag
  used : ∀ t i, s.currentLogtagCache t = some i → s.pc t ≠ .stopped →
    ∃ lc, s.logtagCaches[i]? = some lc ∧ lc.used = true
  exclusive : ∀ t u i, s.currentLogtagCache t = some i → s.currentLogtagCache u = some i → s.pc t ≠ .stopped →
    s.pc u ≠ .stopped → t = u
  apart : ∀ t u, (s.pc t).levels = true → u ≠ t → (s.pc u).changes = false
  pending : s.settled + 1 = s.history.length ∨ ∃ t, (s.pc t).version = some (s.history.length - 1)

structure Inv (c : Cleared) (s : Sys T) : Prop where
  shared : Shared c s
  pcs : ∀ t, PcOk c s t (s.pc t)

variable {c c' : Cleared} {s s' : Sys T} {t u : T} {pc : Pc}

/-- What others may do to what a thread relies on. -/
structure Later (c : Cleared) (s : Sys T) (c' : Cleared) (s' : Sys T) (u : T) : Prop where
  history : s.history <+: s'.history
  settled : s.settled ≤ s'.settled
  current : s'.currentLogtagCache u = s.currentLogtagCache u
  length : s.logtagCaches.length ≤ s'.logtagCaches.length
  cache : ∀ k, c.cache k ≤ c'.cache k
  byte : ∀ k, c.byte k ≤ c'.byte k
  fresh : ∀ k, s.logtagCaches.length ≤ k → k < s'.logtagCaches.length → s.history.length ≤ c'.cache k + 1
  own : ∀ i, s.currentLogtagCache u = some i → ∀ lc', s'.logtagCaches[i]? = some lc' →
    ∃ lc, s.logtagCaches[i]? = some lc ∧ lc'.tagHash = lc.tagHash ∧
      (lc'.emptyHash = false → lc.emptyHash = false ∧ c'.cache i = c.cache i)
  level : (s.pc u).levels = true → s'.logSpec = s.logSpec ∧ s'.history = s.history

theorem PcOk.later (h : PcOk c s u (s.pc u)) (hlater : Later c s c' s' u) (hnow : s'.settled < s'.history.length) :
    PcOk c' s' u (s.pc u) := by
  obtain ⟨hhistory, hsettled, hcurrent, hlength, hcache, hbyte, hfresh, hown, hlevel⟩ := hlater
  have hle := hhistory.length_le
  generalize s.pc u = pc at h hlevel
  cases pc with
  | idle | stopped | parsed => trivial
  | entered q | mapping q | unmapped q | hashing q => exact ⟨Nat.le_trans h.1 hsettled, hcurrent ▸ h.2⟩
  | plain q => exact ⟨Nat.le_trans h.1 hsettled, h.2.imp_right fun hitems => hitems.later hhistory⟩
  | emptying q i =>
      obtain ⟨hsince, hmine, hempty⟩ := h
      refine ⟨Nat.le_trans hsince hsettled, hcurrent.trans hmine, fun lc' hlc' => ?_⟩
      obtain ⟨lc, hlc, hhash, -⟩ := hown i hmine lc' hlc'
      exact hhash.trans (hempty lc hlc)
  | looking q i =>
      obtain ⟨hsince, hmine, hfound⟩ := h
      refine ⟨Nat.le_trans hsince hsettled, hcurrent.trans hmine, fun lc' hlc' => ?_⟩
      obtain ⟨lc, hlc, hhash, -⟩ := hown i hmine lc' hlc'
      rw [hhash]
      exact Fresh.later (hfound lc hlc) hhistory
  | missing q i => exact ⟨Nat.le_trans h.1 hsettled, hcurrent.trans h.2⟩
  | storing q i verbose =>
      obtain ⟨hmine, hvalue, hkept⟩ := h
      refine ⟨hcurrent.trans hmine, hvalue.later hhistory, fun lc' hlc' hempty => ?_⟩
      obtain ⟨lc, hlc, -, hsame⟩ := hown i hmine lc' hlc'
      obtain ⟨hempty, hcleared⟩ := hsame hempty
      rw [hcleared]
      exact (hkept lc hlc hempty).later hhistory
  | levelRead direction value old =>
      obtain ⟨hspec, hsame⟩ := hlevel rfl
      obtain ⟨hold, hlast⟩ := h
      refine ⟨hold.trans (congrArg LogSpec.verboseLevel hspec.symm), ?_⟩
      rw [hsame] at hnow ⊢
      omega
  | levelSet old v =>
      obtain ⟨hspec, hsame⟩ := hlevel rfl
      refine ⟨hsame.symm ▸ h.1, fun hold => Nat.le_trans (h.2 ?_) hsettled⟩
      rw [hold, hspec]
  | waiting v => exact Nat.lt_of_lt_of_le h hle
  | clearing v i => exact ⟨Nat.lt_of_lt_of_le h.1 hle, fun k hk => Nat.le_trans (h.2 k hk) (hcache k)⟩
  | wiping v j =>
      obtain ⟨hv, hcaches, hbytes⟩ := h
      refine ⟨Nat.lt_of_lt_of_le hv hle, fun k hk => ?_, fun k hk => Nat.le_trans (hbytes k hk) (hbyte k)⟩
      by_cases hold : k < s.logtagCaches.length
      · exact Nat.le_trans (hcaches k hold) (hcache k)
      · have hnew := hfresh k (Nat.le_of_not_lt hold) hk
        omega

theorem Later.refl (c : Cleared) (s : Sys T) (u : T) : Later c s c s u where
  history := List.prefix_refl _
  settled := Nat.le_refl _
  current := rfl
  length := Nat.le_refl _
  cache _ := Nat.le_refl _
  byte _ := Nat.le_refl _
  fresh _ hk hk' := absurd hk' (Nat.not_lt_of_le hk)
  own _ _ lc hlc := ⟨lc, hlc, rfl, fun hempty => ⟨hempty, rfl⟩⟩
  level _ := ⟨rfl, rfl⟩

/-! What the threads share -/

/-- The cache of a thread is nobody else's. -/
theorem Shared.others (h : Shared c s) {i k : Nat} (hmine : s.currentLogtagCache t = some i) (hpc : s.pc t ≠ .stopped)
    (hu : u ≠ t) (hpcu : s.pc u ≠ .stopped) (htheirs : s.currentLogtagCache u = some k) : k ≠ i := by
  rintro rfl
  exact hu (h.exclusive u t k htheirs hmine hpcu hpc)

theorem later_setCache {i : Nat} (lc : LogTagCache) (hothers : ∀ k, s.currentLogtagCache u = some k → k ≠ i) :
    Later c s c (setCache i lc s) u where
  history := List.prefix_refl _
  settled := Nat.le_refl _
  current := rfl
  length := by
    change _ ≤ (s.logtagCaches.set i lc).length
    rw [List.length_set]
  cache _ := Nat.le_refl _
  byte _ := Nat.le_refl _
  fresh k hk hk' := by
    change k < (s.logtagCaches.set i lc).length at hk'
    rw [List.length_set] at hk'
    omega
  own k hk lc' hlc' := by
    change (s.logtagCaches.set i lc)[k]? = some lc' at hlc'
    rw [List.getElem?_set_ne (Ne.symm (hothers k hk))] at hlc'
    exact ⟨lc', hlc', rfl, fun hempty => ⟨hempty, rfl⟩⟩
  level _ := ⟨rfl, rfl⟩

theorem Shared.setCache (h : Shared c s) {i : Nat} {lc lc' : LogTagCache} (hcache : s.logtagCaches[i]? = some lc)
    (hused : lc'.used = lc.used) (hfresh : lc'.emptyHash = false → FreshHash s.history (c.cache i) lc'.tagHash) :
    Shared c (setCache i lc' s) := by
  have hlength : (s.logtagCaches.set i lc').length = s.logtagCaches.length := List.length_set
  have hi := (List.getElem?_eq_some_iff.mp hcache).1
  refine ⟨h.last, h.settled, h.cacheOld, h.byteOld, fun k hk => h.cacheSettled k (hlength ▸ hk), h.byteSettled,
    fun k lck hk hempty => ?_, h.mapped, h.distinct, fun u k hu hne => ?_, h.exclusive, h.apart, h.pending⟩
  · change (s.logtagCaches.set i lc')[k]? = some lck at hk
    by_cases hik : i = k
    · subst hik
      rw [List.getElem?_set_self hi] at hk
      cases hk
      exact hfresh hempty
    · rw [List.getElem?_set_ne hik] at hk
      exact h.hashed k lck hk hempty
  · obtain ⟨lck, hk, husedk⟩ := h.used u k hu hne
    change ∃ lc'', (s.logtagCaches.set i lc')[k]? = some lc'' ∧ _
    by_cases hik : i = k
    · subst hik
      rw [hcache] at hk
      cases hk
      exact ⟨lc', List.getElem?_set_self hi, hused.trans husedk⟩
    · exact ⟨lck, (List.getElem?_set_ne hik).trans hk, husedk⟩

/-- A cache that a change has cleared. -/
def Cleared.clearCache (c : Cleared) (i v : Nat) : Cleared :=
  { c with cache := Function.update c.cache i (max (c.cache i) v) }

def Cleared.clearByte (c : Cleared) (j v : Nat) : Cleared :=
  { c with byte := Function.update c.byte j (max (c.byte j) v) }

theorem le_update_max (f : Nat → Nat) (i v k : Nat) : f k ≤ Function.update f i (max (f i) v) k := by
  by_cases hk : k = i
  · rw [hk, Function.update_self]
    exact Nat.le_max_left _ _
  · rw [Function.update_of_ne hk]

theorem update_max_lt {f : Nat → Nat} {i v n : Nat} (hf : ∀ k, f k < n) (hv : v < n) (k : Nat) :
    Function.update f i (max (f i) v) k < n := by
  by_cases hk : k = i
  · rw [hk, Function.update_self]
    exact Nat.max_lt.mpr ⟨hf i, hv⟩
  · rw [Function.update_of_ne hk]
    exact hf k

theorem Shared.clearCache (h : Shared c s) {i v : Nat} {lc : LogTagCache} (hcache : s.logtagCaches[i]? = some lc)
    (hv : v < s.history.length) :
    Shared (c.clearCache i v) (LogRace.setCache i { lc with emptyHash := true } s) ∧
      ∀ u, Later c s (c.clearCache i v) (LogRace.setCache i { lc with emptyHash := true } s) u := by
  have hlength : (s.logtagCaches.set i { lc with emptyHash := true }).length = s.logtagCaches.length := List.length_set
  have hi := (List.getElem?_eq_some_iff.mp hcache).1
  have hset : Shared c (LogRace.setCache i { lc with emptyHash := true } s) := h.setCache hcache rfl Bool.noConfusion
  refine ⟨⟨h.last, h.settled, update_max_lt h.cacheOld hv, h.byteOld,
    fun k hk => Nat.le_trans (h.cacheSettled k (hlength ▸ hk)) (le_update_max _ _ _ _), h.byteSettled,
    fun k lck hk hempty => ?_, h.mapped, h.distinct, hset.used, h.exclusive, h.apart, h.pending⟩, fun u => ?_⟩
  · have hkept := hset.hashed k lck hk hempty
    change FreshHash _ (Function.update c.cache i _ k) _
    by_cases hik : k = i
    · change (s.logtagCaches.set i { lc with emptyHash := true })[k]? = some lck at hk
      rw [hik, List.getElem?_set_self hi] at hk
      cases hk
      cases hempty
    · rw [Function.update_of_ne hik]
      exact hkept
  · refine ⟨List.prefix_refl _, Nat.le_refl _, rfl, Nat.le_of_eq hlength.symm, le_update_max _ _ _,
      fun _ => Nat.le_refl _, fun k hk hk' => ?_, fun k hk lc' hlc' => ?_, fun _ => ⟨rfl, rfl⟩⟩
    · change k < (s.logtagCaches.set i { lc with emptyHash := true }).length at hk'
      omega
    · change (s.logtagCaches.set i { lc with emptyHash := true })[k]? = some lc' at hlc'
      change ∃ lc, _ ∧ _ ∧ (_ → _ ∧ Function.update c.cache i _ k = _)
      by_cases hik : k = i
      · rw [hik, List.getElem?_set_self hi] at hlc'
        cases hlc'
        exact ⟨lc, hik ▸ hcache, rfl, Bool.noConfusion⟩
      · rw [List.getElem?_set_ne (Ne.symm hik)] at hlc'
        exact ⟨lc', hlc', rfl, fun hempty => ⟨hempty, Function.update_of_ne hik _ _⟩⟩

theorem later_bytes {verbs : List UInt8} {byte : Nat → Nat} (hbyte : ∀ k, c.byte k ≤ byte k) (u : T) :
    Later c s { c with byte := byte } { s with logMappedTagsVerb := verbs } u where
  history := List.prefix_refl _
  settled := Nat.le_refl _
  current := rfl
  length := Nat.le_refl _
  cache _ := Nat.le_refl _
  byte := hbyte
  fresh _ hk hk' := absurd hk' (Nat.not_lt_of_le hk)
  own _ _ lc hlc := ⟨lc, hlc, rfl, fun hempty => ⟨hempty, rfl⟩⟩
  level _ := ⟨rfl, rfl⟩

theorem tagNdx_distinct (h : Shared c s) {tag other : Tag} {ndx ndx' : Int} (htag : tagNdx s tag = some ndx)
    (hother : tagNdx s other = some ndx') (hlow : 0 ≤ ndx) (hlow' : 0 ≤ ndx') (hsame : ndx.toNat = ndx'.toNat) :
    tag = other := by
  rw [tagNdx] at htag hother
  cases hmap : s.logMapTag with
  | none =>
      rw [hmap] at htag
      cases htag
  | some mapTag =>
      simp only [hmap] at htag hother
      by_cases hnot : mapTag tag tag.length = -1
      · rw [if_pos hnot] at htag
        cases htag
      · rw [if_neg hnot] at htag
        by_cases hnot' : mapTag other other.length = -1
        · rw [if_pos hnot'] at hother
          cases hother
        · rw [if_neg hnot'] at hother
          cases htag
          cases hother
          exact h.distinct mapTag hmap tag other (by omega) hnot

/-- A byte of the specification as it is now. -/
theorem Shared.setByte (h : Shared c s) {tag : Tag} {ndx : Int} (hndx : tagNdx s tag = some ndx) (hlow : 0 ≤ ndx) :
    Shared c { s with
      logMappedTagsVerb := s.logMappedTagsVerb.set ndx.toNat (verbByte (logSpecEval s.logSpec tag)) } := by
  have hlength : (s.logMappedTagsVerb.set ndx.toNat (verbByte (logSpecEval s.logSpec tag))).length =
      s.logMappedTagsVerb.length := List.length_set
  refine ⟨h.last, h.settled, h.cacheOld, h.byteOld, h.cacheSettled, fun k hk => h.byteSettled k (hlength ▸ hk),
    h.hashed, fun other ndx' verb hother hlow' hread hverb => ?_, h.distinct, h.used, h.exclusive, h.apart, h.pending⟩
  change (s.logMappedTagsVerb.set ndx.toNat _)[ndx'.toNat]? = some verb at hread
  by_cases hsame : ndx.toNat = ndx'.toNat
  · have htags := tagNdx_distinct h hndx hother hlow hlow' hsame
    rw [← hsame, List.getElem?_set_self'] at hread
    obtain ⟨_, -, hread⟩ := Option.map_eq_some_iff.mp hread
    refine Since.now h.last (h.byteOld _) ?_
    rw [← hread, htags]
    rfl
  · rw [List.getElem?_set_ne hsame] at hread
    exact h.mapped other ndx' verb hother hlow' hread hverb

theorem Shared.clearByte (h : Shared c s) {j v : Nat} (hv : v < s.history.length) :
    Shared (c.clearByte j v) { s with logMappedTagsVerb := s.logMappedTagsVerb.set j 0 } := by
  have hlength : (s.logMappedTagsVerb.set j 0).length = s.logMappedTagsVerb.length := List.length_set
  refine ⟨h.last, h.settled, h.cacheOld, update_max_lt h.byteOld hv, h.cacheSettled,
    fun k hk => Nat.le_trans (h.byteSettled k (hlength ▸ hk)) (le_update_max _ _ _ _), h.hashed,
    fun tag ndx verb hndx hlow hread hverb => ?_, h.distinct, h.used, h.exclusive, h.apart, h.pending⟩
  change (s.logMappedTagsVerb.set j 0)[ndx.toNat]? = some verb at hread
  change Since _ (Function.update c.byte j _ ndx.toNat) _
  by_cases hsame : j = ndx.toNat
  · rw [← hsame, List.getElem?_set_self'] at hread
    obtain ⟨_, -, rfl⟩ := Option.map_eq_some_iff.mp hread
    exact absurd rfl hverb
  · rw [List.getElem?_set_ne hsame] at hread
    rw [Function.update_of_ne (Ne.symm hsame)]
    exact h.mapped tag ndx verb hndx hlow hread hverb

/-- A change has cleared all caches and bytes. -/
theorem Shared.settle (h : Shared c s) {v : Nat} (hv : v < s.history.length)
    (hcaches : ∀ k < s.logtagCaches.length, v ≤ c.cache k) (hbytes : ∀ k < s.logMappedTagsVerb.length, v ≤ c.byte k) :
    Shared c { s with settled := max s.settled v } := by
  have hmax : max s.settled v < s.history.length := Nat.max_lt.mpr ⟨h.settled, hv⟩
  refine ⟨h.last, hmax, h.cacheOld, h.byteOld, fun k hk => Nat.max_le.mpr ⟨h.cacheSettled k hk, hcaches k hk⟩,
    fun k hk => Nat.max_le.mpr ⟨h.byteSettled k hk, hbytes k hk⟩, h.hashed, h.mapped, h.distinct, h.used, h.exclusive,
    h.apart, h.pending.imp_left fun hlast => ?_⟩
  change max s.settled v + 1 = s.history.length
  omega

theorem later_settle (v : Nat) (u : T) : Later c s c { s with settled := max s.settled v } u where
  history := List.prefix_refl _
  settled := Nat.le_max_left _ _
  current := rfl
  length := Nat.le_refl _
  cache _ := Nat.le_refl _
  byte _ := Nat.le_refl _
  fresh _ hk hk' := absurd hk' (Nat.not_lt_of_le hk)
  own _ _ lc hlc := ⟨lc, hlc, rfl, fun hempty => ⟨hempty, rfl⟩⟩
  level _ := ⟨rfl, rfl⟩

theorem later_setSpec (spec : LogSpec) (hlevel : (s.pc u).levels = false) : Later c s c (setSpec spec s) u where
  history := List.prefix_append _ _
  settled := Nat.le_refl _
  current := rfl
  length := Nat.le_refl _
  cache _ := Nat.le_refl _
  byte _ := Nat.le_refl _
  fresh _ hk hk' := absurd hk' (Nat.not_lt_of_le hk)
  own _ _ lc hlc := ⟨lc, hlc, rfl, fun hempty => ⟨hempty, rfl⟩⟩
  level hyes := Bool.noConfusion (hlevel.symm.trans hyes)

theorem Shared.setSpec (h : Shared c s) (spec : LogSpec) (hversion : (s.pc t).version = some s.history.length) :
    Shared c (setSpec spec s) := by
  have hlength : (s.history ++ [spec]).length = s.history.length + 1 := by
    rw [List.length_append, List.length_singleton]
  have hmore : s.history <+: s.history ++ [spec] := List.prefix_append _ _
  have hold {n : Nat} (hn : n < s.history.length) : n < (s.history ++ [spec]).length := by omega
  refine ⟨List.getLast?_concat, hold h.settled, fun k => hold (h.cacheOld k), fun k => hold (h.byteOld k),
    h.cacheSettled, h.byteSettled, fun i lc hlc hempty => Fresh.later (h.hashed i lc hlc hempty) hmore,
    fun tag ndx verb hndx hlow hread hverb => (h.mapped tag ndx verb hndx hlow hread hverb).later hmore, h.distinct,
    h.used, h.exclusive, h.apart, .inr ⟨t, hversion.trans (congrArg some ?_)⟩⟩
  change s.history.length = (s.history ++ [spec]).length - 1
  omega

theorem releaseCache_others (t : T) {s : LogState T} {k : Nat} (hk : ∀ i, s.currentLogtagCache t = some i → k ≠ i) :
    (releaseCache t s).logtagCaches[k]? = s.logtagCaches[k]? := by
  rw [releaseCache]
  cases hcurrent : s.currentLogtagCache t with
  | none => rfl
  | some i => exact List.getElem?_modify_ne _ _ (Ne.symm (hk i hcurrent))

theorem releaseCache_cache (t : T) (s : LogState T) (k : Nat) (lc : LogTagCache)
    (hlc : (releaseCache t s).logtagCaches[k]? = some lc) :
    ∃ lc', s.logtagCaches[k]? = some lc' ∧ lc.tagHash = lc'.tagHash ∧ lc.emptyHash = lc'.emptyHash := by
  rw [releaseCache] at hlc
  cases hcurrent : s.currentLogtagCache t with
  | none =>
      rw [hcurrent] at hlc
      exact ⟨lc, hlc, rfl, rfl⟩
  | some i =>
      rw [hcurrent] at hlc
      change (s.logtagCaches.modify i _)[k]? = some lc at hlc
      rw [List.getElem?_modify] at hlc
      obtain ⟨lc', hlc', rfl⟩ := Option.map_eq_some_iff.mp hlc
      refine ⟨lc', hlc', ?_, ?_⟩
      · split
        · rfl
        · rfl
      · split
        · rfl
        · rfl

theorem releaseCache_rest (t : T) (s : LogState T) :
    (releaseCache t s).logSpec = s.logSpec ∧ (releaseCache t s).currentLogtagCache = s.currentLogtagCache ∧
      (releaseCache t s).logMapTag = s.logMapTag ∧ (releaseCache t s).logMappedTagsVerb = s.logMappedTagsVerb ∧
      (releaseCache t s).logtagCaches.length = s.logtagCaches.length := by
  rw [releaseCache]
  cases hcurrent : s.currentLogtagCache t with
  | none => exact ⟨rfl, rfl, rfl, rfl, rfl⟩
  | some i => exact ⟨rfl, rfl, rfl, rfl, List.length_modify _ _ _⟩

theorem tagNdx_congr (h : s'.logMapTag = s.logMapTag) (tag : Tag) : tagNdx s' tag = tagNdx s tag := by
  rw [tagNdx, tagNdx, h]

theorem tagNdx_release (t : T) (s : Sys T) (tag : Tag) :
    tagNdx { s with toLogState := releaseCache t s.toLogState } tag = tagNdx s tag :=
  tagNdx_congr (releaseCache_rest t s.toLogState).2.2.1 tag

theorem Shared.release (h : Shared c s) (hothers : ∀ u i, s.pc u ≠ .stopped → s.currentLogtagCache u = some i →
    ∀ k, s.currentLogtagCache t = some k → i ≠ k) :
    Shared c { s with toLogState := releaseCache t s.toLogState } := by
  obtain ⟨hspec, hcurrent, hmap, hverbs, hlength⟩ := releaseCache_rest t s.toLogState
  refine ⟨h.last.trans (congrArg some hspec.symm), h.settled, h.cacheOld, h.byteOld,
    fun k hk => h.cacheSettled k (hlength ▸ hk), fun k hk => h.byteSettled k (hverbs ▸ hk),
    fun i lc hlc hempty => ?_, fun tag ndx verb hndx hlow hread hverb => ?_, fun mapTag hmapTag => ?_,
    fun u i hu hne => ?_, fun u w i hu hw hneu hnew => ?_, h.apart, h.pending⟩
  · obtain ⟨lc', hlc', hhash, hsame⟩ := releaseCache_cache t s.toLogState i lc hlc
    rw [hhash]
    exact h.hashed i lc' hlc' (hsame.symm.trans hempty)
  · rw [tagNdx_release] at hndx
    change (releaseCache t s.toLogState).logMappedTagsVerb[ndx.toNat]? = some verb at hread
    rw [hverbs] at hread
    exact h.mapped tag ndx verb hndx hlow hread hverb
  · exact h.distinct mapTag (hmap.symm.trans hmapTag)
  · change (releaseCache t s.toLogState).currentLogtagCache u = some i at hu
    rw [hcurrent] at hu
    change ∃ lc, (releaseCache t s.toLogState).logtagCaches[i]? = some lc ∧ _
    rw [releaseCache_others t (hothers u i hne hu)]
    exact h.used u i hu hne
  · change (releaseCache t s.toLogState).currentLogtagCache u = some i at hu
    change (releaseCache t s.toLogState).currentLogtagCache w = some i at hw
    rw [hcurrent] at hu hw
    exact h.exclusive u w i hu hw hneu hnew

theorem later_release (t u : T) : Later c s c { s with toLogState := releaseCache t s.toLogState } u := by
  obtain ⟨hspec, hcurrent, -, -, hlength⟩ := releaseCache_rest t s.toLogState
  refine ⟨List.prefix_refl _, Nat.le_refl _, congrFun hcurrent u, Nat.le_of_eq hlength.symm, fun _ => Nat.le_refl _,
    fun _ => Nat.le_refl _, fun k hk hk' => ?_, fun i _ lc hlc => ?_, fun _ => ⟨hspec, rfl⟩⟩
  · change k < (releaseCache t s.toLogState).logtagCaches.length at hk'
    omega
  · obtain ⟨lc', hlc', hhash, hsame⟩ := releaseCache_cache t s.toLogState i lc hlc
    exact ⟨lc', hlc', hhash, fun hempty => ⟨hsame.symm.trans hempty, rfl⟩⟩

/-- There is another cache, or one of a thread that has stopped is used
again. -/
theorem grabCache_caches [DecidableEq T] (t : T) (s : LogState T) :
    ∃ i, (grabCache t s).currentLogtagCache = Function.update s.currentLogtagCache t (some i) ∧
      ((∃ lc, s.logtagCaches[i]? = some lc ∧ lc.used = false ∧
          (grabCache t s).logtagCaches = s.logtagCaches.set i { lc with used := true }) ∨
        (i = s.logtagCaches.length ∧ (grabCache t s).logtagCaches = s.logtagCaches ++ [{ used := true }])) := by
  refine ⟨s.logtagCaches.findIdx fun lc => !lc.used, rfl, ?_⟩
  rw [grabCache]
  cases hfind : s.logtagCaches[s.logtagCaches.findIdx fun lc => !lc.used]? with
  | some lc =>
      obtain ⟨hlt, hlc⟩ := List.getElem?_eq_some_iff.mp hfind
      have hunused := List.findIdx_getElem (w := hlt)
      rw [hlc] at hunused
      exact .inl ⟨lc, rfl, Bool.not_eq_true' _ ▸ hunused, rfl⟩
  | none =>
      have hall := List.getElem?_eq_none_iff.mp hfind
      exact .inr ⟨Nat.le_antisymm List.findIdx_le_length hall, rfl⟩

variable [DecidableEq T]

/-- A thread goes on, with a change of what it shares with the others. -/
theorem Inv.next (h : Inv c s) (hshared : Shared c' (setPc t pc s'))
    (hpcs : s'.pc = s.pc) (hlater : ∀ u, u ≠ t → s.pc u ≠ .stopped → Later c s c' s' u)
    (hown : PcOk c' s' t pc) : Inv c' (setPc t pc s') := by
  refine ⟨hshared, fun u => ?_⟩
  change PcOk c' s' u (Function.update s'.pc t pc u)
  by_cases hut : u = t
  · rw [hut, Function.update_self]
    exact hown
  · rw [Function.update_of_ne hut, hpcs]
    by_cases hstopped : s.pc u = .stopped
    · rw [hstopped]
      trivial
    · exact (h.pcs u).later (hlater u hut hstopped) hshared.settled

/-! The place of a thread -/

theorem Shared.setPc (h : Shared c s) (hpc : s.pc t ≠ .stopped)
    (hlevels : pc.levels = true → ∀ u, u ≠ t → (s.pc u).changes = false)
    (hchanges : pc.changes = true → ∀ u, u ≠ t → (s.pc u).levels = false)
    (hversion : s.settled + 1 = s.history.length ∨ (s.pc t).version ≠ some (s.history.length - 1) ∨
      pc.version = some (s.history.length - 1)) : Shared c (setPc t pc s) where
  last := h.last
  settled := h.settled
  cacheOld := h.cacheOld
  byteOld := h.byteOld
  cacheSettled := h.cacheSettled
  byteSettled := h.byteSettled
  hashed := h.hashed
  mapped := h.mapped
  distinct := h.distinct
  used u i hu hne := by
    by_cases hut : u = t
    · rw [hut] at hu
      exact h.used t i hu hpc
    · refine h.used u i hu ?_
      intro hstopped
      exact hne ((Function.update_of_ne hut _ _).trans hstopped)
  exclusive u w i hu hw hneu hnew := by
    have hstays {x : T} (hx : (LogRace.setPc t pc s).pc x ≠ .stopped) : s.pc x ≠ .stopped := by
      by_cases hxt : x = t
      · rwa [hxt]
      · intro hstopped
        exact hx ((Function.update_of_ne hxt _ _).trans hstopped)
    exact h.exclusive u w i hu hw (hstays hneu) (hstays hnew)
  apart u w hu hwu := by
    change (Function.update s.pc t pc u).levels = true at hu
    change (Function.update s.pc t pc w).changes = false
    by_cases hut : u = t
    · rw [hut, Function.update_self] at hu
      rw [hut] at hwu
      rw [Function.update_of_ne hwu]
      exact hlevels hu w hwu
    · rw [Function.update_of_ne hut] at hu
      by_cases hwt : w = t
      · rw [hwt, Function.update_self]
        refine Bool.eq_false_of_not_eq_true fun hchanging => ?_
        exact Bool.noConfusion ((hchanges hchanging u hut).symm.trans hu)
      · rw [Function.update_of_ne hwt]
        exact h.apart u w hu hwu
  pending := by
    change s.settled + 1 = s.history.length ∨ ∃ u, (Function.update s.pc t pc u).version = some (s.history.length - 1)
    rcases hversion with hlast | hversion
    · exact .inl hlast
    · refine h.pending.imp_right fun ⟨u, hu⟩ => ?_
      by_cases hut : u = t
      · refine ⟨t, ?_⟩
        rw [Function.update_self]
        exact hversion.resolve_left fun hne => hne (hut ▸ hu)
      · exact ⟨u, by rw [Function.update_of_ne hut]; exact hu⟩

/-- The thread is at work, and does not change what is logged. -/
def Pc.asks : Pc → Bool
  | .stopped => false
  | pc => !pc.changes

omit [DecidableEq T] in
theorem asks_facts (h : Pc.asks pc = true) : pc ≠ .stopped ∧ pc.version = none ∧ pc.changes = false ∧ pc.levels = false := by
  cases pc with
  | stopped | parsed | levelRead | levelSet | waiting | clearing | wiping => cases h
  | _ => exact ⟨by rintro ⟨⟩, rfl, rfl, rfl⟩

theorem Shared.asks (h : Shared c s) {pc' : Pc} (hpc : s.pc t = pc) (hfrom : Pc.asks pc = true)
    (hto : Pc.asks pc' = true) : Shared c (LogRace.setPc t pc' s) := by
  obtain ⟨hlive, hversion, -, -⟩ := asks_facts hfrom
  obtain ⟨-, -, hchanges, hlevels⟩ := asks_facts hto
  refine h.setPc (hpc ▸ hlive) (fun hlevel => ?_) (fun hchange => ?_) (.inr (.inl ?_))
  · exact Bool.noConfusion (hlevels.symm.trans hlevel)
  · exact Bool.noConfusion (hchanges.symm.trans hchange)
  · rw [hpc, hversion]
    exact (Option.some_ne_none _).symm

omit [DecidableEq T] in
/-- While a thread changes what is logged, others do not change the verbosity. -/
theorem Shared.alone (h : Shared c s) (hpc : s.pc t = pc) (hchanges : pc.changes = true) (u : T) (hu : u ≠ t) :
    (s.pc u).levels = false := by
  refine Bool.eq_false_of_not_eq_true fun hlevels => ?_
  have hnot := h.apart u t hlevels (Ne.symm hu)
  rw [hpc] at hnot
  exact Bool.noConfusion (hnot.symm.trans hchanges)

/-- A thread goes on with a change. -/
theorem Shared.moves (h : Shared c s) {pc' : Pc} (hpc : s.pc t = pc) (hfrom : pc.changes = true)
    (hlevels : pc'.levels = true → pc.levels = true)
    (hversion : s.settled + 1 = s.history.length ∨ pc'.version = pc.version) :
    Shared c (LogRace.setPc t pc' s) := by
  refine h.setPc ?_ (fun hlevel u hu => ?_) (fun _ => h.alone hpc hfrom) (hversion.imp_right fun hsame => ?_)
  · rw [hpc]
    rintro rfl
    cases hfrom
  · refine h.apart t u ?_ hu
    rw [hpc]
    exact hlevels hlevel
  · rw [hpc, hsame]
    exact (Decidable.em (pc.version = some (s.history.length - 1))).symm

/-! The steps -/

/-- A thread that starts gets a cache that nobody else has. -/
theorem inv_started (h : Inv c s) (hpc : s.pc t = .idle) :
    ∃ c', Inv c' { s with toLogState := grabCache t s.toLogState } := by
  obtain ⟨i, hcurrent, hcaches⟩ := grabCache_caches t s.toLogState
  have hfree : ∀ u, s.currentLogtagCache u = some i → s.pc u = .stopped := by
    intro u hu
    by_contra hne
    obtain ⟨lc, hlc, hused⟩ := h.shared.used u i hu hne
    rcases hcaches with ⟨lc', hlc', hunused, -⟩ | ⟨hi, -⟩
    · rw [hlc] at hlc'
      cases hlc'
      exact Bool.noConfusion (hunused.symm.trans hused)
    · exact absurd (List.getElem?_eq_some_iff.mp hlc).1 (Nat.not_lt_of_le (Nat.le_of_eq hi.symm))
  have hothers {k : Nat} (hk : k ≠ i) : (grabCache t s.toLogState).logtagCaches[k]? = s.logtagCaches[k]? := by
    rcases hcaches with ⟨lc, -, -, hset⟩ | ⟨hi, hset⟩
    · rw [hset, List.getElem?_set_ne (Ne.symm hk)]
    · rw [hset]
      by_cases hlt : k < s.logtagCaches.length
      · rw [List.getElem?_append_left hlt]
      · have hlonger : (s.logtagCaches ++ [({ used := true } : LogTagCache)]).length ≤ k := by
          rw [List.length_append, List.length_singleton]
          omega
        rw [List.getElem?_eq_none (Nat.le_of_not_lt hlt), List.getElem?_eq_none hlonger]
  obtain ⟨n, hn, hsettled, hnew, hmine, hlength⟩ : ∃ n, n < s.history.length ∧ s.settled ≤ n ∧
      (c.cache i ≤ n ∧ (s.logtagCaches.length ≤ i → s.history.length ≤ n + 1)) ∧
      (∃ lc, (grabCache t s.toLogState).logtagCaches[i]? = some lc ∧ lc.used = true ∧
        (lc.emptyHash = false → FreshHash s.history n lc.tagHash)) ∧
      s.logtagCaches.length ≤ (grabCache t s.toLogState).logtagCaches.length ∧
      ∀ k < (grabCache t s.toLogState).logtagCaches.length, k = i ∨ k < s.logtagCaches.length := by
    have hold := h.shared.cacheOld i
    have hnow := h.shared.settled
    rcases hcaches with ⟨lc, hlc, -, hset⟩ | ⟨hi, hset⟩
    · obtain ⟨hlt, -⟩ := List.getElem?_eq_some_iff.mp hlc
      refine ⟨c.cache i, hold, h.shared.cacheSettled i hlt, ⟨Nat.le_refl _, fun hge => absurd hlt (Nat.not_lt_of_le hge)⟩,
        ⟨{ lc with used := true }, ?_, rfl, h.shared.hashed i lc hlc⟩, ?_, fun k hk => .inr ?_⟩
      · rw [hset, List.getElem?_set_self hlt]
      · rw [hset, List.length_set]
      · rwa [hset, List.length_set] at hk
    · refine ⟨s.history.length - 1, by omega, by omega, ⟨by omega, fun _ => by omega⟩, ⟨{ used := true }, ?_, rfl,
        fun _ => fresh_empty _ _ _ _⟩, ?_, fun k hk => ?_⟩
      · rw [hset, hi, List.getElem?_concat_length]
      · rw [hset, List.length_append]
        exact Nat.le_add_right _ _
      · rw [hset, List.length_append, List.length_singleton] at hk
        omega
  have hcurrent' (u : T) (hu : u ≠ t) : (grabCache t s.toLogState).currentLogtagCache u = s.currentLogtagCache u := by
    rw [hcurrent, Function.update_of_ne hu]
  have hself : (grabCache t s.toLogState).currentLogtagCache t = some i := by rw [hcurrent, Function.update_self]
  have hcleared {k : Nat} (hk : k ≠ i) : Function.update c.cache i n k = c.cache k := Function.update_of_ne hk _ _
  have hcleared_self : Function.update c.cache i n i = n := Function.update_self _ _ _
  refine ⟨{ c with cache := Function.update c.cache i n }, ⟨⟨h.shared.last, h.shared.settled, fun k => ?_,
    h.shared.byteOld, fun k hk => ?_, h.shared.byteSettled, fun k lc hlc hempty => ?_, h.shared.mapped,
    h.shared.distinct, fun u k hu hne => ?_, fun u w k hu hw hneu hnew => ?_, h.shared.apart, h.shared.pending⟩,
    fun u => ?_⟩⟩
  · change Function.update c.cache i n k < _
    by_cases hk : k = i
    · rw [hk, hcleared_self]
      exact hn
    · rw [hcleared hk]
      exact h.shared.cacheOld k
  · change _ ≤ Function.update c.cache i n k
    by_cases hki : k = i
    · rw [hki, hcleared_self]
      exact hsettled
    · rw [hcleared hki]
      exact h.shared.cacheSettled k ((hlength.2 k hk).resolve_left hki)
  · change FreshHash _ (Function.update c.cache i n k) _
    change (grabCache t s.toLogState).logtagCaches[k]? = some lc at hlc
    by_cases hk : k = i
    · obtain ⟨lci, hlci, -, hfresh⟩ := hmine
      rw [hk, hlci] at hlc
      cases hlc
      rw [hk, hcleared_self]
      exact hfresh hempty
    · rw [hothers hk] at hlc
      rw [hcleared hk]
      exact h.shared.hashed k lc hlc hempty
  · change (grabCache t s.toLogState).currentLogtagCache u = some k at hu
    change ∃ lc, (grabCache t s.toLogState).logtagCaches[k]? = some lc ∧ _
    by_cases hut : u = t
    · rw [hut, hself] at hu
      cases hu
      obtain ⟨lci, hlci, hused, -⟩ := hmine
      exact ⟨lci, hlci, hused⟩
    · rw [hcurrent' u hut] at hu
      have hki : k ≠ i := fun heq => hne (hfree u (heq ▸ hu))
      rw [hothers hki]
      exact h.shared.used u k hu hne
  · change (grabCache t s.toLogState).currentLogtagCache u = some k at hu
    change (grabCache t s.toLogState).currentLogtagCache w = some k at hw
    by_cases hut : u = t
    · by_cases hwt : w = t
      · rw [hut, hwt]
      · rw [hut, hself] at hu
        cases hu
        rw [hcurrent' w hwt] at hw
        exact absurd (hfree w hw) hnew
    · by_cases hwt : w = t
      · rw [hwt, hself] at hw
        cases hw
        rw [hcurrent' u hut] at hu
        exact absurd (hfree u hu) hneu
      · rw [hcurrent' u hut] at hu
        rw [hcurrent' w hwt] at hw
        exact h.shared.exclusive u w k hu hw hneu hnew
  · change PcOk _ _ u (s.pc u)
    by_cases hut : u = t
    · rw [hut, hpc]
      trivial
    · by_cases hstopped : s.pc u = .stopped
      · rw [hstopped]
        trivial
      · refine (h.pcs u).later ⟨List.prefix_refl _, Nat.le_refl _, hcurrent' u hut, hlength.1, fun k => ?_,
          fun _ => Nat.le_refl _, fun k hk hk' => ?_, fun k hk lc hlc => ?_, fun _ => ⟨rfl, rfl⟩⟩ h.shared.settled
        · change _ ≤ Function.update c.cache i n k
          by_cases hki : k = i
          · rw [hki, hcleared_self]
            exact hnew.1
          · rw [hcleared hki]
        · change _ ≤ Function.update c.cache i n k + 1
          have hki := (hlength.2 k hk').resolve_right (Nat.not_lt_of_le hk)
          rw [hki, hcleared_self]
          exact hnew.2 (hki ▸ hk)
        · have hki : k ≠ i := fun heq => hstopped (hfree u (heq ▸ hk))
          change (grabCache t s.toLogState).logtagCaches[k]? = some lc at hlc
          rw [hothers hki] at hlc
          exact ⟨lc, hlc, rfl, fun hempty => ⟨hempty, hcleared hki⟩⟩

/-- A thread that stops leaves its cache to another one. -/
theorem inv_stopped (h : Inv c s) (hpc : s.pc t = .idle) :
    Inv c (setPc t .stopped { s with toLogState := releaseCache t s.toLogState }) := by
  have hlive : s.pc t ≠ .stopped := by rw [hpc]; rintro ⟨⟩
  refine h.next ?_ rfl (fun u _ _ => later_release t u) trivial
  have hasks : Shared c (setPc t .stopped s) := by
    refine h.shared.setPc hlive (fun hno => by cases hno) (fun hno => by cases hno) (.inr (.inl ?_))
    rw [hpc]
    rintro ⟨⟩
  refine hasks.release fun u i hu hcurrent k hk => ?_
  rintro rfl
  have hut : u ≠ t := by
    rintro rfl
    exact hu (Function.update_self _ _ _)
  have hlive' : s.pc u ≠ .stopped := fun hstopped => hu ((Function.update_of_ne hut _ _).trans hstopped)
  exact hut (h.shared.exclusive u t i hcurrent hk hlive' hlive)

/-- A step of a query that leaves alone what is shared. -/
theorem inv_asks (h : Inv c s) {pc' : Pc} (hpc : s.pc t = pc) (hfrom : Pc.asks pc = true) (hto : Pc.asks pc' = true)
    (hown : PcOk c s t pc') : Inv c (setPc t pc' s) :=
  h.next (h.shared.asks hpc hfrom hto) rfl (fun u _ _ => Later.refl c s u) hown

/-- The query of a thread ends, or goes on, with a new table in its cache. -/
theorem inv_caches (h : Inv c s) {pc' : Pc} {i : Nat} {lc lc' : LogTagCache} (hpc : s.pc t = pc)
    (hfrom : Pc.asks pc = true) (hto : Pc.asks pc' = true) (hmine : s.currentLogtagCache t = some i)
    (hcache : s.logtagCaches[i]? = some lc) (hused : lc'.used = lc.used)
    (hfresh : lc'.emptyHash = false → FreshHash s.history (c.cache i) lc'.tagHash)
    (hown : PcOk c (setCache i lc' s) t pc') : Inv c (setPc t pc' (setCache i lc' s)) := by
  have hshared := h.shared.setCache hcache hused hfresh
  have hlive : s.pc t ≠ .stopped := by
    rw [hpc]
    exact (asks_facts hfrom).1
  refine h.next (hshared.asks hpc hfrom hto) rfl (fun u hu hliveu => ?_) hown
  exact later_setCache lc' fun k hk => h.shared.others hmine hlive hu hliveu hk

/-- A thread sets another specification. -/
theorem inv_changeSpec (h : Inv c s) {pc' : Pc} (hpc : s.pc t = pc) (hfrom : pc.changes = true) (hfirst : pc.version = none)
    (spec : LogSpec) (hnew : pc'.version = some s.history.length) (hlevels : pc'.levels = true → pc.levels = true)
    (hown : PcOk c (setSpec spec s) t pc') : Inv c (setPc t pc' (setSpec spec s)) := by
  have hothers := h.shared.alone hpc hfrom
  refine h.next ?_ rfl (fun u hu _ => later_setSpec spec (hothers u hu)) hown
  have hshared : Shared c (setPc t pc' s) := by
    refine h.shared.setPc ?_ (fun hlevel u hu => ?_) (fun _ => hothers) (.inr (.inl ?_))
    · rw [hpc]
      rintro rfl
      cases hfrom
    · refine h.shared.apart t u ?_ hu
      rw [hpc]
      exact hlevels hlevel
    · rw [hpc, hfirst]
      exact (Option.some_ne_none _).symm
  have hself : (setPc t pc' s).pc t = pc' := Function.update_self _ _ _
  exact hshared.setSpec spec (by rw [hself]; exact hnew)

theorem inv_step {a : T × Action} {new : List (Event T)} (h : Inv c s) (hapart : Apart a s) (hstep : Step a s new s') :
    ∃ c', Inv c' s' := by
  have hplace (t : T) {pc : Pc} (hpc : s.pc t = pc) : PcOk c s t pc := hpc ▸ h.pcs t
  cases hstep with
  | enter hpc hsince hcached => exact ⟨c, inv_asks h hpc rfl rfl ⟨Nat.le_of_eq hsince, hcached⟩⟩
  | noItems hpc hitems =>
      obtain ⟨hsince, -⟩ := hplace _ hpc
      refine ⟨c, inv_asks h hpc rfl rfl ⟨hsince, .inr ?_⟩⟩
      exact Since.now h.shared.last (Nat.lt_of_le_of_lt hsince h.shared.settled) hitems
  | items hpc hitems =>
      have hown := hplace _ hpc
      refine ⟨c, inv_asks h hpc rfl ?_ ?_⟩
      · split
        · rfl
        · rfl
      · split
        · exact hown
        · exact hown
  | plain hpc | mapped hpc | hit hpc => exact ⟨c, inv_asks h hpc rfl rfl trivial⟩
  | notMapped hpc =>
      obtain ⟨hsince, hcached⟩ := hplace _ hpc
      exact ⟨c, inv_asks h hpc rfl rfl ⟨hsince, hcached⟩⟩
  | map hpc hndx hlow hhigh =>
      have hshared := h.shared.setByte hndx hlow
      exact ⟨c, h.next (hshared.asks hpc rfl rfl) rfl (fun u _ _ => later_bytes (fun _ => Nat.le_refl _) u) trivial⟩
  | noCache hpc hcurrent =>
      obtain ⟨hsince, hcached⟩ := hplace _ hpc
      refine ⟨c, inv_asks h hpc rfl rfl ⟨hsince, .inl ?_⟩⟩
      rw [hcached, hcurrent]
      rfl
  | empty hpc hcurrent hcache hempty =>
      obtain ⟨hsince, -⟩ := hplace _ hpc
      refine ⟨c, inv_caches h hpc rfl rfl hcurrent hcache rfl (fun hno => ?_) ⟨hsince, hcurrent, fun lc' hlc' => ?_⟩⟩
      · exact Bool.noConfusion (hempty.symm.trans hno)
      · have hi := (List.getElem?_eq_some_iff.mp hcache).1
        have hsame := (List.getElem?_set_self hi).symm.trans hlc'
        cases hsame
        rfl
  | emptied hpc hcache =>
      obtain ⟨hsince, hmine, hempty⟩ := hplace _ hpc
      have hfresh (since : Nat) : FreshHash s.history since fun _ => 0 := fresh_empty _ _ _ _
      refine ⟨c, inv_caches h hpc rfl rfl hmine hcache rfl (fun _ => ?_) ⟨hsince, hmine, fun lc' hlc' => ?_⟩⟩
      · rw [hempty _ hcache]
        exact hfresh _
      · have hi := (List.getElem?_eq_some_iff.mp hcache).1
        have hsame := (List.getElem?_set_self hi).symm.trans hlc'
        cases hsame
        rw [hempty _ hcache]
        exact hfresh _
  | notEmpty hpc hcurrent hcache hempty =>
      obtain ⟨hsince, -⟩ := hplace _ hpc
      refine ⟨c, inv_asks h hpc rfl rfl ⟨hsince, hcurrent, fun lc' hlc' => ?_⟩⟩
      rw [hcache] at hlc'
      cases hlc'
      have hi := (List.getElem?_eq_some_iff.mp hcache).1
      exact Fresh.mono (h.shared.hashed _ _ hcache hempty) (Nat.le_trans hsince (h.shared.cacheSettled _ hi))
  | miss hpc =>
      obtain ⟨hsince, hmine, -⟩ := hplace _ hpc
      exact ⟨c, inv_asks h hpc rfl rfl ⟨hsince, hmine⟩⟩
  | eval hpc =>
      obtain ⟨hsince, hmine⟩ := hplace _ hpc
      refine ⟨c, inv_asks h hpc rfl rfl ⟨hmine, ?_, fun _ _ _ => ?_⟩⟩
      · exact Since.now h.shared.last (Nat.lt_of_le_of_lt hsince h.shared.settled) rfl
      · exact Since.now h.shared.last (h.shared.cacheOld _) rfl
  | store hpc hcache =>
      obtain ⟨hmine, -, hkept⟩ := hplace _ hpc
      refine ⟨c, inv_caches h hpc rfl rfl hmine hcache rfl (fun hempty => ?_) trivial⟩
      exact Fresh.store (h.shared.hashed _ _ hcache hempty) (hkept _ hcache hempty)
  | parse str newSpec hpc =>
      refine ⟨c, h.next (h.shared.setPc ?_ (fun hno => by cases hno) (fun _ u _ => hapart u) (.inr (.inl ?_))) rfl
        (fun u _ _ => Later.refl c s u) trivial⟩
      · rw [hpc]
        rintro ⟨⟩
      · rw [hpc]
        rintro ⟨⟩
  | install hpc =>
      refine ⟨c, inv_changeSpec h hpc rfl rfl _ rfl (fun hno => by cases hno) ?_⟩
      change s.history.length < (s.history ++ [_]).length
      rw [List.length_append, List.length_singleton]
      exact Nat.lt_succ_self _
  | readLevel direction value hpc =>
      have hnobody (u : T) : (s.pc u).version = none := by
        have hnot := hapart u
        cases hu : s.pc u with
        | parsed | levelRead | levelSet | waiting | clearing | wiping =>
            rw [hu] at hnot
            cases hnot
        | _ => rfl
      have hsettled : s.settled + 1 = s.history.length := by
        refine h.shared.pending.resolve_right ?_
        rintro ⟨u, hu⟩
        rw [hnobody u] at hu
        cases hu
      have hlevels (u : T) : (s.pc u).levels = false := by
        have hnot := hapart u
        cases hu : s.pc u with
        | levelRead | levelSet =>
            rw [hu] at hnot
            cases hnot
        | _ => rfl
      refine ⟨c, h.next (h.shared.setPc ?_ (fun _ u _ => hapart u) (fun _ u _ => hlevels u) (.inl hsettled)) rfl
        (fun u _ _ => Later.refl c s u) ⟨rfl, hsettled⟩⟩
      rw [hpc]
      rintro ⟨⟩
  | setLevel hpc hfits hnew =>
      obtain ⟨hold, hsettled⟩ := hplace _ hpc
      refine ⟨c, inv_changeSpec h hpc rfl rfl _ rfl (fun _ => rfl) ⟨?_, fun hsame => ?_⟩⟩
      · change s.history.length + 1 = (s.history ++ [_]).length
        rw [List.length_append, List.length_singleton]
      · exact absurd (hsame.symm.trans hold) hnew
  | sameLevel hpc hfits hnew =>
      obtain ⟨hold, hsettled⟩ := hplace _ hpc
      refine ⟨c, h.next (h.shared.moves hpc rfl (fun _ => rfl) (.inl hsettled)) rfl (fun u _ _ => Later.refl c s u)
        ⟨?_, fun _ => ?_⟩⟩
      · omega
      · omega
  | changed hpc hold =>
      obtain ⟨hv, -⟩ := hplace _ hpc
      refine ⟨c, h.next (h.shared.moves hpc rfl (fun hno => by cases hno) (.inr rfl)) rfl
        (fun u _ _ => Later.refl c s u) ?_⟩
      change _ < s.history.length
      omega
  | unchanged hpc hold =>
      obtain ⟨hv, hsettled⟩ := hplace _ hpc
      have hsettled := hsettled hold
      have hnow := h.shared.settled
      refine ⟨c, h.next (h.shared.moves hpc rfl (fun hno => by cases hno) (.inl ?_)) rfl (fun u _ _ => Later.refl c s u)
        trivial⟩
      omega
  | lockCaches hpc hfree =>
      have hv := hplace _ hpc
      refine ⟨c, h.next (h.shared.moves hpc rfl (fun hno => by cases hno) (.inr rfl)) rfl
        (fun u _ _ => Later.refl c s u) ⟨hv, fun k hk => absurd hk (Nat.not_lt_zero k)⟩⟩
  | @clear _ t v i lc hpc hcache =>
      obtain ⟨hv, hcleared⟩ := hplace _ hpc
      obtain ⟨hshared, hlater⟩ := h.shared.clearCache hcache hv
      refine ⟨c.clearCache i v, h.next (hshared.moves hpc rfl (fun hno => by cases hno) (.inr rfl)) rfl
        (fun u _ _ => hlater u) ⟨hv, fun k hk => ?_⟩⟩
      change v ≤ Function.update c.cache i _ k
      by_cases hki : k = i
      · rw [hki, Function.update_self]
        exact Nat.le_max_right _ _
      · rw [Function.update_of_ne hki]
        exact hcleared k (by omega)
  | unlockCaches hpc hend =>
      obtain ⟨hv, hcleared⟩ := hplace _ hpc
      have hlength := List.getElem?_eq_none_iff.mp hend
      refine ⟨c, h.next (h.shared.moves hpc rfl (fun hno => by cases hno) (.inr rfl)) rfl
        (fun u _ _ => Later.refl c s u) ⟨hv, fun k hk => hcleared k (by omega), fun k hk => absurd hk (Nat.not_lt_zero k)⟩⟩
  | @wipe _ t v j hpc hj =>
      obtain ⟨hv, hcaches, hbytes⟩ := hplace _ hpc
      refine ⟨c.clearByte j v, h.next ((h.shared.clearByte hv).moves hpc rfl (fun hno => by cases hno) (.inr rfl)) rfl
        (fun u _ _ => later_bytes (le_update_max _ _ _) u) ⟨hv, hcaches, fun k hk => ?_⟩⟩
      change v ≤ Function.update c.byte j _ k
      by_cases hkj : k = j
      · rw [hkj, Function.update_self]
        exact Nat.le_max_right _ _
      · rw [Function.update_of_ne hkj]
        exact hbytes k (by omega)
  | @cleared _ t v j hpc hj =>
      obtain ⟨hv, hcaches, hbytes⟩ := hplace _ hpc
      have hshared := h.shared.settle hv hcaches fun k hk => hbytes k (by omega)
      refine ⟨c, h.next (hshared.setPc ?_ (fun hno => by cases hno) (fun hno => by cases hno) ?_) rfl
        (fun u _ _ => later_settle v u) trivial⟩
      · change s.pc t ≠ _
        rw [hpc]
        rintro ⟨⟩
      · change max s.settled v + 1 = s.history.length ∨ (s.pc t).version ≠ some (s.history.length - 1) ∨ _
        have hnow := h.shared.settled
        by_cases hlast : v + 1 = s.history.length
        · exact .inl (by omega)
        · refine .inr (.inl ?_)
          rw [hpc]
          intro hsame
          have hsame := Option.some.inj hsame
          omega
  | started hpc hcurrent hfree => exact inv_started h hpc
  | stopped hpc hfree => exact ⟨c, inv_stopped h hpc⟩

omit [DecidableEq T] in
theorem inv_initial (spec : LogSpec) {mapTag : Option (Tag → Nat → Int)} (maxTag : Nat)
    (hdistinct : ∀ f, mapTag = some f → DistinctIds f) :
    Inv ⟨fun _ => 0, fun _ => 0⟩ (initial T spec mapTag maxTag) := by
  refine ⟨⟨rfl, Nat.one_pos, fun _ => Nat.one_pos, fun _ => Nat.one_pos, fun _ _ => Nat.le_refl 0,
    fun _ _ => Nat.le_refl 0, fun i lc hlc => ?_, fun tag ndx verb _ _ hread hverb => ?_, hdistinct,
    fun _ _ hcurrent => ?_, fun _ _ _ hcurrent => ?_, fun _ _ hlevels => ?_, .inl rfl⟩, fun _ => trivial⟩
  · cases hlc
  · exact absurd (List.eq_of_mem_replicate (List.mem_of_getElem? hread)) hverb
  · cases hcurrent
  · cases hcurrent
  · cases hlevels

/-! The answers -/

/-- The answer of one of the specifications since the query began. A tag with
an ID has only a byte for its verbosity, and the global verbosity decides for
a thread without a cache, and where there was nothing else at first. -/
def Answers (history : List LogSpec) (mapped : Bool) (q : Query) (r : Bool) : Prop :=
  (Since history q.since fun spec => r = decide (q.level ≤ logSpecEval spec q.tag)) ∨
    (mapped = true ∧ Since history q.since fun spec => r = decide (q.level ≤ logSpecEval spec q.tag % 256)) ∨
    ((q.cached = false ∨ Since history q.since fun spec => spec.items = []) ∧
      Since history q.since fun spec => r = decide (q.level ≤ spec.verboseLevel))

omit [DecidableEq T] in
theorem Answers.later {history longer : List LogSpec} {mapped : Bool} {q : Query} {r : Bool}
    (h : Answers history mapped q r) (hmore : history <+: longer) : Answers longer mapped q r := by
  rcases h with heval | ⟨hmapped, heval⟩ | ⟨hplain, heval⟩
  · exact .inl (heval.later hmore)
  · exact .inr (.inl ⟨hmapped, heval.later hmore⟩)
  · exact .inr (.inr ⟨hplain.imp_right fun hitems => hitems.later hmore, heval.later hmore⟩)

omit [DecidableEq T] in
theorem verbByte_mod {verbose : Int} (hsome : verbByte verbose ≠ 0) :
    ((verbByte verbose).toNat : Int) - 1 = verbose % 256 := by
  have hnonneg := Int.emod_nonneg verbose (show (256 : Int) ≠ 0 by decide)
  have hlt := Int.emod_lt_of_pos verbose (show (0 : Int) < 256 by decide)
  have hsame : verbByte verbose = verbByte (verbose % 256) := by rw [verbByte, verbByte, Int.emod_emod_of_dvd _ (dvd_refl _)]
  rw [hsame] at hsome ⊢
  exact verbByte_decode ⟨hnonneg, by omega⟩ hsome

theorem history_step {a : T × Action} {new : List (Event T)} (hstep : Step a s new s') :
    s.history <+: s'.history ∧ s'.logMapTag = s.logMapTag ∧ s.settled ≤ s'.settled := by
  cases hstep with
  | install => exact ⟨List.prefix_append _ _, rfl, Nat.le_refl _⟩
  | setLevel => exact ⟨List.prefix_append _ _, rfl, Nat.le_refl _⟩
  | cleared => exact ⟨List.prefix_refl _, rfl, Nat.le_max_left _ _⟩
  | stopped => exact ⟨List.prefix_refl _, (releaseCache_rest _ _).2.2.1, Nat.le_refl _⟩
  | _ => exact ⟨List.prefix_refl _, rfl, Nat.le_refl _⟩

theorem answers_step {a : T × Action} {new : List (Event T)} (h : Inv c s) (hstep : Step a s new s') {q : Query} {r : Bool}
    (hmem : .answered t q r ∈ new) : Answers s.history (tagNdx s q.tag).isSome q r := by
  have hplace (t : T) {pc : Pc} (hpc : s.pc t = pc) : PcOk c s t pc := hpc ▸ h.pcs t
  cases hstep with
  | plain hpc =>
      cases List.mem_singleton.mp hmem
      obtain ⟨hsince, hplain⟩ := hplace _ hpc
      exact .inr (.inr ⟨hplain, Since.now h.shared.last (Nat.lt_of_le_of_lt hsince h.shared.settled) rfl⟩)
  | mapped hpc hndx hlow hread hverb =>
      cases List.mem_singleton.mp hmem
      obtain ⟨hsince, -⟩ := hplace _ hpc
      have hj := (List.getElem?_eq_some_iff.mp hread).1
      refine .inr (.inl ⟨by rw [hndx]; rfl, ?_⟩)
      refine (h.shared.mapped _ _ _ hndx hlow hread hverb).mono (Nat.le_trans hsince (h.shared.byteSettled _ hj)) |>.imp
        fun spec hspec => ?_
      rw [hspec] at hverb ⊢
      rw [verbByte_mod hverb]
  | map hpc =>
      cases List.mem_singleton.mp hmem
      obtain ⟨hsince, -⟩ := hplace _ hpc
      exact .inl (Since.now h.shared.last (Nat.lt_of_le_of_lt hsince h.shared.settled) rfl)
  | hit hpc hcache hhit =>
      cases List.mem_singleton.mp hmem
      obtain ⟨-, -, hfound⟩ := hplace _ hpc
      refine .inl ((hfound _ hcache _ hhit).imp fun spec hspec => ?_)
      rw [hspec, Int.add_sub_cancel]
  | store hpc hcache =>
      cases List.mem_singleton.mp hmem
      obtain ⟨-, hvalue, -⟩ := hplace _ hpc
      exact .inl (hvalue.imp fun spec hspec => by rw [hspec])
  | enter | unchanged | cleared => cases List.mem_singleton.mp hmem
  | _ => exact (List.not_mem_nil hmem).elim

/-- What holds after every run. -/
structure Told (mapTag : Option (Tag → Nat → Int)) (es : List (Event T)) (s : Sys T) : Prop where
  inv : ∃ c, Inv c s
  mapTag : s.logMapTag = mapTag
  answers : ∀ t q r, .answered t q r ∈ es → Answers s.history (tagNdx s q.tag).isSome q r
  changed : ∀ t v, .changed t v ∈ es → v ≤ s.settled
  order : es.Pairwise fun e e' => ∀ u v t q, e = .changed u v → e' = .asked t q → v ≤ q.since

theorem changed_step {a : T × Action} {new : List (Event T)} (h : Inv c s) (hstep : Step a s new s') {v : Nat}
    (hmem : .changed t v ∈ new) : v ≤ s'.settled := by
  cases hstep with
  | unchanged hpc hold =>
      cases List.mem_singleton.mp hmem
      have hplace := h.pcs t
      rw [hpc] at hplace
      exact hplace.2 hold
  | cleared => cases List.mem_singleton.mp hmem; exact Nat.le_max_right _ _
  | enter | plain | mapped | map | hit | store => cases List.mem_singleton.mp hmem
  | _ => exact (List.not_mem_nil hmem).elim

theorem asked_step {a : T × Action} {new : List (Event T)} (hstep : Step a s new s') {q : Query}
    (hmem : .asked t q ∈ new) : new = [.asked t q] ∧ q.since = s.settled := by
  cases hstep with
  | enter hpc hsince => cases List.mem_singleton.mp hmem; exact ⟨rfl, hsince⟩
  | plain | mapped | map | hit | store | unchanged | cleared => cases List.mem_singleton.mp hmem
  | _ => exact (List.not_mem_nil hmem).elim

theorem events_le_one {a : T × Action} {new : List (Event T)} (hstep : Step a s new s') : new.length ≤ 1 := by
  cases hstep with
  | _ => simp

theorem told_run {spec : LogSpec} {mapTag : Option (Tag → Nat → Int)} {maxTag : Nat} {es : List (Event T)}
    (hdistinct : ∀ f, mapTag = some f → DistinctIds f) (h : Run spec mapTag maxTag es s) : Told mapTag es s := by
  refine Trace.Steps.invariant h (Told mapTag) ⟨⟨_, inv_initial spec maxTag hdistinct⟩, rfl,
    fun _ _ _ hmem => (List.not_mem_nil hmem).elim, fun _ _ hmem => (List.not_mem_nil hmem).elim, .nil⟩ ?_
  rintro a es s new s' ⟨⟨c, hinv⟩, hmap, hanswers, hchanged, horder⟩ hapart hstep
  obtain ⟨hmore, hsamemap, hsettled⟩ := history_step hstep
  refine ⟨inv_step hinv hapart hstep, hsamemap.trans hmap, fun t q r hmem => ?_, fun t v hmem => ?_,
    List.pairwise_append.mpr ⟨horder, ?_, fun e he e' he' u v t q hu ht => ?_⟩⟩
  · rw [tagNdx_congr hsamemap]
    rcases List.mem_append.mp hmem with hold | hnew
    · exact (hanswers t q r hold).later hmore
    · exact (answers_step hinv hstep hnew).later hmore
  · rcases List.mem_append.mp hmem with hold | hnew
    · exact Nat.le_trans (hchanged t v hold) hsettled
    · exact changed_step hinv hstep hnew
  · have hshort := events_le_one hstep
    match new, hshort with
    | [], _ => exact .nil
    | [e], _ => exact List.pairwise_singleton _ e
  · subst hu
    subst ht
    rw [(asked_step hstep he').2]
    exact hchanged u v he

end Libzorpll.LogFresh
