import Libzorpll.Registry
import Mathlib.Data.List.Find
import Mathlib.Data.List.Induction

/-! The registry as a map. -/

namespace Libzorpll.RegistryMap

open Registry

variable {V : Type}

/-- The arguments of a call that adds. -/
structure Add (V : Type) where
  name : Name
  type : Int
  value : Option V

def addAll (adds : List (Add V)) (registry : Registry V) : Option (Registry V) :=
  adds.foldlM (fun registry a => registryAdd a.name a.type a.value registry) registry

def lastAdd (adds : List (Add V)) (name : Name) (type : Int) : Option (Add V) :=
  adds.reverse.find? fun a => a.type = type ∧ a.name = name

def lowestType (adds : List (Add V)) (name : Name) : Option Nat :=
  (List.range maxRegistryType).find? fun type => (lastAdd adds name type).isSome

/-- What a map gives after the adds: the last value of the name and type, or
of the lowest type that has the name. -/
def found (adds : List (Add V)) (name : Name) (type : Option Int) : Option V × Option Int :=
  if type = none ∨ type = some 0 then
    match lowestType adds name with
    | some lowest => ((lastAdd adds name lowest).bind Add.value, type.map fun _ => lowest)
    | none => (none, type)
  else ((lastAdd adds name (type.getD 0)).bind Add.value, type)

/-- The add with the name as it is stored. -/
def cut (a : Add V) : Add V := { a with name := strlcpy a.name maxRegistryName }

def entry (a : Add V) : Entry V := ⟨a.type, a.name, a.value⟩

/-- Each table has the last add of each stored name. -/
def Stores (registry : Registry V) (adds : List (Add V)) : Prop :=
  ∀ (i : Nat) (h : i < maxRegistryType) (name : Name),
    registry[i] name = (lastAdd (adds.map cut) name i).map entry

theorem lastAdd_append (adds : List (Add V)) (a : Add V) (name : Name) (type : Int) :
    lastAdd (adds ++ [a]) name type =
      if a.type = type ∧ a.name = name then some a else lastAdd adds name type := by
  rw [lastAdd, List.reverse_append, List.reverse_singleton, List.singleton_append, List.find?_cons]
  by_cases h : a.type = type ∧ a.name = name
  · rw [if_pos h, decide_eq_true h]
  · rw [if_neg h, decide_eq_false h]
    rfl

theorem lastAdd_some {adds : List (Add V)} {name : Name} {type : Int} {a : Add V}
    (h : lastAdd adds name type = some a) : a ∈ adds ∧ a.type = type ∧ a.name = name := by
  have hmem := List.mem_of_find?_eq_some h
  have hmatch := List.find?_some h
  exact ⟨List.mem_reverse.mp hmem, of_decide_eq_true hmatch⟩

theorem lastAdd_of_mem {adds : List (Add V)} {a : Add V} (h : a ∈ adds) :
    ∃ b, lastAdd adds a.name a.type = some b := by
  apply Option.isSome_iff_exists.mp
  rw [lastAdd, List.find?_isSome]
  exact ⟨a, List.mem_reverse.mpr h, decide_eq_true ⟨rfl, rfl⟩⟩

/-! Adding -/

theorem init_stores : Stores (registryInit : Registry V) [] := by
  intro i h name
  rw [registryInit, Vector.getElem_replicate]
  rfl

/-- One add, of a type that has a table or is refused. -/
theorem registryAdd_stores {registry : Registry V} {adds : List (Add V)} (h : Stores registry adds)
    (a : Add V) (htype : a.type ≠ maxRegistryType) :
    ∃ r, registryAdd a.name a.type a.value registry = some r ∧ Stores r (adds ++ [a]) := by
  by_cases hrefused : a.type < 0 ∨ maxRegistryType < a.type
  · refine ⟨registry, by rw [registryAdd, if_pos hrefused], fun i hi name => ?_⟩
    have hother : ¬((cut a).type = (i : Int) ∧ (cut a).name = name) := by
      rintro ⟨hsame, -⟩
      have : a.type = (i : Int) := hsame
      omega
    rw [List.map_append, List.map_singleton, lastAdd_append, if_neg hother, h i hi name]
  · have hin : a.type.toNat < maxRegistryType := by omega
    have hback : (a.type.toNat : Int) = a.type := by omega
    refine ⟨registry.set a.type.toNat (registry[a.type.toNat].insert (entry (cut a))) hin, ?_,
      fun i hi name => ?_⟩
    · rw [registryAdd, if_neg hrefused, dif_pos hin]
      rfl
    · rw [List.map_append, List.map_singleton, lastAdd_append]
      by_cases hi' : a.type.toNat = i
      · subst hi'
        rw [Vector.getElem_set_self, Table.insert]
        by_cases hname : name = (entry (cut a)).name
        · have hmatch : (cut a).type = (a.type.toNat : Int) ∧ (cut a).name = name := ⟨hback.symm, hname.symm⟩
          rw [if_pos hname, if_pos hmatch]
          rfl
        · have hother : ¬((cut a).type = (a.type.toNat : Int) ∧ (cut a).name = name) :=
            fun hmatch => hname hmatch.2.symm
          rw [if_neg hname, if_neg hother, h _ hin name]
      · have hother : ¬((cut a).type = (i : Int) ∧ (cut a).name = name) := by
          rintro ⟨hsame, -⟩
          have : a.type = (i : Int) := hsame
          omega
        rw [Vector.getElem_set_ne hin hi hi', if_neg hother, h i hi name]

theorem addAll_stores {registry : Registry V} {before : List (Add V)} (h : Stores registry before)
    {adds : List (Add V)} (htypes : ∀ a ∈ adds, a.type ≠ maxRegistryType) :
    ∃ r, addAll adds registry = some r ∧ Stores r (before ++ adds) := by
  induction adds generalizing registry before with
  | nil => exact ⟨registry, rfl, (List.append_nil before).symm ▸ h⟩
  | cons a adds ih =>
      obtain ⟨m, hadd, hm⟩ := registryAdd_stores h a (htypes a List.mem_cons_self)
      obtain ⟨r, hall, hr⟩ := ih hm fun b hb => htypes b (List.mem_cons_of_mem _ hb)
      refine ⟨r, ?_, List.append_cons before a adds ▸ hr⟩
      rw [addAll, List.foldlM_cons, hadd]
      exact hall

/-- The type that is one too large is not refused. -/
theorem registryAdd_outside {a : Add V} (htype : a.type = maxRegistryType) (registry : Registry V) :
    registryAdd a.name a.type a.value registry = none := by
  rw [registryAdd, htype, if_neg (by decide), dif_neg (by decide)]

theorem addAll_outside {adds : List (Add V)} {a : Add V} (ha : a ∈ adds) (htype : a.type = maxRegistryType)
    (registry : Registry V) : addAll adds registry = none := by
  induction adds generalizing registry with
  | nil => cases ha
  | cons b adds ih =>
      rw [addAll, List.foldlM_cons]
      cases hadd : registryAdd b.name b.type b.value registry with
      | none => rfl
      | some m =>
          rcases List.mem_cons.mp ha with rfl | hmem
          · rw [registryAdd_outside htype] at hadd
            cases hadd
          · exact ih hmem m

/-! Asking -/

theorem registryGetOne_stores {registry : Registry V} {adds : List (Add V)} (h : Stores registry adds)
    {i : Nat} (hi : i < maxRegistryType) (name : Name) :
    registryGetOne name i registry = some ((lastAdd (adds.map cut) name i).map entry) := by
  rw [registryGetOne, Vector.getElem?_eq_getElem hi, Option.map_some, h i hi name]

/-- The loop stops one behind the lowest type. -/
theorem probeLoop_stores {registry : Registry V} {adds : List (Add V)} (h : Stores registry adds)
    (name : Name) (rounds : Nat) {i : Nat} (hend : i + rounds = maxRegistryType)
    (hbefore : ∀ j, j < i → lastAdd (adds.map cut) name j = none) :
    probeLoop name registry rounds i =
      some (match lowestType (adds.map cut) name with
        | some lowest => (lowest + 1, (lastAdd (adds.map cut) name lowest).map entry)
        | none => (maxRegistryType, none)) := by
  induction rounds generalizing i with
  | zero =>
      have hnone : lowestType (adds.map cut) name = none := by
        rw [lowestType, List.find?_range_eq_none]
        intro j hj
        rw [hbefore j (by omega)]
        rfl
      rw [probeLoop, hnone, ← hend, Nat.add_zero]
  | succ rounds ih =>
      have hi : i < maxRegistryType := by omega
      rw [probeLoop, registryGetOne_stores h hi]
      cases hlast : lastAdd (adds.map cut) name i with
      | none =>
          apply ih (by omega)
          intro j hj
          by_cases hji : j = i
          · exact hji ▸ hlast
          · exact hbefore j (by omega)
      | some a =>
          have hlowest : lowestType (adds.map cut) name = some i := by
            rw [lowestType, List.find?_range_eq_some]
            refine ⟨by rw [hlast]; rfl, List.mem_range.mpr hi, fun j hj => ?_⟩
            rw [hbefore j hj]
            rfl
          rw [hlowest]
          show some (i + 1, some (entry a)) = some (i + 1, (lastAdd (adds.map cut) name i).map entry)
          rw [hlast, Option.map_some]

theorem probe_stores {registry : Registry V} {adds : List (Add V)} (h : Stores registry adds) (name : Name) :
    probeLoop name registry maxRegistryType 0 =
      some (match lowestType (adds.map cut) name with
        | some lowest => (lowest + 1, (lastAdd (adds.map cut) name lowest).map entry)
        | none => (maxRegistryType, none)) :=
  probeLoop_stores h name maxRegistryType (Nat.zero_add _) fun j hj => absurd hj (Nat.not_lt_zero j)

/-- Types that are not refused, or none is given. -/
def Accepted (type : Option Int) : Prop := ∀ t, type = some t → 0 ≤ t ∧ t ≤ maxRegistryType

theorem accepted_some {type : Int} (h : 0 ≤ type ∧ type ≤ maxRegistryType) : Accepted (some type) := by
  intro t ht
  cases ht
  exact h

theorem found_typed (adds : List (Add V)) (name : Name) {type : Int} (h : type ≠ 0) :
    found adds name (some type) = ((lastAdd adds name type).bind Add.value, some type) := by
  have htyped : ¬(some type = none ∨ some type = some 0) := by
    rintro (hnone | hzero)
    · cases hnone
    · exact h (Option.some.inj hzero)
  rw [found, if_neg htyped, Option.getD_some]

theorem lastAdd_lowest {adds : List (Add V)} {name : Name} {lowest : Nat}
    (h : lowestType adds name = some lowest) :
    lowest < maxRegistryType ∧ ∃ a, lastAdd adds name lowest = some a ∧ a.type = lowest := by
  obtain ⟨hsome, hrange, -⟩ := List.find?_range_eq_some.mp h
  obtain ⟨a, ha⟩ := Option.isSome_iff_exists.mp hsome
  exact ⟨List.mem_range.mp hrange, a, ha, (lastAdd_some ha).2.1⟩

theorem registryGet_stores {registry : Registry V} {adds : List (Add V)} (h : Stores registry adds)
    (name : Name) {type : Option Int} (haccepted : Accepted type) (htype : type ≠ some (maxRegistryType : Int)) :
    registryGet name type registry = some (found (adds.map cut) name type) := by
  have hpasses : ¬(type.any fun type : Int => maxRegistryType < type ∨ type < 0) = true := by
    rw [Option.any_eq_true]
    rintro ⟨t, ht, hrefused⟩
    have hbounds := haccepted t ht
    have hor := of_decide_eq_true hrefused
    omega
  have hprobe := probe_stores h name
  rw [registryGet, if_neg hpasses, found]
  by_cases hwild : type = none ∨ type = some 0
  · rw [if_pos hwild, if_pos hwild, hprobe]
    cases hlowest : lowestType (adds.map cut) name with
    | none => rfl
    | some lowest =>
        obtain ⟨-, a, ha, hatype⟩ := lastAdd_lowest hlowest
        simp only [ha, Option.map_some, Option.bind_some, entry, hatype]
  · rw [if_neg hwild, if_neg hwild]
    obtain ⟨t, rfl⟩ : ∃ t, type = some t := Option.ne_none_iff_exists'.mp fun hnone => hwild (.inl hnone)
    have hzero : t ≠ 0 := fun hzero => hwild (.inr (congrArg some hzero))
    have hbounds := haccepted t rfl
    have hmax : t ≠ maxRegistryType := fun hmax => htype (congrArg some hmax)
    have hin : t.toNat < maxRegistryType := by omega
    have hback : (t.toNat : Int) = t := by omega
    rw [Option.getD_some, registryGetOne_stores h hin, hback]
    cases hlast : lastAdd (adds.map cut) name t with
    | none => rfl
    | some a =>
        obtain ⟨-, hatype, -⟩ := lastAdd_some hlast
        simp only [Option.map_some, Option.bind_some, entry, hatype]

theorem registryGet_refused (name : Name) {type : Option Int} (h : ¬Accepted type) (registry : Registry V) :
    registryGet name type registry = some (none, type) := by
  have hrefused : (type.any fun type : Int => maxRegistryType < type ∨ type < 0) = true := by
    rw [Option.any_eq_true]
    by_contra hpasses
    apply h
    intro t ht
    by_contra hbounds
    exact hpasses ⟨t, ht, decide_eq_true (by omega)⟩
  rw [registryGet, if_pos hrefused]

theorem registryGet_outside (name : Name) (registry : Registry V) :
    registryGet name (some (maxRegistryType : Int)) registry = none := by
  have hnone : registry[maxRegistryType]? = none := Vector.getElem?_eq_none (Nat.le_refl _)
  rw [registryGet, if_neg (by decide), if_neg (by decide), Option.getD_some, Int.toNat_natCast,
    registryGetOne, hnone]
  rfl

theorem registryHasKey_stores {registry : Registry V} {adds : List (Add V)} (h : Stores registry adds)
    (name : Name) :
    registryHasKey name registry = some ((lowestType (adds.map cut) name).elim 0 (· + 1)) := by
  have hprobe := probe_stores h name
  rw [registryHasKey, hprobe]
  cases hlowest : lowestType (adds.map cut) name with
  | none => rfl
  | some lowest =>
      obtain ⟨-, a, ha, -⟩ := lastAdd_lowest hlowest
      simp only [ha, Option.map_some, Option.isSome_some, ↓reduceIte, Option.elim]

/-! Names that are stored as they are -/

/-- No name that is stored is cut. -/
def ShortNames (adds : List (Add V)) : Prop :=
  ∀ a ∈ adds, Accepted (some a.type) → a.name.length < maxRegistryName

theorem cut_short {a : Add V} (h : a.name.length < maxRegistryName) : cut a = a := by
  have hname : strlcpy a.name maxRegistryName = a.name := List.take_of_length_le (Nat.le_pred_of_lt h)
  rw [cut, hname]

theorem lastAdd_short {adds : List (Add V)} (h : ShortNames adds) (name : Name) {type : Int}
    (haccepted : Accepted (some type)) : lastAdd (adds.map cut) name type = lastAdd adds name type := by
  induction adds using List.reverseRecOn with
  | nil => rfl
  | append_singleton adds a ih =>
      have hbefore : ShortNames adds := fun b hb => h b (List.mem_append_left _ hb)
      rw [List.map_append, List.map_singleton, lastAdd_append, lastAdd_append, ih hbefore]
      by_cases htype : a.type = type
      · rw [cut_short (h a (List.mem_append_right _ (List.mem_singleton_self a)) (htype ▸ haccepted))]
      · rw [if_neg (fun hmatch => htype hmatch.1), if_neg (fun hmatch => htype hmatch.1)]

theorem lowestType_short {adds : List (Add V)} (h : ShortNames adds) (name : Name) :
    lowestType (adds.map cut) name = lowestType adds name := by
  have hsame : ∀ i ∈ List.range maxRegistryType,
      (lastAdd (adds.map cut) name i).isSome = (lastAdd adds name i).isSome := by
    intro i hi
    have hin := List.mem_range.mp hi
    exact congrArg Option.isSome (lastAdd_short h name (accepted_some (by omega)))
  exact List.find?_congr hsame

theorem found_short {adds : List (Add V)} (h : ShortNames adds) (name : Name) {type : Option Int}
    (haccepted : Accepted type) : found (adds.map cut) name type = found adds name type := by
  have htype : Accepted (some (type.getD 0)) := by
    apply accepted_some
    cases type with
    | none => decide
    | some t => exact haccepted t rfl
  rw [found, found, lowestType_short h, lastAdd_short h name htype]
  cases hlowest : lowestType adds name with
  | none => rfl
  | some lowest =>
      obtain ⟨hin, -⟩ := lastAdd_lowest hlowest
      have hlast : lastAdd (adds.map cut) name lowest = lastAdd adds name lowest :=
        lastAdd_short h name (accepted_some (by omega))
      simp only [hlast]

/-- A name that is too long is not among those that are stored. -/
theorem lastAdd_long (adds : List (Add V)) {name : Name} (h : ¬name.length < maxRegistryName) (type : Int) :
    lastAdd (adds.map cut) name type = none := by
  apply Option.eq_none_iff_forall_ne_some.mpr
  intro b hb
  obtain ⟨hmem, -, hname⟩ := lastAdd_some hb
  obtain ⟨a, -, rfl⟩ := List.mem_map.mp hmem
  apply h
  have hcut : (strlcpy a.name maxRegistryName).length < maxRegistryName := by
    rw [strlcpy, List.length_take]
    exact Nat.lt_of_le_of_lt (Nat.min_le_left _ _) (by decide)
  exact hname ▸ hcut

theorem shortNames_of_found {adds : List (Add V)} (htypes : ∀ a ∈ adds, a.type ≠ maxRegistryType)
    (hvalues : ∀ a ∈ adds, a.value ≠ none)
    (hfound : ∀ (name : Name) (type : Option Int), Accepted type → type ≠ some (maxRegistryType : Int) →
      found (adds.map cut) name type = found adds name type) : ShortNames adds := by
  intro a ha haccepted
  by_contra hlong
  obtain ⟨b, hb⟩ := lastAdd_of_mem ha
  have hvalue := hvalues b (lastAdd_some hb).1
  have hnotMax : some a.type ≠ some (maxRegistryType : Int) := fun hsame => htypes a ha (Option.some.inj hsame)
  have hsame := hfound a.name (some a.type) haccepted hnotMax
  by_cases hzero : a.type = 0
  · have hlowestCut : lowestType (adds.map cut) a.name = none := by
      rw [lowestType, List.find?_range_eq_none]
      intro i _
      rw [lastAdd_long adds hlong]
      rfl
    have hlowest : lowestType adds a.name = some 0 := by
      rw [lowestType, List.find?_range_eq_some]
      refine ⟨?_, List.mem_range.mpr (by decide), fun j hj => absurd hj (Nat.not_lt_zero j)⟩
      rw [hzero] at hb
      exact Option.isSome_iff_exists.mpr ⟨b, hb⟩
    have hlast : lastAdd adds a.name ((0 : Nat) : Int) = some b := by
      rw [hzero] at hb
      exact hb
    rw [found, found, hlowestCut, hlowest, hzero, if_pos (.inr rfl), if_pos (.inr rfl)] at hsame
    simp only [hlast] at hsame
    exact hvalue (congrArg Prod.fst hsame).symm
  · rw [found_typed _ _ hzero, found_typed _ _ hzero, lastAdd_long adds hlong, hb] at hsame
    exact hvalue (congrArg Prod.fst hsame).symm

/-- The registry is a map for the types below the largest one that is not
refused, which has no table, and for names that are not cut; the type that
has a name is one too large where the loop has found it. -/
theorem registry_map (adds : List (Add V)) :
    ((∃ r, addAll adds registryInit = some r) ↔ ∀ a ∈ adds, a.type ≠ maxRegistryType) ∧
    ∀ r, addAll adds registryInit = some r →
      (∀ (name : Name) (type : Option Int),
        (∃ answer, registryGet name type r = some answer) ↔ type ≠ some (maxRegistryType : Int)) ∧
      (∀ (name : Name) (type : Option Int), Accepted type → type ≠ some (maxRegistryType : Int) →
        (registryGet name type r = some (found adds name type) ↔
          found (adds.map cut) name type = found adds name type)) ∧
      (ShortNames adds → ∀ (name : Name) (type : Option Int), Accepted type →
        type ≠ some (maxRegistryType : Int) → registryGet name type r = some (found adds name type)) ∧
      ((∀ a ∈ adds, a.value ≠ none) →
        (∀ (name : Name) (type : Option Int), Accepted type → type ≠ some (maxRegistryType : Int) →
          registryGet name type r = some (found adds name type)) → ShortNames adds) ∧
      (∀ (name : Name) (lowest : Nat), lowestType adds name = some lowest →
        (registryHasKey name r = some lowest ↔
          (lowestType (adds.map cut) name).elim 0 (· + 1) = lowest)) ∧
      (ShortNames adds → ∀ (name : Name) (lowest : Nat), lowestType adds name = some lowest →
        registryHasKey name r = some (lowest + 1)) := by
  have htypes : (∃ r, addAll adds (registryInit : Registry V) = some r) → ∀ a ∈ adds, a.type ≠ maxRegistryType := by
    rintro ⟨r, hr⟩ a ha htype
    rw [addAll_outside ha htype] at hr
    cases hr
  refine ⟨⟨htypes, fun hin => ?_⟩, fun r hr => ?_⟩
  · obtain ⟨r, hr, -⟩ := addAll_stores init_stores hin
    exact ⟨r, hr⟩
  · have hin := htypes ⟨r, hr⟩
    obtain ⟨r', hr', hstores⟩ := addAll_stores init_stores hin
    obtain rfl : r = r' := Option.some.inj (hr.symm.trans hr')
    rw [List.nil_append] at hstores
    have hget := @registryGet_stores V r adds hstores
    refine ⟨?_, ?_, ?_, ?_, ?_, ?_⟩
    · intro name type
      constructor
      · rintro ⟨answer, hanswer⟩ rfl
        rw [registryGet_outside] at hanswer
        cases hanswer
      · intro hnotMax
        by_cases haccepted : Accepted type
        · exact ⟨_, hget name haccepted hnotMax⟩
        · exact ⟨_, registryGet_refused name haccepted r⟩
    · intro name type haccepted hnotMax
      rw [hget name haccepted hnotMax, Option.some.injEq]
    · intro hshort name type haccepted hnotMax
      rw [hget name haccepted hnotMax, found_short hshort name haccepted]
    · intro hvalues hall
      apply shortNames_of_found hin hvalues
      intro name type haccepted hnotMax
      have hanswer := hall name type haccepted hnotMax
      rw [hget name haccepted hnotMax] at hanswer
      exact Option.some.inj hanswer
    · intro name lowest _
      rw [registryHasKey_stores hstores, Option.some.injEq]
    · intro hshort name lowest hlowest
      rw [registryHasKey_stores hstores, lowestType_short hshort, hlowest]
      rfl

/-- A type without a table is not refused, a name that is cut is not found,
and the type of a name is not its own. -/
theorem registry_not_map :
    (¬∀ (name : Name) (type : Option Int), Accepted type →
      ∃ answer, registryGet name type (registryInit : Registry Nat) = some answer) ∧
    (¬∀ (adds : List (Add Nat)) (r : Registry Nat), addAll adds registryInit = some r →
      ∀ (name : Name) (type : Option Int), Accepted type → type ≠ some (maxRegistryType : Int) →
        registryGet name type r = some (found adds name type)) ∧
    ¬∀ (adds : List (Add Nat)) (r : Registry Nat), addAll adds registryInit = some r →
      ∀ (name : Name) (lowest : Nat), lowestType adds name = some lowest →
        registryHasKey name r = some lowest := by
  refine ⟨fun h => ?_, fun h => ?_, fun h => ?_⟩
  · obtain ⟨answer, hanswer⟩ := h [0x61] (some 16) (accepted_some (by decide))
    cases hanswer
  · have hcut := h [⟨List.replicate 32 0x61, 1, some 7⟩] _ rfl (List.replicate 32 0x61) (some 1)
      (accepted_some (by decide)) (by decide)
    exact absurd (congrArg (Option.map Prod.fst) hcut) (by decide)
  · exact absurd (h [⟨[0x61], 3, some 7⟩] _ rfl [0x61] 3 rfl) (by decide)

end Libzorpll.RegistryMap
