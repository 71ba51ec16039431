import Libzorpll.Forest
import Mathlib.Data.List.GetD
import Mathlib.Logic.Function.Basic

/-! The method tables of classes, which are filled from the parents of a class
when its first object is made. -/

namespace Libzorpll.ObjectMethods

open Forest

/-- The descriptors as they are written down. A table is not shorter than the
one of the parent. -/
structure Classes (C M : Type) extends Parents C where
  zClass : C
  methods : C → List (Option M)
  methods_length {c p : C} : parent c = some p → (methods p).length ≤ (methods c).length

/-- What there is of a descriptor at run time. -/
structure ZClass (C M : Type) where
  isa : Option C := none
  funcsResolved : Bool := false
  funcs : List (Option M)

structure ZObject (C : Type) where
  isa : C
  refCnt : Nat

variable {C M : Type} (K : Classes C M)

def start (c : C) : ZClass C M := { funcs := K.methods c }

/-- There is nothing to read or to write behind the end of a table. -/
def inherit (super : List (Option M)) : Nat → Nat → List (Option M) → Option (List (Option M))
  | 0, _, own => some own
  | left + 1, i, own => do
      let method ← own[i]?
      if method.isNone then do
        let inherited ← super[i]?
        inherit super left (i + 1) (own.set i inherited)
      else inherit super left (i + 1) own

section

variable [DecidableEq C]

def zObjectResolveFuncs (c : C) (s : C → ZClass C M) : Option (C → ZClass C M) :=
  if (s c).funcsResolved then some s
  else
    match _h : K.parent c with
    | none => some (Function.update s c { s c with funcsResolved := true })
    | some superClass => do
        let s ← zObjectResolveFuncs superClass s
        let funcs ← inherit (s superClass).funcs (s superClass).funcs.length 0 (s c).funcs
        some (Function.update s c { s c with funcs := funcs, funcsResolved := true })
termination_by K.height c
decreasing_by exact K.parent_height _h

def zObjectNew (c : C) (s : C → ZClass C M) : Option (ZObject C × (C → ZClass C M)) := do
  let s := if (s c).isa.isNone then Function.update s c { s c with isa := some K.zClass } else s
  let s ← (if (s c).funcsResolved then some s else zObjectResolveFuncs K c s)
  some ({ isa := c, refCnt := 1 }, s)

/-- Objects of these classes are made, one after the other. -/
def run : List C → (C → ZClass C M) → Option (C → ZClass C M)
  | [], s => some s
  | c :: cs, s => do
      let made ← zObjectNew K c s
      run cs made.2

end

/-- The method of the nearest class that has one of its own. -/
def nearest (c : C) (i : Nat) : Option M := (K.ancestry c).findSome? fun d => (K.methods d).getD i none

def inherited (c : C) : List (Option M) := (List.range (K.methods c).length).map (nearest K c)

variable {K} {c p : C} {i left : Nat}

/-- A table is as it was written down until its class is resolved, after its
parents. -/
structure PartlyResolved (K : Classes C M) (s : C → ZClass C M) : Prop where
  own {c : C} : (s c).funcsResolved = false → (s c).funcs = K.methods c
  all {c : C} : (s c).funcsResolved = true → (s c).funcs = inherited K c
  up {c p : C} : (s c).funcsResolved = true → K.parent c = some p → (s p).funcsResolved = true

variable {s t : C → ZClass C M}

theorem PartlyResolved.ancestry (h : PartlyResolved K s) (hc : (s c).funcsResolved = true) :
    ∀ d ∈ K.ancestry c, (s d).funcsResolved = true :=
  Parents.ancestry_closed (fun _ _ hd hp => h.up hd hp) hc

variable [DecidableEq C]

def settle (K : Classes C M) (c : C) (s : C → ZClass C M) : C → ZClass C M :=
  Function.update s c { s c with funcs := inherited K c, funcsResolved := true }

theorem settle_resolved {d : C} : (settle K c s d).funcsResolved = true ↔ d = c ∨ (s d).funcsResolved = true := by
  by_cases hdc : d = c
  · subst hdc
    rw [settle, Function.update_self]
    exact iff_of_true rfl (.inl rfl)
  · rw [settle, Function.update_of_ne hdc, or_iff_right hdc]

theorem PartlyResolved.settle (h : PartlyResolved K s)
    (hup : ∀ p, K.parent c = some p → (s p).funcsResolved = true) : PartlyResolved K (settle K c s) := by
  refine ⟨fun {d} hd => ?_, fun {d} hd => ?_, fun {d p} hd hp => ?_⟩
  · have hdc : d ≠ c := fun hdc => Bool.eq_false_iff.mp hd (settle_resolved.mpr (.inl hdc))
    rw [ObjectMethods.settle, Function.update_of_ne hdc] at hd ⊢
    exact h.own hd
  · by_cases hdc : d = c
    · subst hdc
      rw [ObjectMethods.settle, Function.update_self]
    · rw [ObjectMethods.settle, Function.update_of_ne hdc] at hd ⊢
      exact h.all hd
  · obtain rfl | hd := settle_resolved.mp hd
    · exact settle_resolved.mpr (.inr (hup p hp))
    · exact settle_resolved.mpr (.inr (h.up hd hp))

end Libzorpll.ObjectMethods
