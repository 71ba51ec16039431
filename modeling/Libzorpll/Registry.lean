import Mathlib.Data.List.Basic

/-! The registry of named values of several types. -/

namespace Libzorpll.Registry

def maxRegistryType : Nat := 16
def maxRegistryName : Nat := 32

/-- The bytes of a string before its NUL. -/
abbrev Name := List UInt8

/-- A value that is none is NULL. -/
structure Entry (V : Type) where
  type : Int
  name : Name
  value : Option V
  deriving DecidableEq

variable {V : Type}

abbrev Table (V : Type) := Name → Option (Entry V)

def Table.insert (ze : Entry V) (table : Table V) : Table V :=
  fun name => if name = ze.name then some ze else table name

abbrev Registry (V : Type) := Vector (Table V) maxRegistryType

def registryInit : Registry V := Vector.replicate maxRegistryType fun _ => none

def strlcpy (src : Name) (size : Nat) : Name := src.take (size - 1)

/-! In the answers below, none is an access outside of the array of tables. -/

def registryAdd (name : Name) (type : Int) (value : Option V) (registry : Registry V) :
    Option (Registry V) :=
  if type < 0 ∨ maxRegistryType < type then some registry
  else
    let ze := { type := type, name := strlcpy name maxRegistryName, value := value }
    if h : type.toNat < maxRegistryType then
      some (registry.set type.toNat (registry[type.toNat].insert ze) h)
    else none

def registryGetOne (name : Name) (type : Nat) (registry : Registry V) : Option (Option (Entry V)) :=
  registry[type]?.map fun table => table name

/-- The loop over the types from `i` on, with the value of `i` behind it. -/
def probeLoop (name : Name) (registry : Registry V) : Nat → Nat → Option (Nat × Option (Entry V))
  | 0, i => some (i, none)
  | rounds + 1, i =>
      match registryGetOne name i registry with
      | none => none
      | some (some ze) => some (i + 1, some ze)
      | some none => probeLoop name registry rounds (i + 1)

/-- The type is none for a NULL pointer, and the second answer is what it
points to afterwards. -/
def registryGet (name : Name) (type : Option Int) (registry : Registry V) :
    Option (Option V × Option Int) :=
  if type.any fun type : Int => maxRegistryType < type ∨ type < 0 then some (none, type)
  else
    match
      if type = none ∨ type = some 0 then (probeLoop name registry maxRegistryType 0).map Prod.snd
      else registryGetOne name (type.getD 0).toNat registry with
    | none => none
    | some (some ze) => some (ze.value, type.map fun _ => ze.type)
    | some none => some (none, type)

def registryHasKey (name : Name) (registry : Registry V) : Option Nat :=
  (probeLoop name registry maxRegistryType 0).map fun (i, ze) => if ze.isSome then i else 0

end Libzorpll.Registry
