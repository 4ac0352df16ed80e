import OpenAAA.Generic.GovernBuckets
import OpenAAA.Sys.Compiler

/-!
`generic/sorter/s-internal.h` and `s-fixint.h`: the internal sorters, which fill the big buffer
with records, sort them and write them as one run. What `array_sort` does is a parameter.
-/

namespace OpenAAA.Sorter

open Merging Sys

variable {ρ κ : Type} [LinearOrder κ]

/-! ## Writing the sorted array -/

/-- The records behind two equal ones that have their key, and the rest. Without `bounded`
nothing stops the search at the end of the array. -/
def equalKeys (p : SortParams ρ κ) (bounded : Bool) (x : ρ) :
    List ρ → Except MergeFault (List ρ × List ρ)
  | [] => if bounded then .ok ([], []) else .error .uninitialised
  | y :: l =>
    if p.compare x y = .eq then do
      let (group, rest) ← equalKeys p bounded x l
      pure (y :: group, rest)
    else .ok ([], y :: l)

/-- The writing loop of both internal sorters. -/
def writeItems (p : SortParams ρ κ) (bounded : Bool) :
    Nat → List ρ → Except MergeFault (List ρ)
  | _, [] => .ok []
  | _, [x] => .ok [x]
  | 0, _ => .error .stuck
  | fuel + 1, x :: y :: l =>
    if p.unify ∧ p.compare x y = .eq then do
      let (group, rest) ← equalKeys p bounded x l
      let out ← writeItems p bounded fuel rest
      pure (p.merged (x :: y :: group) :: out)
    else do
      let out ← writeItems p bounded fuel (y :: l)
      pure (x :: out)

/-! ## Keys of a fixed size -/

/-- The sizes of s-fixint.h. -/
structure FixintParams where
  sizeofKey : Nat
  radix : Bool
  bufSize : Nat

/-- `internal_workspace` of s-fixint.h -/
def FixintParams.internalWorkspace (f : FixintParams) (unify : Bool) : Nat :=
  let workspace := if unify then 8 else 0
  if f.radix then max workspace f.sizeofKey else workspace

/-- The sizes of s-internal.h; `itemSize` is that of `internal_item_t`. -/
structure InternalParams (ρ : Type) where
  sizeofKey : Nat
  keySize : ρ → Nat
  dataSize : ρ → Nat
  varData : Bool
  unifyWorkspace : ρ → Nat
  radix : Bool
  itemSize : Nat
  bufSize : Nat

section Sizes

variable (i : InternalParams ρ) (unify : Bool) (x : ρ)

/-- `internal_workspace` of s-internal.h -/
def InternalParams.internalWorkspace : Nat :=
  let ws := (if unify then 8 else 0) + i.unifyWorkspace x
  if i.radix then max ws i.itemSize else ws

def InternalParams.ksizeAligned : Nat :=
  if unify then alignTo 32 (i.keySize x) cpuStructAlign else i.keySize x

def InternalParams.recsize : Nat :=
  alignTo 32 (i.ksizeAligned unify x + i.dataSize x) cpuStructAlign

def InternalParams.totalsize : Nat :=
  i.recsize unify x + i.itemSize + i.internalWorkspace unify x

/-- A record of this size is copied as a run of its own. -/
def InternalParams.giant : Bool :=
  i.varData && i.bufSize <
    i.sizeofKey + 2 * cpuPageSize + i.dataSize x + i.internalWorkspace unify x

end Sizes

/-- How many records the reading loop takes. -/
def internalCount (i : InternalParams ρ) (unify : Bool) : Nat → Nat → List ρ → Nat
  | _, _, [] => 0
  | remains, count, x :: l =>
    if remains < i.totalsize unify x ∨ 2 ^ 32 - 1 ≤ count then 0
    else internalCount i unify (remains - i.totalsize unify x) (count + 1) l + 1

/-- `internal` of s-internal.h -/
def internal (p : SortParams ρ κ) (i : InternalParams ρ)
    (arraySort : Nat → List ρ → Except MergeFault (List ρ)) (hashBits : Nat) :
    List ρ → Except MergeFault (Presorted ρ)
  | [] => .ok ⟨0, [], 0, false⟩
  | x :: xs =>
    if i.giant p.unify x then .ok ⟨1, [x], 1, true⟩
    else do
      let count := internalCount i p.unify (i.bufSize - cpuPageSize) 0 (x :: xs)
      let sorted ← arraySort hashBits ((x :: xs).take count)
      let written ← writeItems p true sorted.length sorted
      pure ⟨count, written, 1, count < (x :: xs).length⟩

end OpenAAA.Sorter
