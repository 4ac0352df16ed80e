import OpenAAA.Lib.Heap
import OpenAAA.Sys.Compiler

/-!
`generic/gary.c` and `generic/gary.h`: growing arrays, with the allocators `mem_std` and
`mem_std_zero` of `mem/alloc.c`. The header in front of the elements moves with them, and
names the allocator that the array was made with. Sizes are `size_t`, so every sum and
product is taken modulo 2⁶⁴.
-/

namespace OpenAAA.Gary

open Memory Alloc Sys

/-- A value in a `size_t`. -/
def word (x : Nat) : Nat := x % 2 ^ 64

/-! ## Allocators -/

/-- The two structures `struct mem` of the module. -/
inductive Kind where
  | memStd
  | memStdZero
deriving DecidableEq

/-- The allocator of the C library and the addresses of the two structures. -/
structure Env where
  alloc : Allocator
  memStd : Nat
  memStdZero : Nat

def Env.address (env : Env) : Kind → Nat
  | .memStd => env.memStd
  | .memStdZero => env.memStdZero

/-- The structure at an address. -/
def Env.kindAt (env : Env) (p : Nat) : Except Fault Kind :=
  if p = env.memStd then .ok .memStd
  else if p = env.memStdZero then .ok .memStdZero
  else .error .unmapped

/-- `memset(p, 0, n)` -/
def memsetZero (h : Heap) (p n : Nat) : Heap := { h with mem := store h.mem p n 0 }

/-- `std_alloc` -/
def stdAlloc (env : Env) (h : Heap) (size : Nat) : Except Fault (Nat × Heap) :=
  h.malloc env.alloc size

/-- `zero_alloc` -/
def zeroAlloc (env : Env) (h : Heap) (size : Nat) : Except Fault (Nat × Heap) := do
  let (x, h) ← h.malloc env.alloc size
  return (x, memsetZero h x size)

/-- `std_realloc` -/
def stdRealloc (env : Env) (h : Heap) (ptr _oldSize newSize : Nat) : Except Fault (Nat × Heap) :=
  h.realloc env.alloc ptr newSize

/-- `zero_realloc` -/
def zeroRealloc (env : Env) (h : Heap) (ptr osize nsize : Nat) : Except Fault (Nat × Heap) := do
  let (ptr, h) ← h.realloc env.alloc ptr nsize
  return (ptr, if osize < nsize then memsetZero h (ptr + osize) (nsize - osize) else h)

/-- `mem->alloc(mem, size)` -/
def memAlloc (env : Env) (h : Heap) (mem size : Nat) : Except Fault (Nat × Heap) := do
  match ← env.kindAt mem with
  | .memStd => stdAlloc env h size
  | .memStdZero => zeroAlloc env h size

/-- `mem->realloc(mem, ptr, osize, nsize)` -/
def memRealloc (env : Env) (h : Heap) (mem ptr osize nsize : Nat) : Except Fault (Nat × Heap) := do
  match ← env.kindAt mem with
  | .memStd => stdRealloc env h ptr osize nsize
  | .memStdZero => zeroRealloc env h ptr osize nsize

/-! ## Arrays -/

/-- `sizeof(struct gary)` -/
def sizeofGary : Nat := 32

/-- `GARY_HDR_SIZE` -/
def garyHdrSize : Nat := alignTo 64 sizeofGary cpuStructAlign

/-- `gary_hdr` -/
def garyHdr (ptr : Nat) : Nat := ptr - garyHdrSize

/-- `gary_body` -/
def garyBody (h : Nat) : Nat := h + garyHdrSize

section Fields

variable (m : Mem) (h : Nat)

/-- `h->elts` -/
def elts : Nat := load m h 8

/-- `h->free` -/
def free : Nat := load m (h + 8) 8

/-- `h->size` -/
def size : Nat := load m (h + 16) 8

/-- `h->mem` -/
def mem : Nat := load m (h + 24) 8

def setElts (v : Nat) : Mem := store m h 8 v

def setFree (v : Nat) : Mem := store m (h + 8) 8 v

def setSize (v : Nat) : Mem := store m (h + 16) 8 v

def setMem (v : Nat) : Mem := store m (h + 24) 8 v

end Fields

/-- `gary_init` -/
def garyInit (env : Env) (heap : Heap) (size elts mem : Nat) : Except Fault (Nat × Heap) := do
  let (h, heap) ← memAlloc env heap mem (word (garyHdrSize + word (size * elts)))
  let m := setFree heap.mem h elts
  let m := setElts m h (free m h)
  let m := setSize m h size
  let m := setMem m h mem
  return (garyBody h, { heap with mem := m })

/-- `gary_realloc` -/
def garyRealloc (env : Env) (heap : Heap) (h n : Nat) : Except Fault (Nat × Heap) :=
  let o := free heap.mem h
  let m :=
    if n > word (2 * free heap.mem h) then setFree heap.mem h n
    else setFree heap.mem h (word (free heap.mem h * 2))
  let x := word (garyHdrSize + word (o * size m h))
  let y := word (garyHdrSize + word (free m h * size m h))
  memRealloc env { heap with mem := m } (mem m h) h x y

/-- `gary_set_size` -/
def garySetSize (env : Env) (heap : Heap) (array n : Nat) : Except Fault (Nat × Heap) := do
  let h := garyHdr array
  let m := setElts heap.mem h n
  if n ≤ free m h then return (array, { heap with mem := m })
  else
    let (h, heap) ← garyRealloc env { heap with mem := m } h n
    return (garyBody h, heap)

/-- `gary_push_helper`: the array, and what it stores at `cptr`. -/
def garyPushHelper (env : Env) (heap : Heap) (array n : Nat) :
    Except Fault (Nat × Nat × Heap) := do
  let h := garyHdr array
  let (h, heap) ← garyRealloc env heap h (elts heap.mem h)
  let c := word (garyBody h + word (word (elts heap.mem h + 2 ^ 64 - n) * size heap.mem h))
  return (garyBody h, c, heap)

/-- `GARY_PUSH_MULTI(ptr, n)` for elements of `width` bytes: the array and the value of the
expression. -/
def garyPushMulti (env : Env) (heap : Heap) (array width n : Nat) :
    Except Fault (Nat × Nat × Heap) := do
  let h := garyHdr array
  let c := word (array + elts heap.mem h * width)
  let m := setElts heap.mem h (word (elts heap.mem h + n))
  if elts m h > free m h then garyPushHelper env { heap with mem := m } array n
  else return (array, c, { heap with mem := m })

/-- `gary_fix` -/
def garyFix (env : Env) (heap : Heap) (array : Nat) : Except Fault (Nat × Heap) := do
  let h := garyHdr array
  if elts heap.mem h ≠ free heap.mem h then
    let o := word (garyHdrSize + word (free heap.mem h * size heap.mem h))
    let n := word (garyHdrSize + word (elts heap.mem h * size heap.mem h))
    let (h, heap) ← memRealloc env heap (mem heap.mem h) h o n
    return (garyBody h, { heap with mem := setFree heap.mem h (elts heap.mem h) })
  else return (garyBody h, heap)

end OpenAAA.Gary
