import OpenAAA.Lib.Heap
import OpenAAA.Lib.Linked
import OpenAAA.Sys.Compiler

/-!
`mem/pool.c` and the inline functions of `mem/pool.h`: memory pools that hand out
pieces of malloc'ed chunks. A chunk is known by the address of its trailer, and
its data lies below the trailer. The structures are read and written field by
field at the offsets of the x86-64 layout, in the default build without
`MEM_POOL_MMAP`. A loop over a chain of chunks takes at most one turn for each
malloc'ed range: longer ones would visit a chunk twice.
-/

namespace OpenAAA.Pool

open Memory Alloc Sys

/-- `struct mempool_state`. Fields that an initialiser leaves out are zero. -/
structure MempoolState where
  free0 : Nat := 0
  free1 : Nat := 0
  last0 : Nat := 0
  last1 : Nat := 0
  next : Nat := 0
deriving DecidableEq, Repr

/-- `struct mempool` -/
structure Mempool where
  state : MempoolState := {}
  unused : Nat := 0
  lastBig : Nat := 0
  chunkSize : Nat := 0
  threshold : Nat := 0
  index : Nat := 0
deriving DecidableEq, Repr

/-- `sizeof(struct mempool_state)` -/
def mempoolStateSize : Nat := 32

/-- `sizeof(struct mempool)` -/
def mempoolSize : Nat := 64

def loadState (m : Mem) (a : Nat) : MempoolState where
  free0 := load m a 4
  free1 := load m (a + 4) 4
  last0 := load m (a + 8) 8
  last1 := load m (a + 16) 8
  next := load m (a + 24) 8

def setFree0 (m : Mem) (a v : Nat) : Mem := store m a 4 v

def setFree1 (m : Mem) (a v : Nat) : Mem := store m (a + 4) 4 v

def setLast0 (m : Mem) (a v : Nat) : Mem := store m (a + 8) 8 v

def setLast1 (m : Mem) (a v : Nat) : Mem := store m (a + 16) 8 v

def setNext (m : Mem) (a v : Nat) : Mem := store m (a + 24) 8 v

/-- `*a = v` for a `struct mempool_state`. -/
def storeState (m : Mem) (a : Nat) (v : MempoolState) : Mem :=
  let m := setFree0 m a v.free0
  let m := setFree1 m a v.free1
  let m := setLast0 m a v.last0
  let m := setLast1 m a v.last1
  setNext m a v.next

def loadMempool (m : Mem) (pool : Nat) : Mempool where
  state := loadState m pool
  unused := load m (pool + 32) 8
  lastBig := load m (pool + 40) 8
  chunkSize := load m (pool + 48) 4
  threshold := load m (pool + 52) 4
  index := load m (pool + 56) 4

def setUnused (m : Mem) (pool v : Nat) : Mem := store m (pool + 32) 8 v

def setLastBig (m : Mem) (pool v : Nat) : Mem := store m (pool + 40) 8 v

def setIndex (m : Mem) (pool v : Nat) : Mem := store m (pool + 56) 4 v

/-- `*pool = (struct mempool) { ... }` -/
def storeMempool (m : Mem) (pool : Nat) (v : Mempool) : Mem :=
  let m := storeState m pool v.state
  let m := setUnused m pool v.unused
  let m := setLastBig m pool v.lastBig
  let m := store m (pool + 48) 4 v.chunkSize
  let m := store m (pool + 52) 4 v.threshold
  setIndex m pool v.index

/-- `chunk->next` of a `struct mempool_chunk`. -/
def chunkNext (m : Mem) (chunk : Nat) : Nat := load m chunk 8

/-- `chunk->size` -/
def chunkSize (m : Mem) (chunk : Nat) : Nat := load m (chunk + 8) 4

def setChunkNext (m : Mem) (chunk v : Nat) : Mem := store m chunk 8 v

def setChunkSize (m : Mem) (chunk v : Nat) : Mem := store m (chunk + 8) 4 v

/-- `MP_CHUNK_TAIL`, the aligned `sizeof(struct mempool_chunk)`. -/
def mpChunkTail : Nat := alignTo 64 16 cpuStructAlign

/-- `MP_SIZE_MAX` -/
def mpSizeMax : Nat := 2 ^ 32 - 1 - mpChunkTail - cpuPageSize

def mpAlignSize (size : Nat) : Nat := alignTo 32 size cpuStructAlign

section Functions

variable (malloc : Allocator)

def mpNewBigChunk (h : Heap) (size : Nat) : Except Fault (Nat × Heap) := do
  let (addr, h) ← h.malloc malloc (size + mpChunkTail)
  let chunk := addr + size
  return (chunk, { h with mem := setChunkSize h.mem chunk size })

def mpFreeBigChunk (h : Heap) (chunk : Nat) : Except Fault Heap :=
  h.free (chunk - chunkSize h.mem chunk)

def mpNewChunk (h : Heap) (size : Nat) : Except Fault (Nat × Heap) :=
  mpNewBigChunk malloc h size

def mpFreeChunk (h : Heap) (chunk : Nat) : Except Fault Heap :=
  mpFreeBigChunk h chunk

/-- The new pool and the heap that it lives in. -/
def mpNew (h : Heap) (size : Nat) : Except Fault (Nat × Heap) := do
  let size := mpAlignSize (max mempoolSize size)
  let (chunk, h) ← mpNewChunk malloc h size
  let pool := chunk - size
  let m := setChunkNext h.mem chunk 0
  let m := storeMempool m pool {
    state := { free0 := size - mempoolSize, last0 := chunk }
    chunkSize := size
    threshold := size >>> 1
    lastBig := pool + 40 }
  return (pool, { h with mem := m })

/-- The loops that free a chain of chunks, up to the chunk `stop`. -/
def freeChain (free : Heap → Nat → Except Fault Heap) (stop fuel : Nat) (h : Heap)
    (chunk : Nat) : Except Fault Heap :=
  if chunk = stop then .ok h
  else if chunk = 0 then .error .nullPointer
  else match fuel with
    | 0 => .error .endless
    | fuel + 1 => do
        let next := chunkNext h.mem chunk
        let h ← free h chunk
        freeChain free stop fuel h next

def mpFreeChain (h : Heap) (chunk : Nat) : Except Fault Heap :=
  freeChain mpFreeChunk 0 h.blocks.length h chunk

def mpFreeBigChain (h : Heap) (chunk : Nat) : Except Fault Heap :=
  freeChain mpFreeBigChunk 0 h.blocks.length h chunk

def mpDelete (h : Heap) (pool : Nat) : Except Fault Heap := do
  let h ← mpFreeBigChain h (loadMempool h.mem pool).state.last1
  let h ← mpFreeChain h (loadMempool h.mem pool).unused
  mpFreeChain h (loadMempool h.mem pool).state.last0

/-- The loops that move the chunks of a chain to `pool->unused` until `stop`
holds: the chunk they stop at and the memory. -/
def recycleChain (pool : Nat) (stop : Mem → Nat → Bool) (fuel : Nat) (m : Mem)
    (chunk : Nat) : Except Fault (Nat × Mem) :=
  if stop m chunk then .ok (chunk, m)
  else if chunk = 0 then .error .nullPointer
  else match fuel with
    | 0 => .error .endless
    | fuel + 1 =>
        let next := chunkNext m chunk
        let m := setChunkNext m chunk (loadMempool m pool).unused
        recycleChain pool stop fuel (setUnused m pool chunk) next

def mpFlush (h : Heap) (pool : Nat) : Except Fault Heap := do
  let h ← mpFreeBigChain h (loadMempool h.mem pool).state.last1
  let (chunk, m) ← recycleChain pool
    (fun m chunk => chunk = 0 ∨ chunk - chunkSize m chunk = pool)
    h.blocks.length h.mem (loadMempool h.mem pool).state.last0
  let m := setLast0 m pool chunk
  let m := setFree0 m pool (if chunk ≠ 0 then chunkSize m chunk - mempoolSize else 0)
  let m := setLast1 m pool 0
  let m := setFree1 m pool 0
  let m := setNext m pool 0
  let m := setLastBig m pool (pool + 40)
  return { h with mem := m }

/-- The block that `mp_alloc_internal` returns and the heap after the call. -/
def mpAllocInternal (h : Heap) (pool size : Nat) : Except Fault (Nat × Heap) := do
  let v := loadMempool h.mem pool
  if size ≤ v.threshold then
    let m := setIndex h.mem pool 0
    let (chunk, h) ← (
      if v.unused ≠ 0 then
        .ok (v.unused, { h with mem := setUnused m pool (chunkNext m v.unused) })
      else mpNewChunk malloc { h with mem := m } v.chunkSize)
    let m := setChunkNext h.mem chunk v.state.last0
    let m := setLast0 m pool chunk
    let m := setFree0 m pool (v.chunkSize - size)
    return (chunk - v.chunkSize, { h with mem := m })
  else if size ≤ mpSizeMax then
    let m := setIndex h.mem pool 1
    let aligned := alignTo 32 size cpuStructAlign
    let (chunk, h) ← mpNewBigChunk malloc { h with mem := m } aligned
    let m := setChunkNext h.mem chunk v.state.last1
    let m := setLast1 m pool chunk
    let m := setFree1 m pool (aligned - size)
    let m := setLastBig m pool (chunk - aligned)
    return (chunk - aligned, { h with mem := m })
  else .error .die

/-- `mp_alloc_fast`; the mask `~(CPU_STRUCT_ALIGN - 1)` clears the remainder. -/
def mpAllocFast (h : Heap) (pool size : Nat) : Except Fault (Nat × Heap) :=
  let s := loadState h.mem pool
  let avail := s.free0 - s.free0 % cpuStructAlign
  if size ≤ avail then
    .ok (s.last0 - avail, { h with mem := setFree0 h.mem pool (avail - size) })
  else mpAllocInternal malloc h pool size

def mpAllocFastNoalign (h : Heap) (pool size : Nat) : Except Fault (Nat × Heap) :=
  let s := loadState h.mem pool
  if size ≤ s.free0 then
    .ok (s.last0 - s.free0, { h with mem := setFree0 h.mem pool (s.free0 - size) })
  else mpAllocInternal malloc h pool size

def mpAlloc (h : Heap) (pool size : Nat) : Except Fault (Nat × Heap) :=
  mpAllocFast malloc h pool size

def mpAllocNoalign (h : Heap) (pool size : Nat) : Except Fault (Nat × Heap) :=
  mpAllocFastNoalign malloc h pool size

def mpAllocZero (h : Heap) (pool size : Nat) : Except Fault (Nat × Heap) := do
  let (ptr, h) ← mpAllocFast malloc h pool size
  return (ptr, { h with mem := store h.mem ptr size 0 })

/-- `mp_restore`; the saved state is copied before anything is written. -/
def mpRestore (h : Heap) (pool state : Nat) : Except Fault Heap := do
  let s := loadState h.mem state
  let (_, m) ← recycleChain pool (fun _ chunk => chunk = s.last0)
    h.blocks.length h.mem (loadState h.mem pool).last0
  let h := { h with mem := m }
  let h ← freeChain mpFreeBigChunk s.last1 h.blocks.length h (loadState m pool).last1
  let m := storeState h.mem pool s
  return { h with mem := setLastBig m pool (pool + 40) }

def mpPush (h : Heap) (pool : Nat) : Except Fault (Nat × Heap) := do
  let state := loadState h.mem pool
  let (p, h) ← mpAllocFast malloc h pool mempoolStateSize
  let m := storeState h.mem p state
  return (p, { h with mem := setNext m pool p })

def mpPop (h : Heap) (pool : Nat) : Except Fault Heap :=
  if (loadState h.mem pool).next = 0 then .error .assertion
  else mpRestore h pool (loadState h.mem pool).next

/-- `mp_strdup` of the bytes before the terminating zero, or of `NULL`. -/
def mpStrdup (h : Heap) (pool : Nat) : Option (List Byte) → Except Fault (Option Nat × Heap)
  | none => .ok (none, h)
  | some s => do
      let l := (s.length + 1) % 2 ^ 32
      let (t, h) ← mpAllocFastNoalign malloc h pool l
      return (some t, { h with mem := write h.mem t ((s ++ [0]).take l) })

/-- `mp_memdup` of the bytes that `s` points to. -/
def mpMemdup (h : Heap) (pool : Nat) (s : List Byte) : Except Fault (Nat × Heap) := do
  let (t, h) ← mpAllocFast malloc h pool s.length
  return (t, { h with mem := write h.mem t s })

end Functions

theorem mpChunkTail_eq : mpChunkTail = 16 := by decide

section Fields

variable {m m' : Mem} {pool a : Nat}

/-- The values that the fields of `struct mempool_state` can hold. -/
structure MempoolState.Fits (v : MempoolState) : Prop where
  free0 : v.free0 < 2 ^ 32
  free1 : v.free1 < 2 ^ 32
  last0 : v.last0 < 2 ^ 64
  last1 : v.last1 < 2 ^ 64
  next : v.next < 2 ^ 64

theorem loadState_fits (m : Mem) (a : Nat) : (loadState m a).Fits :=
  ⟨load_lt m a 4, load_lt m (a + 4) 4, load_lt m (a + 8) 8, load_lt m (a + 16) 8,
    load_lt m (a + 24) 8⟩

theorem loadState_of_agree (h : Agree m m' a mempoolStateSize) :
    loadState m' a = loadState m a := by
  have hfield : ∀ off n, off + n ≤ 32 → load m' (a + off) n = load m (a + off) n := by
    intro off n hfit
    apply load_of_agree
    apply h.mono
    unfold Inside mempoolStateSize
    omega
  have hfree := hfield 0 4 (by decide)
  rw [Nat.add_zero] at hfree
  simp only [loadState, hfree, hfield 4 4 (by decide), hfield 8 8 (by decide),
    hfield 16 8 (by decide), hfield 24 8 (by decide)]

theorem loadMempool_of_agree (h : Agree m m' pool mempoolSize) :
    loadMempool m' pool = loadMempool m pool := by
  have hfield : ∀ off n, off + n ≤ 64 → load m' (pool + off) n = load m (pool + off) n := by
    intro off n hfit
    apply load_of_agree
    apply h.mono
    unfold Inside mempoolSize
    omega
  have hstate : loadState m' pool = loadState m pool := by
    apply loadState_of_agree
    apply h.mono
    unfold Inside mempoolSize mempoolStateSize
    omega
  simp only [loadMempool, hstate, hfield 32 8 (by decide), hfield 40 8 (by decide),
    hfield 48 4 (by decide), hfield 52 4 (by decide), hfield 56 4 (by decide)]

theorem loadState_storeState (m : Mem) (a : Nat) {v : MempoolState} (hv : v.Fits) :
    loadState (storeState m a v) a = v := by
  obtain ⟨h1, h2, h3, h4, h5⟩ := hv
  simp (disch := (unfold Apart; omega)) only [loadState, storeState, setFree0, setFree1,
    setLast0, setLast1, setNext, load_store_apart, load_store_same]
  have h256 : 256 ^ 8 = 2 ^ 64 ∧ 256 ^ 4 = 2 ^ 32 := by decide
  rw [h256.1, h256.2, Nat.mod_eq_of_lt h1, Nat.mod_eq_of_lt h2, Nat.mod_eq_of_lt h3,
    Nat.mod_eq_of_lt h4, Nat.mod_eq_of_lt h5]

theorem loadMempool_setFree0 (m : Mem) (pool x : Nat) :
    loadMempool (setFree0 m pool x) pool = { loadMempool m pool with
      state := { (loadMempool m pool).state with free0 := x % 2 ^ 32 } } := by
  simp (disch := (unfold Apart; omega)) only [loadMempool, loadState, setFree0,
    load_store_apart, load_store_same]
  rfl

theorem loadMempool_setFree1 (m : Mem) (pool x : Nat) :
    loadMempool (setFree1 m pool x) pool = { loadMempool m pool with
      state := { (loadMempool m pool).state with free1 := x % 2 ^ 32 } } := by
  simp (disch := (unfold Apart; omega)) only [loadMempool, loadState, setFree1,
    load_store_apart, load_store_same]
  rfl

theorem loadMempool_setLast0 (m : Mem) (pool x : Nat) :
    loadMempool (setLast0 m pool x) pool = { loadMempool m pool with
      state := { (loadMempool m pool).state with last0 := x % 2 ^ 64 } } := by
  simp (disch := (unfold Apart; omega)) only [loadMempool, loadState, setLast0,
    load_store_apart, load_store_same]
  rfl

theorem loadMempool_setLast1 (m : Mem) (pool x : Nat) :
    loadMempool (setLast1 m pool x) pool = { loadMempool m pool with
      state := { (loadMempool m pool).state with last1 := x % 2 ^ 64 } } := by
  simp (disch := (unfold Apart; omega)) only [loadMempool, loadState, setLast1,
    load_store_apart, load_store_same]
  rfl

theorem loadMempool_setNext (m : Mem) (pool x : Nat) :
    loadMempool (setNext m pool x) pool = { loadMempool m pool with
      state := { (loadMempool m pool).state with next := x % 2 ^ 64 } } := by
  simp (disch := (unfold Apart; omega)) only [loadMempool, loadState, setNext,
    load_store_apart, load_store_same]
  rfl

theorem loadMempool_setUnused (m : Mem) (pool x : Nat) :
    loadMempool (setUnused m pool x) pool =
      { loadMempool m pool with unused := x % 2 ^ 64 } := by
  simp (disch := (unfold Apart; omega)) only [loadMempool, loadState, setUnused,
    load_store_apart, load_store_same]
  rfl

theorem loadMempool_setLastBig (m : Mem) (pool x : Nat) :
    loadMempool (setLastBig m pool x) pool =
      { loadMempool m pool with lastBig := x % 2 ^ 64 } := by
  simp (disch := (unfold Apart; omega)) only [loadMempool, loadState, setLastBig,
    load_store_apart, load_store_same]
  rfl

theorem loadMempool_setIndex (m : Mem) (pool x : Nat) :
    loadMempool (setIndex m pool x) pool = { loadMempool m pool with index := x % 2 ^ 32 } := by
  simp (disch := (unfold Apart; omega)) only [loadMempool, loadState, setIndex,
    load_store_apart, load_store_same]
  rfl

theorem storeState_changesOnly (m : Mem) (a : Nat) (v : MempoolState) :
    ChangesOnly m (storeState m a v) a mempoolStateSize := by
  have hfield : ∀ (m : Mem) (off n v : Nat), off + n ≤ mempoolStateSize →
      ChangesOnly m (store m (a + off) n v) a mempoolStateSize :=
    fun m off n v hfit => field_changesOnly m a off n v hfit
  have h1 := hfield m 0 4 v.free0 (by decide)
  have h2 := h1.trans (hfield _ 4 4 v.free1 (by decide))
  have h3 := h2.trans (hfield _ 8 8 v.last0 (by decide))
  have h4 := h3.trans (hfield _ 16 8 v.last1 (by decide))
  exact h4.trans (hfield _ 24 8 v.next (by decide))

theorem storeMempool_changesOnly (m : Mem) (pool : Nat) (v : Mempool) :
    ChangesOnly m (storeMempool m pool v) pool mempoolSize := by
  have hfield : ∀ (m : Mem) (off n v : Nat), off + n ≤ mempoolSize →
      ChangesOnly m (store m (pool + off) n v) pool mempoolSize :=
    fun m off n v hfit => field_changesOnly m pool off n v hfit
  have h1 : ChangesOnly m (storeState m pool v.state) pool mempoolSize := by
    apply (storeState_changesOnly m pool v.state).mono
    unfold Inside mempoolSize mempoolStateSize
    omega
  have h2 := h1.trans (hfield _ 32 8 v.unused (by decide))
  have h3 := h2.trans (hfield _ 40 8 v.lastBig (by decide))
  have h4 := h3.trans (hfield _ 48 4 v.chunkSize (by decide))
  have h5 := h4.trans (hfield _ 52 4 v.threshold (by decide))
  exact h5.trans (hfield _ 56 4 v.index (by decide))

theorem loadMempool_storeState (m : Mem) (pool : Nat) {st : MempoolState} (hst : st.Fits) :
    loadMempool (storeState m pool st) pool = { loadMempool m pool with state := st } := by
  have hbehind : ∀ off n, 32 ≤ off →
      load (storeState m pool st) (pool + off) n = load m (pool + off) n := by
    intro off n hoff
    apply load_of_agree
    apply (storeState_changesOnly m pool st).agree
    unfold Apart mempoolStateSize
    omega
  simp only [loadMempool, loadState_storeState m pool hst, hbehind 32 8 (by decide),
    hbehind 40 8 (by decide), hbehind 48 4 (by decide), hbehind 52 4 (by decide),
    hbehind 56 4 (by decide)]

/-- The values that the other fields of `struct mempool` can hold. -/
structure Mempool.Fits (v : Mempool) : Prop where
  state : v.state.Fits
  unused : v.unused < 2 ^ 64
  lastBig : v.lastBig < 2 ^ 64
  chunkSize : v.chunkSize < 2 ^ 32
  threshold : v.threshold < 2 ^ 32
  index : v.index < 2 ^ 32

theorem loadMempool_storeMempool (m : Mem) (pool : Nat) {v : Mempool} (hv : v.Fits) :
    loadMempool (storeMempool m pool v) pool = v := by
  obtain ⟨hstate, h1, h2, h3, h4, h5⟩ := hv
  have h256 : 256 ^ 8 = 2 ^ 64 ∧ 256 ^ 4 = 2 ^ 32 := by decide
  have hsame : loadState (storeMempool m pool v) pool = v.state := by
    have hkept : Agree (storeState m pool v.state) (storeMempool m pool v) pool
        mempoolStateSize := by
      intro x hl hu
      unfold mempoolStateSize at hu
      simp only [storeMempool, setUnused, setLastBig, setIndex]
      iterate 5 rw [store_outside (by omega)]
    rw [loadState_of_agree hkept, loadState_storeState m pool hstate]
  simp (disch := (unfold Apart; omega)) only [loadMempool, hsame]
  simp (disch := (unfold Apart; omega)) only [storeMempool, setUnused, setLastBig, setIndex,
    load_store_apart, load_store_same]
  rw [h256.1, h256.2, Nat.mod_eq_of_lt h1, Nat.mod_eq_of_lt h2, Nat.mod_eq_of_lt h3,
    Nat.mod_eq_of_lt h4, Nat.mod_eq_of_lt h5]

theorem chunkNext_setChunkNext (m : Mem) (chunk : Nat) {v : Nat} (hv : v < 2 ^ 64) :
    chunkNext (setChunkNext m chunk v) chunk = v := by
  rw [chunkNext, setChunkNext, load_store_same]
  exact Nat.mod_eq_of_lt hv

theorem chunkSize_setChunkNext (m : Mem) (chunk v : Nat) :
    chunkSize (setChunkNext m chunk v) chunk = chunkSize m chunk := by
  apply load_store_apart
  unfold Apart
  omega

theorem chunkNext_setChunkSize (m : Mem) (chunk v : Nat) :
    chunkNext (setChunkSize m chunk v) chunk = chunkNext m chunk := by
  apply load_store_apart
  unfold Apart
  omega

theorem chunkSize_setChunkSize (m : Mem) (chunk : Nat) {v : Nat} (hv : v < 2 ^ 32) :
    chunkSize (setChunkSize m chunk v) chunk = v := by
  rw [chunkSize, setChunkSize, load_store_same]
  exact Nat.mod_eq_of_lt hv

/-- Both fields of a trailer are read from its own bytes. -/
theorem trailer_of_agree {chunk : Nat} (h : Agree m m' chunk mpChunkTail) :
    chunkNext m' chunk = chunkNext m chunk ∧ chunkSize m' chunk = chunkSize m chunk := by
  rw [mpChunkTail_eq] at h
  constructor
  · apply load_of_agree
    apply h.mono
    unfold Inside
    omega
  · apply load_of_agree
    apply h.mono
    unfold Inside
    omega

end Fields

end OpenAAA.Pool
