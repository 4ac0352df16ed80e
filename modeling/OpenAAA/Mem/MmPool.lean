import OpenAAA.Lib.Linked
import OpenAAA.Mem.Vblock

/-!
`mem/pool/mm.c`: memory pools over page mappings. The structures are read and
written field by field at the offsets of the x86-64 layout. The pool itself lies
at the start of its first block, and only the trailers of blocks, which may have
been unmapped, are checked before they are read.
-/

namespace OpenAAA.MappedPool

open Memory Alloc Sys Vblock

/-- `struct mm_pool_state`. Fields that an initialiser leaves out are zero. -/
structure MmPoolState where
  free0 : Nat := 0
  free1 : Nat := 0
  last0 : Nat := 0
  last1 : Nat := 0
  next : Nat := 0
deriving DecidableEq, Repr

/-- `struct mm_pool` -/
structure MmPool where
  state : MmPoolState
  unused : Nat
  last : Nat
  blockSize : Nat
  threshold : Nat
  index : Nat
  size : Nat
deriving DecidableEq, Repr

/-- `sizeof(struct mm_pool)` -/
def mmPoolSize : Nat := 72

def loadState (m : Mem) (pool : Nat) : MmPoolState where
  free0 := load m pool 8
  free1 := load m (pool + 8) 8
  last0 := load m (pool + 16) 8
  last1 := load m (pool + 24) 8
  next := load m (pool + 32) 8

def loadMmPool (m : Mem) (pool : Nat) : MmPool where
  state := loadState m pool
  unused := load m (pool + 40) 8
  last := load m (pool + 48) 8
  blockSize := load m (pool + 56) 4
  threshold := load m (pool + 60) 4
  index := load m (pool + 64) 4
  size := load m (pool + 68) 4

def setFree0 (m : Mem) (pool v : Nat) : Mem := store m pool 8 v

def setFree1 (m : Mem) (pool v : Nat) : Mem := store m (pool + 8) 8 v

def setLast0 (m : Mem) (pool v : Nat) : Mem := store m (pool + 16) 8 v

def setLast1 (m : Mem) (pool v : Nat) : Mem := store m (pool + 24) 8 v

def setNext (m : Mem) (pool v : Nat) : Mem := store m (pool + 32) 8 v

def setUnused (m : Mem) (pool v : Nat) : Mem := store m (pool + 40) 8 v

def setLast (m : Mem) (pool v : Nat) : Mem := store m (pool + 48) 8 v

def setIndex (m : Mem) (pool v : Nat) : Mem := store m (pool + 64) 4 v

/-- `pool->state = (struct mm_pool_state) { ... }` -/
def storeState (m : Mem) (pool : Nat) (v : MmPoolState) : Mem :=
  let m := setFree0 m pool v.free0
  let m := setFree1 m pool v.free1
  let m := setLast0 m pool v.last0
  let m := setLast1 m pool v.last1
  setNext m pool v.next

section Functions

variable (mmap : Allocator)

/-- `pool_alloc_threashold`. The start of a new mapping of `block_size` bytes is
used as the trailer. -/
def poolAllocThreashold (h : Heap) (pool size : Nat) : Except Fault (Nat × Heap) := do
  let v := loadMmPool h.mem pool
  let m := setIndex h.mem pool 0
  let (block, h) ← (
    if v.unused ≠ 0 then do
      touch h v.unused
      .ok (v.unused, { h with mem := setUnused m pool (vblockNext m v.unused) })
    else vmPageAlloc mmap { h with mem := m } v.blockSize)
  let m := setVblockNext h.mem block v.state.last0
  let m := setLast0 m pool block
  let m := setFree0 m pool (sub64 v.blockSize size)
  return (sub64 block v.blockSize, { h with mem := m })

/-- `pool_alloc_aligned_block`. Again the start of the mapping is the trailer. -/
def poolAllocAlignedBlock (h : Heap) (pool size : Nat) : Except Fault (Nat × Heap) := do
  let v := loadMmPool h.mem pool
  let aligned := alignTo 64 size cpuStructAlign
  let (block, h) ← vmPageAlloc mmap h aligned
  let m := setVblockNext h.mem block v.state.last1
  let m := setIndex m pool 1
  let m := setLast1 m pool block
  let m := setFree1 m pool (sub64 aligned size)
  let m := setLast m pool (sub64 block aligned)
  return (sub64 block aligned, { h with mem := m })

def poolAllocAvail (h : Heap) (pool size avail : Nat) : Nat × Heap :=
  (sub64 (loadState h.mem pool).last0 avail, { h with mem := setFree0 h.mem pool (avail - size) })

/-- `state.free[0]` without the bytes before the next aligned address; the mask
`~(CPU_STRUCT_ALIGN - 1)` clears the remainder. -/
def alignedAvail (m : Mem) (pool : Nat) : Nat :=
  (loadState m pool).free0 - (loadState m pool).free0 % cpuStructAlign

def mmPoolAllocAligned (h : Heap) (pool size : Nat) : Except Fault (Nat × Heap) :=
  let avail := alignedAvail h.mem pool
  if size ≤ avail then .ok (poolAllocAvail h pool size avail)
  else if size ≤ (loadMmPool h.mem pool).threshold then poolAllocThreashold mmap h pool size
  else poolAllocAlignedBlock mmap h pool size

def mmPoolAlloc (h : Heap) (pool size : Nat) : Except Fault (Nat × Heap) :=
  let s := loadState h.mem pool
  if size ≤ s.free0 then
    .ok (sub64 s.last0 s.free0, { h with mem := setFree0 h.mem pool (s.free0 - size) })
  else if size ≤ (loadMmPool h.mem pool).threshold then poolAllocThreashold mmap h pool size
  else poolAllocAlignedBlock mmap h pool size

/-- The loop of `mm_pool_flush`: the block it stops at and the heap. Blocks other
than the pool's own move to `pool->unused`. -/
def flushLoop (pool fuel : Nat) (h : Heap) (mmv : Nat) : Except Fault (Nat × Heap) :=
  if mmv = 0 then .ok (mmv, h)
  else do
    touch h mmv
    if sub64 mmv (vblockSize h.mem mmv) = pool then return (mmv, h)
    match fuel with
    | 0 => .error .endless
    | fuel + 1 =>
        let it := vblockNext h.mem mmv
        let m := setVblockNext h.mem mmv (loadMmPool h.mem pool).unused
        flushLoop pool fuel { h with mem := setUnused m pool mmv } it

/-- The assignments at the end of `mm_pool_flush`. -/
def resetState (m : Mem) (pool mmv : Nat) : Mem :=
  let m := setLast0 m pool mmv
  let m := setFree0 m pool (if mmv ≠ 0 then sub64 (vblockSize m mmv) mmPoolSize else 0)
  let m := setLast1 m pool 0
  let m := setFree1 m pool 0
  let m := setNext m pool 0
  setLast m pool (pool + 48)

def mmPoolFlush (h : Heap) (pool : Nat) : Except Fault Heap := do
  let h ← memVblockPurge h (loadMmPool h.mem pool).state.last1
  let (mmv, h) ← flushLoop pool h.requests h (loadMmPool h.mem pool).state.last0
  return { h with mem := resetState h.mem pool mmv }

/-- The size of the blocks of a pool, without their trailers. -/
def newBlockSize (size : Nat) : Nat :=
  sub64 (alignTo 64 (max size (cpuCacheLine + vblockTail)) cpuPageSize) vblockTail

/-- The assignments of `mm_pool_new`. They leave `unused` and `index` as they are. -/
def initMmPool (m : Mem) (pool block size : Nat) : Mem :=
  let m := storeState m pool { free0 := sub64 size mmPoolSize, last0 := block }
  let m := store m (pool + 56) 4 size
  let m := store m (pool + 60) 4 (size >>> 1)
  let m := setLast m pool (pool + 48)
  store m (pool + 68) 4 (vblockSize m block + vblockTail)

/-- The new pool and the heap that it lives in. -/
def mmPoolNew (h : Heap) (size : Nat) : Except Fault (Nat × Heap) := do
  let size := newBlockSize size
  let (block, h) ← memVblockAlloc mmap h size
  let pool := sub64 block size
  return (pool, { h with mem := initMmPool h.mem pool block size })

end Functions

/-- The trailers that a pool keeps: those on its lists of blocks. -/
def Keeps (m : Mem) (pool b : Nat) : Prop :=
  Linked.Reaches (vblockNext m) 0 (loadMmPool m pool).state.last0 b ∨
  Linked.Reaches (vblockNext m) 0 (loadMmPool m pool).state.last1 b ∨
  Linked.Reaches (vblockNext m) 0 (loadMmPool m pool).unused b

section Fields

variable {m m' : Mem} {pool : Nat}

theorem loadMmPool_of_agree (h : Agree m m' pool mmPoolSize) :
    loadMmPool m' pool = loadMmPool m pool := by
  have hfield : ∀ off n, off + n ≤ 72 → load m' (pool + off) n = load m (pool + off) n := by
    intro off n hfit
    apply load_of_agree
    apply h.mono
    unfold Inside mmPoolSize
    omega
  have hfree := hfield 0 8 (by decide)
  rw [Nat.add_zero] at hfree
  simp only [loadMmPool, loadState, hfree, hfield 8 8 (by decide), hfield 16 8 (by decide),
    hfield 24 8 (by decide), hfield 32 8 (by decide), hfield 40 8 (by decide),
    hfield 48 8 (by decide), hfield 56 4 (by decide), hfield 60 4 (by decide),
    hfield 64 4 (by decide), hfield 68 4 (by decide)]

theorem loadMmPool_setFree0 (m : Mem) (pool x : Nat) :
    loadMmPool (setFree0 m pool x) pool = { loadMmPool m pool with
      state := { (loadMmPool m pool).state with free0 := x % 2 ^ 64 } } := by
  simp (disch := (unfold Apart; omega)) only [loadMmPool, loadState, setFree0,
    load_store_apart, load_store_same]
  rfl

theorem setFree0_changesOnly (m : Mem) (pool x : Nat) :
    ChangesOnly m (setFree0 m pool x) pool mmPoolSize :=
  field_changesOnly m pool 0 8 x (by decide)

theorem resetState_changesOnly (m : Mem) (pool mmv : Nat) :
    ChangesOnly m (resetState m pool mmv) pool mmPoolSize := by
  have hfield : ∀ (m : Mem) (off v : Nat), off + 8 ≤ mmPoolSize →
      ChangesOnly m (store m (pool + off) 8 v) pool mmPoolSize :=
    fun m off v hfit => field_changesOnly m pool off 8 v hfit
  have h1 := hfield m 16 mmv (by decide)
  rw [resetState]
  generalize (if mmv ≠ 0 then _ else _) = free
  have h2 := h1.trans (setFree0_changesOnly _ pool free)
  have h3 := h2.trans (hfield _ 24 0 (by decide))
  have h4 := h3.trans (hfield _ 8 0 (by decide))
  have h5 := h4.trans (hfield _ 32 0 (by decide))
  exact h5.trans (hfield _ 48 (pool + 48) (by decide))

/-- A flush that ends at a block whose trailer is not part of the pool. -/
theorem loadMmPool_resetState (m : Mem) {mmv : Nat} (hmmv : mmv ≠ 0) (hlt : mmv < 2 ^ 64)
    (happart : Apart pool mmPoolSize mmv vblockTail) :
    loadMmPool (resetState m pool mmv) pool = { loadMmPool m pool with
      state := { free0 := sub64 (vblockSize m mmv) mmPoolSize, last0 := mmv }
      last := (pool + 48) % 2 ^ 64 } := by
  have hsize : vblockSize (setLast0 m pool mmv) mmv = vblockSize m mmv :=
    (vblock_of_agree ((field_changesOnly m pool 16 8 mmv (by decide)).agree happart)).2
  have hfree : ∀ x, sub64 x mmPoolSize % 256 ^ 8 = sub64 x mmPoolSize :=
    fun x => Nat.mod_eq_of_lt (Nat.mod_lt _ (by decide))
  have hlast : mmv % 256 ^ 8 = mmv := Nat.mod_eq_of_lt hlt
  rw [resetState, if_pos hmmv, hsize]
  simp (disch := (unfold Apart; omega)) only [loadMmPool, loadState, setLast0, setFree0, setLast1,
    setFree1, setNext, setLast, load_store_apart, load_store_same, hfree, hlast]
  rfl

theorem initMmPool_changesOnly (m : Mem) (pool block size : Nat) :
    ChangesOnly m (initMmPool m pool block size) pool mmPoolSize := by
  have hfield : ∀ (m : Mem) (off n v : Nat), off + n ≤ mmPoolSize →
      ChangesOnly m (store m (pool + off) n v) pool mmPoolSize :=
    fun m off n v hfit => field_changesOnly m pool off n v hfit
  have h1 := setFree0_changesOnly m pool (sub64 size mmPoolSize)
  have h2 := h1.trans (hfield _ 8 8 0 (by decide))
  have h3 := h2.trans (hfield _ 16 8 block (by decide))
  have h4 := h3.trans (hfield _ 24 8 0 (by decide))
  have h5 := h4.trans (hfield _ 32 8 0 (by decide))
  have h6 := h5.trans (hfield _ 56 4 size (by decide))
  have h7 := h6.trans (hfield _ 60 4 (size >>> 1) (by decide))
  have h8 := h7.trans (hfield _ 48 8 (pool + 48) (by decide))
  exact h8.trans (hfield _ 68 4 _ (by decide))

theorem loadState_initMmPool (m : Mem) (pool size : Nat) {block : Nat} (hblock : block < 2 ^ 64) :
    loadState (initMmPool m pool block size) pool =
      { free0 := sub64 size mmPoolSize, last0 := block } := by
  have hfree : sub64 size mmPoolSize % 256 ^ 8 = sub64 size mmPoolSize :=
    Nat.mod_eq_of_lt (Nat.mod_lt _ (by decide))
  have hlast : block % 256 ^ 8 = block := Nat.mod_eq_of_lt hblock
  simp (disch := (unfold Apart; omega)) only [initMmPool, storeState, loadState, setLast0, setFree0,
    setLast1, setFree1, setNext, setLast, load_store_apart, load_store_same, hfree, hlast]
  rfl

theorem unused_initMmPool (m : Mem) (pool block size : Nat) :
    (loadMmPool (initMmPool m pool block size) pool).unused = (loadMmPool m pool).unused := by
  simp (disch := (unfold Apart; omega)) only [loadMmPool, initMmPool, storeState, setLast0, setFree0,
    setLast1, setFree1, setNext, setLast, load_store_apart]

end Fields

end OpenAAA.MappedPool
