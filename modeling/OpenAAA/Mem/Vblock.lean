import OpenAAA.Lib.Heap
import OpenAAA.Sys.Compiler

/-!
`mem/vm.c` and `mem/block.c`: anonymous page mappings and the variable-size
blocks made of them. A block is known by the address of its trailer, a
`struct mem_vblock` that lies behind the data. The ranges of the heap are the
mappings, each as long as it was asked for; the kernel itself unmaps whole pages,
and reading a page that is not mapped ends the program.
-/

namespace OpenAAA.Vblock

open Memory Alloc Sys

/-- `a - n` in 64 bits, on pointers and on `size_t`. -/
def sub64 (a n : Nat) : Nat := (a + 2 ^ 64 - n % 2 ^ 64) % 2 ^ 64

theorem sub64_of_le {a n : Nat} (ha : a < 2 ^ 64) (hn : n ≤ a) : sub64 a n = a - n := by
  rw [sub64, Nat.mod_eq_of_lt (hn.trans_lt ha)]
  omega

/-- `vm_page_alloc`: zeroed pages, or `die` where `mmap` fails. An empty mapping
always fails. -/
def vmPageAlloc (mmap : Allocator) (h : Heap) (size : Nat) : Except Fault (Nat × Heap) :=
  if size = 0 then .error .die
  else match mmap h.requests h.blocks size with
    | none => .error .die
    | some page => .ok (page,
        ⟨store h.mem page size 0, (page, size) :: h.blocks, h.requests + 1⟩)

/-- What is left of a mapping when `[start, start+n)` is unmapped. -/
def cut (start n : Nat) (r : Nat × Nat) : List (Nat × Nat) :=
  let behind := max r.1 (start + n)
  [(r.1, min r.2 (start - r.1)), (behind, r.1 + r.2 - behind)].filter (fun p => p.2 ≠ 0)

/-- `vm_page_free`. What `munmap` refuses goes unnoticed. -/
def vmPageFree (h : Heap) (page size : Nat) : Heap :=
  if page % cpuPageSize ≠ 0 ∨ size = 0 ∨ 2 ^ 64 < page + size then h
  else { h with blocks := h.blocks.flatMap (cut page (roundUp size cpuPageSize)) }

/-- `b->node.next` of a `struct mem_vblock`. -/
def vblockNext (m : Mem) (b : Nat) : Nat := load m b 8

/-- `b->size` -/
def vblockSize (m : Mem) (b : Nat) : Nat := load m (b + 8) 4

def setVblockNext (m : Mem) (b v : Nat) : Mem := store m b 8 v

def setVblockSize (m : Mem) (b v : Nat) : Mem := store m (b + 8) 4 v

/-- `sizeof(struct mem_vblock)` -/
def memVblockSize : Nat := 16

/-- `_align_obj(sizeof(struct mem_vblock))`, and `_align_struct` of the same. -/
def vblockTail : Nat := alignTo 64 memVblockSize cpuStructAlign

/-- `mem_vblock_alloc`; its parameter is an `unsigned int`. -/
def memVblockAlloc (mmap : Allocator) (h : Heap) (size : Nat) : Except Fault (Nat × Heap) := do
  let size := size % 2 ^ 32
  let (page, h) ← vmPageAlloc mmap h (size + vblockTail)
  let b := page + size
  let m := setVblockSize h.mem b size
  return (b, { h with mem := setVblockNext m b 0 })

/-- The page that holds the trailer `b` can be read and written. -/
def touch (h : Heap) (b : Nat) : Except Fault Unit :=
  if h.blocks.any (fun r => r.1 ≤ b ∧ b + memVblockSize ≤ r.1 + roundUp r.2 cpuPageSize) then .ok ()
  else .error .unmapped

/-- `mem_vblock_free`. The difference `b - b->size` is one of pointers to
`struct mem_vblock`, so it is scaled. -/
def memVblockFree (h : Heap) (b : Nat) : Except Fault Heap := do
  touch h b
  let size := vblockSize h.mem b
  return vmPageFree h (sub64 b (memVblockSize * size)) (size + vblockTail)

/-- `slist_remove(node, prev)` -/
def slistRemove (h : Heap) (node prev : Nat) : Except Fault Heap := do
  if prev = 0 then return h
  touch h prev
  touch h node
  return { h with mem := setVblockNext h.mem prev (vblockNext h.mem node) }

/-- The loop of `mem_vblock_purge`. Every block comes from a request of its own,
so more turns than requests visit a block twice. -/
def purgeLoop (fuel : Nat) (h : Heap) (mmv : Nat) : Except Fault Heap :=
  if mmv = 0 then .ok h
  else match fuel with
    | 0 => .error .endless
    | fuel + 1 => do
        touch h mmv
        let it := vblockNext h.mem mmv
        let h ← slistRemove h mmv it
        let h ← memVblockFree h mmv
        purgeLoop fuel h it

def memVblockPurge (h : Heap) (mmv : Nat) : Except Fault Heap :=
  purgeLoop h.requests h mmv

theorem memVblockPurge_null (h : Heap) : memVblockPurge h 0 = .ok h := by
  rw [memVblockPurge, purgeLoop.eq_def, if_pos rfl]

theorem vblockTail_eq : vblockTail = 16 := by decide

section Trailers

variable {m m' : Mem} {b v : Nat}

theorem vblockNext_setVblockNext (hv : v < 2 ^ 64) : vblockNext (setVblockNext m b v) b = v := by
  rw [vblockNext, setVblockNext, load_store_same]
  exact Nat.mod_eq_of_lt hv

theorem vblockSize_setVblockSize (hv : v < 2 ^ 32) : vblockSize (setVblockSize m b v) b = v := by
  rw [vblockSize, setVblockSize, load_store_same]
  exact Nat.mod_eq_of_lt hv

theorem vblockSize_setVblockNext : vblockSize (setVblockNext m b v) b = vblockSize m b := by
  apply load_store_apart
  unfold Apart
  omega

/-- Both fields of a trailer are read from its own bytes. -/
theorem vblock_of_agree (h : Agree m m' b vblockTail) :
    vblockNext m' b = vblockNext m b ∧ vblockSize m' b = vblockSize m b := by
  rw [vblockTail_eq] at h
  constructor
  · apply load_of_agree
    apply h.mono
    unfold Inside
    omega
  · apply load_of_agree
    apply h.mono
    unfold Inside
    omega

end Trailers

section Allocation

variable {mmap : Allocator} {h : Heap} {size : Nat} {r : Nat × Heap}

/-- A mapping that `vm_page_alloc` returns is fresh. -/
theorem vmPageAlloc_ok (hmmap : mmap.HandsOutFresh cpuPageSize)
    (hr : vmPageAlloc mmap h size = .ok r) : Fresh cpuPageSize h.blocks r.1 size ∧
      r.2 = ⟨store h.mem r.1 size 0, (r.1, size) :: h.blocks, h.requests + 1⟩ := by
  rw [vmPageAlloc] at hr
  split at hr
  · cases hr
  · split at hr
    · cases hr
    · next page hpage =>
        cases hr
        exact ⟨hmmap _ _ _ _ hpage, rfl⟩

/-- A block of less than 4 GiB: its trailer is written behind its data and memory
outside the new mapping stays. -/
theorem memVblockAlloc_ok (hmmap : mmap.HandsOutFresh cpuPageSize) (hsize : size < 2 ^ 32)
    (hr : memVblockAlloc mmap h size = .ok r) : ∃ page, r.1 = page + size ∧
      Fresh cpuPageSize h.blocks page (size + vblockTail) ∧
      r.2.blocks = (page, size + vblockTail) :: h.blocks ∧
      vblockNext r.2.mem r.1 = 0 ∧ vblockSize r.2.mem r.1 = size ∧
      (∀ x, page ≤ x → x < page + size → r.2.mem x = 0) ∧
      ChangesOnly h.mem r.2.mem page (size + vblockTail) := by
  obtain ⟨⟨page, h₁⟩, halloc, hblock⟩ := exists_of_bind_ok hr
  rw [Nat.mod_eq_of_lt hsize] at halloc hblock
  obtain ⟨hfresh, hheap⟩ := vmPageAlloc_ok hmmap halloc
  dsimp only at hfresh hheap
  subst hheap
  cases hblock
  refine ⟨page, rfl, hfresh, rfl, ?_, ?_, ?_, ?_⟩
  · exact vblockNext_setVblockNext (by decide)
  · exact vblockSize_setVblockNext.trans (vblockSize_setVblockSize hsize)
  · intro x hl hu
    change setVblockNext (setVblockSize (store h.mem page (size + vblockTail) 0) _ size) _ 0 x = 0
    rw [setVblockNext, store_outside (by omega), setVblockSize, store_outside (by omega)]
    exact store_zero hl (by omega)
  · intro x hx
    have htail := vblockTail_eq
    change setVblockNext (setVblockSize (store h.mem page (size + vblockTail) 0) _ size) _ 0 x = h.mem x
    rw [setVblockNext, store_outside (by omega), setVblockSize, store_outside (by omega),
      store_outside (by omega)]

end Allocation

end OpenAAA.Vblock
