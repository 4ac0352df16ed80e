import OpenAAA.Mem.MmPool

/-!
Runs of a mapped pool. The invariant describes a pool that has never left its
first block: the structure, the ranges returned since the last flush, the free
bytes and the trailer follow each other in one mapping. Every call that is served
from the current block keeps it.
-/

namespace OpenAAA.MappedPool

open Memory Alloc Sys Vblock

/-- What a call returned. -/
structure Range where
  addr : Nat
  size : Nat
  aligned : Bool
deriving DecidableEq, Repr

/-- A pool in use: the heap and the ranges returned since the last flush. -/
structure MmRun where
  heap : Heap
  ranges : List Range

/-- The calls of a run. The last one is a write of the program itself. -/
inductive MmCall where
  | alloc (size : Nat)
  | allocAligned (size : Nat)
  | flush
  | write (addr : Nat) (bytes : List Byte)

def MmRun.step (mmap : Allocator) (pool : Nat) (s : MmRun) : MmCall → Except Fault MmRun
  | .alloc size => do
      let (p, h) ← mmPoolAlloc mmap s.heap pool size
      return ⟨h, ⟨p, size, false⟩ :: s.ranges⟩
  | .allocAligned size => do
      let (p, h) ← mmPoolAllocAligned mmap s.heap pool size
      return ⟨h, ⟨p, size, true⟩ :: s.ranges⟩
  | .flush => do return ⟨← mmPoolFlush s.heap pool, []⟩
  | .write addr bytes =>
      .ok { s with heap := { s.heap with mem := write s.heap.mem addr bytes } }

def MmRun.run (mmap : Allocator) (pool : Nat) (s : MmRun) : List MmCall → Except Fault MmRun
  | [] => .ok s
  | call :: calls => do
      let s ← s.step mmap pool call
      s.run mmap pool calls

/-- The returned ranges lie in mappings of the pool, clear of its structure, of
the trailers it keeps and of each other. -/
structure RangesSound (pool : Nat) (s : MmRun) : Prop where
  mapped : ∀ r ∈ s.ranges, ∃ b ∈ s.heap.blocks, Inside r.addr r.size b.1 b.2
  header : ∀ r ∈ s.ranges, Apart r.addr r.size pool mmPoolSize
  trailer : ∀ r ∈ s.ranges, ∀ b, Keeps s.heap.mem pool b → Apart r.addr r.size b memVblockSize
  apart : s.ranges.Pairwise (fun r r' => Apart r.addr r.size r'.addr r'.size)
  aligned : ∀ r ∈ s.ranges, r.aligned = true → cpuStructAlign ∣ r.addr

/-- The call is served from what is left of the current block; the program only
writes into returned ranges or outside the pool's mappings. -/
def MmCall.FitsBlock (pool : Nat) (s : MmRun) : MmCall → Prop
  | .alloc size => size ≤ (loadState s.heap.mem pool).free0
  | .allocAligned size => size ≤ alignedAvail s.heap.mem pool
  | .flush => True
  | .write addr bytes => (∃ r ∈ s.ranges, Inside addr bytes.length r.addr r.size) ∨
      ∀ b ∈ s.heap.blocks, Apart addr bytes.length b.1 b.2

instance (pool : Nat) (s : MmRun) : (call : MmCall) → Decidable (call.FitsBlock pool s)
  | .alloc _ => inferInstanceAs (Decidable (_ ≤ _))
  | .allocAligned _ => inferInstanceAs (Decidable (_ ≤ _))
  | .flush => inferInstanceAs (Decidable True)
  | .write _ _ => inferInstanceAs (Decidable (_ ∨ _))

def FittingRun (mmap : Allocator) (pool : Nat) (s : MmRun) : List MmCall → Prop
  | [] => True
  | call :: calls => call.FitsBlock pool s ∧
      ∀ s' ∈ (s.step mmap pool call).toOption, FittingRun mmap pool s' calls

instance decidableFittingRun (mmap : Allocator) (pool : Nat) :
    (s : MmRun) → (calls : List MmCall) → Decidable (FittingRun mmap pool s calls)
  | _, [] => inferInstanceAs (Decidable True)
  | s, call :: calls =>
      have := fun s' => decidableFittingRun mmap pool s' calls
      inferInstanceAs (Decidable (_ ∧ ∀ s' ∈ (s.step mmap pool call).toOption,
        FittingRun mmap pool s' calls))

/-- A pool whose only block is the one it lies in. -/
structure Solo (pool size : Nat) (h : Heap) : Prop where
  header : mmPoolSize ≤ size
  aligned : cpuStructAlign ∣ pool + size
  addressable : pool + size + vblockTail ≤ 2 ^ 64
  blocks : h.blocks = [(pool, size + vblockTail)]
  last0 : (loadMmPool h.mem pool).state.last0 = pool + size
  last1 : (loadMmPool h.mem pool).state.last1 = 0
  free0 : (loadMmPool h.mem pool).state.free0 ≤ size - mmPoolSize
  unused : (loadMmPool h.mem pool).unused = 0
  trailerNext : vblockNext h.mem (pool + size) = 0
  trailerSize : vblockSize h.mem (pool + size) = size

/-- The ranges since the last flush lie below the free bytes of the block. -/
structure MmRunInv (pool size : Nat) (s : MmRun) : Prop where
  solo : Solo pool size s.heap
  placed : ∀ r ∈ s.ranges, Inside r.addr r.size (pool + mmPoolSize)
    (size - mmPoolSize - (loadMmPool s.heap.mem pool).state.free0)
  apart : s.ranges.Pairwise (fun r r' => Apart r.addr r.size r'.addr r'.size)
  aligned : ∀ r ∈ s.ranges, r.aligned = true → cpuStructAlign ∣ r.addr

section Solo

variable {pool size : Nat} {h : Heap} {s : MmRun}

theorem Solo.keeps {b : Nat} (hs : Solo pool size h) (hb : Keeps h.mem pool b) :
    b = pool + size := by
  have hsmalls : Linked.Chain (vblockNext h.mem) 0 (pool + size) [pool + size] :=
    ⟨rfl, hs.trailerNext⟩
  have hnone : Linked.Chain (vblockNext h.mem) 0 0 [] := rfl
  rw [Keeps, hs.last0, hs.last1, hs.unused] at hb
  rcases hb with hb | hb | hb
  · exact List.mem_singleton.mp (hsmalls.mem_of_reaches hb)
  · exact absurd (hnone.mem_of_reaches hb) List.not_mem_nil
  · exact absurd (hnone.mem_of_reaches hb) List.not_mem_nil

theorem MmRunInv.rangesSound (hs : MmRunInv pool size s) : RangesSound pool s := by
  have hheader := hs.solo.header
  have htail := vblockTail_eq
  refine ⟨?_, ?_, ?_, hs.apart, hs.aligned⟩
  · intro r hr
    have hin := hs.placed r hr
    refine ⟨(pool, size + vblockTail), by simp [hs.solo.blocks], ?_⟩
    unfold Inside at *
    omega
  · intro r hr
    have hin := hs.placed r hr
    unfold Inside at hin
    unfold Apart
    omega
  · intro r hr b hb
    have hin := hs.placed r hr
    rw [hs.solo.keeps hb]
    unfold Inside at hin
    unfold Apart
    omega

theorem Solo.trailer_ne_zero (hs : Solo pool size h) : pool + size ≠ 0 := by
  have hheader := hs.header
  unfold mmPoolSize at hheader
  omega

theorem Solo.header_apart_trailer (hs : Solo pool size h) :
    Apart pool mmPoolSize (pool + size) vblockTail := by
  have hheader := hs.header
  unfold Apart
  omega

/-- Writes into the pool's structure keep the trailer. -/
theorem Solo.trailer_of_changesOnly {m' : Mem} (hs : Solo pool size h)
    (hm : ChangesOnly h.mem m' pool mmPoolSize) :
    vblockNext m' (pool + size) = 0 ∧ vblockSize m' (pool + size) = size := by
  obtain ⟨hnext, hsize⟩ := vblock_of_agree (hm.agree hs.header_apart_trailer)
  exact ⟨hnext.trans hs.trailerNext, hsize.trans hs.trailerSize⟩

theorem Solo.set_free0 {x : Nat} (hs : Solo pool size h) (hx : x ≤ size - mmPoolSize) :
    Solo pool size { h with mem := setFree0 h.mem pool x } ∧
      (loadMmPool (setFree0 h.mem pool x) pool).state.free0 = x := by
  have haddr := hs.addressable
  have htail := vblockTail_eq
  have hfits : x % 2 ^ 64 = x := Nat.mod_eq_of_lt (by omega)
  have hload := loadMmPool_setFree0 h.mem pool x
  rw [hfits] at hload
  obtain ⟨hnext, hsize⟩ := hs.trailer_of_changesOnly (setFree0_changesOnly h.mem pool x)
  refine ⟨{ hs with last0 := ?_, last1 := ?_, free0 := ?_, unused := ?_,
                    trailerNext := hnext, trailerSize := hsize }, ?_⟩
  · rw [hload]
    exact hs.last0
  · rw [hload]
    exact hs.last1
  · rw [hload]
    exact hx
  · rw [hload]
    exact hs.unused
  · rw [hload]

/-- The first `n` of the last `avail` bytes of the block become a range. -/
theorem MmRunInv.carve {avail n : Nat} (aligned : Bool) (hs : MmRunInv pool size s)
    (havail : avail ≤ (loadMmPool s.heap.mem pool).state.free0) (hn : n ≤ avail)
    (haligned : aligned = true → cpuStructAlign ∣ avail) :
    MmRunInv pool size ⟨{ s.heap with mem := setFree0 s.heap.mem pool (avail - n) },
      ⟨sub64 (loadMmPool s.heap.mem pool).state.last0 avail, n, aligned⟩ :: s.ranges⟩ := by
  have hheader := hs.solo.header
  have haddr := hs.solo.addressable
  have hfree := hs.solo.free0
  have htail := vblockTail_eq
  have hstart : sub64 (pool + size) avail = pool + size - avail :=
    sub64_of_le (by omega) (by omega)
  have hleft : avail - n ≤ size - mmPoolSize := by omega
  obtain ⟨hsolo, hnew⟩ := hs.solo.set_free0 hleft
  rw [hs.solo.last0, hstart]
  refine ⟨hsolo, ?_, ?_, ?_⟩
  · intro r hr
    rw [hnew]
    rcases List.mem_cons.mp hr with rfl | hold
    · change Inside (pool + size - avail) n _ _
      unfold Inside
      omega
    · have hin := hs.placed r hold
      unfold Inside at *
      omega
  · refine List.pairwise_cons.mpr ⟨?_, hs.apart⟩
    intro r hr
    have hin := hs.placed r hr
    change Apart (pool + size - avail) n r.addr r.size
    unfold Inside at hin
    unfold Apart
    omega
  · intro r hr hal
    rcases List.mem_cons.mp hr with rfl | hold
    · exact Nat.dvd_sub hs.solo.aligned (haligned hal)
    · exact hs.aligned r hold hal

theorem Solo.touch_trailer (hs : Solo pool size h) : touch h (pool + size) = .ok () := by
  have hfits : size + vblockTail ≤ roundUp (size + vblockTail) cpuPageSize := by
    unfold roundUp cpuPageSize
    omega
  have hany : h.blocks.any (fun r => r.1 ≤ pool + size ∧
      pool + size + memVblockSize ≤ r.1 + roundUp r.2 cpuPageSize) = true := by
    rw [hs.blocks]
    apply List.any_eq_true.mpr
    refine ⟨_, List.mem_singleton_self _, decide_eq_true ⟨by omega, ?_⟩⟩
    have htail := vblockTail_eq
    unfold memVblockSize
    dsimp only
    omega
  rw [touch, if_pos hany]

/-- The loop of `mm_pool_flush` stops at the pool's own block. -/
theorem Solo.flushLoop_eq (hs : Solo pool size h) (fuel : Nat) :
    flushLoop pool fuel h (pool + size) = .ok (pool + size, h) := by
  have haddr := hs.addressable
  have htail := vblockTail_eq
  have hpool : sub64 (pool + size) (vblockSize h.mem (pool + size)) = pool := by
    rw [hs.trailerSize, sub64_of_le (by omega) (by omega)]
    omega
  rw [flushLoop.eq_def, if_neg hs.trailer_ne_zero, hs.touch_trailer, ok_bind, if_pos hpool]
  rfl

/-- A flush gives all of the block back. -/
theorem MmRunInv.flush (hs : MmRunInv pool size s) :
    ∃ h, mmPoolFlush s.heap pool = .ok h ∧ MmRunInv pool size ⟨h, []⟩ := by
  have hsolo := hs.solo
  have hheader := hsolo.header
  have haddr := hsolo.addressable
  have htail := vblockTail_eq
  have hload := loadMmPool_resetState s.heap.mem hsolo.trailer_ne_zero (by omega)
    hsolo.header_apart_trailer
  rw [hsolo.trailerSize, sub64_of_le (by omega) hheader] at hload
  obtain ⟨hnext, hsize⟩ :=
    hsolo.trailer_of_changesOnly (resetState_changesOnly s.heap.mem pool (pool + size))
  refine ⟨{ s.heap with mem := resetState s.heap.mem pool (pool + size) }, ?_, ?_, nofun,
    List.Pairwise.nil, nofun⟩
  · rw [mmPoolFlush, hsolo.last1, memVblockPurge_null, ok_bind, hsolo.last0,
      hsolo.flushLoop_eq, ok_bind]
    rfl
  · refine { hsolo with last0 := ?_, last1 := ?_, free0 := ?_, unused := ?_,
                        trailerNext := hnext, trailerSize := hsize }
    · rw [hload]
    · rw [hload]
    · rw [hload]
    · rw [hload]
      exact hsolo.unused

/-- The program's writes. -/
theorem MmRunInv.write {addr : Nat} {bytes : List Byte} (hs : MmRunInv pool size s)
    (hfits : (MmCall.write addr bytes).FitsBlock pool s) :
    MmRunInv pool size { s with heap := { s.heap with mem := write s.heap.mem addr bytes } } := by
  have hsolo := hs.solo
  have hheader := hsolo.header
  have htail := vblockTail_eq
  have hm := write_changesOnly s.heap.mem addr bytes
  obtain ⟨hpool, htrailer⟩ : Apart addr bytes.length pool mmPoolSize ∧
      Apart addr bytes.length (pool + size) vblockTail := by
    rcases hfits with ⟨r, hr, hin⟩ | houtside
    · have hplaced := hin.trans (hs.placed r hr)
      unfold Inside at hplaced
      unfold Apart
      omega
    · have happart := houtside (pool, size + vblockTail) (by simp [hsolo.blocks])
      exact ⟨happart.mono_right ⟨le_rfl, by dsimp only; omega⟩,
        happart.mono_right ⟨by dsimp only; omega, by dsimp only; omega⟩⟩
  have hload := loadMmPool_of_agree (hm.agree hpool)
  obtain ⟨hnext, hsize⟩ := vblock_of_agree (hm.agree htrailer)
  refine ⟨{ hsolo with last0 := ?_, last1 := ?_, free0 := ?_, unused := ?_,
                       trailerNext := hnext.trans hsolo.trailerNext,
                       trailerSize := hsize.trans hsolo.trailerSize }, ?_, hs.apart, hs.aligned⟩
  · rw [hload]
    exact hsolo.last0
  · rw [hload]
    exact hsolo.last1
  · rw [hload]
    exact hsolo.free0
  · rw [hload]
    exact hsolo.unused
  · intro r hr
    rw [hload]
    exact hs.placed r hr

end Solo

section Runs

variable {mmap : Allocator} {pool size : Nat} {h : Heap} {s : MmRun}

/-- Up to 4 GiB the size of the blocks fits the parameter of `mem_vblock_alloc`. -/
theorem newBlockSize_bounds (hsize : size ≤ 2 ^ 32) : mmPoolSize ≤ newBlockSize size ∧
    newBlockSize size < 2 ^ 32 ∧ cpuStructAlign ∣ newBlockSize size := by
  have htail := vblockTail_eq
  have hfit : max size (cpuCacheLine + vblockTail) + cpuPageSize - 1 < 2 ^ 64 := by
    unfold cpuCacheLine cpuPageSize
    omega
  have hround : roundUp (max size (cpuCacheLine + vblockTail)) cpuPageSize ≤ 2 ^ 32 ∧
      mmPoolSize + vblockTail ≤ roundUp (max size (cpuCacheLine + vblockTail)) cpuPageSize := by
    unfold roundUp mmPoolSize cpuCacheLine cpuPageSize
    omega
  have hdvd : cpuStructAlign ∣ roundUp (max size (cpuCacheLine + vblockTail)) cpuPageSize :=
    cpuStructAlign_dvd_cpuPageSize.trans (Nat.dvd_mul_left _ _)
  have htailDvd : cpuStructAlign ∣ vblockTail := alignTo_dvd _ _ _
  rw [newBlockSize, alignTo_eq_roundUp hfit, sub64_of_le (by omega) (by omega)]
  exact ⟨by omega, by omega, Nat.dvd_sub hdvd htailDvd⟩

theorem MmRunInv.new {m : Mem} {user : Nat} (hmmap : mmap.HandsOutFresh cpuPageSize)
    (huser : user ≤ 2 ^ 32) (hnew : mmPoolNew mmap ⟨m, [], 0⟩ user = .ok (pool, h)) :
    MmRunInv pool (newBlockSize user) ⟨h, []⟩ := by
  obtain ⟨hheader, hlt, hdvd⟩ := newBlockSize_bounds huser
  have htail := vblockTail_eq
  obtain ⟨⟨block, h₁⟩, halloc, hinit⟩ := exists_of_bind_ok hnew
  obtain ⟨page, hblock, ⟨_, hpage, haddr, _⟩, hblocks, hnext, hsize, hzero, _⟩ :=
    memVblockAlloc_ok hmmap hlt halloc
  dsimp only at hblock hblocks hnext hsize hzero
  generalize newBlockSize user = size at *
  subst hblock
  have hpool : sub64 (page + size) size = page := by
    rw [sub64_of_le (by omega) (by omega)]
    omega
  dsimp only at hinit
  rw [hpool] at hinit
  cases hinit
  have hm := initMmPool_changesOnly h₁.mem pool (pool + size) size
  have hlast : pool + size < 2 ^ 64 := by omega
  have hstate := loadState_initMmPool h₁.mem pool size hlast
  rw [sub64_of_le (by omega) hheader] at hstate
  have hunused : (loadMmPool h₁.mem pool).unused = 0 := by
    apply (load_eq_zero_iff _ _ _).mpr
    intro i hi
    unfold mmPoolSize at hheader
    exact hzero _ (by omega) (by omega)
  have happart : Apart pool mmPoolSize (pool + size) vblockTail := by
    unfold Apart
    omega
  obtain ⟨hnext', hsize'⟩ := vblock_of_agree (hm.agree happart)
  have hstruct : cpuStructAlign ∣ pool := cpuStructAlign_dvd_cpuPageSize.trans hpage
  refine ⟨⟨hheader, Nat.dvd_add hstruct hdvd, by omega, hblocks, ?_, ?_, ?_, ?_,
    hnext'.trans hnext, hsize'.trans hsize⟩, nofun, List.Pairwise.nil, nofun⟩
  · exact congrArg MmPoolState.last0 hstate
  · exact congrArg MmPoolState.last1 hstate
  · exact (congrArg MmPoolState.free0 hstate).le
  · exact (unused_initMmPool _ _ _ _).trans hunused

/-- A call that fits the block succeeds and keeps the invariant. -/
theorem MmRunInv.step (hs : MmRunInv pool size s) (call : MmCall)
    (hfits : call.FitsBlock pool s) :
    ∃ s', s.step mmap pool call = .ok s' ∧ MmRunInv pool size s' := by
  cases call with
  | alloc n =>
      have hok : mmPoolAlloc mmap s.heap pool n = .ok _ := if_pos hfits
      refine ⟨_, ?_, hs.carve false le_rfl hfits nofun⟩
      rw [MmRun.step, hok]
      rfl
  | allocAligned n =>
      have hok : mmPoolAllocAligned mmap s.heap pool n = .ok _ := if_pos hfits
      refine ⟨_, ?_, hs.carve true (Nat.sub_le _ _) hfits (fun _ => Nat.dvd_sub_mod _)⟩
      rw [MmRun.step, hok]
      rfl
  | flush =>
      obtain ⟨h, hflush, hinv⟩ := hs.flush
      refine ⟨⟨h, []⟩, ?_, hinv⟩
      rw [MmRun.step, hflush]
      rfl
  | write addr bytes => exact ⟨_, rfl, hs.write hfits⟩

theorem MmRunInv.run (calls : List MmCall) (s : MmRun) (hs : MmRunInv pool size s)
    (hfits : FittingRun mmap pool s calls) :
    ∃ s', s.run mmap pool calls = .ok s' ∧ MmRunInv pool size s' := by
  induction calls generalizing s with
  | nil => exact ⟨s, rfl, hs⟩
  | cons call calls ih =>
      obtain ⟨hcall, hrest⟩ := hfits
      obtain ⟨s₁, hstep, hs₁⟩ := hs.step call hcall
      obtain ⟨s', hrun, hs'⟩ := ih s₁ hs₁ (hrest s₁ (by rw [hstep]; rfl))
      refine ⟨s', ?_, hs'⟩
      rw [MmRun.run, hstep, ok_bind, hrun]

end Runs

/-- Where every call is served from the current block, no run fails and the ranges
are sound at every moment. -/
theorem mapped_pool_sound (mmap : Allocator) (hmmap : mmap.HandsOutFresh cpuPageSize) (m : Mem)
    (size pool : Nat) (h : Heap) (hsize : size ≤ 2 ^ 32)
    (hnew : mmPoolNew mmap ⟨m, [], 0⟩ size = .ok (pool, h)) (calls : List MmCall)
    (hfits : FittingRun mmap pool ⟨h, []⟩ calls) :
    ∃ s, MmRun.run mmap pool ⟨h, []⟩ calls = .ok s ∧ RangesSound pool s := by
  obtain ⟨s, hrun, hs⟩ := MmRunInv.run calls _ (MmRunInv.new hmmap hsize hnew) hfits
  exact ⟨s, hrun, hs.rangesSound⟩

/-- An `mmap` whose mappings start at multiples of 64 KiB. -/
def wideMmap : Allocator := stride cpuPageSize 0x10000 0x10000

/-- What `mm_pool_new` of the least size leaves there: one page. -/
def onePagePool : Heap :=
  ⟨initMmPool (setVblockNext (setVblockSize (store (fun _ => 0) 0x10000 4096 0) 0x10ff0 4080)
    0x10ff0 0) 0x10000 0x10ff0 4080, [(0x10000, 4096)], 1⟩

theorem onePagePool_new :
    mmPoolNew wideMmap ⟨fun _ => 0, [], 0⟩ 0 = .ok (0x10000, onePagePool) :=
  rfl

theorem mapped_pool_sound_flushed : ∃ s, MmRun.run wideMmap 0x10000 ⟨onePagePool, []⟩
    [.alloc 10, .allocAligned 100, .flush, .alloc 4008] = .ok s ∧ RangesSound 0x10000 s :=
  mapped_pool_sound wideMmap (stride_handsOutFresh _ _ _) (fun _ => 0) 0 0x10000 onePagePool
    (by decide) onePagePool_new _ (by decide +kernel)

/-- The 5000 bytes that the pool returns lie before the mapping made for them. -/
theorem mapped_pool_unsound_big_block : wideMmap.HandsOutFresh cpuPageSize ∧
    mmPoolNew wideMmap ⟨fun _ => 0, [], 0⟩ 0 = .ok (0x10000, onePagePool) ∧
    ∃ s, MmRun.run wideMmap 0x10000 ⟨onePagePool, []⟩ [.alloc 5000] = .ok s ∧
      ¬ RangesSound 0x10000 s := by
  refine ⟨stride_handsOutFresh _ _ _, onePagePool_new, ?_⟩
  have hview : (MmRun.run wideMmap 0x10000 ⟨onePagePool, []⟩ [.alloc 5000]).toOption.map
      (fun s => (s.ranges, s.heap.blocks)) =
        some ([⟨0x20000 - 5000, 5000, false⟩], [(0x20000, 5000), (0x10000, 4096)]) := by
    decide +kernel
  obtain ⟨s, hs⟩ := exists_of_isOk (x := MmRun.run wideMmap 0x10000 ⟨onePagePool, []⟩ [.alloc 5000])
    (by decide +kernel)
  rw [hs] at hview
  refine ⟨s, hs, ?_⟩
  intro hsound
  obtain ⟨hranges, hblocks⟩ := Prod.mk.inj (Option.some.inj hview)
  obtain ⟨b, hb, hin⟩ := hsound.mapped _ (hranges ▸ List.mem_singleton_self _)
  rw [hblocks] at hb
  revert b
  decide

end OpenAAA.MappedPool
