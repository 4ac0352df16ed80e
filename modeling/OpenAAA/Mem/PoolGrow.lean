import OpenAAA.Mem.PoolTip

/-!
Growing buffers, the `gbuf` part of `mem/pool.h`: `mp_start` opens the free end of
the newest chunk, `mp_grow` moves it to another chunk when it gets too small, and
`mp_end` closes it. `mp_realloc` is the same for the block that was allocated last.
An open buffer is a tip of which no byte is counted as used.
-/

namespace OpenAAA.Pool

open Memory Alloc Sys Linked

/-- `state.free[idx]` -/
def MempoolState.free (s : MempoolState) (idx : Nat) : Nat :=
  if idx = 0 then s.free0 else s.free1

/-- `state.last[idx]` -/
def MempoolState.last (s : MempoolState) (idx : Nat) : Nat :=
  if idx = 0 then s.last0 else s.last1

/-- `pool->state.free[idx] = v` -/
def setFree (m : Mem) (pool idx v : Nat) : Mem :=
  if idx = 0 then setFree0 m pool v else setFree1 m pool v

/-- `mp_idx`: one for the block that `last_big` points to. -/
def mpIdx (m : Mem) (pool ptr : Nat) : Nat :=
  if ptr = (loadMempool m pool).lastBig then 1 else 0

/-- The start of the growing buffer. -/
def mpPtr (m : Mem) (pool : Nat) : Nat :=
  let v := loadMempool m pool
  v.state.last v.index - v.state.free v.index

def mpAvail (m : Mem) (pool : Nat) : Nat :=
  let v := loadMempool m pool
  v.state.free v.index

/-- `mp_end`; `behind` is the end of the data to keep. -/
def mpEnd (h : Heap) (pool behind : Nat) : Nat × Heap :=
  let v := loadMempool h.mem pool
  (mpPtr h.mem pool,
    { h with mem := setFree h.mem pool v.index (v.state.last v.index - behind) })

def mpSize (m : Mem) (pool ptr : Nat) : Nat :=
  let idx := mpIdx m pool ptr
  let s := loadState m pool
  (s.last idx - ptr - s.free idx) % 2 ^ 32

def mpOpenFast (h : Heap) (pool ptr : Nat) : Nat × Heap :=
  let idx := mpIdx h.mem pool ptr
  let m := setIndex h.mem pool idx
  let s := loadState m pool
  let size := (s.last idx - ptr - s.free idx) % 2 ^ 32
  (size, { h with mem := setFree m pool idx (s.free idx + size) })

def mpOpen (h : Heap) (pool ptr : Nat) : Nat × Heap := mpOpenFast h pool ptr

section Functions

variable (malloc realloc : Allocator)

def mpStartInternal (h : Heap) (pool size : Nat) : Except Fault (Nat × Heap) := do
  let (ptr, h) ← mpAllocInternal malloc h pool size
  let v := loadMempool h.mem pool
  return (ptr, { h with mem := setFree h.mem pool v.index (v.state.free v.index + size) })

def mpStartFast (h : Heap) (pool size : Nat) : Except Fault (Nat × Heap) :=
  let s := loadState h.mem pool
  let avail := s.free0 - s.free0 % cpuStructAlign
  if size ≤ avail then
    .ok (s.last0 - avail, { h with mem := setFree0 (setIndex h.mem pool 0) pool avail })
  else mpStartInternal malloc h pool size

def mpStartFastNoalign (h : Heap) (pool size : Nat) : Except Fault (Nat × Heap) :=
  let s := loadState h.mem pool
  if size ≤ s.free0 then
    .ok (s.last0 - s.free0, { h with mem := setIndex h.mem pool 0 })
  else mpStartInternal malloc h pool size

def mpStart (h : Heap) (pool size : Nat) : Except Fault (Nat × Heap) :=
  mpStartFast malloc h pool size

def mpStartNoalign (h : Heap) (pool size : Nat) : Except Fault (Nat × Heap) :=
  mpStartFastNoalign malloc h pool size

/-- The data area that `mp_grow_internal` asks for when it enlarges a big chunk. -/
def amortized (avail size : Nat) : Nat :=
  let amortized := if avail ≤ mpSizeMax / 2 then avail * 2 else mpSizeMax
  alignTo 32 (max amortized size) cpuStructAlign

/-- `mp_grow_internal`. The result of `realloc` is not checked in the source; here a
refusal ends the run. -/
def mpGrowInternal (h : Heap) (pool size : Nat) : Except Fault (Nat × Heap) :=
  if mpSizeMax < size then .error .die
  else
    let avail := mpAvail h.mem pool
    let ptr := mpPtr h.mem pool
    if (loadMempool h.mem pool).index = 0 then do
      let (p, h) ← mpStartInternal malloc h pool size
      return (p, { h with mem := copy h.mem p ptr avail })
    else do
      let amortized := amortized avail size
      let next := chunkNext h.mem (loadMempool h.mem pool).state.last1
      let (ptr, h) ← h.realloc realloc ptr (amortized + mpChunkTail)
      let chunk := ptr + amortized
      let m := setChunkNext h.mem chunk next
      let m := setChunkSize m chunk amortized
      let m := setLast1 m pool chunk
      let m := setFree1 m pool amortized
      let m := setLastBig m pool ptr
      return (ptr, { h with mem := m })

def mpGrow (h : Heap) (pool size : Nat) : Except Fault (Nat × Heap) :=
  if size ≤ mpAvail h.mem pool then .ok (mpPtr h.mem pool, h)
  else mpGrowInternal malloc realloc h pool size

def mpExpand (h : Heap) (pool : Nat) : Except Fault (Nat × Heap) :=
  mpGrowInternal malloc realloc h pool ((mpAvail h.mem pool + 1) % 2 ^ 32)

/-- `mp_spread_internal`; the sum is passed on as an `unsigned int`. -/
def mpSpreadInternal (h : Heap) (pool p size : Nat) : Except Fault (Nat × Heap) := do
  let old := mpPtr h.mem pool
  let (new, h) ← mpGrowInternal malloc realloc h pool ((p - old + size) % 2 ^ 32)
  return (p - old + new, h)

def mpSpread (h : Heap) (pool p size : Nat) : Except Fault (Nat × Heap) :=
  let v := loadMempool h.mem pool
  if size ≤ (v.state.last v.index - p) % 2 ^ 32 then .ok (p, h)
  else mpSpreadInternal malloc realloc h pool p size

def mpReallocFast (h : Heap) (pool ptr size : Nat) : Except Fault (Nat × Heap) := do
  let (_, h) := mpOpenFast h pool ptr
  let (ptr, h) ← mpGrow malloc realloc h pool size
  let (_, h) := mpEnd h pool (ptr + size)
  return (ptr, h)

def mpRealloc (h : Heap) (pool ptr size : Nat) : Except Fault (Nat × Heap) :=
  mpReallocFast malloc realloc h pool ptr size

def mpReallocZero (h : Heap) (pool ptr size : Nat) : Except Fault (Nat × Heap) := do
  let (oldSize, h) := mpOpenFast h pool ptr
  let (ptr, h) ← mpGrow malloc realloc h pool size
  let m := if size > oldSize then store h.mem (ptr + oldSize) (size - oldSize) 0 else h.mem
  let (_, h) := mpEnd { h with mem := m } pool (ptr + size)
  return (ptr, h)

end Functions

section Counters

variable {h : Heap} {pool : Nat} {v : Mempool} {used : List (Nat × Nat)} {saved : List Saved}
  {n k idx ptr avail : Nat} {m' : Mem}

/-- The state with another value of `free[idx]`. -/
def MempoolState.withFree (s : MempoolState) (idx free : Nat) : MempoolState :=
  if idx = 0 then { s with free0 := free } else { s with free1 := free }

theorem loadMempool_setFree (m : Mem) (pool idx x : Nat) :
    loadMempool (setFree m pool idx x) pool = { loadMempool m pool with
      state := (loadMempool m pool).state.withFree idx (x % 2 ^ 32) } := by
  unfold setFree MempoolState.withFree
  split
  · exact loadMempool_setFree0 m pool x
  · exact loadMempool_setFree1 m pool x

theorem setFree_changesOnly (m : Mem) (pool idx x : Nat) :
    ChangesOnly m (setFree m pool idx x) pool mempoolSize := by
  unfold setFree
  split
  · exact field_changesOnly m pool 0 4 x (by decide)
  · exact field_changesOnly m pool 4 4 x (by decide)

theorem Tip.last_eq (ht : Tip h pool v used saved n idx ptr avail) :
    ptr + avail = v.state.last idx := by
  cases ht with
  | small htip =>
      obtain ⟨hbody, havail, hptr, _⟩ := htip
      have hfree : v.state.free0 + n ≤ v.chunkSize := hbody.level.free0
      have hmem : v.state.last0 ∈ _ := hbody.last0_mem
      have hbase := hbody.owned.base _ (mem_of_linked (List.mem_append_left _ hmem))
      rw [hbody.small _ (List.mem_append_left _ hmem)] at hbase
      have hlt : v.chunkSize < v.state.last0 := hbase
      change ptr + avail = v.state.last0
      omega
  | big htip =>
      obtain ⟨hbody, havail, _, hptr, _⟩ := htip
      have hbase := hbody.owned.base v.state.last1 (by simp)
      change ptr + avail = v.state.last1
      omega

theorem Tip.free_eq (ht : Tip h pool v used saved n idx ptr avail) :
    v.state.free idx + n = avail := by
  cases ht with
  | small htip => exact htip.avail_eq
  | big htip => exact htip.free1

theorem Tip.avail_lt (ht : Tip h pool v used saved n idx ptr avail) : avail < 2 ^ 32 := by
  cases ht with
  | small htip =>
      have hfree : v.state.free0 + n ≤ v.chunkSize := htip.body.level.free0
      have hmax : v.chunkSize < 2 ^ 32 := htip.body.size_max
      have havail := htip.avail_eq
      omega
  | big htip =>
      rw [← htip.avail_eq]
      exact load_lt _ _ 4

/-- Only the counter and the index of the header change. -/
theorem Tip.resize {free i : Nat} (ht : Tip h pool v used saved n idx ptr avail)
    (hm : ChangesOnly h.mem m' pool mempoolSize) (hfree : free + k = avail) :
    Tip { h with mem := m' } pool { v with index := i, state := v.state.withFree idx free }
      used saved k idx ptr avail := by
  cases ht with
  | small htip =>
      obtain ⟨hbody, hsizes, _⟩ := htip.body.header_write hm
      have hsum : free + k = v.state.free0 + n := hfree.trans htip.avail_eq.symm
      have hlast : LastBigSound h.mem pool (v.giveBack n) := htip.lastBig
      exact .small ⟨hbody.of_fields hsum rfl rfl rfl rfl rfl rfl, hfree, htip.ptr_eq,
        hlast.kept htip.body rfl rfl hsizes⟩
  | @big _ _ smalls bigs unused htip =>
      obtain ⟨hbody, hsizes, hnexts⟩ := htip.body.header_write hm
      have hmem : v.state.last1 ∈ [v.state.last1] ++ (smalls ++ (bigs ++ unused)) := by simp
      exact .big ⟨hbody.of_fields rfl rfl (hnexts _ hmem) rfl rfl rfl rfl,
        (hsizes _ hmem).trans htip.avail_eq, hfree, htip.ptr_eq, htip.lastBig⟩

/-- A small tip never starts where `last_big` points. -/
theorem SmallTip.ptr_ne {smalls bigs unused : List Nat}
    (htip : SmallTip h pool v used saved n ptr avail smalls bigs unused) : ptr ≠ v.lastBig := by
  have htail := mpChunkTail_eq
  have hlast : ptr + avail = v.state.last0 := (Tip.small htip).last_eq
  have hrange := (Tip.small htip).apart_used htip.body.header_used
  obtain ⟨hbody, havail, _, hbig⟩ := htip
  have hfree : v.state.free0 + n ≤ v.chunkSize := hbody.level.free0
  have hmem : v.state.last0 ∈ smalls := hbody.last0_mem
  have hall : v.state.last0 ∈ [] ++ (smalls ++ (bigs ++ unused)) := by simp [hmem]
  have hsize : chunkSize h.mem v.state.last0 = v.chunkSize :=
    hbody.small _ (List.mem_append_left _ hmem)
  rcases hbig with hnone | ⟨hne, hstart⟩
  · -- The structure of the pool is apart from the tip, and from the trailer behind it.
    have htrailer := hbody.used_apart_trailer hbody.header_used hall
    rw [hnone]
    unfold Apart mempoolSize at *
    omega
  · -- The newest big chunk is another chunk.
    have hin : v.state.last1 ∈ bigs := hbody.last1_mem hne
    have hdiff : v.state.last0 ≠ v.state.last1 :=
      hbody.last0_ne (List.mem_append_right _ hin)
    have happart := hbody.owned.blocks_apart hall (by simp [hin]) hdiff
    simp only [ApartRange, chunkBlock, Apart, hsize] at happart
    rw [hstart]
    omega

/-- `mp_idx` recognises the tip. -/
theorem Tip.idx_eq (ht : Tip h pool v used saved n idx ptr avail)
    (hv : loadMempool h.mem pool = v) : mpIdx h.mem pool ptr = idx := by
  rw [mpIdx, hv]
  cases ht with
  | small htip => exact if_neg htip.ptr_ne
  | big htip => rw [htip.lastBig, if_pos rfl]

/-- `mp_size` of the tip. -/
theorem Tip.size_eq (ht : Tip h pool v used saved n idx ptr avail)
    (hv : loadMempool h.mem pool = v) : mpSize h.mem pool ptr = n := by
  have hstate : loadState h.mem pool = v.state := congrArg Mempool.state hv
  have hlast := ht.last_eq
  have hfree := ht.free_eq
  have hlt := ht.avail_lt
  have hsize : v.state.last idx - ptr - v.state.free idx = n := by omega
  rw [mpSize, ht.idx_eq hv, hstate, hsize]
  exact Nat.mod_eq_of_lt (by omega)

end Counters

/-- A growing buffer of `avail` bytes is open. -/
def Opened (h : Heap) (pool : Nat) (used : List (Nat × Nat)) (saved : List Saved)
    (ptr avail : Nat) : Prop :=
  Tip h pool (loadMempool h.mem pool) used saved 0 (loadMempool h.mem pool).index ptr avail

/-- The ranges in use hold what they held, but for the pool's structure. -/
def UsedKept (m m' : Mem) (pool : Nat) (used : List (Nat × Nat)) : Prop :=
  ∀ r ∈ used, Apart r.1 r.2 pool mempoolSize → Agree m m' r.1 r.2

section Opening

variable {dies : Prop} {malloc realloc : Allocator} {h : Heap} {pool : Nat} {v : Mempool}
  {smalls bigs unused : List Nat} {used : List (Nat × Nat)} {saved : List Saved}
  {n k idx ptr avail size : Nat}

theorem Opened.avail_eq (ho : Opened h pool used saved ptr avail) : mpAvail h.mem pool = avail :=
  Tip.free_eq ho

theorem Opened.ptr_eq (ho : Opened h pool used saved ptr avail) : mpPtr h.mem pool = ptr := by
  have hlast := Tip.last_eq ho
  have hfree := ho.avail_eq
  unfold mpAvail at hfree
  rw [mpPtr, hfree, ← hlast, Nat.add_sub_cancel]

/-- `mp_end` keeps the first `k` bytes. -/
theorem mpEnd_eq (ho : Opened h pool used saved ptr avail) (hk : k ≤ avail) :
    ∃ m', mpEnd h pool (ptr + k) = (ptr, { h with mem := m' }) ∧
      ChangesOnly h.mem m' pool mempoolSize ∧
      Tip { h with mem := m' } pool (loadMempool m' pool) used saved k
        (loadMempool h.mem pool).index ptr avail := by
  have hlast := Tip.last_eq ho
  have hlt := Tip.avail_lt ho
  have hrest : (loadMempool h.mem pool).state.last (loadMempool h.mem pool).index - (ptr + k) =
      avail - k := by omega
  have hmod : (avail - k) % 2 ^ 32 = avail - k := Nat.mod_eq_of_lt (by omega)
  have hm := setFree_changesOnly h.mem pool (loadMempool h.mem pool).index (avail - k)
  refine ⟨setFree h.mem pool (loadMempool h.mem pool).index (avail - k), ?_, hm, ?_⟩
  · rw [mpEnd, ho.ptr_eq, hrest]
  · rw [loadMempool_setFree, hmod]
    exact Tip.resize ho hm (Nat.sub_add_cancel hk)

/-- `mp_open` counts the whole tip as free and returns what was in use. -/
theorem mpOpenFast_eq (ht : Tip h pool v used saved n idx ptr avail)
    (hv : loadMempool h.mem pool = v) :
    ∃ m', mpOpenFast h pool ptr = (n, { h with mem := m' }) ∧
      ChangesOnly h.mem m' pool mempoolSize ∧
      Opened { h with mem := m' } pool used saved ptr avail := by
  have hlast := ht.last_eq
  have hfree := ht.free_eq
  have hlt := ht.avail_lt
  have hindex : idx % 2 ^ 32 = idx := by
    cases ht with
    | small _ => rfl
    | big _ => rfl
  have hload : loadMempool (setIndex h.mem pool idx) pool = { v with index := idx } := by
    rw [loadMempool_setIndex, hv, hindex]
  have hstate : loadState (setIndex h.mem pool idx) pool = v.state :=
    congrArg Mempool.state hload
  have hsize : (v.state.last idx - ptr - v.state.free idx) % 2 ^ 32 = n := by
    have hsub : v.state.last idx - ptr - v.state.free idx = n := by omega
    rw [hsub]
    exact Nat.mod_eq_of_lt (by omega)
  have hm : ChangesOnly h.mem (setFree (setIndex h.mem pool idx) pool idx avail)
      pool mempoolSize :=
    (field_changesOnly _ pool 56 4 idx (by decide)).trans (setFree_changesOnly _ pool idx avail)
  have hfinal : loadMempool (setFree (setIndex h.mem pool idx) pool idx avail) pool =
      { v with index := idx, state := v.state.withFree idx avail } := by
    rw [loadMempool_setFree, hload, Nat.mod_eq_of_lt hlt]
  refine ⟨setFree (setIndex h.mem pool idx) pool idx avail, ?_, hm, ?_⟩
  · rw [mpOpenFast, ht.idx_eq hv, hstate, hsize, hfree]
  · unfold Opened
    dsimp only
    rw [hfinal]
    exact ht.resize hm rfl

theorem mpStartInternal_opens (hmalloc : malloc.HandsOutFresh cpuStructAlign)
    (hb : Body h pool v [] smalls bigs unused used saved) (hv : loadMempool h.mem pool = v)
    (hbig : LastBigSound h.mem pool v) (hmax : size ≤ mpSizeMax ∨ dies) :
    Yields dies (mpStartInternal malloc h pool size) (fun r => ∃ avail, size ≤ avail ∧
      Opened r.2 pool used saved r.1 avail ∧ DataKept h r.2 pool ∧ cpuStructAlign ∣ r.1) := by
  refine ((mpAllocInternal_serves hmalloc hb hv hbig hmax).and
    (mpAllocInternal_yields hmalloc hb hv hmax)).bind ?_
  rintro ⟨p, h₁⟩ ⟨⟨⟨avail, ht⟩, hkept⟩, _, hdvd⟩
  dsimp only at ht hkept hdvd
  have hfree := ht.free_eq
  have hm := setFree_changesOnly h₁.mem pool (loadMempool h₁.mem pool).index avail
  refine .ok ⟨avail, ht.le, ?_, ?_, hdvd⟩
  · unfold Opened
    dsimp only
    rw [hfree, loadMempool_setFree, Nat.mod_eq_of_lt ht.avail_lt]
    exact ht.resize hm rfl
  · intro a k hpool hin
    dsimp only
    rw [hfree]
    exact (hkept a k hpool hin).trans (hm.agree hpool.symm)

/-- The free bytes of the newest small chunk become the buffer. -/
theorem Body.open_small {m' : Mem} (hb : Body h pool v [] smalls bigs unused used saved)
    (hbig : LastBigSound h.mem pool v) (havail : avail ≤ v.state.free0)
    (hm : ChangesOnly h.mem m' pool mempoolSize)
    (hload : loadMempool m' pool =
      { v with index := 0, state := { v.state with free0 := avail } }) :
    Opened { h with mem := m' } pool used saved (v.state.last0 - avail) avail := by
  obtain ⟨hbody, hsizes, _⟩ := (hb.skip havail).header_write hm
  unfold Opened
  rw [hload]
  exact .small ⟨hbody.of_fields rfl rfl rfl rfl rfl rfl rfl, rfl, rfl,
    hbig.kept hb rfl rfl hsizes⟩

theorem mpStartFast_opens (hmalloc : malloc.HandsOutFresh cpuStructAlign)
    (hb : Body h pool v [] smalls bigs unused used saved) (hv : loadMempool h.mem pool = v)
    (hbig : LastBigSound h.mem pool v) (hmax : size ≤ mpSizeMax ∨ dies) :
    Yields dies (mpStartFast malloc h pool size) (fun r => ∃ avail, size ≤ avail ∧
      Opened r.2 pool used saved r.1 avail ∧ DataKept h r.2 pool ∧ cpuStructAlign ∣ r.1) := by
  have hstate : loadState h.mem pool = v.state := congrArg Mempool.state hv
  rw [mpStartFast, hstate]
  split
  · next hfit =>
      have hle : v.state.free0 - v.state.free0 % cpuStructAlign ≤ v.state.free0 := Nat.sub_le _ _
      have hdvd : cpuStructAlign ∣ v.state.free0 - v.state.free0 % cpuStructAlign :=
        Nat.dvd_sub_mod _
      have hlt : v.state.free0 - v.state.free0 % cpuStructAlign < 2 ^ 32 := by
        have hfits := (loadState_fits h.mem pool).free0
        rw [hstate] at hfits
        omega
      generalize v.state.free0 - v.state.free0 % cpuStructAlign = avail at *
      have hm : ChangesOnly h.mem (setFree0 (setIndex h.mem pool 0) pool avail)
          pool mempoolSize :=
        (field_changesOnly _ pool 56 4 0 (by decide)).trans
          (field_changesOnly _ pool 0 4 avail (by decide))
      refine .ok ⟨avail, hfit, hb.open_small hbig hle hm ?_, DataKept.of_header hm, ?_⟩
      · rw [loadMempool_setFree0, loadMempool_setIndex, hv, Nat.mod_eq_of_lt hlt]
        rfl
      · have haligned := hb.owned.aligned _ (mem_of_linked (List.mem_append_left _ hb.last0_mem))
        exact Nat.dvd_sub haligned hdvd
  · exact mpStartInternal_opens hmalloc hb hv hbig hmax

theorem mpStartFastNoalign_opens (hmalloc : malloc.HandsOutFresh cpuStructAlign)
    (hb : Body h pool v [] smalls bigs unused used saved) (hv : loadMempool h.mem pool = v)
    (hbig : LastBigSound h.mem pool v) (hmax : size ≤ mpSizeMax ∨ dies) :
    Yields dies (mpStartFastNoalign malloc h pool size) (fun r => ∃ avail, size ≤ avail ∧
      Opened r.2 pool used saved r.1 avail ∧ DataKept h r.2 pool) := by
  have hstate : loadState h.mem pool = v.state := congrArg Mempool.state hv
  rw [mpStartFastNoalign, hstate]
  split
  · next hfit =>
      have hm : ChangesOnly h.mem (setIndex h.mem pool 0) pool mempoolSize :=
        field_changesOnly _ pool 56 4 0 (by decide)
      refine .ok ⟨v.state.free0, hfit, hb.open_small hbig le_rfl hm ?_, DataKept.of_header hm⟩
      rw [loadMempool_setIndex, hv]
      rfl
  · refine (mpStartInternal_opens hmalloc hb hv hbig hmax).mono ?_
    rintro r ⟨avail, hsize, hopened, hkept, _⟩
    exact ⟨avail, hsize, hopened, hkept⟩

end Opening

/-- What growing does: the buffer has at least `size` bytes and starts with all the
bytes it had before, and nothing else has changed. -/
structure Grown (h : Heap) (pool : Nat) (used : List (Nat × Nat)) (saved : List Saved)
    (ptr avail size : Nat) (r : Nat × Heap) (avail' : Nat) : Prop where
  opened : Opened r.2 pool used saved r.1 avail'
  enough : size ≤ avail'
  longer : avail ≤ avail'
  copied : ∀ i < avail, r.2.mem (r.1 + i) = h.mem (ptr + i)
  kept : UsedKept h.mem r.2.mem pool used
  aligned : cpuStructAlign ∣ ptr → cpuStructAlign ∣ r.1

section Growing

variable {dies : Prop} {malloc realloc : Allocator} {h : Heap} {pool : Nat}
  {used : List (Nat × Nat)} {saved : List Saved} {ptr avail size : Nat}

/-- A buffer in a small chunk is copied to another chunk. -/
theorem mpGrowInternal_small (hmalloc : malloc.HandsOutFresh cpuStructAlign)
    (ho : Opened h pool used saved ptr avail) (hindex : (loadMempool h.mem pool).index = 0)
    (hlt : avail < size) (hmax : size ≤ mpSizeMax) :
    Yields dies (mpGrowInternal malloc realloc h pool size)
      (fun r => ∃ avail', Grown h pool used saved ptr avail size r avail') := by
  have hclear := Tip.clear ho
  have hin := Tip.inData ho
  have hused : ∀ r ∈ used, InData h r.1 r.2 := fun r hr => Tip.used_inData ho hr
  obtain ⟨v, hv⟩ : ∃ v, loadMempool h.mem pool = v := ⟨_, rfl⟩
  obtain ⟨smalls, bigs, unused, hb⟩ : ∃ smalls bigs unused,
      Body h pool v [] smalls bigs unused used saved := by
    unfold Opened at ho
    rw [hindex, hv] at ho
    cases ho with
    | small htip => exact ⟨_, _, _, htip.body⟩
  have hbig := Tip.lastBigSound ho
  rw [mpGrowInternal, if_neg (Nat.not_lt.mpr hmax)]
  dsimp only
  rw [if_pos hindex, ho.avail_eq, ho.ptr_eq]
  refine (mpStartInternal_opens hmalloc hb hv (hv ▸ hbig) (Or.inl hmax)).bind ?_
  rintro ⟨p, h₁⟩ ⟨avail', hsize, hopened, hkept, hdvd⟩
  dsimp only at hopened hkept hdvd
  have hcopy := copy_changesOnly h₁.mem p ptr avail
  have hpart : Inside p avail p avail' := ⟨le_rfl, by omega⟩
  have hclear' := (Tip.clear hopened).mono hpart
  refine .ok ⟨avail', ?_, hsize, by omega, ?_, ?_, fun _ => hdvd⟩
  · unfold Opened
    dsimp only
    rw [loadMempool_of_agree (hcopy.agree hclear'.header)]
    exact Tip.write hopened hcopy hclear'
  · intro i hi
    dsimp only
    rw [copy_byte _ _ _ hi]
    exact hkept ptr avail hclear.header hin (ptr + i) (by omega) (by omega)
  · intro r hr hpool
    have happart := (Tip.apart_used hopened hr).mono_left hpart
    exact (hkept r.1 r.2 hpool (hused r hr)).trans (hcopy.agree happart)

theorem amortized_bounds (hmax : size ≤ mpSizeMax) :
    cpuStructAlign ∣ amortized avail size ∧ size ≤ amortized avail size ∧
      amortized avail size < 2 ^ 32 := by
  have hlimit : (if avail ≤ mpSizeMax / 2 then avail * 2 else mpSizeMax) ≤ mpSizeMax := by
    split <;> omega
  obtain ⟨hdvd, hle, hlt⟩ := alignTo_bounds (Nat.max_le.mpr ⟨hlimit, hmax⟩)
  exact ⟨hdvd, (Nat.le_max_right _ _).trans hle, hlt⟩

/-- The trailer and the header that `mp_grow_internal` writes turn a fresh range into
the newest big chunk. -/
theorem Body.open_big {v : Mempool} {smalls bigs unused : List Nat} {m m' : Mem}
    {a wide next requests : Nat}
    (hb : Body h pool { v with state := { v.state with last1 := next } } [] smalls bigs unused
      used saved)
    (hv : loadMempool h.mem pool = v) (hindex : v.index = 1)
    (hfresh : Fresh cpuStructAlign h.blocks a (wide + mpChunkTail)) (hdvd : cpuStructAlign ∣ wide)
    (hshort : wide < 2 ^ 32) (hnext : next < 2 ^ 64)
    (hm : ChangesOnly h.mem m a (wide + mpChunkTail))
    (hm' : m' = setLastBig (setFree1 (setLast1 (setChunkSize (setChunkNext m (a + wide) next)
      (a + wide) wide) pool (a + wide)) pool wide) pool a) :
    Opened ⟨m', (a, wide + mpChunkTail) :: h.blocks, requests⟩ pool used saved a wide ∧
      (∀ i < wide, m' (a + i) = m (a + i)) ∧ UsedKept h.mem m' pool used := by
  have htail := mpChunkTail_eq
  have htop := hfresh.2.2.1
  have hlast : (a + wide) % 2 ^ 64 = a + wide := Nat.mod_eq_of_lt (by omega)
  have hstart : a % 2 ^ 64 = a := Nat.mod_eq_of_lt (by omega)
  -- The trailer, at the end of the fresh range.
  have htrailer : ChangesOnly m (setChunkSize (setChunkNext m (a + wide) next) (a + wide) wide)
      (a + wide) mpChunkTail :=
    (field_changesOnly _ (a + wide) 0 8 next (by decide)).trans
      (field_changesOnly _ (a + wide) 8 4 wide (by decide))
  have hlink : chunkNext (setChunkSize (setChunkNext m (a + wide) next) (a + wide) wide)
      (a + wide) = next := by
    rw [chunkNext_setChunkSize, chunkNext_setChunkNext _ _ hnext]
  have hdata : chunkSize (setChunkSize (setChunkNext m (a + wide) next) (a + wide) wide)
      (a + wide) = wide := chunkSize_setChunkSize _ _ hshort
  generalize setChunkSize (setChunkNext m (a + wide) next) (a + wide) wide = m₁ at *
  have hm₁ : ChangesOnly h.mem m₁ a (wide + mpChunkTail) :=
    hm.trans (htrailer.mono ⟨by omega, by omega⟩)
  obtain ⟨hadopted, hheader, _⟩ := hb.adopt hfresh hdvd hm₁ hdata requests
  -- The header.
  have hwrites : ChangesOnly m₁ m' pool mempoolSize := by
    rw [hm']
    exact ((field_changesOnly _ pool 16 8 (a + wide) (by decide)).trans
      (field_changesOnly _ pool 4 4 wide (by decide))).trans
      (field_changesOnly _ pool 40 8 a (by decide))
  have hfinal : loadMempool m' pool =
      { v with state := { v.state with last1 := a + wide, free1 := wide }, lastBig := a } := by
    rw [hm', loadMempool_setLastBig, loadMempool_setFree1, loadMempool_setLast1, hheader, hv,
      hlast, hstart, Nat.mod_eq_of_lt hshort]
  obtain ⟨hbody, hsizes, hnexts⟩ := hadopted.header_write hwrites
  have hmem : a + wide ∈ [a + wide] ++ (smalls ++ (bigs ++ unused)) := by simp
  refine ⟨?_, ?_, ?_⟩
  · unfold Opened
    dsimp only
    rw [hfinal]
    dsimp only
    rw [hindex]
    exact .big ⟨hbody.of_fields rfl rfl ((hnexts _ hmem).trans hlink) rfl rfl rfl rfl,
      (hsizes _ hmem).trans hdata, rfl, Nat.add_sub_cancel a wide, rfl⟩
  · intro i hi
    have happart := (hb.fresh_apart_used hfresh hb.header_used).mono_left
      (show Inside a wide a (wide + mpChunkTail) from ⟨le_rfl, by omega⟩)
    have hsame := hwrites.agree happart.symm (a + i) (by omega) (by omega)
    exact hsame.trans (htrailer (a + i) (Or.inl (by omega)))
  · intro r hr hpool
    exact (hm₁.agree (hb.fresh_apart_used hfresh hr)).trans (hwrites.agree hpool.symm)

/-- A buffer in a big chunk is reallocated together with its trailer. -/
theorem mpGrowInternal_big (hrealloc : realloc.HandsOutFresh cpuStructAlign)
    (ho : Opened h pool used saved ptr avail) (hindex : (loadMempool h.mem pool).index ≠ 0)
    (hlt : avail < size) (hmax : size ≤ mpSizeMax) :
    Yields dies (mpGrowInternal malloc realloc h pool size)
      (fun r => ∃ avail', Grown h pool used saved ptr avail size r avail') := by
  obtain ⟨hdvd, hle, hshort⟩ := @amortized_bounds avail size hmax
  have htail := mpChunkTail_eq
  obtain ⟨v, hv⟩ : ∃ v, loadMempool h.mem pool = v := ⟨_, rfl⟩
  rw [mpGrowInternal, if_neg (Nat.not_lt.mpr hmax)]
  dsimp only
  rw [if_neg hindex, ho.avail_eq, ho.ptr_eq, hv]
  unfold Opened at ho
  rw [hv] at ho hindex
  generalize amortized avail size = wide at *
  obtain ⟨smalls, bigs, unused, hone, htip⟩ : ∃ smalls bigs unused, v.index = 1 ∧
      BigTip h pool v used saved 0 ptr avail smalls bigs unused := by
    generalize hi : v.index = i at ho hindex
    cases ho with
    | small _ => exact absurd rfl hindex
    | big htip => exact ⟨_, _, _, rfl, htip⟩
  obtain ⟨hbody, havail, _, hptr, hbig⟩ := htip
  have howned : Owned h (v.state.last1 :: (smalls ++ (bigs ++ unused))) := hbody.owned
  have hblock : chunkBlock h.mem v.state.last1 = (ptr, avail + mpChunkTail) := by
    rw [chunkBlock, havail, hptr]
  have hperm := howned.blocks
  have honly := howned.start_ne
  rw [List.map_cons, hblock] at hperm
  rw [havail, hptr] at honly
  refine (Heap.realloc_yields hrealloc hperm honly (wide + mpChunkTail)).bind ?_
  rintro ⟨a, h₁⟩ ⟨others, hothers, hfresh, hheap⟩
  dsimp only at hfresh hheap
  subst hheap
  have hcommon : min (avail + mpChunkTail) (wide + mpChunkTail) = avail + mpChunkTail := by omega
  rw [hcommon]
  -- The other chunks are in order without the old one.
  have hrest : Body { h with blocks := others } pool _ [] smalls bigs unused used saved :=
    hbody.of_owned rfl (howned.tail rfl hothers)
  have hcopy : ChangesOnly h.mem (copy h.mem a ptr (avail + mpChunkTail)) a
      (wide + mpChunkTail) :=
    (copy_changesOnly _ _ _ _).mono ⟨le_rfl, by omega⟩
  have hnext : chunkNext h.mem v.state.last1 < 2 ^ 64 := load_lt _ _ 8
  obtain ⟨hopened, hbytes, hkept⟩ :=
    hrest.open_big hv hone hfresh hdvd hshort hnext hcopy rfl
  refine .ok ⟨wide, hopened, hle, by omega, ?_, hkept, fun _ => hfresh.2.1⟩
  intro i hi
  exact (hbytes i (by omega)).trans (copy_byte _ _ _ (by omega))

/-- `mp_grow_internal` for a size that does not fit. -/
theorem mpGrowInternal_grows (hmalloc : malloc.HandsOutFresh cpuStructAlign)
    (hrealloc : realloc.HandsOutFresh cpuStructAlign)
    (ho : Opened h pool used saved ptr avail) (hlt : avail < size) (hmax : size ≤ mpSizeMax) :
    Yields dies (mpGrowInternal malloc realloc h pool size)
      (fun r => ∃ avail', Grown h pool used saved ptr avail size r avail') := by
  by_cases hindex : (loadMempool h.mem pool).index = 0
  · exact mpGrowInternal_small hmalloc ho hindex hlt hmax
  · exact mpGrowInternal_big hrealloc ho hindex hlt hmax

theorem mpGrow_grows (hmalloc : malloc.HandsOutFresh cpuStructAlign)
    (hrealloc : realloc.HandsOutFresh cpuStructAlign)
    (ho : Opened h pool used saved ptr avail) (hmax : size ≤ mpSizeMax) :
    Yields dies (mpGrow malloc realloc h pool size)
      (fun r => ∃ avail', Grown h pool used saved ptr avail size r avail') := by
  rw [mpGrow, ho.avail_eq]
  split
  · next hfit =>
      rw [ho.ptr_eq]
      exact .ok ⟨avail, ho, hfit, le_rfl, fun _ _ => rfl, fun r _ _ => Agree.refl _ _ _, id⟩
  · next hfit => exact mpGrowInternal_grows hmalloc hrealloc ho (by omega) hmax

theorem mpExpand_grows (hmalloc : malloc.HandsOutFresh cpuStructAlign)
    (hrealloc : realloc.HandsOutFresh cpuStructAlign)
    (ho : Opened h pool used saved ptr avail) (hmax : avail + 1 ≤ mpSizeMax) :
    Yields dies (mpExpand malloc realloc h pool)
      (fun r => ∃ avail', Grown h pool used saved ptr avail (avail + 1) r avail') := by
  have hbound : mpSizeMax = 4294963183 := by decide
  have hmod : (avail + 1) % 2 ^ 32 = avail + 1 := Nat.mod_eq_of_lt (by omega)
  rw [mpExpand, ho.avail_eq, hmod]
  exact mpGrowInternal_grows hmalloc hrealloc ho (by omega) hmax

/-- `mp_spread` at the offset `off`, where the buffer is long enough or the one that it
asks for is not too long. -/
theorem mpSpread_grows {off : Nat} (hmalloc : malloc.HandsOutFresh cpuStructAlign)
    (hrealloc : realloc.HandsOutFresh cpuStructAlign)
    (ho : Opened h pool used saved ptr avail) (hoff : off ≤ avail)
    (hmax : off + size ≤ max avail mpSizeMax) :
    Yields dies (mpSpread malloc realloc h pool (ptr + off) size) (fun r => ∃ start avail',
      r.1 = start + off ∧ Grown h pool used saved ptr avail (off + size) (start, r.2) avail') := by
  have hbound : mpSizeMax = 4294963183 := by decide
  have hlt := Tip.avail_lt ho
  have hlast := Tip.last_eq ho
  have hbehind : ((loadMempool h.mem pool).state.last (loadMempool h.mem pool).index -
      (ptr + off)) % 2 ^ 32 = avail - off := by
    rw [← hlast]
    exact (Nat.mod_eq_of_lt (by omega)).trans (by omega)
  rw [mpSpread, hbehind]
  split
  · next hfit =>
      exact .ok ⟨ptr, avail, rfl, ho, by omega, le_rfl, fun _ _ => rfl,
        fun r _ _ => Agree.refl _ _ _, id⟩
  · next hfit =>
      have hmod : (ptr + off - ptr + size) % 2 ^ 32 = off + size := by
        rw [Nat.add_sub_cancel_left]
        exact Nat.mod_eq_of_lt (by omega)
      rw [mpSpreadInternal, ho.ptr_eq, hmod]
      refine (mpGrowInternal_grows hmalloc hrealloc ho (by omega) (by omega)).bind ?_
      rintro ⟨p, h₁⟩ ⟨avail', hgrown⟩
      refine .ok ⟨p, avail', ?_, hgrown⟩
      dsimp only
      omega

end Growing

/-- What reallocating does to a block of `n` bytes at `ptr`: the new block starts with
the bytes that both have, and nothing else has changed. -/
structure Resized (h : Heap) (pool : Nat) (used : List (Nat × Nat)) (saved : List Saved)
    (ptr n size : Nat) (r : Nat × Heap) : Prop where
  tip : ∃ idx avail, Tip r.2 pool (loadMempool r.2.mem pool) used saved size idx r.1 avail
  copied : ∀ i < min n size, r.2.mem (r.1 + i) = h.mem (ptr + i)
  kept : UsedKept h.mem r.2.mem pool used
  aligned : cpuStructAlign ∣ ptr → cpuStructAlign ∣ r.1

section Reallocating

variable {dies : Prop} {malloc realloc : Allocator} {h : Heap} {pool : Nat} {v : Mempool}
  {used : List (Nat × Nat)} {saved : List Saved} {n idx ptr avail size : Nat} {m' : Mem}

theorem Tip.kept_of_header (ht : Tip h pool v used saved n idx ptr avail)
    (hm : ChangesOnly h.mem m' pool mempoolSize) :
    UsedKept h.mem m' pool used ∧ ∀ i < avail, m' (ptr + i) = h.mem (ptr + i) := by
  refine ⟨fun r _ hpool => hm.agree hpool.symm, ?_⟩
  intro i hi
  exact hm.agree ht.clear.header.symm (ptr + i) (by omega) (by omega)

theorem UsedKept.trans {m m₁ m₂ : Mem} (h₁ : UsedKept m m₁ pool used)
    (h₂ : UsedKept m₁ m₂ pool used) : UsedKept m m₂ pool used :=
  fun r hr hpool => (h₁ r hr hpool).trans (h₂ r hr hpool)

/-- Writes into the open buffer. -/
theorem Opened.write {a k : Nat} (ho : Opened h pool used saved ptr avail)
    (hm : ChangesOnly h.mem m' a k) (hin : Inside a k ptr avail) :
    Opened { h with mem := m' } pool used saved ptr avail ∧ UsedKept h.mem m' pool used := by
  have hclear := (Tip.clear ho).mono hin
  constructor
  · unfold Opened
    dsimp only
    rw [loadMempool_of_agree (hm.agree hclear.header)]
    exact Tip.write ho hm hclear
  · exact fun r hr _ => hm.agree ((Tip.apart_used ho hr).mono_left hin)

/-- Closing the buffer after `size` bytes. -/
theorem Opened.close (ho : Opened h pool used saved ptr avail) (hsize : size ≤ avail) :
    ∃ m', mpEnd h pool (ptr + size) = (ptr, { h with mem := m' }) ∧
      (∃ idx avail, Tip { h with mem := m' } pool (loadMempool m' pool) used saved size idx ptr
        avail) ∧
      UsedKept h.mem m' pool used ∧ ∀ i < avail, m' (ptr + i) = h.mem (ptr + i) := by
  obtain ⟨m', hend, hm, ht⟩ := mpEnd_eq ho hsize
  obtain ⟨hkept, hbytes⟩ := Tip.kept_of_header ho hm
  exact ⟨m', hend, ⟨_, _, ht⟩, hkept, hbytes⟩

theorem mpRealloc_resizes (hmalloc : malloc.HandsOutFresh cpuStructAlign)
    (hrealloc : realloc.HandsOutFresh cpuStructAlign)
    (ht : Tip h pool v used saved n idx ptr avail) (hv : loadMempool h.mem pool = v)
    (hmax : size ≤ mpSizeMax) :
    Yields dies (mpRealloc malloc realloc h pool ptr size)
      (Resized h pool used saved ptr n size) := by
  have hn := ht.le
  obtain ⟨m₀, hopen, hm₀, ho⟩ := mpOpenFast_eq ht hv
  obtain ⟨hkept₀, hbytes₀⟩ := ht.kept_of_header hm₀
  rw [mpRealloc, mpReallocFast, hopen]
  refine (mpGrow_grows hmalloc hrealloc ho hmax).bind ?_
  rintro ⟨p, h₁⟩ ⟨avail', hgrown⟩
  obtain ⟨m₂, hend, htip, hkept₂, hbytes₂⟩ := hgrown.opened.close hgrown.enough
  dsimp only
  rw [hend]
  refine .ok ⟨htip, ?_, hkept₀.trans (hgrown.kept.trans hkept₂), hgrown.aligned⟩
  intro i hi
  have hlonger := hgrown.longer
  calc m₂ (p + i) = h₁.mem (p + i) := hbytes₂ i (by omega)
    _ = m₀ (ptr + i) := hgrown.copied i (by omega)
    _ = h.mem (ptr + i) := hbytes₀ i (by omega)

theorem mpReallocZero_resizes (hmalloc : malloc.HandsOutFresh cpuStructAlign)
    (hrealloc : realloc.HandsOutFresh cpuStructAlign)
    (ht : Tip h pool v used saved n idx ptr avail) (hv : loadMempool h.mem pool = v)
    (hmax : size ≤ mpSizeMax) :
    Yields dies (mpReallocZero malloc realloc h pool ptr size) (fun r =>
      Resized h pool used saved ptr n size r ∧ ∀ i, n ≤ i → i < size → r.2.mem (r.1 + i) = 0) := by
  have hn := ht.le
  obtain ⟨m₀, hopen, hm₀, ho⟩ := mpOpenFast_eq ht hv
  obtain ⟨hkept₀, hbytes₀⟩ := ht.kept_of_header hm₀
  rw [mpReallocZero, hopen]
  refine (mpGrow_grows hmalloc hrealloc ho hmax).bind ?_
  rintro ⟨p, h₁⟩ ⟨avail', hgrown⟩
  have hlonger := hgrown.longer
  have henough := hgrown.enough
  -- The memory after `memset`, which is called only if bytes are added.
  generalize hm₁ : (if size > n then store h₁.mem (p + n) (size - n) 0 else h₁.mem) = m₁
  have hzeros : ChangesOnly h₁.mem m₁ (p + n) (size - n) ∧
      ∀ i, n ≤ i → i < size → m₁ (p + i) = 0 := by
    rw [← hm₁]
    split
    · exact ⟨store_changesOnly _ _ _ _, fun i hl hu => store_zero (by omega) (by omega)⟩
    · exact ⟨fun x _ => rfl, fun i hl hu => by omega⟩
  have hsame : ∀ i < n, m₁ (p + i) = h₁.mem (p + i) :=
    fun i hi => hzeros.1 (p + i) (Or.inl (by omega))
  obtain ⟨hopened, hkept₁⟩ := hgrown.opened.write hzeros.1 ⟨by omega, by omega⟩
  obtain ⟨m₂, hend, htip, hkept₂, hbytes₂⟩ := hopened.close henough
  dsimp only at hend htip hkept₂ hbytes₂ ⊢
  rw [hm₁, hend]
  refine .ok ⟨⟨htip, ?_, ?_, hgrown.aligned⟩, ?_⟩
  · intro i hi
    calc m₂ (p + i) = m₁ (p + i) := hbytes₂ i (by omega)
      _ = h₁.mem (p + i) := hsame i (by omega)
      _ = m₀ (ptr + i) := hgrown.copied i (by omega)
      _ = h.mem (ptr + i) := hbytes₀ i (by omega)
  · exact hkept₀.trans (hgrown.kept.trans (hkept₁.trans hkept₂))
  · intro i hl hu
    exact (hbytes₂ i (by omega)).trans (hzeros.2 i hl hu)

end Reallocating

end OpenAAA.Pool
