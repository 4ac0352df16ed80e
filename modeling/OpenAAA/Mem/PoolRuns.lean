import OpenAAA.Mem.PoolTip

/-!
Runs of a pool. A run is a list of calls on a pool made by `mp_new`, with the
program's own writes between them; next to the heap it keeps the blocks that the
program holds and the stack of pushed states. Along every run the blocks are
disjoint and inside the pool's chunks, `mp_pop` restores what `mp_push` saved,
and no chunk is lost.
-/

namespace OpenAAA.Pool

open Memory Alloc Sys Linked

/-- The largest chunk size that `mp_align_size` does not wrap. `mp_new` is
documented for sizes up to `UINT_MAX / 2`. -/
def chunkSizeMax : Nat := 2 ^ 32 - cpuStructAlign

section New

variable {dies : Prop} {malloc : Allocator} {size : Nat}

theorem mpAlignSize_bounds (hmax : size ≤ chunkSizeMax) :
    mempoolSize ≤ mpAlignSize (max mempoolSize size) ∧
      mpAlignSize (max mempoolSize size) < 2 ^ 32 ∧
      cpuStructAlign ∣ mpAlignSize (max mempoolSize size) := by
  have hround : mpAlignSize (max mempoolSize size) =
      roundUp (max mempoolSize size) cpuStructAlign := by
    apply alignTo_eq_roundUp
    unfold chunkSizeMax cpuStructAlign at hmax
    unfold mempoolSize cpuStructAlign
    omega
  refine ⟨?_, ?_, alignTo_dvd _ _ _⟩
  · rw [hround]
    unfold roundUp mempoolSize cpuStructAlign
    omega
  · rw [hround]
    unfold chunkSizeMax cpuStructAlign at hmax
    unfold roundUp mempoolSize cpuStructAlign
    omega

/-- The structure that `mp_new` writes. -/
def newMempool (pool size : Nat) : Mempool where
  state := flushedState pool size
  chunkSize := size
  threshold := size >>> 1
  lastBig := pool + 40

theorem newMempool_fits {pool : Nat} (hfit : size < 2 ^ 32)
    (htop : pool + (size + mpChunkTail) ≤ 2 ^ 64) (hmin : mempoolSize ≤ size) :
    (newMempool pool size).Fits := by
  have htail := mpChunkTail_eq
  unfold mempoolSize at hmin
  have hhalf : size >>> 1 ≤ size := by
    rw [Nat.shiftRight_eq_div_pow]
    exact Nat.div_le_self _ _
  have hzero : 0 < 2 ^ 32 ∧ 0 < 2 ^ 64 := by decide
  refine ⟨⟨?_, hzero.1, ?_, hzero.2, hzero.2⟩, hzero.2, ?_, ?_, ?_, hzero.1⟩
  · change size - mempoolSize < 2 ^ 32
    omega
  · change pool + size < 2 ^ 64
    omega
  · change pool + 40 < 2 ^ 64
    omega
  · change size < 2 ^ 32
    omega
  · change size >>> 1 < 2 ^ 32
    omega

/-- One chunk with the new structure at its start is a pool. -/
theorem Body.new {m : Mem} {pool : Nat}
    (hfresh : Fresh cpuStructAlign [] pool (size + mpChunkTail)) (hmin : mempoolSize ≤ size)
    (hfit : size < 2 ^ 32) (hdvd : cpuStructAlign ∣ size)
    (hnext : chunkNext m (pool + size) = 0) (hdata : chunkSize m (pool + size) = size) :
    Body ⟨m, [(pool, size + mpChunkTail)], 1⟩ pool (newMempool pool size) [] [pool + size] [] []
      (occupied pool [] []) [] := by
  have hnone : Owned ⟨m, [], 0⟩ [] := by
    constructor
    · exact List.Perm.refl _
    · exact List.Pairwise.nil
    all_goals
      intro c hc
      cases hc
  constructor
  · exact hnone.cons hfresh hdvd hdata
  · exact hmin
  · exact hfit
  · exact hdvd
  · exact Nat.shiftRight_eq_div_pow size 1
  · intro c hc
    obtain rfl : c = pool + size := by simpa using hc
    exact hdata
  · rfl
  · exact ⟨rfl, hnext⟩
  · rfl
  · rfl
  · refine ⟨rfl, rfl, Nat.sub_le _ _, ?_, List.pairwise_singleton _ _⟩
    intro r hr
    obtain rfl : r = (pool, mempoolSize) := by simpa [occupied] using hr
    left
    simp only [newMempool, flushedState, Inside]
    omega
  · simp [occupied]
  · intro s hs
    cases hs
  · rfl
  · trivial

/-- A new pool holds nothing but itself. -/
theorem mpNew_yields (hmalloc : malloc.HandsOutFresh cpuStructAlign) (m : Mem)
    (hmax : size ≤ chunkSizeMax) :
    Yields dies (mpNew malloc ⟨m, [], 0⟩ size) (fun r => ∃ smalls,
      Body r.2 r.1 (loadMempool r.2.mem r.1) [] smalls [] [] (occupied r.1 [] []) []) := by
  obtain ⟨hmin, hfit, hdvd⟩ := mpAlignSize_bounds hmax
  rw [mpNew]
  generalize mpAlignSize (max mempoolSize size) = size at hmin hfit hdvd
  refine (mpNewBigChunk_yields hmalloc _ size).bind ?_
  rintro ⟨c, h'⟩ ⟨pool, hfresh, hc, hheap⟩
  dsimp only at hc hheap
  subst hc hheap
  dsimp only
  rw [Nat.add_sub_cancel]
  generalize hm₁ : setChunkNext (setChunkSize m (pool + size) size) (pool + size) 0 = m₁
  change Yields dies (.ok (pool, Heap.mk (storeMempool m₁ pool (newMempool pool size))
    [(pool, size + mpChunkTail)] 1)) _
  have hload := loadMempool_storeMempool m₁ pool (newMempool_fits hfit hfresh.2.2.1 hmin)
  have hnext₁ : chunkNext m₁ (pool + size) = 0 := by
    rw [← hm₁]
    exact chunkNext_setChunkNext _ _ (by decide)
  have hdata₁ : chunkSize m₁ (pool + size) = size := by
    rw [← hm₁, chunkSize_setChunkNext]
    exact chunkSize_setChunkSize _ _ hfit
  have hkept := trailer_of_agree
    ((storeMempool_changesOnly m₁ pool (newMempool pool size)).agree
      (b := pool + size) (k := mpChunkTail) (by unfold Apart; omega))
  refine .ok ⟨[pool + size], ?_⟩
  dsimp only
  rw [hload]
  exact Body.new hfresh hmin hfit hdvd (hkept.1.trans hnext₁) (hkept.2.trans hdata₁)

end New

section Data

variable {dies : Prop} {malloc : Allocator} {h : Heap} {pool : Nat} {v : Mempool}
  {smalls bigs unused : List Nat} {used : List (Nat × Nat)} {saved : List Saved}

/-- Filling a new block. -/
theorem Allocated.fill {size : Nat} {r : Nat × Heap} {m' : Mem}
    (hb : Body h pool v [] smalls bigs unused used saved)
    (hr : Allocated h pool smalls bigs used saved size r)
    (hm : ChangesOnly r.2.mem m' r.1 size) :
    Allocated h pool smalls bigs used saved size (r.1, { r.2 with mem := m' }) := by
  obtain ⟨smalls', bigs', unused', hbody, hsmalls, hbigs, hsize, hkept⟩ := hr
  have hothers := (List.pairwise_cons.mp hbody.level.apart).1
  have hclear : Clear r.2 pool saved r.1 size :=
    hbody.clear List.mem_cons_self (hothers _ hb.header_used)
      (fun s hs => hothers _ (hb.saved_used s hs))
  obtain ⟨hwritten, hsame, hsizes⟩ := hbody.write_clear hm hclear
  refine ⟨smalls', bigs', unused', ?_, hsmalls, hbigs, ?_, ?_⟩
  · rw [hsame]
    exact hwritten
  · exact (congrArg Mempool.chunkSize hsame).trans hsize
  · intro c hc
    have hlinked : c ∈ smalls' ++ bigs' := by
      rcases List.mem_append.mp hc with hc | hc
      · exact List.mem_append_left _ (hsmalls.subset hc)
      · exact List.mem_append_right _ (hbigs.subset hc)
    have hall : c ∈ [] ++ (smalls' ++ (bigs' ++ unused')) := mem_of_linked hlinked
    exact (hsizes c hall).2.trans (hkept c hc)

theorem mpAllocZero_yields {size : Nat} (hmalloc : malloc.HandsOutFresh cpuStructAlign)
    (hb : Body h pool v [] smalls bigs unused used saved) (hv : loadMempool h.mem pool = v)
    (hmax : size ≤ mpSizeMax ∨ dies) :
    Yields dies (mpAllocZero malloc h pool size) (fun r =>
      Allocated h pool smalls bigs used saved size r ∧ cpuStructAlign ∣ r.1) := by
  refine (mpAllocFast_yields hmalloc hb hv hmax).bind ?_
  rintro ⟨p, h'⟩ ⟨hr, hdvd⟩
  exact .ok ⟨hr.fill hb (store_changesOnly h'.mem p size 0), hdvd⟩

theorem mpMemdup_yields {s : List Byte} (hmalloc : malloc.HandsOutFresh cpuStructAlign)
    (hb : Body h pool v [] smalls bigs unused used saved) (hv : loadMempool h.mem pool = v)
    (hmax : s.length ≤ mpSizeMax ∨ dies) :
    Yields dies (mpMemdup malloc h pool s) (fun r =>
      Allocated h pool smalls bigs used saved s.length r ∧ cpuStructAlign ∣ r.1) := by
  refine (mpAllocFast_yields hmalloc hb hv hmax).bind ?_
  rintro ⟨p, h'⟩ ⟨hr, hdvd⟩
  exact .ok ⟨hr.fill hb (write_changesOnly h'.mem p s), hdvd⟩

theorem mpStrdup_yields {s : List Byte} (hmalloc : malloc.HandsOutFresh cpuStructAlign)
    (hb : Body h pool v [] smalls bigs unused used saved) (hv : loadMempool h.mem pool = v)
    (hmax : s.length + 1 ≤ mpSizeMax ∨ dies) :
    Yields dies (mpStrdup malloc h pool (some s)) (fun r => ∃ t, r.1 = some t ∧
      Allocated h pool smalls bigs used saved ((s.length + 1) % 2 ^ 32) (t, r.2)) := by
  have hle : (s.length + 1) % 2 ^ 32 ≤ s.length + 1 := Nat.mod_le _ _
  rw [mpStrdup]
  refine (mpAllocFastNoalign_yields hmalloc hb hv (hmax.imp_left hle.trans)).bind ?_
  rintro ⟨p, h'⟩ hr
  have hpart : ((s ++ [0]).take ((s.length + 1) % 2 ^ 32)).length = (s.length + 1) % 2 ^ 32 := by
    rw [List.length_take, List.length_append, List.length_singleton]
    exact Nat.min_eq_left hle
  have hm := write_changesOnly h'.mem p ((s ++ [0]).take ((s.length + 1) % 2 ^ 32))
  rw [hpart] at hm
  exact .ok ⟨p, rfl, hr.fill hb hm⟩

theorem occupied_push (pool : Nat) (live : List Block) (saved : List Saved) (s : Saved) :
    ((s.addr, mempoolStateSize) :: occupied pool live saved).Perm
      (occupied pool live (s :: saved)) :=
  List.perm_middle.symm

/-- An allocated block that holds the state before its own allocation becomes the
newest saved state. -/
theorem Body.push_saved {h' : Heap} {v' : Mempool} {smalls' bigs' unused' : List Nat}
    {live : List Block} {p : Nat}
    (hb : Body h pool v [] smalls bigs unused (occupied pool live saved) saved)
    (hb' : Body h' pool v' [] smalls' bigs' unused'
      ((p, mempoolStateSize) :: occupied pool live saved) saved)
    (hsmalls : smalls <:+ smalls') (hbigs : bigs <:+ bigs') (hsize : v'.chunkSize = v.chunkSize)
    (hkept : ∀ c ∈ smalls ++ bigs, chunkSize h'.mem c = chunkSize h.mem c)
    (hstate : loadState h'.mem p = v.state) :
    Body h' pool { v' with state := { v'.state with next := p } } [] smalls' bigs' unused'
      (occupied pool live (⟨p, v.state, live⟩ :: saved)) (⟨p, v.state, live⟩ :: saved) := by
  have hperm := occupied_push pool live saved ⟨p, v.state, live⟩
  have hstates : ∀ s ∈ saved, loadState h'.mem s.addr = loadState h.mem s.addr := by
    intro s hs
    rw [hb.levels.state_eq s hs, hb'.levels.state_eq s hs]
  have hlevel := hb'.level.perm hperm
  refine { hb' with level := ⟨hlevel.last0, hlevel.last1, hlevel.free0, hlevel.placed, hlevel.apart⟩,
                    header_used := hperm.mem_iff.mp hb'.header_used, saved_used := ?_,
                    next := rfl, levels := ?_ }
  · intro s hs
    rcases List.mem_cons.mp hs with rfl | hold
    · exact hperm.mem_iff.mp List.mem_cons_self
    · exact hperm.mem_iff.mp (hb'.saved_used s hold)
  · refine ⟨smalls, bigs, hsmalls, hbigs, hstate, hb.next, ?_, ?_⟩
    · rw [hsize]
      exact hb.level.congr hkept
    · rw [hsize]
      exact hb.levels.congr hkept hstates

/-- A pushed state is saved in a block of its own. -/
theorem mpPush_yields {live : List Block} (hmalloc : malloc.HandsOutFresh cpuStructAlign)
    (hb : Body h pool v [] smalls bigs unused (occupied pool live saved) saved)
    (hv : loadMempool h.mem pool = v) :
    Yields dies (mpPush malloc h pool) (fun r => ∃ smalls' bigs' unused',
      Body r.2 pool (loadMempool r.2.mem pool) [] smalls' bigs' unused'
        (occupied pool live (⟨r.1, v.state, live⟩ :: saved)) (⟨r.1, v.state, live⟩ :: saved)) := by
  have hstate : loadState h.mem pool = v.state := congrArg Mempool.state hv
  have hfits : v.state.Fits := hstate ▸ loadState_fits h.mem pool
  rw [mpPush, hstate]
  refine (mpAllocFast_yields hmalloc hb hv (Or.inl (by decide))).bind ?_
  rintro ⟨p, h₁⟩ ⟨halloc, _⟩
  have hsaved := loadState_storeState h₁.mem p hfits
  obtain ⟨smalls', bigs', unused', hb₁, hsmalls, hbigs, hsize, hkept⟩ :=
    halloc.fill hb (storeState_changesOnly h₁.mem p v.state)
  dsimp only at hb₁ hsize hkept
  change Yields dies (.ok (p, { h₁ with mem := setNext (storeState h₁.mem p v.state) pool p })) _
  generalize storeState h₁.mem p v.state = m₁ at *
  rw [hv] at hsize
  have hp : p % 2 ^ 64 = p := Nat.mod_eq_of_lt (hb₁.used_bounds List.mem_cons_self).2
  have hm : ChangesOnly m₁ (setNext m₁ pool p) pool mempoolSize :=
    field_changesOnly _ pool 24 8 p (by decide)
  obtain ⟨hb₂, _, _⟩ :=
    (hb.push_saved hb₁ hsmalls hbigs hsize hkept hsaved).header_write hm
  have hfinal : loadMempool (setNext m₁ pool p) pool = { loadMempool m₁ pool with
      state := { (loadMempool m₁ pool).state with next := p } } := by
    rw [loadMempool_setNext, hp]
  refine .ok ⟨smalls', bigs', unused', ?_⟩
  dsimp only
  rw [hfinal]
  exact hb₂

end Data

/-- A pool in use: the heap, the blocks that the program holds and the states it
has pushed, newest first. -/
structure PoolRun where
  heap : Heap
  live : List Block
  saved : List Saved

/-- The calls of a run. The last one is a write of the program itself. -/
inductive PoolCall where
  | alloc (size : Nat)
  | allocNoalign (size : Nat)
  | allocZero (size : Nat)
  | strdup (s : Option (List Byte))
  | memdup (s : List Byte)
  | push
  | pop
  | flush
  | write (addr : Nat) (bytes : List Byte)

/-- The program holds the block that a function returned. -/
def PoolRun.hold (s : PoolRun) (size : Nat) (aligned : Bool) (r : Nat × Heap) : PoolRun :=
  ⟨r.2, ⟨r.1, size, aligned⟩ :: s.live, s.saved⟩

def PoolRun.step (malloc : Allocator) (pool : Nat) (s : PoolRun) :
    PoolCall → Except Fault PoolRun
  | .alloc size => do return s.hold size true (← mpAlloc malloc s.heap pool size)
  | .allocNoalign size => do return s.hold size false (← mpAllocNoalign malloc s.heap pool size)
  | .allocZero size => do return s.hold size true (← mpAllocZero malloc s.heap pool size)
  | .strdup str => do
      match str, ← mpStrdup malloc s.heap pool str with
      | some str, (some t, h) => return s.hold ((str.length + 1) % 2 ^ 32) false (t, h)
      | _, (_, h) => return { s with heap := h }
  | .memdup bytes => do
      return s.hold bytes.length true (← mpMemdup malloc s.heap pool bytes)
  | .push => do
      let (p, h) ← mpPush malloc s.heap pool
      return ⟨h, s.live, ⟨p, loadState s.heap.mem pool, s.live⟩ :: s.saved⟩
  | .pop => do
      let h ← mpPop s.heap pool
      match s.saved with
      | [] => return { s with heap := h }
      | state :: saved => return ⟨h, state.live, saved⟩
  | .flush => do return ⟨← mpFlush s.heap pool, [], []⟩
  | .write addr bytes =>
      .ok { s with heap := { s.heap with mem := write s.heap.mem addr bytes } }

/-- What the caller owes: sizes up to `MP_SIZE_MAX` unless the program may die, a
pushed state for every `mp_pop`, and writes into held blocks or outside the
pool's memory. -/
def PoolCall.Legal (dies : Prop) (s : PoolRun) : PoolCall → Prop
  | .alloc size => size ≤ mpSizeMax ∨ dies
  | .allocNoalign size => size ≤ mpSizeMax ∨ dies
  | .allocZero size => size ≤ mpSizeMax ∨ dies
  | .strdup str => ∀ bytes ∈ str, bytes.length + 1 ≤ mpSizeMax ∨ dies
  | .memdup bytes => bytes.length ≤ mpSizeMax ∨ dies
  | .push => True
  | .pop => s.saved ≠ []
  | .flush => True
  | .write addr bytes => (∃ b ∈ s.live, Inside addr bytes.length b.addr b.size) ∨
      ∀ r ∈ s.heap.blocks, Apart addr bytes.length r.1 r.2

def PoolRun.run (malloc : Allocator) (pool : Nat) (s : PoolRun) :
    List PoolCall → Except Fault PoolRun
  | [] => .ok s
  | call :: calls => do
      let s ← s.step malloc pool call
      s.run malloc pool calls

/-- Every call of the run is legal when it is made. -/
def LegalRun (dies : Prop) (malloc : Allocator) (pool : Nat) (s : PoolRun) :
    List PoolCall → Prop
  | [] => True
  | call :: calls => call.Legal dies s ∧
      ∀ s', s.step malloc pool call = .ok s' → LegalRun dies malloc pool s' calls

def AlignedBlocks (live : List Block) : Prop :=
  ∀ b ∈ live, b.aligned = true → cpuStructAlign ∣ b.addr

/-- The invariant of runs. -/
structure RunInv (pool : Nat) (s : PoolRun) : Prop where
  body : ∃ smalls bigs unused, Body s.heap pool (loadMempool s.heap.mem pool) [] smalls bigs
    unused (occupied pool s.live s.saved) s.saved
  live : AlignedBlocks s.live
  saved : ∀ t ∈ s.saved, AlignedBlocks t.live

section Steps

variable {dies : Prop} {malloc : Allocator} {pool : Nat} {s : PoolRun} {smalls bigs unused : List Nat}

theorem RunInv.hold {size : Nat} {aligned : Bool} {r : Nat × Heap} (hs : RunInv pool s)
    (hr : Allocated s.heap pool smalls bigs (occupied pool s.live s.saved) s.saved size r)
    (hdvd : aligned = true → cpuStructAlign ∣ r.1) : RunInv pool (s.hold size aligned r) := by
  obtain ⟨smalls', bigs', unused', hbody, _⟩ := hr
  refine ⟨⟨smalls', bigs', unused', hbody⟩, ?_, hs.saved⟩
  intro b hb haligned
  rcases List.mem_cons.mp hb with rfl | hold
  · exact hdvd haligned
  · exact hs.live b hold haligned

/-- A legal write misses the pool's own data. -/
theorem Body.clear_of_legal {h : Heap} {v : Mempool} {live held : List Block} {saved : List Saved}
    {addr : Nat} {bytes : List Byte}
    (hb : Body h pool v [] smalls bigs unused (occupied pool held saved) saved)
    (hheld : live ⊆ held) (hlegal : (PoolCall.write addr bytes).Legal dies ⟨h, live, saved⟩) :
    Clear h pool saved addr bytes.length := by
  rcases hlegal with ⟨b, hin, hinside⟩ | hout
  · exact (hb.clear_of_live (hheld hin)).mono hinside
  · exact hb.clear_of_outside hout

/-- The program's writes. -/
theorem RunInv.write {addr : Nat} {bytes : List Byte} (hs : RunInv pool s)
    (hlegal : (PoolCall.write addr bytes).Legal dies s) :
    RunInv pool { s with heap := { s.heap with mem := write s.heap.mem addr bytes } } := by
  obtain ⟨⟨smalls, bigs, unused, hb⟩, hlive, hsaved⟩ := hs
  have hclear := hb.clear_of_legal (List.Subset.refl _) hlegal
  obtain ⟨hwritten, hsame, _⟩ := hb.write_clear (write_changesOnly s.heap.mem addr bytes) hclear
  rw [← hsame] at hwritten
  exact ⟨⟨smalls, bigs, unused, hwritten⟩, hlive, hsaved⟩

/-- `mp_pop` of the newest saved state. -/
theorem RunInv.pop_step {t : Saved} {saved : List Saved} (hs : RunInv pool s)
    (malloc : Allocator) (hsaved : s.saved = t :: saved) :
    ∃ h', s.step malloc pool .pop = .ok ⟨h', t.live, saved⟩ ∧ loadState h'.mem pool = t.state ∧
      RunInv pool ⟨h', t.live, saved⟩ := by
  obtain ⟨⟨smalls, bigs, unused, hb⟩, _, hlive⟩ := hs
  rw [hsaved] at hb hlive
  obtain ⟨h', smalls', bigs', unused', hpop, hstate, hb'⟩ := mpPop_eq hb rfl
  refine ⟨h', ?_, hstate, ⟨smalls', bigs', unused', hb'⟩, ?_, ?_⟩
  · rw [PoolRun.step, hpop, hsaved]
    rfl
  · exact hlive t List.mem_cons_self
  · exact fun u hu => hlive u (List.mem_cons_of_mem t hu)

theorem RunInv.flush_step (hs : RunInv pool s) :
    ∃ s', s.step malloc pool .flush = .ok s' ∧ RunInv pool s' := by
  obtain ⟨smalls, bigs, unused, hb⟩ := hs.body
  obtain ⟨h', smalls', unused', hflush, hb'⟩ := mpFlush_eq hb rfl
  refine ⟨⟨h', [], []⟩, ?_, ⟨smalls', [], unused', hb'⟩, nofun, nofun⟩
  rw [PoolRun.step, hflush]
  rfl

/-- Every call keeps the invariant. -/
theorem RunInv.step (hmalloc : malloc.HandsOutFresh cpuStructAlign) (hs : RunInv pool s)
    (call : PoolCall) (hlegal : call.Legal dies s) :
    Yields dies (s.step malloc pool call) (RunInv pool) := by
  obtain ⟨smalls, bigs, unused, hb⟩ := hs.body
  cases call with
  | alloc size =>
      refine (mpAllocFast_yields hmalloc hb rfl hlegal).bind ?_
      rintro r ⟨hr, hdvd⟩
      exact .ok (hs.hold hr (fun _ => hdvd))
  | allocNoalign size =>
      refine (mpAllocFastNoalign_yields hmalloc hb rfl hlegal).bind ?_
      intro r hr
      exact .ok (hs.hold hr nofun)
  | allocZero size =>
      refine (mpAllocZero_yields hmalloc hb rfl hlegal).bind ?_
      rintro r ⟨hr, hdvd⟩
      exact .ok (hs.hold hr (fun _ => hdvd))
  | strdup str =>
      cases str with
      | none => exact .ok hs
      | some str =>
          refine (mpStrdup_yields hmalloc hb rfl (hlegal str rfl)).bind ?_
          rintro ⟨_, h⟩ ⟨t, rfl, hr⟩
          exact .ok (hs.hold hr nofun)
  | memdup bytes =>
      refine (mpMemdup_yields hmalloc hb rfl hlegal).bind ?_
      rintro r ⟨hr, hdvd⟩
      exact .ok (hs.hold hr (fun _ => hdvd))
  | push =>
      refine (mpPush_yields hmalloc hb rfl).bind ?_
      rintro ⟨p, h⟩ ⟨smalls', bigs', unused', hb'⟩
      refine .ok ⟨⟨smalls', bigs', unused', hb'⟩, hs.live, ?_⟩
      intro t ht
      rcases List.mem_cons.mp ht with rfl | hold
      · exact hs.live
      · exact hs.saved t hold
  | pop =>
      obtain ⟨t, saved, hsaved⟩ := List.exists_cons_of_ne_nil hlegal
      obtain ⟨h', hstep, _, hs'⟩ := hs.pop_step malloc hsaved
      exact .of_exists ⟨_, hstep, hs'⟩
  | flush => exact .of_exists hs.flush_step
  | write addr bytes => exact .ok (RunInv.write hs hlegal)

/-- The invariant holds along every legal run. -/
theorem RunInv.run (hmalloc : malloc.HandsOutFresh cpuStructAlign) (calls : List PoolCall) :
    ∀ s, RunInv pool s → LegalRun dies malloc pool s calls →
      Yields dies (s.run malloc pool calls) (RunInv pool) := by
  induction calls with
  | nil => exact fun s hs _ => .ok hs
  | cons call calls ih =>
      rintro s hs ⟨hlegal, hrest⟩
      cases hcase : s.step malloc pool call with
      | error e =>
          have hstep := hs.step hmalloc call hlegal
          rw [PoolRun.run, hcase]
          rw [hcase] at hstep
          cases hstep with
          | outOfMemory => exact .outOfMemory
          | die hdies => exact .die hdies
      | ok s' =>
          have hs' := (hs.step hmalloc call hlegal).of_ok hcase
          rw [PoolRun.run, hcase]
          exact ih s' hs' (hrest s' hcase)

end Steps

/-- The blocks that the program holds are disjoint ranges inside the data areas of
malloc'ed chunks, clear of the pool's structure and of the saved states. -/
structure BlocksSound (pool : Nat) (s : PoolRun) : Prop where
  disjoint : s.live.Pairwise (fun b c => Apart b.addr b.size c.addr c.size)
  inside : ∀ b ∈ s.live, ∃ chunk, chunkBlock s.heap.mem chunk ∈ s.heap.blocks ∧
    InChunk s.heap.mem chunk (b.addr, b.size)
  header : ∀ b ∈ s.live, Apart b.addr b.size pool mempoolSize
  saved : ∀ b ∈ s.live, ∀ t ∈ s.saved, Apart b.addr b.size t.addr mempoolStateSize
  aligned : ∀ b ∈ s.live, b.aligned = true → cpuStructAlign ∣ b.addr

/-- The chunks are the cells of three chains, each one once, and `mp_delete` frees
them all. -/
structure ChunksSound (pool : Nat) (s : PoolRun) : Prop where
  chains : ∃ smalls bigs unused,
    Chain (chunkNext s.heap.mem) 0 (loadMempool s.heap.mem pool).state.last0 smalls ∧
    Chain (chunkNext s.heap.mem) 0 (loadMempool s.heap.mem pool).state.last1 bigs ∧
    Chain (chunkNext s.heap.mem) 0 (loadMempool s.heap.mem pool).unused unused ∧
    (smalls ++ (bigs ++ unused)).Nodup ∧
    s.heap.blocks.Perm ((smalls ++ (bigs ++ unused)).map (chunkBlock s.heap.mem))
  delete : ∃ h', mpDelete s.heap pool = .ok h' ∧ h'.blocks = []

section Sound

variable {pool : Nat} {s : PoolRun}

theorem Body.blocksSound {v : Mempool} {smalls bigs unused : List Nat}
    (hb : Body s.heap pool v [] smalls bigs unused (occupied pool s.live s.saved) s.saved)
    (hlive : AlignedBlocks s.live) : BlocksSound pool s := by
  have hrange : ∀ b ∈ s.live, (b.addr, b.size) ∈ s.live.map (fun b => (b.addr, b.size)) :=
    fun b hin => List.mem_map_of_mem hin
  obtain ⟨hblocks, _, hothers⟩ := List.pairwise_append.mp hb.level.apart
  constructor
  · exact List.pairwise_map.mp hblocks
  · intro b hin
    obtain ⟨c, hc, hplace⟩ := hb.used_inChunk (List.mem_append_left _ (hrange b hin))
    exact ⟨c, hb.owned.blocks.mem_iff.mpr (List.mem_map_of_mem (mem_of_linked hc)), hplace⟩
  · intro b hin
    exact hothers _ (hrange b hin) (pool, mempoolSize) (by simp)
  · intro b hin t ht
    exact hothers _ (hrange b hin) (t.addr, mempoolStateSize)
      (List.mem_append_left _ (List.mem_map_of_mem ht))
  · exact hlive

theorem RunInv.blocksSound (hs : RunInv pool s) : BlocksSound pool s := by
  obtain ⟨smalls, bigs, unused, hb⟩ := hs.body
  exact hb.blocksSound hs.live

theorem RunInv.chunksSound (hs : RunInv pool s) : ChunksSound pool s := by
  obtain ⟨smalls, bigs, unused, hb⟩ := hs.body
  exact ⟨⟨smalls, bigs, unused, hb.smallChain, hb.bigChain, hb.unusedChain, hb.owned.nodup,
    hb.owned.blocks⟩, mpDelete_eq hb rfl⟩

end Sound

/-- The calls between a push and its pop, when `depth` further pushes are open:
pushes and pops match, and nothing is flushed. -/
def nestedFrom : Nat → List PoolCall → Bool
  | depth, [] => depth = 0
  | depth, .push :: calls => nestedFrom (depth + 1) calls
  | 0, .pop :: _ => false
  | depth + 1, .pop :: calls => nestedFrom depth calls
  | _, .flush :: _ => false
  | depth, _ :: calls => nestedFrom depth calls

section Nesting

variable {dies : Prop} {malloc : Allocator} {pool : Nat} {s s' : PoolRun}

theorem push_saved (h : s.step malloc pool .push = .ok s') :
    ∃ p, s'.saved = ⟨p, loadState s.heap.mem pool, s.live⟩ :: s.saved := by
  obtain ⟨⟨p, h'⟩, _, heq⟩ := exists_of_bind_ok h
  cases heq
  exact ⟨p, rfl⟩

theorem pop_saved (h : s.step malloc pool .pop = .ok s') : s'.saved = s.saved.tail := by
  obtain ⟨h', _, heq⟩ := exists_of_bind_ok h
  cases hsaved : s.saved with
  | nil =>
      rw [hsaved] at heq
      cases heq
      rfl
  | cons t saved =>
      rw [hsaved] at heq
      cases heq
      rfl

/-- The other calls leave the stack alone. -/
theorem step_saved {call : PoolCall} (h : s.step malloc pool call = .ok s')
    (hpush : call ≠ .push) (hpop : call ≠ .pop) (hflush : call ≠ .flush) :
    s'.saved = s.saved := by
  cases call with
  | push => exact absurd rfl hpush
  | pop => exact absurd rfl hpop
  | flush => exact absurd rfl hflush
  | alloc size =>
      obtain ⟨r, _, heq⟩ := exists_of_bind_ok h
      cases heq
      rfl
  | allocNoalign size =>
      obtain ⟨r, _, heq⟩ := exists_of_bind_ok h
      cases heq
      rfl
  | allocZero size =>
      obtain ⟨r, _, heq⟩ := exists_of_bind_ok h
      cases heq
      rfl
  | strdup str =>
      obtain ⟨⟨t, h⟩, _, heq⟩ := exists_of_bind_ok h
      cases str with
      | none =>
          cases heq
          rfl
      | some str =>
          cases t with
          | none =>
              cases heq
              rfl
          | some t =>
              cases heq
              rfl
  | memdup bytes =>
      obtain ⟨r, _, heq⟩ := exists_of_bind_ok h
      cases heq
      rfl
  | write addr bytes =>
      cases h
      rfl

/-- The calls of a nested piece leave the states below them on the stack. -/
theorem nested_saved {base : List Saved} (calls : List PoolCall) :
    ∀ (depth : Nat) (s : PoolRun) (front : List Saved), s.saved = front ++ base →
      front.length = depth → nestedFrom depth calls = true →
      ∀ s', s.run malloc pool calls = .ok s' → s'.saved = base := by
  induction calls with
  | nil =>
      intro depth s front hsaved hlength hnested s' hrun
      cases hrun
      have hzero : depth = 0 := of_decide_eq_true hnested
      rw [hsaved, List.length_eq_zero_iff.mp (hlength.trans hzero), List.nil_append]
  | cons call calls ih =>
      intro depth s front hsaved hlength hnested s' hrun
      obtain ⟨s₁, hstep, hrest⟩ := exists_of_bind_ok hrun
      have hsame : s₁.saved = s.saved → nestedFrom depth calls = true → s'.saved = base :=
        fun heq hn => ih depth s₁ front (heq.trans hsaved) hlength hn s' hrest
      cases call with
      | push =>
          obtain ⟨p, hpush⟩ := push_saved hstep
          refine ih (depth + 1) s₁ (⟨p, loadState s.heap.mem pool, s.live⟩ :: front) ?_ ?_
            hnested s' hrest
          · rw [hpush, hsaved, List.cons_append]
          · rw [List.length_cons, hlength]
      | pop =>
          cases depth with
          | zero => cases hnested
          | succ depth =>
              obtain ⟨t, rest, rfl⟩ := List.exists_cons_of_length_eq_add_one hlength
              refine ih depth s₁ rest ?_ (Nat.succ.inj hlength) hnested s' hrest
              rw [pop_saved hstep, hsaved, List.cons_append, List.tail_cons]
      | flush => cases hnested
      | alloc size => exact hsame (step_saved hstep nofun nofun nofun) hnested
      | allocNoalign size => exact hsame (step_saved hstep nofun nofun nofun) hnested
      | allocZero size => exact hsame (step_saved hstep nofun nofun nofun) hnested
      | strdup str => exact hsame (step_saved hstep nofun nofun nofun) hnested
      | memdup bytes => exact hsame (step_saved hstep nofun nofun nofun) hnested
      | write addr bytes => exact hsame (step_saved hstep nofun nofun nofun) hnested

theorem run_append (before after : List PoolCall) (s : PoolRun) :
    s.run malloc pool (before ++ after) =
      s.run malloc pool before >>= fun s => s.run malloc pool after := by
  induction before generalizing s with
  | nil => rfl
  | cons call before ih =>
      rw [List.cons_append, PoolRun.run, PoolRun.run, bind_assoc]
      congr 1
      funext s₁
      exact ih s₁

theorem LegalRun.append (before after : List PoolCall) :
    ∀ s, LegalRun dies malloc pool s (before ++ after) →
      LegalRun dies malloc pool s before ∧ ∀ s', s.run malloc pool before = .ok s' →
        LegalRun dies malloc pool s' after := by
  induction before with
  | nil =>
      intro s hlegal
      refine ⟨trivial, ?_⟩
      rintro s' ⟨⟩
      exact hlegal
  | cons call before ih =>
      rintro s ⟨hcall, hrest⟩
      refine ⟨⟨hcall, fun s₁ hstep => (ih s₁ (hrest s₁ hstep)).1⟩, ?_⟩
      intro s' hrun
      obtain ⟨s₁, hstep, hrun₁⟩ := exists_of_bind_ok hrun
      exact (ih s₁ (hrest s₁ hstep)).2 s' hrun₁

end Nesting

section Runs

variable {malloc : Allocator} {m : Mem} {size pool : Nat} {h : Heap}

theorem RunInv.new (hmalloc : malloc.HandsOutFresh cpuStructAlign) (hsize : size ≤ chunkSizeMax)
    (hnew : mpNew malloc ⟨m, [], 0⟩ size = .ok (pool, h)) : RunInv pool ⟨h, [], []⟩ := by
  have hyields : Yields False (mpNew malloc ⟨m, [], 0⟩ size) _ := mpNew_yields hmalloc m hsize
  obtain ⟨smalls, hb⟩ := hyields.of_ok hnew
  exact ⟨⟨smalls, [], [], hb⟩, nofun, nofun⟩

/-- A pop at the end of a nested piece brings the state before its push back. -/
theorem pop_restores_push {dies : Prop} {s s' : PoolRun} {inner : List PoolCall}
    (hmalloc : malloc.HandsOutFresh cpuStructAlign) (hs : RunInv pool s)
    (hlegal : LegalRun dies malloc pool s (.push :: (inner ++ [.pop])))
    (hnested : nestedFrom 0 inner = true)
    (hrun : s.run malloc pool (.push :: (inner ++ [.pop])) = .ok s') :
    loadState s'.heap.mem pool = loadState s.heap.mem pool := by
  obtain ⟨hpush, hrest⟩ := hlegal
  obtain ⟨s₁, hstep₁, hrun₁⟩ := exists_of_bind_ok hrun
  obtain ⟨p, hsaved₁⟩ := push_saved hstep₁
  have hs₁ := (hs.step hmalloc .push hpush).of_ok hstep₁
  obtain ⟨hinner, _⟩ := LegalRun.append inner [.pop] s₁ (hrest s₁ hstep₁)
  rw [run_append] at hrun₁
  obtain ⟨s₂, hrun₂, hpop⟩ := exists_of_bind_ok hrun₁
  have hs₂ := (RunInv.run hmalloc inner s₁ hs₁ hinner).of_ok hrun₂
  have hsaved₂ := nested_saved inner 0 s₁ [] rfl rfl hnested s₂ hrun₂
  obtain ⟨h', hstep₂, hstate, _⟩ := hs₂.pop_step malloc (hsaved₂.trans hsaved₁)
  obtain ⟨s₃, hstep₃, hlast⟩ := exists_of_bind_ok hpop
  rw [hstep₂] at hstep₃
  cases hstep₃
  cases hlast
  exact hstate

end Runs

/-- At every moment of every run, the blocks that the program holds are sound.
The run can only end early because `malloc` refuses. -/
theorem pool_blocks_sound (malloc : Allocator) (hmalloc : malloc.HandsOutFresh cpuStructAlign)
    (m : Mem) (size pool : Nat) (h : Heap) (hsize : size ≤ chunkSizeMax)
    (hnew : mpNew malloc ⟨m, [], 0⟩ size = .ok (pool, h)) (calls : List PoolCall)
    (hlegal : LegalRun False malloc pool ⟨h, [], []⟩ calls) :
    Yields False (PoolRun.run malloc pool ⟨h, [], []⟩ calls) (BlocksSound pool) :=
  (RunInv.run hmalloc calls _ (RunInv.new hmalloc hsize hnew) hlegal).mono
    (fun _ hs => hs.blocksSound)

/-- A `malloc` whose ranges start at multiples of 64 KiB. -/
def wideMalloc : Allocator := stride cpuStructAlign 0x10000 0x10000

/-- What `mp_new` of 100 bytes leaves there: a chunk of 104 bytes. -/
def smallPool : Heap :=
  ⟨storeMempool (setChunkNext (setChunkSize (fun _ => 0) 0x10068 104) 0x10068 0) 0x10000
    (newMempool 0x10000 104), [(0x10000, 104 + mpChunkTail)], 1⟩

theorem smallPool_new : mpNew wideMalloc ⟨fun _ => 0, [], 0⟩ 100 = .ok (0x10000, smallPool) :=
  rfl

/-- A block, a push, a block that needs a chunk of its own, and the pop. -/
def pushedCalls : List PoolCall := [.alloc 10, .push, .alloc 60, .pop]

theorem pushedCalls_legal (dies : Prop) (malloc : Allocator) (pool : Nat) (s : PoolRun) :
    LegalRun dies malloc pool s pushedCalls := by
  refine ⟨Or.inl (by decide), fun s₁ _ => ⟨trivial, fun s₂ hpush => ⟨Or.inl (by decide),
    fun s₃ halloc => ⟨?_, fun _ _ => trivial⟩⟩⟩⟩
  obtain ⟨p, hsaved⟩ := push_saved hpush
  change s₃.saved ≠ []
  rw [step_saved halloc nofun nofun nofun, hsaved]
  exact List.cons_ne_nil _ _

theorem pool_blocks_sound_pushed :
    LegalRun False wideMalloc 0x10000 ⟨smallPool, [], []⟩ pushedCalls ∧
      Yields False (PoolRun.run wideMalloc 0x10000 ⟨smallPool, [], []⟩ pushedCalls)
        (BlocksSound 0x10000) := by
  refine ⟨pushedCalls_legal _ _ _ _, ?_⟩
  exact pool_blocks_sound wideMalloc (stride_handsOutFresh _ _ _) (fun _ => 0) 100 0x10000
    smallPool (by decide) smallPool_new pushedCalls (pushedCalls_legal _ _ _ _)

/-- At every moment of every run no chunk is lost or listed twice, `mp_delete`
would free them all, and each `mp_pop` restores the state before its push. -/
theorem pool_chunks_sound (malloc : Allocator) (hmalloc : malloc.HandsOutFresh cpuStructAlign)
    (m : Mem) (size pool : Nat) (h : Heap) (hsize : size ≤ chunkSizeMax)
    (hnew : mpNew malloc ⟨m, [], 0⟩ size = .ok (pool, h)) :
    (∀ calls, LegalRun True malloc pool ⟨h, [], []⟩ calls →
      Yields True (PoolRun.run malloc pool ⟨h, [], []⟩ calls) (ChunksSound pool)) ∧
    ∀ before inner s s',
      LegalRun True malloc pool ⟨h, [], []⟩ (before ++ .push :: (inner ++ [.pop])) →
      nestedFrom 0 inner = true →
      PoolRun.run malloc pool ⟨h, [], []⟩ before = .ok s →
      PoolRun.run malloc pool ⟨h, [], []⟩ (before ++ .push :: (inner ++ [.pop])) = .ok s' →
      loadState s'.heap.mem pool = loadState s.heap.mem pool := by
  have hstart := RunInv.new hmalloc hsize hnew
  constructor
  · intro calls hlegal
    exact (RunInv.run hmalloc calls _ hstart hlegal).mono (fun _ hs => hs.chunksSound)
  · intro before inner s s' hlegal hnested hbefore hrun
    obtain ⟨hfirst, hrest⟩ := LegalRun.append before _ _ hlegal
    have hs := (RunInv.run hmalloc before _ hstart hfirst).of_ok hbefore
    rw [run_append, hbefore] at hrun
    exact pop_restores_push hmalloc hs (hrest s hbefore) hnested hrun

theorem pool_chunks_sound_pushed :
    Yields True (PoolRun.run wideMalloc 0x10000 ⟨smallPool, [], []⟩ pushedCalls)
      (ChunksSound 0x10000) ∧
    ∃ s s', PoolRun.run wideMalloc 0x10000 ⟨smallPool, [], []⟩ [.alloc 10] = .ok s ∧
      PoolRun.run wideMalloc 0x10000 ⟨smallPool, [], []⟩ pushedCalls = .ok s' ∧
      loadState s'.heap.mem 0x10000 = loadState s.heap.mem 0x10000 := by
  obtain ⟨hchunks, hpop⟩ := pool_chunks_sound wideMalloc (stride_handsOutFresh _ _ _)
    (fun _ => 0) 100 0x10000 smallPool (by decide) smallPool_new
  obtain ⟨s, hs⟩ : ∃ s, PoolRun.run wideMalloc 0x10000 ⟨smallPool, [], []⟩ [.alloc 10] = .ok s :=
    exists_of_isOk (by decide +kernel)
  obtain ⟨s', hs'⟩ : ∃ s', PoolRun.run wideMalloc 0x10000 ⟨smallPool, [], []⟩ pushedCalls =
      .ok s' := exists_of_isOk (by decide +kernel)
  refine ⟨hchunks pushedCalls (pushedCalls_legal _ _ _ _), s, s', hs, hs', ?_⟩
  exact hpop [.alloc 10] [.alloc 60] s s' (pushedCalls_legal _ _ _ _) rfl hs hs'

end OpenAAA.Pool
