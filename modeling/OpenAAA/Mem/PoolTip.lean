import OpenAAA.Mem.PoolRewind

/-!
The tip of a pool: the range that was allocated last, together with the free bytes
behind it. It ends the newest small chunk or is the whole newest big chunk, and the
pool would be in order with that range taken away. How many of its bytes are in use
is only a number in the header, so opening, resizing and closing the last block
change nothing else.
-/

namespace OpenAAA.Pool

open Memory Alloc Sys Linked

/-- The header with `n` bytes given back to the newest small chunk. -/
def Mempool.giveBack (v : Mempool) (n : Nat) : Mempool :=
  { v with state := { v.state with free0 := v.state.free0 + n } }

/-- `last_big` points to the newest big chunk, or else into the pool's structure,
where no block starts. -/
def LastBigSound (m : Mem) (pool : Nat) (v : Mempool) : Prop :=
  v.lastBig = pool + 40 ∨
    (v.state.last1 ≠ 0 ∧ v.lastBig = v.state.last1 - chunkSize m v.state.last1)

/-- The last `avail` bytes of the newest small chunk, the first `n` of them in use. -/
structure SmallTip (h : Heap) (pool : Nat) (v : Mempool) (used : List (Nat × Nat))
    (saved : List Saved) (n ptr avail : Nat) (smalls bigs unused : List Nat) : Prop where
  body : Body h pool (v.giveBack n) [] smalls bigs unused used saved
  avail_eq : v.state.free0 + n = avail
  ptr_eq : v.state.last0 - avail = ptr
  lastBig : LastBigSound h.mem pool v

/-- The newest big chunk, the first `n` of its bytes in use. -/
structure BigTip (h : Heap) (pool : Nat) (v : Mempool) (used : List (Nat × Nat))
    (saved : List Saved) (n ptr avail : Nat) (smalls bigs unused : List Nat) : Prop where
  body : Body h pool
    { v with state := { v.state with last1 := chunkNext h.mem v.state.last1 } }
    [v.state.last1] smalls bigs unused used saved
  avail_eq : chunkSize h.mem v.state.last1 = avail
  free1 : v.state.free1 + n = avail
  ptr_eq : v.state.last1 - avail = ptr
  lastBig : v.lastBig = ptr

/-- The tip under the index that `mp_idx` finds for it. -/
inductive Tip (h : Heap) (pool : Nat) (v : Mempool) (used : List (Nat × Nat))
    (saved : List Saved) (n : Nat) : Nat → Nat → Nat → Prop where
  | small {ptr avail : Nat} {smalls bigs unused : List Nat}
      (htip : SmallTip h pool v used saved n ptr avail smalls bigs unused) :
      Tip h pool v used saved n 0 ptr avail
  | big {ptr avail : Nat} {smalls bigs unused : List Nat}
      (htip : BigTip h pool v used saved n ptr avail smalls bigs unused) :
      Tip h pool v used saved n 1 ptr avail

/-- The range misses all that the pool keeps in memory for itself. -/
structure Clear (h : Heap) (pool : Nat) (saved : List Saved) (a n : Nat) : Prop where
  header : Apart a n pool mempoolSize
  saved : ∀ s ∈ saved, Apart a n s.addr mempoolStateSize
  trailers : ∀ b ∈ h.blocks, Apart a n (b.1 + b.2 - mpChunkTail) mpChunkTail

/-- The range lies in the data area of a malloc'ed range. -/
def InData (h : Heap) (a n : Nat) : Prop :=
  ∃ b ∈ h.blocks, Inside a n b.1 (b.2 - mpChunkTail)

/-- The data in the chunks is what it was, but for the pool's structure. -/
def DataKept (h h' : Heap) (pool : Nat) : Prop :=
  ∀ a n, Apart a n pool mempoolSize → InData h a n → Agree h.mem h'.mem a n

section Ranges

variable {h : Heap} {pool : Nat} {v : Mempool} {chunks extra smalls bigs unused : List Nat}
  {used : List (Nat × Nat)} {saved : List Saved} {a n c : Nat}

theorem Owned.trailer_mem (ho : Owned h chunks) (hc : c ∈ chunks) :
    ∃ b ∈ h.blocks, b.1 + b.2 - mpChunkTail = c := by
  have hbase := ho.base c hc
  refine ⟨chunkBlock h.mem c, ho.blocks.mem_iff.mpr (List.mem_map_of_mem hc), ?_⟩
  simp only [chunkBlock]
  omega

theorem Owned.exists_chunk (ho : Owned h chunks) {b : Nat × Nat} (hb : b ∈ h.blocks) :
    ∃ c ∈ chunks, b = chunkBlock h.mem c ∧ b.1 + b.2 - mpChunkTail = c := by
  obtain ⟨c, hc, rfl⟩ := List.mem_map.mp (ho.blocks.mem_iff.mp hb)
  have hbase := ho.base c hc
  refine ⟨c, hc, rfl, ?_⟩
  simp only [chunkBlock]
  omega

theorem Owned.inData (ho : Owned h chunks) (hc : c ∈ chunks) {r : Nat × Nat}
    (hr : InChunk h.mem c r) : InData h r.1 r.2 := by
  refine ⟨chunkBlock h.mem c, ho.blocks.mem_iff.mpr (List.mem_map_of_mem hc), ?_⟩
  rwa [chunkBlock, Nat.add_sub_cancel]

theorem Owned.inChunk_of_inData (ho : Owned h chunks) (hr : InData h a n) :
    ∃ c ∈ chunks, InChunk h.mem c (a, n) := by
  obtain ⟨b, hb, hin⟩ := hr
  obtain ⟨c, hc, rfl, _⟩ := ho.exists_chunk hb
  refine ⟨c, hc, ?_⟩
  rwa [chunkBlock, Nat.add_sub_cancel] at hin

theorem Clear.trailer (hclear : Clear h pool saved a n) (ho : Owned h chunks) (hc : c ∈ chunks) :
    Apart a n c mpChunkTail := by
  obtain ⟨b, hb, rfl⟩ := ho.trailer_mem hc
  exact hclear.trailers b hb

theorem Clear.mono {a' n' : Nat} (hclear : Clear h pool saved a n) (hin : Inside a' n' a n) :
    Clear h pool saved a' n' where
  header := hclear.header.mono_left hin
  saved := fun s hs => (hclear.saved s hs).mono_left hin
  trailers := fun b hb => (hclear.trailers b hb).mono_left hin

/-- A range in use that is neither the pool nor a saved state. -/
theorem Body.clear (hb : Body h pool v extra smalls bigs unused used saved) {r : Nat × Nat}
    (hr : r ∈ used) (hheader : Apart r.1 r.2 pool mempoolSize)
    (hsaved : ∀ s ∈ saved, Apart r.1 r.2 s.addr mempoolStateSize) :
    Clear h pool saved r.1 r.2 := by
  refine ⟨hheader, hsaved, ?_⟩
  intro b hmem
  obtain ⟨c, hc, _, heq⟩ := hb.owned.exists_chunk hmem
  rw [heq]
  exact hb.used_apart_trailer hr hc

/-- A held block misses what the pool keeps for itself. -/
theorem Body.clear_of_live {live : List Block} {b : Block}
    (hb : Body h pool v extra smalls bigs unused (occupied pool live saved) saved)
    (hin : b ∈ live) : Clear h pool saved b.addr b.size := by
  have hrange : (b.addr, b.size) ∈ live.map (fun b => (b.addr, b.size)) :=
    List.mem_map_of_mem hin
  have hothers := (List.pairwise_append.mp hb.level.apart).2.2 _ hrange
  refine hb.clear (List.mem_append_left _ hrange) (hothers (pool, mempoolSize) (by simp)) ?_
  intro t ht
  exact hothers (t.addr, mempoolStateSize) (List.mem_append_left _ (List.mem_map_of_mem ht))

/-- A range outside the pool's memory. -/
theorem Body.clear_of_outside (hb : Body h pool v extra smalls bigs unused used saved)
    (hout : ∀ b ∈ h.blocks, Apart a n b.1 b.2) : Clear h pool saved a n := by
  have hblock : ∀ c ∈ extra ++ (smalls ++ (bigs ++ unused)), Apart a n
      (c - chunkSize h.mem c) (chunkSize h.mem c + mpChunkTail) :=
    fun c hc => hout (chunkBlock h.mem c) (hb.owned.blocks.mem_iff.mpr (List.mem_map_of_mem hc))
  have hrange : ∀ r ∈ used, Apart a n r.1 r.2 := by
    intro r hr
    obtain ⟨c, hc, hin⟩ := hb.used_inChunk hr
    exact (hblock c (mem_of_linked hc)).mono_right (hin.trans ⟨le_rfl, by omega⟩)
  refine ⟨hrange _ hb.header_used, fun s hs => hrange _ (hb.saved_used s hs), ?_⟩
  intro b hmem
  obtain ⟨c, hc, _, heq⟩ := hb.owned.exists_chunk hmem
  have hbase := hb.owned.base c hc
  rw [heq]
  exact (hblock c hc).mono_right ⟨by omega, by omega⟩

theorem Body.write_clear {m' : Mem} (hb : Body h pool v extra smalls bigs unused used saved)
    (hm : ChangesOnly h.mem m' a n) (hclear : Clear h pool saved a n) :
    Body { h with mem := m' } pool v extra smalls bigs unused used saved ∧
      loadMempool m' pool = loadMempool h.mem pool ∧
      ∀ c ∈ extra ++ (smalls ++ (bigs ++ unused)),
        chunkNext m' c = chunkNext h.mem c ∧ chunkSize m' c = chunkSize h.mem c := by
  refine ⟨hb.write hm (fun c hc => hclear.trailer hb.owned hc) hclear.saved, ?_, ?_⟩
  · exact loadMempool_of_agree (hm.agree hclear.header)
  · exact fun c hc => trailer_of_agree (hm.agree (hclear.trailer hb.owned hc))

/-- A range in use that nobody needs any more. -/
theorem Body.drop {r : Nat × Nat}
    (hb : Body h pool v extra smalls bigs unused (r :: used) saved)
    (hheader : (pool, mempoolSize) ∈ used)
    (hsaved : ∀ s ∈ saved, (s.addr, mempoolStateSize) ∈ used) :
    Body h pool v extra smalls bigs unused used saved := by
  refine { hb with level := ?_, header_used := hheader, saved_used := hsaved }
  exact ⟨hb.level.last0, hb.level.last1, hb.level.free0,
    fun s hs => hb.level.placed s (List.mem_cons_of_mem r hs),
    (List.pairwise_cons.mp hb.level.apart).2⟩

theorem Body.last1_mem (hb : Body h pool v extra smalls bigs unused used saved)
    (hne : v.state.last1 ≠ 0) : v.state.last1 ∈ bigs := by
  have hlast := hb.level.last1
  cases bigs with
  | nil => exact absurd hlast hne
  | cons c rest =>
      rw [hlast]
      exact List.mem_cons_self

theorem LastBigSound.congr {m m' : Mem} {v' : Mempool} (hl : LastBigSound m pool v)
    (hbig : v'.lastBig = v.lastBig) (hlast : v'.state.last1 = v.state.last1)
    (hsize : v.state.last1 ≠ 0 → chunkSize m' v.state.last1 = chunkSize m v.state.last1) :
    LastBigSound m' pool v' := by
  rcases hl with hnone | ⟨hne, hstart⟩
  · exact Or.inl (hbig.trans hnone)
  · right
    rw [hbig, hlast, hsize hne]
    exact ⟨hne, hstart⟩

end Ranges

section Tip

variable {h : Heap} {pool : Nat} {v : Mempool} {smalls bigs unused : List Nat}
  {used : List (Nat × Nat)} {saved : List Saved} {n k idx ptr avail : Nat}

theorem Tip.le (ht : Tip h pool v used saved n idx ptr avail) : n ≤ avail := by
  cases ht with
  | small htip =>
      have havail := htip.avail_eq
      omega
  | big htip =>
      have havail := htip.free1
      omega

/-- The pool with any part of the tip in use. -/
theorem Tip.filled (ht : Tip h pool v used saved n idx ptr avail) (hk : k ≤ avail) :
    ∃ v' smalls bigs unused, Body h pool v' [] smalls bigs unused ((ptr, k) :: used) saved ∧
      (k = n → v' = v) := by
  cases ht with
  | @small _ _ smalls bigs unused htip =>
      obtain ⟨hbody, havail, hptr, _⟩ := htip
      have hfree : avail ≤ (v.giveBack n).state.free0 := havail.ge
      have hstart : (v.giveBack n).state.last0 - avail = ptr := hptr
      have hcarved := hbody.carve hfree hk
      rw [hstart] at hcarved
      refine ⟨_, smalls, bigs, unused, hcarved, ?_⟩
      rintro rfl
      have hrest : avail - k = v.state.free0 := by omega
      rw [hrest]
      rfl
  | @big _ _ smalls bigs unused htip =>
      obtain ⟨hbody, havail, _, hptr, _⟩ := htip
      have hlinked := hbody.link_big rfl (hk.trans_eq havail.symm)
      rw [havail, hptr] at hlinked
      exact ⟨_, smalls, _, unused, hlinked, fun _ => rfl⟩

theorem Tip.lastBigSound (ht : Tip h pool v used saved n idx ptr avail) :
    LastBigSound h.mem pool v := by
  cases ht with
  | small htip => exact htip.lastBig
  | big htip =>
      refine Or.inr ⟨htip.body.owned.ne_zero (by simp), ?_⟩
      rw [htip.lastBig, htip.avail_eq, htip.ptr_eq]

theorem Tip.apart_used (ht : Tip h pool v used saved n idx ptr avail) {r : Nat × Nat}
    (hr : r ∈ used) : Apart ptr avail r.1 r.2 := by
  obtain ⟨_, _, _, _, hfull, _⟩ := ht.filled le_rfl
  exact (List.pairwise_cons.mp hfull.level.apart).1 r hr

/-- The pool's structure and the saved states are in use. -/
theorem Tip.bookkeeping (ht : Tip h pool v used saved n idx ptr avail) :
    (pool, mempoolSize) ∈ used ∧ ∀ s ∈ saved, (s.addr, mempoolStateSize) ∈ used := by
  cases ht with
  | small htip => exact ⟨htip.body.header_used, htip.body.saved_used⟩
  | big htip => exact ⟨htip.body.header_used, htip.body.saved_used⟩

theorem Tip.clear (ht : Tip h pool v used saved n idx ptr avail) : Clear h pool saved ptr avail := by
  obtain ⟨_, _, _, _, hfull, _⟩ := ht.filled le_rfl
  obtain ⟨hheader, hsaved⟩ := ht.bookkeeping
  exact hfull.clear List.mem_cons_self (ht.apart_used hheader)
    (fun s hs => ht.apart_used (hsaved s hs))

theorem Tip.inData (ht : Tip h pool v used saved n idx ptr avail) : InData h ptr avail := by
  obtain ⟨_, _, _, _, hfull, _⟩ := ht.filled le_rfl
  obtain ⟨c, hc, hin⟩ := hfull.used_inChunk List.mem_cons_self
  exact hfull.owned.inData (mem_of_linked hc) hin

theorem Tip.used_inData (ht : Tip h pool v used saved n idx ptr avail) {r : Nat × Nat}
    (hr : r ∈ used) : InData h r.1 r.2 := by
  obtain ⟨_, _, _, _, hfull, _⟩ := ht.filled le_rfl
  obtain ⟨c, hc, hin⟩ := hfull.used_inChunk (List.mem_cons_of_mem _ hr)
  exact hfull.owned.inData (mem_of_linked hc) hin

/-- Writes that miss the pool's own data. -/
theorem Tip.write {m' : Mem} {a size : Nat} (ht : Tip h pool v used saved n idx ptr avail)
    (hm : ChangesOnly h.mem m' a size) (hclear : Clear h pool saved a size) :
    Tip { h with mem := m' } pool v used saved n idx ptr avail := by
  cases ht with
  | small htip =>
      obtain ⟨hbody, _, hsame⟩ := htip.body.write_clear hm hclear
      refine .small ⟨hbody, htip.avail_eq, htip.ptr_eq, htip.lastBig.congr rfl rfl ?_⟩
      intro hne
      have hmem : v.state.last1 ∈ _ := htip.body.last1_mem hne
      exact (hsame _ (mem_of_linked (List.mem_append_right _ hmem))).2
  | big htip =>
      obtain ⟨hbody, _, hsame⟩ := htip.body.write_clear hm hclear
      obtain ⟨hnext, hsize⟩ := hsame v.state.last1 (by simp)
      rw [← hnext] at hbody
      exact .big ⟨hbody, hsize.trans htip.avail_eq, htip.free1, htip.ptr_eq, htip.lastBig⟩

end Tip

/-- A function has returned a block of `size` bytes, which is now the tip; no data
has changed. -/
def Served (h : Heap) (pool : Nat) (used : List (Nat × Nat)) (saved : List Saved) (size idx : Nat)
    (r : Nat × Heap) : Prop :=
  (∃ avail, Tip r.2 pool (loadMempool r.2.mem pool) used saved size idx r.1 avail) ∧
    DataKept h r.2 pool

section Allocation

variable {dies : Prop} {malloc : Allocator} {h : Heap} {pool : Nat} {v : Mempool}
  {smalls bigs unused : List Nat} {used : List (Nat × Nat)} {saved : List Saved} {size c : Nat}

/-- The free bytes of the newest small chunk but for the first ones. -/
theorem Body.skip {avail : Nat} (hb : Body h pool v [] smalls bigs unused used saved)
    (havail : avail ≤ v.state.free0) :
    Body h pool { v with state := { v.state with free0 := avail } } [] smalls bigs unused used
      saved :=
  (hb.carve havail (Nat.zero_le avail)).drop hb.header_used hb.saved_used

theorem LastBigSound.kept {m' : Mem} {v' : Mempool} {extra : List Nat}
    (hl : LastBigSound h.mem pool v) (hb : Body h pool v extra smalls bigs unused used saved)
    (hbig : v'.lastBig = v.lastBig) (hlast : v'.state.last1 = v.state.last1)
    (hsize : ∀ d ∈ extra ++ (smalls ++ (bigs ++ unused)), chunkSize m' d = chunkSize h.mem d) :
    LastBigSound m' pool v' := by
  refine hl.congr hbig hlast ?_
  intro hne
  exact hsize _ (mem_of_linked (List.mem_append_right _ (hb.last1_mem hne)))

theorem DataKept.of_header {m' : Mem} (hm : ChangesOnly h.mem m' pool mempoolSize) :
    DataKept h { h with mem := m' } pool :=
  fun _ _ hpool _ => hm.agree hpool.symm

/-- Allocation from the free bytes of the newest small chunk. -/
theorem Body.serve_carve (hb : Body h pool v [] smalls bigs unused used saved)
    (hv : loadMempool h.mem pool = v) (hbig : LastBigSound h.mem pool v) {avail : Nat}
    (havail : avail ≤ v.state.free0) (hsize : size ≤ avail) :
    Served h pool used saved size 0 (v.state.last0 - avail,
      { h with mem := setFree0 h.mem pool (avail - size) }) := by
  have hfree := hb.level.free0
  have hmax := hb.size_max
  have hm : ChangesOnly h.mem (setFree0 h.mem pool (avail - size)) pool mempoolSize :=
    field_changesOnly _ pool 0 4 _ (by decide)
  have hlt : (avail - size) % 2 ^ 32 = avail - size := Nat.mod_eq_of_lt (by omega)
  have hback : avail - size + size = avail := Nat.sub_add_cancel hsize
  obtain ⟨hbody, hsizes, _⟩ := (hb.skip havail).header_write hm
  refine ⟨⟨avail, ?_⟩, DataKept.of_header hm⟩
  rw [loadMempool_setFree0, hv, hlt]
  exact .small ⟨hbody.of_fields hback rfl rfl rfl rfl rfl rfl, hback, rfl,
    hbig.kept hb rfl rfl hsizes⟩

/-- A new chunk is apart from all data, and nothing is written outside it. -/
theorem mpNewBigChunk_keeps (hmalloc : malloc.HandsOutFresh cpuStructAlign) (h : Heap)
    (size : Nat) :
    Yields dies (mpNewBigChunk malloc h size) (fun r => ∀ a n, InData h a n →
      Apart a n r.1 mpChunkTail ∧ Agree h.mem r.2.mem a n) := by
  refine (mpNewBigChunk_yields hmalloc h size).mono ?_
  rintro ⟨c, h'⟩ ⟨p, hfresh, hc, hheap⟩ a n ⟨b, hin, hinside⟩
  dsimp only at hc hheap
  subst hc hheap
  have htrailer : Inside (p + size) mpChunkTail p (size + mpChunkTail) := by
    unfold Inside
    omega
  have hm : ChangesOnly h.mem (setChunkSize h.mem (p + size) size) (p + size) mpChunkTail :=
    field_changesOnly _ (p + size) 8 4 _ (by decide)
  have happart : Apart a n (p + size) mpChunkTail :=
    (hfresh.2.2.2 b hin).mono (hinside.trans ⟨le_rfl, by omega⟩) htrailer
  exact ⟨happart, hm.agree happart.symm⟩

/-- Taking a chunk changes `unused` only, and no data. -/
theorem Body.take_chunk_keeps (hmalloc : malloc.HandsOutFresh cpuStructAlign)
    (hb : Body h pool v [] smalls bigs unused used saved) (hv : loadMempool h.mem pool = v) :
    Yields dies (if v.unused ≠ 0 then
        .ok (v.unused, { h with mem := setUnused h.mem pool (chunkNext h.mem v.unused) })
      else mpNewChunk malloc h v.chunkSize) (fun r =>
      (∃ u, loadMempool r.2.mem pool = { v with unused := u }) ∧
      ∀ a n, Apart a n pool mempoolSize → InData h a n →
        Apart a n r.1 mpChunkTail ∧ Agree h.mem r.2.mem a n) := by
  have hchain := hb.unusedChain
  cases unused with
  | nil =>
      have hnull : ¬ v.unused ≠ 0 := not_not.mpr hchain
      rw [if_neg hnull]
      refine ((hb.new_chunk hmalloc hb.size_aligned hb.size_max).and
        (mpNewBigChunk_keeps hmalloc h v.chunkSize)).mono ?_
      rintro ⟨c, h'⟩ ⟨⟨_, _, hheader, _⟩, hkept⟩
      exact ⟨⟨v.unused, hheader.trans hv⟩, fun a n _ hin => hkept a n hin⟩
  | cons c rest =>
      have hhead : v.unused = c := hchain.1
      have hne : c ≠ 0 := hb.owned.ne_zero (by simp)
      have hm : ChangesOnly h.mem (setUnused h.mem pool (chunkNext h.mem c)) pool mempoolSize :=
        field_changesOnly _ pool 32 8 _ (by decide)
      rw [hhead, if_pos hne]
      refine .ok ⟨⟨chunkNext h.mem c % 2 ^ 64, ?_⟩, ?_⟩
      · rw [loadMempool_setUnused, hv]
      · intro a n hpool hdata
        obtain ⟨d, hd, hin⟩ := hb.owned.inChunk_of_inData hdata
        exact ⟨hb.owned.data_apart_trailer hd (by simp) hin, hm.agree hpool.symm⟩

/-- Small requests are served from another small chunk. -/
theorem mpAllocInternal_serves_small (hmalloc : malloc.HandsOutFresh cpuStructAlign)
    (hb : Body h pool v [] smalls bigs unused used saved) (hv : loadMempool h.mem pool = v)
    (hbig : LastBigSound h.mem pool v) (hsmall : size ≤ v.threshold) :
    Yields dies (mpAllocInternal malloc h pool size) (fun r =>
      (loadMempool r.2.mem pool).index = 0 ∧ Served h pool used saved size 0 r) := by
  have hhalf := hb.threshold
  have hmax := hb.size_max
  obtain ⟨hindexed, hheader, hsizes⟩ := hb.set_index hv 0
  have hm : ChangesOnly h.mem (setIndex h.mem pool 0) pool mempoolSize :=
    field_changesOnly _ pool 56 4 0 (by decide)
  rw [mpAllocInternal, hv]
  simp only [if_pos hsmall]
  refine ((hindexed.take_chunk hmalloc hheader).and
    (hindexed.take_chunk_keeps hmalloc hheader)).bind ?_
  rintro ⟨c, h'⟩ ⟨⟨v', unused', hv', _, _, hbody, hdata, hkept⟩, ⟨u, hu⟩, hdatas⟩
  dsimp only at hv' hbody hdata hkept hu hdatas
  rw [hv'] at hu
  subst hu
  dsimp only at hbody hdata
  have hback : v.chunkSize - size + size = v.chunkSize := Nat.sub_add_cancel (by omega)
  obtain ⟨hfinal, hwritten, hnext, hsizes', hagree⟩ :=
    hbody.write_small hv' (Nat.lt_of_le_of_lt (Nat.sub_le v.chunkSize size) hmax) rfl
  have hlinked := (hwritten.link_small ((hsizes' c (by simp)).trans hdata) hnext
    (Nat.zero_le _)).drop hwritten.header_used hwritten.saved_used
  have hlast : v.state.last1 ≠ 0 → chunkSize (setFree0 (setLast0 (setChunkNext h'.mem c
      v.state.last0) pool c) pool (v.chunkSize - size)) v.state.last1 =
      chunkSize h.mem v.state.last1 := by
    intro hne
    have hmem : v.state.last1 ∈ smalls ++ bigs := List.mem_append_right _ (hb.last1_mem hne)
    exact (hsizes' _ (mem_of_linked hmem)).trans
      ((hkept _ hmem).trans (hsizes _ (mem_of_linked hmem)))
  generalize setFree0 (setLast0 (setChunkNext h'.mem c v.state.last0) pool c) pool
    (v.chunkSize - size) = m' at *
  refine .ok ⟨?_, ⟨v.chunkSize, ?_⟩, ?_⟩
  · exact congrArg Mempool.index hfinal
  · dsimp only
    rw [hfinal]
    exact .small ⟨hlinked.of_fields hback rfl rfl rfl rfl rfl rfl, hback, rfl,
      hbig.congr rfl rfl hlast⟩
  · intro a n hpool hin
    obtain ⟨hchunk, hsame⟩ := hdatas a n hpool hin
    exact (hm.agree hpool.symm).trans (hsame.trans (hagree a n hpool hchunk))

/-- Big requests get a chunk of their own. -/
theorem mpAllocInternal_serves_big (hmalloc : malloc.HandsOutFresh cpuStructAlign)
    (hb : Body h pool v [] smalls bigs unused used saved) (hv : loadMempool h.mem pool = v)
    (hlarge : ¬ size ≤ v.threshold) (hmax : size ≤ mpSizeMax) :
    Yields dies (mpAllocInternal malloc h pool size) (fun r =>
      (loadMempool r.2.mem pool).index = 1 ∧ Served h pool used saved size 1 r) := by
  obtain ⟨hdvd, hle, hlt⟩ := alignTo_bounds hmax
  obtain ⟨hindexed, hheader, _⟩ := hb.set_index hv 1
  have hm : ChangesOnly h.mem (setIndex h.mem pool 1) pool mempoolSize :=
    field_changesOnly _ pool 56 4 1 (by decide)
  rw [mpAllocInternal, hv]
  simp only [if_neg hlarge, if_pos hmax]
  generalize alignTo 32 size cpuStructAlign = aligned at *
  refine ((hindexed.new_chunk hmalloc hdvd hlt).and (mpNewBigChunk_keeps hmalloc _ _)).bind ?_
  rintro ⟨c, h'⟩ ⟨⟨hnew, hdata, hsame, _⟩, hdatas⟩
  dsimp only at hnew hdata hsame hdatas
  have hfree : (aligned - size) % 2 ^ 32 = aligned - size := Nat.mod_eq_of_lt (by omega)
  have hstart : (c - aligned) % 2 ^ 64 = c - aligned := by
    have htop := hnew.owned.lt_max (List.mem_append_left _ (List.mem_singleton_self c))
    exact Nat.mod_eq_of_lt (by omega)
  obtain ⟨hfinal, hwritten, hnext, hsizes, hagree⟩ :=
    hnew.write_big (hsame.trans hheader) (aligned - size) (c - aligned) rfl
  rw [hfree, hstart] at hfinal
  generalize setLastBig (setFree1 (setLast1 (setChunkNext h'.mem c v.state.last1) pool c)
    pool (aligned - size)) pool (c - aligned) = m' at *
  refine .ok ⟨?_, ⟨aligned, ?_⟩, ?_⟩
  · exact congrArg Mempool.index hfinal
  · dsimp only
    rw [hfinal]
    exact .big ⟨hwritten.of_fields rfl rfl hnext rfl rfl rfl rfl,
      (hsizes c (by simp)).trans hdata, Nat.sub_add_cancel hle, rfl, rfl⟩
  · intro a n hpool hin
    obtain ⟨hchunk, hkept⟩ := hdatas a n hin
    exact (hm.agree hpool.symm).trans (hkept.trans (hagree a n hpool hchunk))

theorem mpAllocInternal_serves (hmalloc : malloc.HandsOutFresh cpuStructAlign)
    (hb : Body h pool v [] smalls bigs unused used saved) (hv : loadMempool h.mem pool = v)
    (hbig : LastBigSound h.mem pool v) (hmax : size ≤ mpSizeMax ∨ dies) :
    Yields dies (mpAllocInternal malloc h pool size) (fun r =>
      Served h pool used saved size (loadMempool r.2.mem pool).index r) := by
  by_cases hsmall : size ≤ v.threshold
  · refine (mpAllocInternal_serves_small hmalloc hb hv hbig hsmall).mono ?_
    rintro r ⟨hindex, hr⟩
    rwa [hindex]
  · by_cases hlarge : size ≤ mpSizeMax
    · refine (mpAllocInternal_serves_big hmalloc hb hv hsmall hlarge).mono ?_
      rintro r ⟨hindex, hr⟩
      rwa [hindex]
    · have hdies : dies := hmax.resolve_left hlarge
      rw [mpAllocInternal, hv]
      simp only [if_neg hsmall, if_neg hlarge]
      exact .die hdies

theorem mpAllocFast_serves (hmalloc : malloc.HandsOutFresh cpuStructAlign)
    (hb : Body h pool v [] smalls bigs unused used saved) (hv : loadMempool h.mem pool = v)
    (hbig : LastBigSound h.mem pool v) (hmax : size ≤ mpSizeMax ∨ dies) :
    Yields dies (mpAllocFast malloc h pool size) (fun r =>
      (∃ idx, Served h pool used saved size idx r) ∧ cpuStructAlign ∣ r.1) := by
  refine Yields.and ?_ ((mpAllocFast_yields hmalloc hb hv hmax).mono (fun r hr => hr.2))
  have hstate : loadState h.mem pool = v.state := by rw [← hv]; rfl
  rw [mpAllocFast, hstate]
  split
  · next hfit => exact .ok ⟨0, hb.serve_carve hv hbig (Nat.sub_le _ _) hfit⟩
  · exact (mpAllocInternal_serves hmalloc hb hv hbig hmax).mono (fun r hr => ⟨_, hr⟩)

theorem mpAllocFastNoalign_serves (hmalloc : malloc.HandsOutFresh cpuStructAlign)
    (hb : Body h pool v [] smalls bigs unused used saved) (hv : loadMempool h.mem pool = v)
    (hbig : LastBigSound h.mem pool v) (hmax : size ≤ mpSizeMax ∨ dies) :
    Yields dies (mpAllocFastNoalign malloc h pool size) (fun r =>
      ∃ idx, Served h pool used saved size idx r) := by
  have hstate : loadState h.mem pool = v.state := by rw [← hv]; rfl
  rw [mpAllocFastNoalign, hstate]
  split
  · next hfit => exact .ok ⟨0, hb.serve_carve hv hbig le_rfl hfit⟩
  · exact (mpAllocInternal_serves hmalloc hb hv hbig hmax).mono (fun r hr => ⟨_, hr⟩)

end Allocation

end OpenAAA.Pool
