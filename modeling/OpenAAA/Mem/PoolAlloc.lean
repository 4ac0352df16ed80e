import OpenAAA.Mem.PoolInvariant

/-!
Allocation keeps the invariant. Every path of the allocator is made of four
moves: cutting a range off the newest small chunk, taking a chunk from the unused
chain or from `malloc`, and linking such a chunk in front of the small or of the
big chain together with the first range in it.
-/

namespace OpenAAA.Pool

open Memory Alloc Sys Linked

section Moves

variable {h : Heap} {pool : Nat} {v : Mempool} {extra smalls bigs unused : List Nat}
  {used : List (Nat × Nat)} {saved : List Saved} {c size : Nat}

/-- The header fields that the invariant is about. -/
theorem Body.of_fields {v' : Mempool} (hb : Body h pool v extra smalls bigs unused used saved)
    (hfree : v'.state.free0 = v.state.free0) (hlast0 : v'.state.last0 = v.state.last0)
    (hlast1 : v'.state.last1 = v.state.last1) (hnext : v'.state.next = v.state.next)
    (hunused : v'.unused = v.unused) (hsize : v'.chunkSize = v.chunkSize)
    (hthreshold : v'.threshold = v.threshold) :
    Body h pool v' extra smalls bigs unused used saved := by
  obtain ⟨howned, hmin, hmax, haligned, hhalf, hsmall, hbottom, hsmalls, hbigs, hfreed, hlevel,
    hheader, hstates, hstate, hlevels⟩ := hb
  obtain ⟨htop, hbig, hfit, hplaced, happart⟩ := hlevel
  rw [← hsize] at *
  constructor
  · exact howned
  · exact hmin
  · exact hmax
  · exact haligned
  · rw [hthreshold, hhalf]
  · exact hsmall
  · exact hbottom
  · rwa [hlast0]
  · rwa [hlast1]
  · rwa [hunused]
  · refine ⟨?_, ?_, ?_, ?_, happart⟩
    · rwa [hlast0]
    · rwa [hlast1]
    · rwa [hfree]
    · rwa [hlast0, hfree]
  · exact hheader
  · exact hstates
  · rwa [hnext]
  · exact hlevels

/-- What the invariant says about the heap besides memory is who owns it. -/
theorem Body.of_owned {h' : Heap} {extra' : List Nat}
    (hb : Body h pool v extra smalls bigs unused used saved) (hmem : h'.mem = h.mem)
    (howned : Owned h' (extra' ++ (smalls ++ (bigs ++ unused)))) :
    Body h' pool v extra' smalls bigs unused used saved := by
  obtain ⟨_, hmin, hmax, haligned, hhalf, hsmall, hbottom, hsmalls, hbigs, hfreed, hlevel,
    hheader, hstates, hstate, hlevels⟩ := hb
  rw [← hmem] at hsmall hsmalls hbigs hfreed hlevel hlevels
  exact ⟨howned, hmin, hmax, haligned, hhalf, hsmall, hbottom, hsmalls, hbigs, hfreed, hlevel,
    hheader, hstates, hstate, hlevels⟩

/-- The newest small chunk is listed once. -/
theorem Body.last0_ne (hb : Body h pool v extra smalls bigs unused used saved)
    (hc : c ∈ smalls.tail ++ bigs) : v.state.last0 ≠ c := by
  obtain ⟨rest, hsmalls⟩ := List.head?_eq_some_iff.mp hb.level.last0
  have hnodup := (List.nodup_append.mp hb.owned.nodup).2.1
  rintro rfl
  simp only [hsmalls, List.tail_cons, List.cons_append, List.nodup_cons, List.mem_append] at *
  tauto

/-- A chunk of no chain holds nothing in use. -/
theorem Body.extra_ne (hb : Body h pool v (c :: extra) smalls bigs unused used saved) {d : Nat}
    (hd : d ∈ smalls ++ bigs) : c ≠ d := by
  have hnodup := hb.owned.nodup
  rintro rfl
  simp only [List.cons_append, List.nodup_cons, List.mem_append] at hnodup hd
  tauto

/-- Cutting `size` bytes off the free end of the newest small chunk, of which all
but `avail` are skipped. -/
theorem Body.carve (hb : Body h pool v extra smalls bigs unused used saved) {avail : Nat}
    (havail : avail ≤ v.state.free0) (hsize : size ≤ avail) :
    Body h pool { v with state := { v.state with free0 := avail - size } }
      extra smalls bigs unused ((v.state.last0 - avail, size) :: used) saved := by
  obtain ⟨rest, hsmalls⟩ : ∃ rest, smalls = v.state.last0 :: rest :=
    List.head?_eq_some_iff.mp hb.level.last0
  have hmem : v.state.last0 ∈ smalls := by simp [hsmalls]
  have hall : v.state.last0 ∈ extra ++ (smalls ++ (bigs ++ unused)) := by simp [hmem]
  have hdata := hb.small _ (List.mem_append_left unused hmem)
  have hbase := hb.owned.base _ hall
  have hfree := hb.level.free0
  rw [hdata] at hbase
  refine { hb with level := ?_, header_used := ?_, saved_used := ?_ }
  · refine ⟨hb.level.last0, hb.level.last1, ?_, ?_, ?_⟩
    · change avail - size ≤ v.chunkSize
      omega
    · intro r hr
      change Inside r.1 r.2 (v.state.last0 - v.chunkSize) (v.chunkSize - (avail - size)) ∨ _
      rcases List.mem_cons.mp hr with rfl | hold
      · left
        unfold Inside
        simp only
        omega
      · rcases hb.level.placed r hold with htop | hother
        · left
          unfold Inside at *
          omega
        · exact Or.inr hother
    · refine List.pairwise_cons.mpr ⟨?_, hb.level.apart⟩
      intro r hr
      rcases hb.level.placed r hr with htop | ⟨d, hd, hin⟩
      · simp only [ApartRange, Apart, Inside] at *
        omega
      · refine hb.owned.data_apart hall (mem_of_linked (mem_of_tail hd)) (hb.last0_ne hd) ?_ hin
        rw [InChunk, hdata]
        unfold Inside
        simp only
        omega
  · exact List.mem_cons_of_mem _ hb.header_used
  · exact fun s hs => List.mem_cons_of_mem _ (hb.saved_used s hs)

/-- A range in a chunk of no chain is disjoint from everything in use. -/
theorem Body.extra_apart_used (hb : Body h pool v (c :: extra) smalls bigs unused used saved)
    {r s : Nat × Nat} (hr : InChunk h.mem c r) (hs : s ∈ used) : ApartRange r s := by
  obtain ⟨d, hd, hin⟩ := hb.used_inChunk hs
  exact hb.owned.data_apart (by simp) (mem_of_linked hd) (hb.extra_ne hd) hr hin

/-- A chunk becomes the newest small one, with one range in use. -/
theorem Body.link_small (hb : Body h pool v (c :: extra) smalls bigs unused used saved)
    (hdata : chunkSize h.mem c = v.chunkSize) (hlink : chunkNext h.mem c = v.state.last0)
    (hsize : size ≤ v.chunkSize) :
    Body h pool { v with state := { v.state with last0 := c, free0 := v.chunkSize - size } }
      extra (c :: smalls) bigs unused ((c - v.chunkSize, size) :: used) saved := by
  have hbase := hb.owned.base c (by simp)
  have hsmalls : smalls = v.state.last0 :: smalls.tail := by
    obtain ⟨rest, hrest⟩ := List.head?_eq_some_iff.mp hb.level.last0
    rw [hrest, List.tail_cons]
  refine { hb with owned := ?_, small := ?_, bottom := ?_, smallChain := ?_, level := ?_,
                   header_used := ?_, saved_used := ?_, levels := ?_ }
  · exact hb.owned.perm List.perm_middle.symm
  · intro d hd
    rcases List.mem_cons.mp hd with rfl | hold
    · exact hdata
    · exact hb.small d hold
  · have hbottom := hb.bottom
    rw [hsmalls] at hbottom ⊢
    rw [List.getLast?_cons_cons]
    exact hbottom
  · exact hb.smallChain.push hlink (fun _ _ => rfl)
  · refine ⟨rfl, hb.level.last1, ?_, ?_, ?_⟩
    · exact Nat.sub_le _ _
    · intro r hr
      rcases List.mem_cons.mp hr with rfl | hold
      · left
        change Inside (c - v.chunkSize) size (c - v.chunkSize) (v.chunkSize - (v.chunkSize - size))
        exact ⟨le_rfl, by omega⟩
      · right
        exact hb.used_inChunk hold
    · refine List.pairwise_cons.mpr ⟨?_, hb.level.apart⟩
      intro s hs
      refine hb.extra_apart_used ?_ hs
      rw [InChunk, hdata]
      exact ⟨le_rfl, by simp only; omega⟩
  · exact List.mem_cons_of_mem _ hb.header_used
  · exact fun s hs => List.mem_cons_of_mem _ (hb.saved_used s hs)
  · exact hb.levels.mono (List.suffix_cons c smalls) List.suffix_rfl

/-- A chunk becomes the newest big one, with one range in use. -/
theorem Body.link_big (hb : Body h pool v (c :: extra) smalls bigs unused used saved)
    (hlink : chunkNext h.mem c = v.state.last1) (hsize : size ≤ chunkSize h.mem c) :
    Body h pool { v with state := { v.state with last1 := c } }
      extra smalls (c :: bigs) unused ((c - chunkSize h.mem c, size) :: used) saved := by
  have hin : InChunk h.mem c (c - chunkSize h.mem c, size) := ⟨le_rfl, by simp only; omega⟩
  refine { hb with owned := ?_, bigChain := ?_, level := ?_, header_used := ?_,
                   saved_used := ?_, levels := ?_ }
  · have hmiddle : (c :: ((extra ++ smalls) ++ (bigs ++ unused))).Perm
        ((extra ++ smalls) ++ c :: (bigs ++ unused)) := List.perm_middle.symm
    apply hb.owned.perm
    simpa only [List.append_assoc, List.cons_append] using hmiddle
  · exact hb.bigChain.push hlink (fun _ _ => rfl)
  · refine ⟨hb.level.last0, rfl, hb.level.free0, ?_, ?_⟩
    · intro r hr
      rcases List.mem_cons.mp hr with rfl | hold
      · exact Or.inr ⟨c, by simp, hin⟩
      · rcases hb.level.placed r hold with htop | ⟨d, hd, hind⟩
        · exact Or.inl htop
        · exact Or.inr ⟨d, mem_append_cons c hd, hind⟩
    · refine List.pairwise_cons.mpr ⟨?_, hb.level.apart⟩
      exact fun s hs => hb.extra_apart_used hin hs
  · exact List.mem_cons_of_mem _ hb.header_used
  · exact fun s hs => List.mem_cons_of_mem _ (hb.saved_used s hs)
  · exact hb.levels.mono List.suffix_rfl (List.suffix_cons c bigs)

/-- The first unused chunk leaves its chain. -/
theorem Body.take_unused (hb : Body h pool v extra smalls bigs (c :: unused) used saved) :
    v.unused = c ∧ chunkSize h.mem c = v.chunkSize ∧
      Body h pool { v with unused := chunkNext h.mem c } (c :: extra) smalls bigs unused
        used saved := by
  obtain ⟨hhead, htail⟩ := hb.unusedChain
  refine ⟨hhead, hb.small c (by simp), ?_⟩
  refine { hb with owned := ?_, small := ?_, unusedChain := htail }
  · have hmiddle : ((extra ++ smalls ++ bigs) ++ c :: unused).Perm
        (c :: ((extra ++ smalls ++ bigs) ++ unused)) := List.perm_middle
    apply hb.owned.perm
    simpa only [List.append_assoc, List.cons_append] using hmiddle
  · exact fun d hd => hb.small d (mem_append_cons c hd)

/-- A small chunk of no chain becomes the first unused one. -/
theorem Body.link_unused (hb : Body h pool v (c :: extra) smalls bigs unused used saved)
    (hdata : chunkSize h.mem c = v.chunkSize) (hlink : chunkNext h.mem c = v.unused) :
    Body h pool { v with unused := c } extra smalls bigs (c :: unused) used saved := by
  refine { hb with owned := ?_, small := ?_, unusedChain := ?_ }
  · have hmiddle : (c :: ((extra ++ smalls ++ bigs) ++ unused)).Perm
        ((extra ++ smalls ++ bigs) ++ c :: unused) := List.perm_middle.symm
    apply hb.owned.perm
    simpa only [List.append_assoc, List.cons_append] using hmiddle
  · intro d hd
    simp only [List.mem_append, List.mem_cons] at hd
    rcases hd with hd | rfl | hd
    · exact hb.small d (by simp [hd])
    · exact hdata
    · exact hb.small d (by simp [hd])
  · exact hb.unusedChain.push hlink (fun _ _ => rfl)

end Moves

section Allocation

variable {dies : Prop} {malloc : Allocator} {h : Heap} {pool : Nat} {v : Mempool}
  {extra smalls bigs unused : List Nat} {used : List (Nat × Nat)} {saved : List Saved}
  {size : Nat}

/-- A fresh range becomes a chunk. -/
theorem Owned.cons {chunks : List Nat} (ho : Owned h chunks) {a requests : Nat}
    (hfresh : Fresh cpuStructAlign h.blocks a (size + mpChunkTail))
    (haligned : cpuStructAlign ∣ size) (hdata : chunkSize h.mem (a + size) = size) :
    Owned { h with blocks := (a, size + mpChunkTail) :: h.blocks, requests := requests }
      ((a + size) :: chunks) := by
  obtain ⟨hpos, halign, htop, happart⟩ := hfresh
  have hblock : chunkBlock h.mem (a + size) = (a, size + mpChunkTail) := by
    rw [chunkBlock, hdata, Nat.add_sub_cancel]
  constructor
  · change ((a, size + mpChunkTail) :: h.blocks).Perm _
    rw [List.map_cons, hblock]
    exact ho.blocks.cons _
  · refine List.pairwise_cons.mpr ⟨?_, ho.apart⟩
    intro c hc
    have hmem : chunkBlock h.mem c ∈ h.blocks :=
      ho.blocks.mem_iff.mpr (List.mem_map_of_mem hc)
    change ApartRange (chunkBlock h.mem (a + size)) (chunkBlock h.mem c)
    rw [hblock]
    exact (happart _ hmem).symm
  · intro c hc
    rcases List.mem_cons.mp hc with rfl | hold
    · change chunkSize h.mem (a + size) < a + size
      omega
    · exact ho.base c hold
  · intro c hc
    rcases List.mem_cons.mp hc with rfl | hold
    · exact Nat.dvd_add halign haligned
    · exact ho.aligned c hold
  · intro c hc
    rcases List.mem_cons.mp hc with rfl | hold
    · omega
    · exact ho.top c hold

theorem mpNewBigChunk_yields (hmalloc : malloc.HandsOutFresh cpuStructAlign) (h : Heap)
    (size : Nat) :
    Yields dies (mpNewBigChunk malloc h size) (fun r => ∃ a,
      Fresh cpuStructAlign h.blocks a (size + mpChunkTail) ∧ r.1 = a + size ∧
      r.2 = ⟨setChunkSize h.mem (a + size) size, (a, size + mpChunkTail) :: h.blocks,
        h.requests + 1⟩) := by
  refine (h.malloc_yields hmalloc _).bind ?_
  rintro ⟨a, h'⟩ ⟨hfresh, hheap⟩
  dsimp only at hfresh hheap
  subst hheap
  exact .ok ⟨a, hfresh, rfl, rfl⟩

/-- A range that can be handed out misses every chunk. -/
theorem Owned.fresh_apart {chunks : List Nat} {a n c : Nat} (ho : Owned h chunks)
    (hfresh : Fresh cpuStructAlign h.blocks a n) (hc : c ∈ chunks) :
    Apart a n (c - chunkSize h.mem c) (chunkSize h.mem c + mpChunkTail) := by
  have hmem : chunkBlock h.mem c ∈ h.blocks :=
    ho.blocks.mem_iff.mpr (List.mem_map_of_mem hc)
  exact (hfresh.2.2.2 _ hmem).symm

theorem Owned.fresh_apart_trailer {chunks : List Nat} {a n c : Nat} (ho : Owned h chunks)
    (hfresh : Fresh cpuStructAlign h.blocks a n) (hc : c ∈ chunks) : Apart a n c mpChunkTail := by
  have hbase := ho.base c hc
  exact (ho.fresh_apart hfresh hc).mono_right ⟨by omega, by omega⟩

theorem Body.fresh_apart_used {a n : Nat} (hb : Body h pool v extra smalls bigs unused used saved)
    (hfresh : Fresh cpuStructAlign h.blocks a n) {r : Nat × Nat} (hr : r ∈ used) :
    Apart a n r.1 r.2 := by
  obtain ⟨c, hc, hin⟩ := hb.used_inChunk hr
  exact (hb.owned.fresh_apart hfresh (mem_of_linked hc)).mono_right
    (hin.trans ⟨le_rfl, by omega⟩)

/-- A fresh range whose trailer holds its size becomes a chunk that is in no chain
yet. -/
theorem Body.adopt {m' : Mem} {a : Nat}
    (hb : Body h pool v extra smalls bigs unused used saved)
    (hfresh : Fresh cpuStructAlign h.blocks a (size + mpChunkTail))
    (haligned : cpuStructAlign ∣ size) (hm : ChangesOnly h.mem m' a (size + mpChunkTail))
    (hdata : chunkSize m' (a + size) = size) (requests : Nat) :
    Body ⟨m', (a, size + mpChunkTail) :: h.blocks, requests⟩ pool v ((a + size) :: extra)
        smalls bigs unused used saved ∧
      loadMempool m' pool = loadMempool h.mem pool ∧
      ∀ c ∈ extra ++ (smalls ++ (bigs ++ unused)), chunkSize m' c = chunkSize h.mem c := by
  have htrailer : ∀ c ∈ extra ++ (smalls ++ (bigs ++ unused)),
      Apart a (size + mpChunkTail) c mpChunkTail :=
    fun c hc => hb.owned.fresh_apart_trailer hfresh hc
  have hwritten := hb.write hm htrailer
    (fun s hs => hb.fresh_apart_used hfresh (hb.saved_used s hs))
  refine ⟨hwritten.of_owned rfl (hwritten.owned.cons hfresh haligned hdata), ?_, ?_⟩
  · exact loadMempool_of_agree (hm.agree (hb.fresh_apart_used hfresh hb.header_used))
  · intro c hc
    exact (trailer_of_agree (hm.agree (htrailer c hc))).2

/-- `malloc` only adds a chunk that is in no chain yet. -/
theorem Body.new_chunk (hmalloc : malloc.HandsOutFresh cpuStructAlign)
    (hb : Body h pool v extra smalls bigs unused used saved)
    (haligned : cpuStructAlign ∣ size) (hsize : size < 2 ^ 32) :
    Yields dies (mpNewBigChunk malloc h size) (fun r =>
      Body r.2 pool v (r.1 :: extra) smalls bigs unused used saved ∧
      chunkSize r.2.mem r.1 = size ∧ loadMempool r.2.mem pool = loadMempool h.mem pool ∧
      ∀ c ∈ extra ++ (smalls ++ (bigs ++ unused)), chunkSize r.2.mem c = chunkSize h.mem c) := by
  refine (mpNewBigChunk_yields hmalloc h size).mono ?_
  rintro ⟨c, h'⟩ ⟨a, hfresh, hc, hheap⟩
  dsimp only at hc hheap
  subst hc hheap
  have htail := mpChunkTail_eq
  have hm : ChangesOnly h.mem (setChunkSize h.mem (a + size) size) a (size + mpChunkTail) := by
    apply (store_changesOnly h.mem (a + size + 8) 4 size).mono
    unfold Inside
    omega
  have hdata := chunkSize_setChunkSize h.mem (a + size) hsize
  obtain ⟨hbody, hheader, hkept⟩ := hb.adopt hfresh haligned hm hdata (h.requests + 1)
  exact ⟨hbody, hdata, hheader, hkept⟩

/-- The outcome of an allocation: the range is in use, the chains may have grown,
and what was known about the older chunks is still true. -/
def Allocated (h : Heap) (pool : Nat) (smalls bigs : List Nat) (used : List (Nat × Nat))
    (saved : List Saved) (size : Nat) (r : Nat × Heap) : Prop :=
  ∃ smalls' bigs' unused',
    Body r.2 pool (loadMempool r.2.mem pool) [] smalls' bigs' unused' ((r.1, size) :: used) saved ∧
    smalls <:+ smalls' ∧ bigs <:+ bigs' ∧
    (loadMempool r.2.mem pool).chunkSize = (loadMempool h.mem pool).chunkSize ∧
    ∀ c ∈ smalls ++ bigs, chunkSize r.2.mem c = chunkSize h.mem c

/-- A pointer to a chunk fits its field. -/
theorem Owned.lt_max {chunks : List Nat} {c : Nat} (ho : Owned h chunks) (hc : c ∈ chunks) :
    c < 2 ^ 64 := by
  have htop := ho.top c hc
  have htail := mpChunkTail_eq
  omega

/-- The address of a range in use is a pointer that is not null. -/
theorem Body.used_bounds (hb : Body h pool v extra smalls bigs unused used saved)
    {r : Nat × Nat} (hr : r ∈ used) : 0 < r.1 ∧ r.1 < 2 ^ 64 := by
  obtain ⟨c, hc, hin⟩ := hb.used_inChunk hr
  have htop := hb.owned.lt_max (mem_of_linked hc)
  have hbase := hb.owned.base c (mem_of_linked hc)
  unfold InChunk Inside at hin
  omega

/-- What the end of the small path of `mp_alloc_internal` writes, with nothing
linked yet. -/
theorem Body.write_small {c free : Nat} {m' : Mem}
    (hb : Body h pool v [c] smalls bigs unused used saved) (hv : loadMempool h.mem pool = v)
    (hfree : free < 2 ^ 32)
    (hm' : m' = setFree0 (setLast0 (setChunkNext h.mem c v.state.last0) pool c) pool free) :
    loadMempool m' pool = { v with state := { v.state with last0 := c, free0 := free } } ∧
      Body { h with mem := m' } pool v [c] smalls bigs unused used saved ∧
      chunkNext m' c = v.state.last0 ∧
      (∀ d ∈ [c] ++ (smalls ++ (bigs ++ unused)), chunkSize m' d = chunkSize h.mem d) ∧
      ∀ a n, Apart a n pool mempoolSize → Apart a n c mpChunkTail → Agree h.mem m' a n := by
  subst hm'
  have hc : c ∈ [c] ++ (smalls ++ (bigs ++ unused)) := by simp
  have hlast : c % 2 ^ 64 = c := Nat.mod_eq_of_lt (hb.owned.lt_max hc)
  obtain ⟨hlinked, hheader, hsizes, _⟩ := hb.extra_link (List.mem_singleton_self c) v.state.last0
  have hnext : chunkNext (setChunkNext h.mem c v.state.last0) c = v.state.last0 := by
    refine chunkNext_setChunkNext _ _ ?_
    rw [← hv]
    exact (loadState_fits h.mem pool).last0
  have hlink : ChangesOnly h.mem (setChunkNext h.mem c v.state.last0) c mpChunkTail :=
    field_changesOnly h.mem c 0 8 v.state.last0 (by decide)
  have hm : ChangesOnly (setChunkNext h.mem c v.state.last0)
      (setFree0 (setLast0 (setChunkNext h.mem c v.state.last0) pool c) pool free)
      pool mempoolSize :=
    (field_changesOnly _ pool 8 8 c (by decide)).trans
      (field_changesOnly _ pool 0 4 free (by decide))
  obtain ⟨hbody, hsame, hnexts⟩ := hlinked.header_write hm
  refine ⟨?_, hbody, (hnexts c hc).trans hnext, ?_, ?_⟩
  · rw [loadMempool_setFree0, loadMempool_setLast0, hheader, hv, hlast, Nat.mod_eq_of_lt hfree]
  · exact fun d hd => (hsame d hd).trans (hsizes d hd)
  · exact fun a n hpool hchunk => (hlink.agree hchunk.symm).trans (hm.agree hpool.symm)

/-- The end of the small path of `mp_alloc_internal`. -/
theorem Body.finish_small {c : Nat} (hb : Body h pool v [c] smalls bigs unused used saved)
    (hv : loadMempool h.mem pool = v) (hdata : chunkSize h.mem c = v.chunkSize)
    (hsize : size ≤ v.chunkSize) :
    Allocated h pool smalls bigs used saved size (c - v.chunkSize, { h with
      mem := setFree0 (setLast0 (setChunkNext h.mem c v.state.last0) pool c) pool
        (v.chunkSize - size) }) := by
  have hmax := hb.size_max
  obtain ⟨hfinal, hbody, hnext, hsizes, _⟩ :=
    hb.write_small hv (Nat.lt_of_le_of_lt (Nat.sub_le v.chunkSize size) hmax) rfl
  have hdata' := (hsizes c (by simp)).trans hdata
  refine ⟨c :: smalls, bigs, unused, ?_, List.suffix_cons c smalls, List.suffix_rfl, ?_, ?_⟩
  · rw [hfinal]
    exact hbody.link_small hdata' hnext hsize
  · rw [hfinal, hv]
  · exact fun d hd => hsizes d (mem_of_linked hd)

/-- What the end of the big path writes. -/
theorem Body.write_big {c : Nat} {m' : Mem}
    (hb : Body h pool v [c] smalls bigs unused used saved) (hv : loadMempool h.mem pool = v)
    (free1 lastBig : Nat)
    (hm' : m' = setLastBig (setFree1 (setLast1 (setChunkNext h.mem c v.state.last1) pool c)
      pool free1) pool lastBig) :
    loadMempool m' pool = { v with
        state := { v.state with last1 := c, free1 := free1 % 2 ^ 32 }
        lastBig := lastBig % 2 ^ 64 } ∧
      Body { h with mem := m' } pool v [c] smalls bigs unused used saved ∧
      chunkNext m' c = v.state.last1 ∧
      (∀ d ∈ [c] ++ (smalls ++ (bigs ++ unused)), chunkSize m' d = chunkSize h.mem d) ∧
      ∀ a n, Apart a n pool mempoolSize → Apart a n c mpChunkTail → Agree h.mem m' a n := by
  subst hm'
  have hc : c ∈ [c] ++ (smalls ++ (bigs ++ unused)) := by simp
  have hlast : c % 2 ^ 64 = c := Nat.mod_eq_of_lt (hb.owned.lt_max hc)
  obtain ⟨hlinked, hheader, hsizes, _⟩ := hb.extra_link (List.mem_singleton_self c) v.state.last1
  have hnext : chunkNext (setChunkNext h.mem c v.state.last1) c = v.state.last1 := by
    refine chunkNext_setChunkNext _ _ ?_
    rw [← hv]
    exact (loadState_fits h.mem pool).last1
  have hlink : ChangesOnly h.mem (setChunkNext h.mem c v.state.last1) c mpChunkTail :=
    field_changesOnly h.mem c 0 8 v.state.last1 (by decide)
  have hm : ChangesOnly (setChunkNext h.mem c v.state.last1)
      (setLastBig (setFree1 (setLast1 (setChunkNext h.mem c v.state.last1) pool c)
        pool free1) pool lastBig) pool mempoolSize :=
    ((field_changesOnly _ pool 16 8 c (by decide)).trans
      (field_changesOnly _ pool 4 4 free1 (by decide))).trans
      (field_changesOnly _ pool 40 8 lastBig (by decide))
  obtain ⟨hbody, hsame, hnexts⟩ := hlinked.header_write hm
  refine ⟨?_, hbody, (hnexts c hc).trans hnext, ?_, ?_⟩
  · rw [loadMempool_setLastBig, loadMempool_setFree1, loadMempool_setLast1, hheader, hv, hlast]
  · exact fun d hd => (hsame d hd).trans (hsizes d hd)
  · exact fun a n hpool hchunk => (hlink.agree hchunk.symm).trans (hm.agree hpool.symm)

/-- The end of the big path. -/
theorem Body.finish_big {c : Nat} (hb : Body h pool v [c] smalls bigs unused used saved)
    (hv : loadMempool h.mem pool = v) (hsize : size ≤ chunkSize h.mem c) (free1 lastBig : Nat) :
    Allocated h pool smalls bigs used saved size (c - chunkSize h.mem c, { h with
      mem := setLastBig (setFree1 (setLast1 (setChunkNext h.mem c v.state.last1) pool c)
        pool free1) pool lastBig }) := by
  obtain ⟨hfinal, hbody, hnext, hsizes, _⟩ := hb.write_big hv free1 lastBig rfl
  have hdata := hsizes c (by simp)
  have hlink := hbody.link_big hnext (hsize.trans_eq hdata.symm)
  refine ⟨smalls, c :: bigs, unused, ?_, List.suffix_rfl, List.suffix_cons c bigs, ?_, ?_⟩
  · rw [hfinal]
    rw [hdata] at hlink
    exact hlink.of_fields rfl rfl rfl rfl rfl rfl rfl
  · rw [hfinal, hv]
  · exact fun d hd => hsizes d (mem_of_linked hd)

theorem Allocated.of_same {h' : Heap} {r : Nat × Heap}
    (hr : Allocated h' pool smalls bigs used saved size r)
    (hheader : (loadMempool h'.mem pool).chunkSize = (loadMempool h.mem pool).chunkSize)
    (hchunks : ∀ c ∈ smalls ++ bigs, chunkSize h'.mem c = chunkSize h.mem c) :
    Allocated h pool smalls bigs used saved size r := by
  obtain ⟨smalls', bigs', unused', hbody, hsmalls, hbigs, hsize, hkept⟩ := hr
  exact ⟨smalls', bigs', unused', hbody, hsmalls, hbigs, hsize.trans hheader,
    fun c hc => (hkept c hc).trans (hchunks c hc)⟩

/-- A small chunk that is in no chain, in a heap where the header `v` has changed
in `unused` and `index` at most. -/
def Taken (h : Heap) (pool : Nat) (v : Mempool) (smalls bigs : List Nat)
    (used : List (Nat × Nat)) (saved : List Saved) (r : Nat × Heap) : Prop :=
  ∃ v' unused', loadMempool r.2.mem pool = v' ∧ v'.state = v.state ∧
    v'.chunkSize = v.chunkSize ∧ Body r.2 pool v' [r.1] smalls bigs unused' used saved ∧
    chunkSize r.2.mem r.1 = v'.chunkSize ∧
    ∀ c ∈ smalls ++ bigs, chunkSize r.2.mem c = chunkSize h.mem c

/-- Setting `pool->index`. -/
theorem Body.set_index (hb : Body h pool v extra smalls bigs unused used saved)
    (hv : loadMempool h.mem pool = v) (index : Nat) :
    Body { h with mem := setIndex h.mem pool index } pool
        { v with index := index % 2 ^ 32 } extra smalls bigs unused used saved ∧
      loadMempool (setIndex h.mem pool index) pool = { v with index := index % 2 ^ 32 } ∧
      ∀ c ∈ extra ++ (smalls ++ (bigs ++ unused)),
        chunkSize (setIndex h.mem pool index) c = chunkSize h.mem c := by
  have hm : ChangesOnly h.mem (setIndex h.mem pool index) pool mempoolSize :=
    field_changesOnly _ pool 56 4 index (by decide)
  obtain ⟨hbody, hsizes, _⟩ := hb.header_write hm
  refine ⟨hbody.of_fields rfl rfl rfl rfl rfl rfl rfl, ?_, hsizes⟩
  rw [loadMempool_setIndex, hv]

/-- The first unused chunk is taken, or else a new one. -/
theorem Body.take_chunk (hmalloc : malloc.HandsOutFresh cpuStructAlign)
    (hb : Body h pool v [] smalls bigs unused used saved)
    (hv : loadMempool h.mem pool = v) :
    Yields dies (if v.unused ≠ 0 then
        .ok (v.unused, { h with mem := setUnused h.mem pool (chunkNext h.mem v.unused) })
      else mpNewChunk malloc h v.chunkSize) (Taken h pool v smalls bigs used saved) := by
  have hchain := hb.unusedChain
  cases unused with
  | nil =>
      have hnull : ¬ v.unused ≠ 0 := not_not.mpr hchain
      rw [if_neg hnull]
      refine (hb.new_chunk hmalloc hb.size_aligned ?_).mono ?_
      · exact hb.size_max
      · rintro ⟨c, h'⟩ ⟨hnew, hdata, hheader, hkept⟩
        exact ⟨v, [], hheader.trans hv, rfl, rfl, hnew, hdata,
          fun d hd => hkept d (mem_of_linked hd)⟩
  | cons c rest =>
      have hhead : v.unused = c := hchain.1
      have hne : c ≠ 0 := hb.owned.ne_zero (by simp)
      obtain ⟨_, hdata, htaken⟩ := hb.take_unused
      have hm : ChangesOnly h.mem (setUnused h.mem pool (chunkNext h.mem c)) pool mempoolSize :=
        field_changesOnly _ pool 32 8 _ (by decide)
      obtain ⟨hbody, hsizes, _⟩ := htaken.header_write hm
      have hlink : chunkNext h.mem c % 2 ^ 64 = chunkNext h.mem c :=
        Nat.mod_eq_of_lt (load_lt _ _ 8)
      rw [hhead, if_pos hne]
      refine .ok ⟨_, rest, ?_, ?_, ?_, hbody, ?_, ?_⟩
      · rw [loadMempool_setUnused, hv, hlink]
      · rfl
      · rfl
      · exact (hsizes c (by simp)).trans hdata
      · exact fun d hd => hsizes d (mem_of_linked hd)

/-- Small requests are served from another small chunk. -/
theorem mpAllocInternal_small (hmalloc : malloc.HandsOutFresh cpuStructAlign)
    (hb : Body h pool v [] smalls bigs unused used saved) (hv : loadMempool h.mem pool = v)
    (hsmall : size ≤ v.threshold) :
    Yields dies (mpAllocInternal malloc h pool size) (fun r =>
      Allocated h pool smalls bigs used saved size r ∧ cpuStructAlign ∣ r.1) := by
  have hhalf := hb.threshold
  obtain ⟨hindexed, hheader, hsizes⟩ := hb.set_index hv 0
  rw [mpAllocInternal, hv]
  simp only [if_pos hsmall]
  refine (hindexed.take_chunk hmalloc hheader).bind ?_
  rintro ⟨c, h'⟩ ⟨v', unused', hv', hstate, hsize, hbody, hdata, hkept⟩
  have hstate' : v.state = v'.state := hstate.symm
  have hsize' : v.chunkSize = v'.chunkSize := hsize.symm
  rw [hstate', hsize']
  refine .ok ⟨?_, ?_⟩
  · refine (hbody.finish_small hv' hdata ?_).of_same ?_ ?_
    · omega
    · rw [hv, hv', hsize']
    · exact fun d hd => (hkept d hd).trans (hsizes d (mem_of_linked hd))
  · exact Nat.dvd_sub (hbody.owned.aligned c (by simp)) hbody.size_aligned

/-- Requests up to `MP_SIZE_MAX` can be rounded up. -/
theorem alignTo_bounds (hmax : size ≤ mpSizeMax) :
    cpuStructAlign ∣ alignTo 32 size cpuStructAlign ∧
      size ≤ alignTo 32 size cpuStructAlign ∧ alignTo 32 size cpuStructAlign < 2 ^ 32 := by
  have hbound : mpSizeMax = 4294963183 := by decide
  have hround : alignTo 32 size cpuStructAlign = roundUp size cpuStructAlign := by
    apply alignTo_eq_roundUp
    unfold cpuStructAlign
    omega
  refine ⟨alignTo_dvd 32 size cpuStructAlign, ?_⟩
  rw [hround]
  unfold roundUp cpuStructAlign
  omega

/-- Big requests get a chunk of their own. -/
theorem mpAllocInternal_big (hmalloc : malloc.HandsOutFresh cpuStructAlign)
    (hb : Body h pool v [] smalls bigs unused used saved) (hv : loadMempool h.mem pool = v)
    (hbig : ¬ size ≤ v.threshold) (hmax : size ≤ mpSizeMax) :
    Yields dies (mpAllocInternal malloc h pool size) (fun r =>
      Allocated h pool smalls bigs used saved size r ∧ cpuStructAlign ∣ r.1) := by
  obtain ⟨hdvd, hle⟩ := alignTo_bounds hmax
  obtain ⟨hindexed, hheader, hsizes⟩ := hb.set_index hv 1
  rw [mpAllocInternal, hv]
  simp only [if_neg hbig, if_pos hmax]
  refine (hindexed.new_chunk hmalloc hdvd hle.2).bind ?_
  rintro ⟨c, h'⟩ ⟨hnew, hdata, hsame, hkept⟩
  have hv' := hsame.trans hheader
  dsimp only at hdata
  refine .ok ⟨?_, ?_⟩
  · have hfinish := hnew.finish_big hv' (hle.1.trans_eq hdata.symm)
      (alignTo 32 size cpuStructAlign - size) (c - alignTo 32 size cpuStructAlign)
    rw [hdata] at hfinish
    refine hfinish.of_same ?_ ?_
    · rw [hv, hv']
    · intro d hd
      exact (hkept d (mem_of_linked hd)).trans (hsizes d (mem_of_linked hd))
  · exact Nat.dvd_sub (hnew.owned.aligned c (by simp)) hdvd

theorem mpAllocInternal_yields (hmalloc : malloc.HandsOutFresh cpuStructAlign)
    (hb : Body h pool v [] smalls bigs unused used saved) (hv : loadMempool h.mem pool = v)
    (hmax : size ≤ mpSizeMax ∨ dies) :
    Yields dies (mpAllocInternal malloc h pool size) (fun r =>
      Allocated h pool smalls bigs used saved size r ∧ cpuStructAlign ∣ r.1) := by
  by_cases hsmall : size ≤ v.threshold
  · exact mpAllocInternal_small hmalloc hb hv hsmall
  · by_cases hbig : size ≤ mpSizeMax
    · exact mpAllocInternal_big hmalloc hb hv hsmall hbig
    · have hdies : dies := hmax.resolve_left hbig
      rw [mpAllocInternal, hv]
      simp only [if_neg hsmall, if_neg hbig]
      exact .die hdies

/-- Allocation from the free bytes of the newest small chunk. -/
theorem Body.finish_carve (hb : Body h pool v [] smalls bigs unused used saved)
    (hv : loadMempool h.mem pool = v) {avail : Nat} (havail : avail ≤ v.state.free0)
    (hsize : size ≤ avail) :
    Allocated h pool smalls bigs used saved size (v.state.last0 - avail,
      { h with mem := setFree0 h.mem pool (avail - size) }) := by
  have hfree := hb.level.free0
  have hmax := hb.size_max
  have hm : ChangesOnly h.mem (setFree0 h.mem pool (avail - size)) pool mempoolSize :=
    field_changesOnly _ pool 0 4 _ (by decide)
  obtain ⟨hbody, hsizes, _⟩ := (hb.carve havail hsize).header_write hm
  have hlt : (avail - size) % 2 ^ 32 = avail - size := Nat.mod_eq_of_lt (by omega)
  have hfinal : loadMempool (setFree0 h.mem pool (avail - size)) pool =
      { v with state := { v.state with free0 := avail - size } } := by
    rw [loadMempool_setFree0, hv, hlt]
  refine ⟨smalls, bigs, unused, ?_, List.suffix_rfl, List.suffix_rfl, ?_, ?_⟩
  · rw [hfinal]
    exact hbody
  · rw [hfinal, hv]
  · exact fun d hd => hsizes d (mem_of_linked hd)

theorem mpAllocFast_yields (hmalloc : malloc.HandsOutFresh cpuStructAlign)
    (hb : Body h pool v [] smalls bigs unused used saved) (hv : loadMempool h.mem pool = v)
    (hmax : size ≤ mpSizeMax ∨ dies) :
    Yields dies (mpAllocFast malloc h pool size) (fun r =>
      Allocated h pool smalls bigs used saved size r ∧ cpuStructAlign ∣ r.1) := by
  have hstate : loadState h.mem pool = v.state := by rw [← hv]; rfl
  rw [mpAllocFast, hstate]
  split
  · next hfit =>
      have htop : v.state.last0 ∈ smalls := List.mem_of_mem_head? hb.level.last0
      have haligned := hb.owned.aligned _ (mem_of_linked (List.mem_append_left _ htop))
      refine .ok ⟨hb.finish_carve hv (Nat.sub_le _ _) hfit, ?_⟩
      exact Nat.dvd_sub haligned (Nat.dvd_sub_mod _)
  · exact mpAllocInternal_yields hmalloc hb hv hmax

theorem mpAllocFastNoalign_yields (hmalloc : malloc.HandsOutFresh cpuStructAlign)
    (hb : Body h pool v [] smalls bigs unused used saved) (hv : loadMempool h.mem pool = v)
    (hmax : size ≤ mpSizeMax ∨ dies) :
    Yields dies (mpAllocFastNoalign malloc h pool size)
      (Allocated h pool smalls bigs used saved size) := by
  have hstate : loadState h.mem pool = v.state := by rw [← hv]; rfl
  rw [mpAllocFastNoalign, hstate]
  split
  · next hfit => exact .ok (hb.finish_carve hv le_rfl hfit)
  · exact (mpAllocInternal_yields hmalloc hb hv hmax).mono (fun r hr => hr.1)

end Allocation

end OpenAAA.Pool
