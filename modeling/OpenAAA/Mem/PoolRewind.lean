import OpenAAA.Mem.PoolAlloc

/-!
Going back: the loops of `mp_delete`, `mp_flush` and `mp_restore`. The chunks
that a loop is about to give away are the `extra` ones of the state it leads to,
so each turn takes one of them out, and nothing else has to be carried through
the loop but the rest of the chain it walks.
-/

namespace OpenAAA.Pool

open Memory Alloc Sys Linked

section Free

variable {h : Heap} {c stop : Nat}

/-- No other chunk starts where the first one does. -/
theorem Owned.start_ne {chunks : List Nat} (ho : Owned h (c :: chunks)) :
    ∀ b ∈ chunks.map (chunkBlock h.mem), b.1 ≠ c - chunkSize h.mem c := by
  intro b hb heq
  obtain ⟨d, hd, rfl⟩ := List.mem_map.mp hb
  have happart := (List.pairwise_cons.mp ho.apart).1 d hd
  have htail := mpChunkTail_eq
  simp only [chunkBlock, ApartRange, Apart] at heq happart
  omega

/-- Without the range of the first chunk, the others are left. -/
theorem Owned.tail {chunks : List Nat} {h' : Heap} (ho : Owned h (c :: chunks))
    (hmem : h'.mem = h.mem) (hblocks : h'.blocks.Perm (chunks.map (chunkBlock h.mem))) :
    Owned h' chunks := by
  constructor
  · rw [hmem]
    exact hblocks
  · rw [hmem]
    exact (List.pairwise_cons.mp ho.apart).2
  · rw [hmem]
    exact fun d hd => ho.base d (by simp [hd])
  · exact fun d hd => ho.aligned d (by simp [hd])
  · exact fun d hd => ho.top d (by simp [hd])

/-- Freeing a chunk gives exactly its own range back. -/
theorem Owned.free {chunks : List Nat} (ho : Owned h (c :: chunks)) :
    ∃ h', mpFreeBigChunk h c = .ok h' ∧ h'.mem = h.mem ∧ Owned h' chunks := by
  have hbase := ho.base c (by simp)
  have hne : c - chunkSize h.mem c ≠ 0 := by omega
  obtain ⟨h', hfree, hmem, hblocks⟩ := Heap.free_perm ho.blocks hne ho.start_ne
  exact ⟨h', hfree, hmem, ho.tail hmem hblocks⟩

theorem Owned.length_le {front back : List Nat} (ho : Owned h (front ++ back)) :
    front.length ≤ h.blocks.length := by
  rw [ho.blocks.length_eq, List.length_map, List.length_append]
  exact Nat.le_add_right _ _

/-- A loop that frees a chain frees each chunk of it once, and no other. -/
theorem freeChain_eq {others : List Nat} (cells : List Nat) :
    ∀ (fuel : Nat) (h : Heap) (chunk : Nat), Owned h (cells ++ others) →
      Chain (chunkNext h.mem) stop chunk cells → stop ∉ cells → cells.length ≤ fuel →
      ∃ h', freeChain mpFreeBigChunk stop fuel h chunk = .ok h' ∧ h'.mem = h.mem ∧
        Owned h' others := by
  induction cells with
  | nil =>
      intro fuel h chunk ho hchain _ _
      refine ⟨h, ?_, rfl, ho⟩
      have hhead : chunk = stop := hchain
      rw [freeChain.eq_def, if_pos hhead]
  | cons c cells ih =>
      intro fuel h chunk ho hchain hstop hfuel
      obtain ⟨rfl, htail⟩ := hchain
      obtain ⟨fuel, rfl⟩ : ∃ k, fuel = k + 1 :=
        Nat.exists_eq_add_of_le' (Nat.le_of_add_left_le hfuel)
      have hne : chunk ≠ stop := fun heq => hstop (by simp [heq])
      have hnull : chunk ≠ 0 := ho.ne_zero (by simp)
      obtain ⟨h₁, hfree, hmem, howned⟩ := ho.free
      have htail' : Chain (chunkNext h₁.mem) stop (chunkNext h.mem chunk) cells := by
        rwa [hmem]
      obtain ⟨h₂, hrest, hmem', hothers⟩ := ih fuel h₁ (chunkNext h.mem chunk) howned
        htail' (fun hin => hstop (by simp [hin])) (by simpa using hfuel)
      refine ⟨h₂, ?_, hmem'.trans hmem, hothers⟩
      rw [freeChain, if_neg hne, if_neg hnull]
      change (mpFreeBigChunk h chunk >>= fun h₁ => _) = _
      rw [hfree]
      exact hrest

/-- `mp_delete` frees every chunk, each one once. -/
theorem mpDelete_eq {pool : Nat} {v : Mempool} {smalls bigs unused : List Nat}
    {used : List (Nat × Nat)} {saved : List Saved}
    (hb : Body h pool v [] smalls bigs unused used saved) (hv : loadMempool h.mem pool = v) :
    ∃ h', mpDelete h pool = .ok h' ∧ h'.blocks = [] := by
  have hbigs : Owned h (bigs ++ (unused ++ (smalls ++ []))) := by
    apply hb.owned.perm
    have hperm : (smalls ++ (bigs ++ unused)).Perm ((bigs ++ unused) ++ smalls) :=
      List.perm_append_comm
    simpa only [List.nil_append, List.append_nil, List.append_assoc] using hperm
  have hnull : ∀ chunks : List Nat, Owned h chunks → 0 ∉ chunks :=
    fun chunks ho hin => ho.ne_zero hin rfl
  have hall := hnull _ hbigs
  simp only [List.mem_append, not_or] at hall
  obtain ⟨h₁, hfree₁, hmem₁, hunused⟩ := freeChain_eq bigs _ h v.state.last1 hbigs hb.bigChain
    hall.1 hbigs.length_le
  obtain ⟨h₂, hfree₂, hmem₂, hsmalls⟩ := freeChain_eq unused _ h₁ v.unused hunused
    (by rw [hmem₁]; exact hb.unusedChain) hall.2.1 hunused.length_le
  obtain ⟨h₃, hfree₃, hmem₃, hnone⟩ := freeChain_eq smalls _ h₂ v.state.last0 hsmalls
    (by rw [hmem₂, hmem₁]; exact hb.smallChain) hall.2.2.1 hsmalls.length_le
  refine ⟨h₃, ?_, ?_⟩
  · rw [mpDelete, hv]
    change (freeChain mpFreeBigChunk 0 h.blocks.length h v.state.last1 >>= fun h₁ => _) = _
    rw [hfree₁]
    change (freeChain mpFreeBigChunk 0 h₁.blocks.length h₁ (loadMempool h₁.mem pool).unused
      >>= fun h₂ => _) = _
    rw [hmem₁, hv, hfree₂]
    change freeChain mpFreeBigChunk 0 h₂.blocks.length h₂ (loadMempool h₂.mem pool).state.last0 = _
    rw [hmem₂, hmem₁, hv]
    exact hfree₃
  · exact List.perm_nil.mp hnone.blocks

end Free

section Recycle

variable {h : Heap} {pool : Nat} {v : Mempool} {st : MempoolState}
  {extra smalls bigs unused : List Nat} {used : List (Nat × Nat)} {saved : List Saved} {c : Nat}

/-- One turn of a loop that moves chunks to the unused chain. The `state` in
memory may be an old one. -/
theorem Body.recycle (hb : Body h pool v (c :: extra) smalls bigs unused used saved)
    (hv : loadMempool h.mem pool = { v with state := st })
    (hdata : chunkSize h.mem c = v.chunkSize) {m' : Mem}
    (hm' : m' = setUnused (setChunkNext h.mem c v.unused) pool c) :
    Body { h with mem := m' } pool { v with unused := c } extra smalls bigs (c :: unused)
        used saved ∧
      loadMempool m' pool = { v with unused := c, state := st } ∧
      (∀ d ∈ c :: extra ++ (smalls ++ (bigs ++ unused)), chunkSize m' d = chunkSize h.mem d) ∧
      ∀ d ∈ extra, chunkNext m' d = chunkNext h.mem d := by
  subst hm'
  have hc : c ∈ c :: extra ++ (smalls ++ (bigs ++ unused)) := by simp
  have hlt : v.unused < 2 ^ 64 := by
    have hload : (loadMempool h.mem pool).unused < 2 ^ 64 := load_lt h.mem (pool + 32) 8
    rwa [hv] at hload
  obtain ⟨hlinked, hheader, hsizes, hnexts⟩ :=
    hb.extra_link (List.mem_cons_self) v.unused
  have hnext : chunkNext (setChunkNext h.mem c v.unused) c = v.unused :=
    chunkNext_setChunkNext _ _ hlt
  have hm : ChangesOnly (setChunkNext h.mem c v.unused)
      (setUnused (setChunkNext h.mem c v.unused) pool c) pool mempoolSize :=
    field_changesOnly _ pool 32 8 c (by decide)
  obtain ⟨hbody, hsizes', hnexts'⟩ :=
    (hlinked.link_unused ((hsizes c hc).trans hdata) hnext).header_write hm
  refine ⟨hbody, ?_, ?_, ?_⟩
  · have hlast : c % 2 ^ 64 = c := Nat.mod_eq_of_lt (hb.owned.lt_max hc)
    rw [loadMempool_setUnused, hheader, hv, hlast]
  · exact fun d hd => (hsizes' d (mem_of_recycled hd)).trans (hsizes d hd)
  · intro d hd
    have hall : d ∈ c :: extra ++ (smalls ++ (bigs ++ unused)) := by simp [hd]
    refine (hnexts' d (mem_of_recycled hall)).trans (hnexts d hall ?_)
    rintro rfl
    exact (List.nodup_cons.mp hb.owned.nodup).1 (by simp [hd])

/-- A loop that moves chunks to the unused chain moves a whole piece of a chain,
up to a small chunk that the state it leads to keeps. -/
theorem Body.recycle_chain (stop : Mem → Nat → Bool) {target : Nat} (htarget : target ∈ smalls)
    (cells : List Nat) : ∀ (fuel : Nat) (h : Heap) (v : Mempool) (unused : List Nat) (chunk : Nat),
      Body h pool v (cells ++ extra) smalls bigs unused used saved →
      loadMempool h.mem pool = { v with state := st } →
      (∀ c ∈ cells, chunkSize h.mem c = v.chunkSize) →
      Chain (chunkNext h.mem) target chunk cells →
      (∀ m', chunkSize m' target = v.chunkSize → stop m' target = true) →
      (∀ m', ∀ c ∈ cells, chunkSize m' c = v.chunkSize → stop m' c = false) →
      cells.length ≤ fuel →
      ∃ m' head, recycleChain pool stop fuel h.mem chunk = .ok (target, m') ∧
        Body { h with mem := m' } pool { v with unused := head } extra smalls bigs
          (cells.reverse ++ unused) used saved ∧
        loadMempool m' pool = { v with unused := head, state := st } ∧
        ∀ d ∈ extra, chunkNext m' d = chunkNext h.mem d := by
  induction cells with
  | nil =>
      intro fuel h v unused chunk hb hv _ hchain hstop _ _
      have hhead : chunk = target := hchain
      refine ⟨h.mem, v.unused, ?_, hb, hv, fun _ _ => rfl⟩
      rw [recycleChain.eq_def, hhead, if_pos (hstop h.mem (hb.small target (by simp [htarget])))]
  | cons c cells ih =>
      intro fuel h v unused chunk hb hv hdata hchain hstop hgo hfuel
      obtain ⟨rfl, htail⟩ := hchain
      obtain ⟨fuel, rfl⟩ : ∃ k, fuel = k + 1 :=
        Nat.exists_eq_add_of_le' (Nat.le_of_add_left_le hfuel)
      have hturn : ¬ stop h.mem chunk = true := by
        rw [hgo h.mem chunk (by simp) (hdata chunk (by simp))]
        exact Bool.false_ne_true
      have hnull : chunk ≠ 0 := hb.owned.ne_zero (by simp)
      have hunused : (loadMempool h.mem pool).unused = v.unused := by rw [hv]
      generalize hm₁ : setUnused (setChunkNext h.mem chunk v.unused) pool chunk = m₁
      obtain ⟨hb₁, hv₁, hsizes, hnexts⟩ :=
        hb.recycle hv (hdata chunk (by simp)) hm₁.symm
      obtain ⟨m₂, head, hrest, hb₂, hv₂, hnexts₂⟩ := ih fuel { h with mem := m₁ }
        { v with unused := chunk } (chunk :: unused) (chunkNext h.mem chunk) hb₁ hv₁
        (fun d hd => (hsizes d (by simp [hd])).trans (hdata d (by simp [hd])))
        (htail.congr (fun d hd => hnexts d (by simp [hd])))
        hstop (fun m' d hd => hgo m' d (by simp [hd])) (by simpa using hfuel)
      refine ⟨m₂, head, ?_, ?_, hv₂, ?_⟩
      · rw [recycleChain, if_neg hturn, if_neg hnull]
        dsimp only
        rw [hunused, hm₁]
        exact hrest
      · rw [List.reverse_cons, List.append_assoc]
        exact hb₂
      · intro d hd
        exact (hnexts₂ d hd).trans (hnexts d (by simp [hd]))

end Recycle

section Rewind

variable {h : Heap} {pool : Nat} {v : Mempool} {smalls bigs unused : List Nat}
  {used : List (Nat × Nat)} {saved : List Saved} {s : Saved}

theorem headD_of_head? {l : List Nat} {a : Nat} (h : l.head? = some a) : l.headD 0 = a := by
  rw [List.headD_eq_head?_getD, h, Option.getD_some]

/-- The pool as the newest saved state describes it. The chunks that were linked
since are extra. -/
theorem Body.saved_state (hb : Body h pool v [] smalls bigs unused used (s :: saved)) :
    ∃ up smalls' top bigs', smalls = up ++ smalls' ∧ bigs = top ++ bigs' ∧
      loadState h.mem s.addr = s.state ∧
      Body h pool { v with state := s.state } (up ++ top) smalls' bigs' unused
        (occupied pool s.live saved) saved := by
  obtain ⟨smalls', bigs', ⟨up, hup⟩, ⟨top, htop⟩, hstate, hnext, hlevel, hlevels⟩ := hb.levels
  refine ⟨up, smalls', top, bigs', hup.symm, htop.symm, hstate, ?_⟩
  obtain ⟨rest, hrest⟩ := List.head?_eq_some_iff.mp hlevel.last0
  refine { hb with owned := ?_, small := ?_, bottom := ?_, smallChain := ?_, bigChain := ?_,
                   level := hlevel, header_used := ?_, saved_used := ?_, next := hnext,
                   levels := hlevels }
  · apply hb.owned.perm
    rw [← hup, ← htop]
    have hswap : (smalls' ++ top).Perm (top ++ smalls') := List.perm_append_comm
    have hmiddle := (hswap.append_right (bigs' ++ unused)).append_left up
    simpa only [List.nil_append, List.append_assoc] using hmiddle
  · intro c hc
    apply hb.small
    rw [← hup]
    exact List.mem_append.mpr ((List.mem_append.mp hc).imp_left (List.mem_append_right up))
  · rw [← hb.bottom, ← hup, List.getLast?_append_of_ne_nil _ (by simp [hrest])]
  · have hchain := hb.smallChain
    rw [← hup] at hchain
    have hsuffix := hchain.suffix
    rwa [headD_of_head? hlevel.last0] at hsuffix
  · have hchain := hb.bigChain
    rw [← htop] at hchain
    have hsuffix := hchain.suffix
    rwa [← hlevel.last1] at hsuffix
  · simp [occupied]
  · intro t ht
    simp only [occupied, List.mem_append, List.mem_map]
    exact Or.inr (Or.inl ⟨t, ht, rfl⟩)

theorem Body.last0_mem {extra : List Nat} (hb : Body h pool v extra smalls bigs unused used saved) :
    v.state.last0 ∈ smalls :=
  List.mem_of_mem_head? hb.level.last0

theorem Body.last0_not_extra {extra : List Nat}
    (hb : Body h pool v extra smalls bigs unused used saved) : v.state.last0 ∉ extra := by
  intro hin
  exact List.disjoint_of_nodup_append hb.owned.nodup hin (List.mem_append_left _ hb.last0_mem)

theorem Body.last1_not_extra {extra : List Nat}
    (hb : Body h pool v extra smalls bigs unused used saved) : v.state.last1 ∉ extra := by
  intro hin
  rw [hb.level.last1] at hin
  cases bigs with
  | nil => exact hb.owned.ne_zero (List.mem_append_left _ hin) rfl
  | cons c rest =>
      refine List.disjoint_of_nodup_append hb.owned.nodup hin ?_
      simp

/-- `mp_pop` goes back to the state that was saved last. -/
theorem mpPop_eq (hb : Body h pool v [] smalls bigs unused used (s :: saved))
    (hv : loadMempool h.mem pool = v) :
    ∃ h' smalls' bigs' unused', mpPop h pool = .ok h' ∧ loadState h'.mem pool = s.state ∧
      Body h' pool (loadMempool h'.mem pool) [] smalls' bigs' unused'
        (occupied pool s.live saved) saved := by
  obtain ⟨up, smalls', top, bigs', hup, htop, hstate, hback⟩ := hb.saved_state
  have hlevel := hback.level
  have hfits : s.state.Fits := hstate ▸ loadState_fits h.mem s.addr
  have hnext : v.state.next = s.addr := hb.next
  have hpos : s.addr ≠ 0 :=
    Nat.ne_of_gt (hb.used_bounds (hb.saved_used s List.mem_cons_self)).1
  have hsmallChain : Chain (chunkNext h.mem) s.state.last0 v.state.last0 up := by
    have hchain := hb.smallChain
    rw [hup] at hchain
    have hfront := hchain.front
    rwa [headD_of_head? hlevel.last0] at hfront
  have hbigChain : Chain (chunkNext h.mem) s.state.last1 v.state.last1 top := by
    have hchain := hb.bigChain
    rw [htop] at hchain
    have hfront := hchain.front
    rwa [← hlevel.last1] at hfront
  have hold : loadMempool h.mem pool =
      { { v with state := s.state } with state := v.state } := hv
  have hdata : ∀ c ∈ up, chunkSize h.mem c = v.chunkSize :=
    fun c hc => hb.small c (by simp [hup, hc])
  -- The small chunks since the push go to the unused chain.
  obtain ⟨m₁, head, hloop₁, hb₁, hv₁, hnexts⟩ :=
    Body.recycle_chain (fun _ chunk => chunk = s.state.last0) hback.last0_mem up
      h.blocks.length h _ unused v.state.last0 hback hold hdata hsmallChain (by simp)
      (by
        intro m' c hc _
        have hne : c ≠ s.state.last0 := by
          rintro rfl
          exact hback.last0_not_extra (List.mem_append_left _ hc)
        simpa using hne)
      (List.append_assoc up top _ ▸ hback.owned).length_le
  -- The big ones are freed.
  obtain ⟨h₂, hloop₂, hmem₂, howned⟩ := freeChain_eq top h.blocks.length { h with mem := m₁ }
    v.state.last1 hb₁.owned (hbigChain.congr hnexts) hb₁.last1_not_extra hb₁.owned.length_le
  have howned₂ : Owned h₂ ([] ++ (smalls' ++ (bigs' ++ (up.reverse ++ unused)))) := howned
  have hv₂ : loadMempool h₂.mem pool = { v with unused := head } := by
    rw [hmem₂]
    exact hv₁
  have hm : ChangesOnly h₂.mem (setLastBig (storeState h₂.mem pool s.state) pool (pool + 40))
      pool mempoolSize :=
    ((storeState_changesOnly h₂.mem pool s.state).mono
      ⟨le_rfl, Nat.add_le_add_left (by decide) pool⟩).trans
      (field_changesOnly _ pool 40 8 _ (by decide))
  obtain ⟨hb₃, _, _⟩ := (hb₁.of_owned hmem₂ howned₂).header_write hm
  have hfinal : loadMempool (setLastBig (storeState h₂.mem pool s.state) pool (pool + 40)) pool =
      { v with unused := head, state := s.state, lastBig := (pool + 40) % 2 ^ 64 } := by
    rw [loadMempool_setLastBig, loadMempool_storeState _ _ hfits, hv₂]
  refine ⟨{ h₂ with mem := setLastBig (storeState h₂.mem pool s.state) pool (pool + 40) },
    smalls', bigs', up.reverse ++ unused, ?_, ?_, ?_⟩
  · have hnow : loadState h.mem pool = v.state := congrArg Mempool.state hv
    have hnow₁ : (loadState m₁ pool).last1 = v.state.last1 := by
      have hsame : loadState m₁ pool = v.state := congrArg Mempool.state hv₁
      rw [hsame]
    rw [mpPop, hnow, hnext, if_neg hpos, mpRestore, hstate, hnow]
    change (recycleChain pool (fun _ chunk => chunk = s.state.last0) h.blocks.length h.mem
      v.state.last0 >>= fun r => _) = _
    rw [hloop₁]
    change (freeChain mpFreeBigChunk s.state.last1 h.blocks.length { h with mem := m₁ }
      (loadState m₁ pool).last1 >>= fun h₂ => _) = _
    rw [hnow₁, hloop₂]
    rfl
  · exact congrArg Mempool.state hfinal
  · rw [hfinal]
    exact hb₃.of_fields rfl rfl rfl rfl rfl rfl rfl

/-- What is left of the state after `mp_flush`. -/
def flushedState (pool size : Nat) : MempoolState :=
  { free0 := size - mempoolSize, last0 := pool + size }

/-- The pool as `mp_flush` leaves it, with everything but its first chunk extra. -/
theorem Body.flushed (hb : Body h pool v [] smalls bigs unused used saved) :
    ∃ up, smalls = up ++ [pool + v.chunkSize] ∧
      Body h pool { v with state := flushedState pool v.chunkSize } (bigs ++ up)
        [pool + v.chunkSize] [] unused (occupied pool [] []) [] := by
  obtain ⟨up, hup⟩ := List.getLast?_eq_some_iff.mp hb.bottom
  refine ⟨up, hup, ?_⟩
  have hmin := hb.size_min
  refine { hb with owned := ?_, small := ?_, bottom := rfl, smallChain := ?_, bigChain := rfl,
                   level := ?_, header_used := ?_, saved_used := ?_, next := rfl,
                   levels := trivial }
  · apply hb.owned.perm
    have hswap : ((up ++ [pool + v.chunkSize]) ++ bigs).Perm (bigs ++ (up ++ [pool + v.chunkSize])) :=
      List.perm_append_comm
    have hrest := hswap.append_right unused
    rw [hup]
    simpa only [List.nil_append, List.append_assoc] using hrest
  · intro c hc
    apply hb.small
    rw [hup]
    exact List.mem_append.mpr ((List.mem_append.mp hc).imp_left (List.mem_append_right up))
  · have hchain := hb.smallChain
    rw [hup] at hchain
    exact hchain.suffix
  · refine ⟨rfl, rfl, Nat.sub_le _ _, ?_, List.pairwise_singleton _ _⟩
    intro r hr
    obtain rfl : r = (pool, mempoolSize) := by simpa [occupied] using hr
    left
    simp only [flushedState, Inside]
    omega
  · simp [occupied]
  · intro s hs
    cases hs

/-- The assignments at the end of `mp_flush`. -/
theorem Body.reset_state {st : MempoolState}
    (hb : Body h pool { v with state := flushedState pool v.chunkSize } []
      [pool + v.chunkSize] [] unused (occupied pool [] []) [])
    (hv : loadMempool h.mem pool = { v with state := st }) {m₁ m₂ : Mem}
    (hm₁ : m₁ = setLast0 h.mem pool (pool + v.chunkSize))
    (hm₂ : m₂ = setLastBig (setNext (setFree1 (setLast1 (setFree0 m₁ pool
      (if pool + v.chunkSize ≠ 0 then chunkSize m₁ (pool + v.chunkSize) - mempoolSize else 0))
      pool 0) pool 0) pool 0) pool (pool + 40)) :
    Body { h with mem := m₂ } pool (loadMempool m₂ pool) [] [pool + v.chunkSize] [] unused
      (occupied pool [] []) [] := by
  have hmin := hb.size_min
  have hmax := hb.size_max
  have hmem : pool + v.chunkSize ∈ [] ++ ([pool + v.chunkSize] ++ ([] ++ unused)) := by simp
  have hne := hb.owned.ne_zero hmem
  have hfree : (v.chunkSize - mempoolSize) % 2 ^ 32 = v.chunkSize - mempoolSize :=
    Nat.mod_eq_of_lt (by dsimp only at hmax; omega)
  have hlast : (pool + v.chunkSize) % 2 ^ 64 = pool + v.chunkSize :=
    Nat.mod_eq_of_lt (hb.owned.lt_max hmem)
  have hchange₁ : ChangesOnly h.mem m₁ pool mempoolSize := by
    rw [hm₁]
    exact field_changesOnly _ pool 8 8 _ (by decide)
  obtain ⟨hb₁, _, _⟩ := hb.header_write hchange₁
  have hsize : chunkSize m₁ (pool + v.chunkSize) = v.chunkSize := hb₁.small _ (by simp)
  have hv₁ : loadMempool m₁ pool =
      { v with state := { st with last0 := pool + v.chunkSize } } := by
    rw [hm₁, loadMempool_setLast0, hv, hlast]
  rw [if_pos hne, hsize] at hm₂
  have hchange₂ : ChangesOnly m₁ m₂ pool mempoolSize := by
    rw [hm₂]
    exact ((((field_changesOnly _ pool 0 4 _ (by decide)).trans
      (field_changesOnly _ pool 16 8 _ (by decide))).trans
      (field_changesOnly _ pool 4 4 _ (by decide))).trans
      (field_changesOnly _ pool 24 8 _ (by decide))).trans
      (field_changesOnly _ pool 40 8 _ (by decide))
  obtain ⟨hb₂, _, _⟩ := hb₁.header_write hchange₂
  have hfinal : loadMempool m₂ pool =
      { v with state := flushedState pool v.chunkSize, lastBig := (pool + 40) % 2 ^ 64 } := by
    rw [hm₂, loadMempool_setLastBig, loadMempool_setNext, loadMempool_setFree1,
      loadMempool_setLast1, loadMempool_setFree0, hv₁, hfree]
    rfl
  rw [hfinal]
  exact hb₂.of_fields rfl rfl rfl rfl rfl rfl rfl

/-- `mp_flush` leaves the pool as it was in the beginning, but for the unused
chunks that it keeps. -/
theorem mpFlush_eq (hb : Body h pool v [] smalls bigs unused used saved)
    (hv : loadMempool h.mem pool = v) :
    ∃ h' smalls' unused', mpFlush h pool = .ok h' ∧
      Body h' pool (loadMempool h'.mem pool) [] smalls' [] unused' (occupied pool [] []) [] := by
  obtain ⟨up, hup, hback⟩ := hb.flushed
  have hold : loadMempool h.mem pool =
      { { v with state := flushedState pool v.chunkSize } with state := v.state } := hv
  have hdata : ∀ c ∈ up, chunkSize h.mem c = v.chunkSize :=
    fun c hc => hb.small c (by simp [hup, hc])
  have hbase : ∀ c ∈ up, v.chunkSize < c := by
    intro c hc
    have hlt := hback.owned.base c (by simp [hc])
    rwa [hdata c hc] at hlt
  have hchain : Chain (chunkNext h.mem) (pool + v.chunkSize) v.state.last0 up := by
    have hall := hb.smallChain
    rw [hup] at hall
    exact hall.front
  have hpool : pool + v.chunkSize - v.chunkSize = pool := Nat.add_sub_cancel _ _
  -- The big chunks are freed.
  obtain ⟨h₁, hloop₁, hmem₁, howned⟩ := freeChain_eq bigs h.blocks.length h v.state.last1
    (List.append_assoc bigs up _ ▸ hback.owned) hb.bigChain
    (fun hin => hback.owned.ne_zero (by simp [hin]) rfl)
    (List.append_assoc bigs up _ ▸ hback.owned).length_le
  have hb₁ := hback.of_owned hmem₁ howned
  rw [← hmem₁] at hold hdata hchain
  -- The small ones but the first go to the unused chain.
  obtain ⟨m₂, head, hloop₂, hb₂, hv₂, _⟩ :=
    Body.recycle_chain (fun m chunk => chunk = 0 ∨ chunk - chunkSize m chunk = pool)
      (List.mem_singleton_self _) up h₁.blocks.length h₁ _ unused v.state.last0
      (by rwa [List.append_nil]) hold hdata hchain
      (by
        intro m' hsize
        have hstop : pool + v.chunkSize - chunkSize m' (pool + v.chunkSize) = pool := by
          rw [hsize, hpool]
        exact decide_eq_true (Or.inr hstop))
      (by
        intro m' c hc hsize
        have hlt := hbase c hc
        have hne : c ≠ pool + v.chunkSize := by
          rintro rfl
          exact hb₁.last0_not_extra hc
        apply decide_eq_false
        rw [hsize]
        dsimp only
        omega)
      howned.length_le
  refine ⟨_, [pool + v.chunkSize], up.reverse ++ unused, ?_,
    Body.reset_state (v := { v with unused := head }) hb₂ hv₂ rfl rfl⟩
  have hv₁ : loadMempool h₁.mem pool = v := hold
  rw [mpFlush, mpFreeBigChain, hv, hloop₁]
  change (recycleChain pool (fun m chunk => chunk = 0 ∨ chunk - chunkSize m chunk = pool)
    h₁.blocks.length h₁.mem (loadMempool h₁.mem pool).state.last0 >>= fun r => _) = _
  rw [hv₁, hloop₂]
  rfl

end Rewind

end OpenAAA.Pool
