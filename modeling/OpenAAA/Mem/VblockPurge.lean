import OpenAAA.Mem.Vblock
import OpenAAA.Lib.Linked
import OpenAAA.Lib.Traced

/-!
`mem_vblock_purge` of a chain of blocks: which blocks it looks at and what it gives back.
The loop is written once more with both recorded. It calls the unlink helper with the next
block in the place of a predecessor, which links that block to itself, and it computes the
start of a mapping with scaled pointers. So it does what it is for when there is no block,
or one without data.
-/

namespace OpenAAA.Vblock

open Memory Alloc Sys Traces

/-- What the purge does to the outside: it reads or writes a trailer, or it frees a block by a
call of `vm_page_free` with some arguments. -/
inductive PurgeEvent where
  | access (b : Nat)
  | free (b page size : Nat)
deriving DecidableEq

/-- `touch`, recorded. -/
def touchRun (h : Heap) (b : Nat) : Fallible PurgeEvent Fault Unit := do
  event (.access b)
  attempt (touch h b)

/-- `slistRemove`, recorded. -/
def slistRemoveRun (h : Heap) (node prev : Nat) : Fallible PurgeEvent Fault Heap :=
  if prev = 0 then pure h
  else do
    touchRun h prev
    touchRun h node
    pure { h with mem := setVblockNext h.mem prev (vblockNext h.mem node) }

/-- `vmPageFree` for a block, recorded. -/
def vmPageFreeRun (h : Heap) (b page size : Nat) : Fallible PurgeEvent Fault Heap := do
  event (.free b page size)
  pure (vmPageFree h page size)

/-- `memVblockFree`, recorded. -/
def memVblockFreeRun (h : Heap) (b : Nat) : Fallible PurgeEvent Fault Heap := do
  touchRun h b
  vmPageFreeRun h b (sub64 b (memVblockSize * vblockSize h.mem b)) (vblockSize h.mem b + vblockTail)

/-- One turn of `purgeLoop`, recorded: the next block and the heap. -/
def purgeTurnRun (h : Heap) (mmv : Nat) : Fallible PurgeEvent Fault (Nat × Heap) := do
  touchRun h mmv
  let unlinked ← slistRemoveRun h mmv (vblockNext h.mem mmv)
  let freed ← memVblockFreeRun unlinked mmv
  pure (vblockNext h.mem mmv, freed)

/-- `purgeLoop`, recorded. -/
def purgeRun : Nat → Heap → Nat → Fallible PurgeEvent Fault Heap
  | 0, h, mmv => if mmv = 0 then pure h else attempt (.error .endless)
  | fuel + 1, h, mmv =>
      if mmv = 0 then pure h
      else do
        let next ← purgeTurnRun h mmv
        purgeRun fuel next.2 next.1

/-! ## The recorded loop -/

theorem result_touchRun (h : Heap) (b : Nat) : result (touchRun h b) = touch h b := by
  rw [touchRun, result_bind, result_event]
  rfl

theorem result_slistRemoveRun (h : Heap) (node prev : Nat) :
    result (slistRemoveRun h node prev) = slistRemove h node prev := by
  unfold slistRemoveRun slistRemove
  split
  · rfl
  · simp only [result_bind, result_touchRun, result_pure]
    rfl

theorem result_vmPageFreeRun (h : Heap) (b page size : Nat) :
    result (vmPageFreeRun h b page size) = .ok (vmPageFree h page size) := by
  rw [vmPageFreeRun, result_bind, result_event]
  rfl

theorem result_memVblockFreeRun (h : Heap) (b : Nat) :
    result (memVblockFreeRun h b) = memVblockFree h b := by
  unfold memVblockFreeRun memVblockFree
  simp only [result_bind, result_touchRun, result_vmPageFreeRun]
  rfl

/-- The recorded loop computes what `mem_vblock_purge` does. -/
theorem result_purgeRun (fuel : Nat) (h : Heap) (mmv : Nat) :
    result (purgeRun fuel h mmv) = purgeLoop fuel h mmv := by
  induction fuel generalizing h mmv with
  | zero =>
      rw [purgeRun, purgeLoop.eq_def]
      split <;> rfl
  | succ fuel ih =>
      rw [purgeRun, purgeLoop.eq_def]
      split
      · rfl
      · simp only [purgeTurnRun, result_bind, result_touchRun, result_slistRemoveRun,
          result_memVblockFreeRun, result_pure, ih]
        cases touch h mmv with
        | error fault => rfl
        | ok _ =>
            cases hremove : slistRemove h mmv (vblockNext h.mem mmv) with
            | error fault => rfl
            | ok h₁ =>
                simp only [ok_bind]
                cases memVblockFree h₁ mmv with
                | error fault => rfl
                | ok h₂ => rfl

/-- The memory after a block was unlinked. -/
def unlinkedMem (m : Mem) (b : Nat) : Mem :=
  if vblockNext m b = 0 then m else setVblockNext m (vblockNext m b) (vblockNext m b)

/-- The events of a turn. -/
def turnEvents (m : Mem) (b : Nat) : List PurgeEvent :=
  .access b :: (if vblockNext m b = 0 then [] else [.access (vblockNext m b), .access b]) ++
    [.access b, .free b (sub64 b (memVblockSize * vblockSize (unlinkedMem m b) b))
      (vblockSize (unlinkedMem m b) b + vblockTail)]

theorem vmPageFree_mem (h : Heap) (page size : Nat) : (vmPageFree h page size).mem = h.mem := by
  unfold vmPageFree
  split <;> rfl

theorem events_touchRun (h : Heap) (b : Nat) : events (touchRun h b) = [.access b] := by
  rw [touchRun, events_bind (result_event _), events_event, events_attempt, List.append_nil]

theorem slistRemoveRun_ok {h h' : Heap} {b : Nat}
    (hrun : result (slistRemoveRun h b (vblockNext h.mem b)) = .ok h') :
    h'.mem = unlinkedMem h.mem b ∧
      events (slistRemoveRun h b (vblockNext h.mem b)) =
        if vblockNext h.mem b = 0 then [] else [.access (vblockNext h.mem b), .access b] := by
  unfold slistRemoveRun at hrun ⊢
  unfold unlinkedMem
  by_cases hzero : vblockNext h.mem b = 0
  · rw [if_pos hzero, result_pure, Except.ok.injEq] at hrun
    rw [if_pos hzero, if_pos hzero, if_pos hzero, ← hrun, events_pure]
    exact ⟨rfl, rfl⟩
  · rw [if_neg hzero, result_bind] at hrun
    obtain ⟨_, hprev, hrun⟩ := exists_of_bind_ok hrun
    rw [result_bind] at hrun
    obtain ⟨_, hnode, hrun⟩ := exists_of_bind_ok hrun
    rw [result_pure, Except.ok.injEq] at hrun
    rw [if_neg hzero, if_neg hzero, if_neg hzero, ← hrun, events_bind hprev, events_bind hnode,
      events_touchRun, events_touchRun, events_pure, List.append_nil, List.singleton_append]
    exact ⟨by dsimp only, rfl⟩

theorem events_vmPageFreeRun (h : Heap) (b page size : Nat) :
    events (vmPageFreeRun h b page size) = [.free b page size] := by
  rw [vmPageFreeRun, events_bind (result_event _), events_event, events_pure, List.append_nil]

theorem memVblockFreeRun_ok {h h' : Heap} {b : Nat} (hrun : result (memVblockFreeRun h b) = .ok h') :
    h'.mem = h.mem ∧ events (memVblockFreeRun h b) =
      [.access b, .free b (sub64 b (memVblockSize * vblockSize h.mem b))
        (vblockSize h.mem b + vblockTail)] := by
  unfold memVblockFreeRun at hrun ⊢
  rw [result_bind] at hrun
  obtain ⟨_, htouch, hrun⟩ := exists_of_bind_ok hrun
  rw [result_vmPageFreeRun, Except.ok.injEq] at hrun
  rw [events_bind htouch, events_touchRun, events_vmPageFreeRun, List.singleton_append]
  exact ⟨hrun ▸ vmPageFree_mem _ _ _, rfl⟩

/-- A turn that does not fail: its events, and what it makes of the memory. -/
theorem purgeTurnRun_ok {h : Heap} {b : Nat} {next : Nat × Heap}
    (hrun : result (purgeTurnRun h b) = .ok next) :
    next.1 = vblockNext h.mem b ∧ next.2.mem = unlinkedMem h.mem b ∧
      events (purgeTurnRun h b) = turnEvents h.mem b := by
  rw [purgeTurnRun, result_bind] at hrun
  obtain ⟨_, htouch, hrun⟩ := exists_of_bind_ok hrun
  rw [result_bind] at hrun
  obtain ⟨h₁, hunlink, hrun⟩ := exists_of_bind_ok hrun
  rw [result_bind] at hrun
  obtain ⟨h₂, hfree, hrun⟩ := exists_of_bind_ok hrun
  rw [result_pure, Except.ok.injEq] at hrun
  obtain ⟨hmem₁, hevents₁⟩ := slistRemoveRun_ok hunlink
  obtain ⟨hmem₂, hevents₂⟩ := memVblockFreeRun_ok hfree
  rw [← hrun]
  refine ⟨rfl, hmem₂.trans hmem₁, ?_⟩
  rw [purgeTurnRun, events_bind htouch, events_bind hunlink, events_bind hfree, events_touchRun,
    hevents₁, hevents₂, hmem₁, events_pure, turnEvents, List.append_nil, List.singleton_append]
  rfl

/-- A run that returns takes a turn for a block and goes on with the next. -/
theorem purgeRun_ok {fuel : Nat} {h h' : Heap} {b : Nat} (hb : b ≠ 0)
    (hrun : result (purgeRun fuel h b) = .ok h') :
    ∃ fuel' h₁, h₁.mem = unlinkedMem h.mem b ∧
      result (purgeRun fuel' h₁ (vblockNext h.mem b)) = .ok h' ∧
      events (purgeRun fuel h b) =
        turnEvents h.mem b ++ events (purgeRun fuel' h₁ (vblockNext h.mem b)) := by
  cases fuel with
  | zero =>
      rw [purgeRun, if_neg hb] at hrun
      cases hrun
  | succ fuel =>
      rw [purgeRun, if_neg hb, result_bind] at hrun
      obtain ⟨next, hturn, hrest⟩ := exists_of_bind_ok hrun
      obtain ⟨hnext, hmem, hevents⟩ := purgeTurnRun_ok hturn
      rw [hnext] at hrest
      refine ⟨fuel, next.2, hmem, hrest, ?_⟩
      rw [purgeRun, if_neg hb, events_bind hturn, hevents, hnext]

/-! ## Chains of blocks -/

/-- A block: its mapping starts at `page`, and it has `size` bytes of data. -/
structure Block where
  page : Nat
  size : Nat

def Block.trailer (b : Block) : Nat := b.page + b.size

/-- The length of the mapping. -/
def Block.length (b : Block) : Nat := b.size + vblockTail

/-- The block is as `mem_vblock_alloc` made it, but for the link. -/
structure Block.Made (h : Heap) (b : Block) : Prop where
  size_lt : b.size < 2 ^ 32
  page_pos : 0 < b.page
  aligned : cpuPageSize ∣ b.page
  addressable : b.page + b.length ≤ 2 ^ 64
  mapped : (b.page, b.length) ∈ h.blocks
  sizeField : vblockSize h.mem b.trailer = b.size

/-- A chain of blocks that are linked through their trailers. -/
structure VblockChain (h : Heap) (first : Nat) (bs : List Block) : Prop where
  made : ∀ b ∈ bs, b.Made h
  apart : bs.Pairwise (fun b c => Apart b.page b.length c.page c.length)
  linked : Linked.Chain (vblockNext h.mem) 0 first (bs.map Block.trailer)

theorem Block.Made.trailer_pos {h : Heap} {b : Block} (hb : b.Made h) : b.trailer ≠ 0 := by
  have hpage := hb.page_pos
  unfold Block.trailer
  omega

theorem Block.Made.trailer_lt {h : Heap} {b : Block} (hb : b.Made h) : b.trailer < 2 ^ 64 := by
  have haddr := hb.addressable
  have htail := vblockTail_eq
  unfold Block.length at haddr
  unfold Block.trailer
  omega

/-- The trailer lies in the pages of its mapping. -/
theorem Block.Made.touch_ok {h : Heap} {b : Block} (hb : b.Made h) (m : Mem) :
    touch { h with mem := m } b.trailer = .ok () := by
  have hround : b.length ≤ roundUp b.length cpuPageSize := by
    unfold roundUp cpuPageSize
    omega
  have hin : h.blocks.any (fun r => r.1 ≤ b.trailer ∧
      b.trailer + memVblockSize ≤ r.1 + roundUp r.2 cpuPageSize) = true := by
    rw [List.any_eq_true]
    refine ⟨(b.page, b.length), hb.mapped, ?_⟩
    have htail := vblockTail_eq
    rw [decide_eq_true_iff]
    unfold Block.trailer
    unfold Block.length at hround ⊢
    have hsize : memVblockSize = 16 := rfl
    dsimp only
    omega
  rw [touch, if_pos hin]

/-- `mem_vblock_alloc` and a link in front of a chain give a longer chain. -/
theorem VblockChain.push {mmap : Allocator} (hmmap : mmap.HandsOutFresh cpuPageSize) {h h' : Heap}
    {first size b : Nat} {bs : List Block} (hchain : VblockChain h first bs) (hsize : size < 2 ^ 32)
    (halloc : memVblockAlloc mmap h size = .ok (b, h')) (hfirst : first < 2 ^ 64) :
    ∃ block : Block, block.trailer = b ∧ block.size = size ∧
      VblockChain { h' with mem := setVblockNext h'.mem b first } b (block :: bs) := by
  obtain ⟨page, hb, hfresh, hblocks, hnext, hsizeField, _, hkept⟩ :=
    memVblockAlloc_ok hmmap hsize halloc
  dsimp only at hb hblocks hnext hsizeField hkept
  subst hb
  obtain ⟨hpos, haligned, haddr, hapart⟩ := hfresh
  have htail := vblockTail_eq
  let block : Block := ⟨page, size⟩
  have hblockApart : ∀ c ∈ bs, Apart c.page c.length block.page block.length :=
    fun c hc => hapart _ (hchain.made c hc).mapped
  -- the trailers of the chain are not touched
  have hsame : ∀ c ∈ bs,
      Agree h.mem (setVblockNext h'.mem (page + size) first) c.trailer vblockTail := by
    intro c hc
    have hmapping : Apart page (size + vblockTail) c.trailer vblockTail := by
      apply (hblockApart c hc).symm.mono
      · exact ⟨le_rfl, le_rfl⟩
      · unfold Inside Block.trailer Block.length
        omega
    have hlink : Apart (page + size) 8 c.trailer vblockTail := by
      apply hmapping.mono_left
      unfold Inside
      omega
    exact (hkept.agree hmapping).trans (store_agree hlink)
  refine ⟨block, rfl, rfl, ?_, ?_, ?_⟩
  · intro c hc
    rcases List.mem_cons.mp hc with rfl | hc
    · exact ⟨hsize, hpos, haligned, haddr, by rw [hblocks]; exact List.mem_cons_self,
        vblockSize_setVblockNext.trans hsizeField⟩
    · have hmade := hchain.made c hc
      refine ⟨hmade.size_lt, hmade.page_pos, hmade.aligned, hmade.addressable, ?_, ?_⟩
      · rw [hblocks]
        exact List.mem_cons_of_mem _ hmade.mapped
      · exact (vblock_of_agree (hsame c hc)).2.trans hmade.sizeField
  · exact List.pairwise_cons.mpr ⟨fun c hc => (hblockApart c hc).symm, hchain.apart⟩
  · refine hchain.linked.push (vblockNext_setVblockNext hfirst) ?_
    intro t ht
    obtain ⟨c, hc, rfl⟩ := List.mem_map.mp ht
    exact (vblock_of_agree (hsame c hc)).1

/-! ## What the purge does -/

/-- The arguments of the calls of `vm_page_free`. -/
def freeCalls (es : List PurgeEvent) : List (Nat × Nat) :=
  es.filterMap fun
    | .access _ => none
    | .free _ page size => some (page, size)

/-- No block is accessed after it was freed. -/
def NoUseAfterFree (es : List PurgeEvent) : Prop :=
  ∀ before b page size after, es = before ++ .free b page size :: after → .access b ∉ after

/-- `mem_vblock_purge` returns, frees every block once and as it was mapped, and does not look at a
block that it has freed. -/
def PurgesChain (h : Heap) (first : Nat) (bs : List Block) : Prop :=
  ∃ fuel h', result (purgeRun fuel h first) = .ok h' ∧
    (freeCalls (events (purgeRun fuel h first))).Perm (bs.map fun b => (b.page, b.length)) ∧
    NoUseAfterFree (events (purgeRun fuel h first))

/-- An empty chain. -/
theorem purgesChain_nil (h : Heap) : PurgesChain h 0 [] := by
  refine ⟨0, h, ?_, ?_, ?_⟩
  · rw [purgeRun, if_pos rfl, result_pure]
  · rw [purgeRun, if_pos rfl, events_pure]
    exact List.Perm.nil
  · intro before b page size after heq
    rw [purgeRun, if_pos rfl, events_pure] at heq
    simp at heq

/-- The last block of a chain: the turn ends the loop. -/
theorem turnEvents_last {m : Mem} {b : Nat} (hnext : vblockNext m b = 0) :
    turnEvents m b = [.access b, .access b,
      .free b (sub64 b (memVblockSize * vblockSize m b)) (vblockSize m b + vblockTail)] := by
  rw [turnEvents, unlinkedMem, if_pos hnext, if_pos hnext]
  rfl

theorem events_purgeRun_null (fuel : Nat) (h : Heap) : events (purgeRun fuel h 0) = [] := by
  cases fuel with
  | zero => rw [purgeRun, if_pos rfl, events_pure]
  | succ fuel => rw [purgeRun, if_pos rfl, events_pure]

/-- The scaled difference is the start of the mapping only for a block without data. -/
theorem scaled_eq_iff {b : Block} {h : Heap} (hb : b.Made h) :
    sub64 b.trailer (memVblockSize * b.size) = b.page ↔ b.size = 0 := by
  have hsize := hb.size_lt
  have haddr := hb.addressable
  have htail := vblockTail_eq
  unfold Block.length at haddr
  unfold sub64 Block.trailer memVblockSize
  omega

section Chains

variable {h : Heap} {b c : Block} {bs : List Block}

/-- The events of a run over a single block. -/
theorem events_purgeRun_one (hb : b.Made h) (hnext : vblockNext h.mem b.trailer = 0) {fuel : Nat}
    {h' : Heap} (hrun : result (purgeRun fuel h b.trailer) = .ok h') :
    events (purgeRun fuel h b.trailer) = [.access b.trailer, .access b.trailer,
      .free b.trailer (sub64 b.trailer (memVblockSize * b.size)) b.length] := by
  obtain ⟨fuel', h₁, _, _, hevents⟩ := purgeRun_ok hb.trailer_pos hrun
  rw [hnext, events_purgeRun_null, List.append_nil, turnEvents_last hnext, hb.sizeField] at hevents
  exact hevents

/-- A single block is always freed, if not always as it was mapped. -/
theorem result_purgeRun_one (hb : b.Made h) (hnext : vblockNext h.mem b.trailer = 0) :
    ∃ h', result (purgeRun 1 h b.trailer) = .ok h' := by
  have htouch : touch h b.trailer = .ok () := hb.touch_ok h.mem
  refine ⟨vmPageFree h (sub64 b.trailer (memVblockSize * vblockSize h.mem b.trailer))
    (vblockSize h.mem b.trailer + vblockTail), ?_⟩
  have hunlink : result (slistRemoveRun h b.trailer 0) = .ok h := by
    rw [slistRemoveRun, if_pos rfl, result_pure]
  have hfree : result (memVblockFreeRun h b.trailer) =
      .ok (vmPageFree h (sub64 b.trailer (memVblockSize * vblockSize h.mem b.trailer))
        (vblockSize h.mem b.trailer + vblockTail)) := by
    rw [memVblockFreeRun, result_bind, result_touchRun, htouch, ok_bind, result_vmPageFreeRun]
  rw [purgeRun, if_neg hb.trailer_pos, purgeTurnRun, result_bind, result_bind, result_touchRun, htouch,
    ok_bind, result_bind, hnext, hunlink, ok_bind, result_bind, hfree, ok_bind, result_pure, ok_bind,
    purgeRun, if_pos rfl, result_pure]

theorem purgesChain_one_iff (hb : b.Made h) (hnext : vblockNext h.mem b.trailer = 0) :
    PurgesChain h b.trailer [b] ↔ b.size = 0 := by
  rw [← scaled_eq_iff hb]
  constructor
  · rintro ⟨fuel, h', hrun, hcalls, _⟩
    rw [events_purgeRun_one hb hnext hrun] at hcalls
    have hcall : (sub64 b.trailer (memVblockSize * b.size), b.length) = (b.page, b.length) :=
      List.singleton_perm_singleton.mp hcalls
    exact (Prod.mk.inj hcall).1
  · intro hpage
    obtain ⟨h', hrun⟩ := result_purgeRun_one hb hnext
    refine ⟨1, h', hrun, ?_, ?_⟩
    · rw [events_purgeRun_one hb hnext hrun, hpage]
      exact List.Perm.refl _
    · rw [events_purgeRun_one hb hnext hrun]
      intro before t page size after heq
      -- the call is the last event
      have hafter : after = [] := by
        rcases before with _ | ⟨e₁, _ | ⟨e₂, _ | ⟨e₃, rest⟩⟩⟩
        · cases heq
        · cases heq
        · cases heq
          rfl
        · simp at heq
      rw [hafter]
      exact List.not_mem_nil

/-- A turn starts with an access of its block and ends with the call that frees it. -/
theorem turnEvents_ends (m : Mem) (b : Nat) :
    (∃ rest, turnEvents m b = .access b :: rest) ∧
      ∃ front page size, turnEvents m b = front ++ [.free b page size] := by
  rw [turnEvents]
  refine ⟨⟨_, List.cons_append⟩, ?_⟩
  generalize (if vblockNext m b = 0 then [] else [.access (vblockNext m b), .access b] :
    List PurgeEvent) = middle
  generalize sub64 b (memVblockSize * vblockSize (unlinkedMem m b) b) = page
  exact ⟨.access b :: middle ++ [.access b], page, _, by rw [List.append_assoc]; rfl⟩

/-- Two blocks or more: the second one is linked to itself, freed, and then looked at. -/
theorem not_purgesChain_two (bs : List Block) (hb : b.Made h) (hc : c.Made h)
    (hnext : vblockNext h.mem b.trailer = c.trailer) :
    ¬ PurgesChain h b.trailer (b :: c :: bs) := by
  rintro ⟨fuel, h', hrun, _, hfreed⟩
  obtain ⟨fuel₁, h₁, hmem₁, hrun₁, hevents₁⟩ := purgeRun_ok hb.trailer_pos hrun
  rw [hnext] at hrun₁ hevents₁
  have hself : vblockNext h₁.mem c.trailer = c.trailer := by
    rw [hmem₁, unlinkedMem, hnext, if_neg hc.trailer_pos]
    exact vblockNext_setVblockNext hc.trailer_lt
  obtain ⟨fuel₂, h₂, _, hrun₂, hevents₂⟩ := purgeRun_ok hc.trailer_pos hrun₁
  rw [hself] at hrun₂ hevents₂
  obtain ⟨fuel₃, h₃, _, _, hevents₃⟩ := purgeRun_ok hc.trailer_pos hrun₂
  rw [hevents₁, hevents₂, hevents₃] at hfreed
  obtain ⟨front, page, size, hfree⟩ := (turnEvents_ends h₁.mem c.trailer).2
  obtain ⟨rest, haccess⟩ := (turnEvents_ends h₂.mem c.trailer).1
  rw [hfree, haccess] at hfreed
  refine hfreed (turnEvents h.mem b.trailer ++ front) c.trailer page size
    (.access c.trailer :: rest ++ events (purgeRun fuel₃ h₃ (vblockNext h₂.mem c.trailer))) ?_ ?_
  · simp only [List.append_assoc, List.cons_append, List.nil_append]
  · exact List.mem_append_left _ List.mem_cons_self

theorem purgesChain_iff {first : Nat} (hchain : VblockChain h first bs) :
    PurgesChain h first bs ↔ bs = [] ∨ ∃ b, bs = [b] ∧ b.size = 0 := by
  cases bs with
  | nil =>
      obtain rfl : first = 0 := hchain.linked
      simp [purgesChain_nil]
  | cons b bs =>
      obtain ⟨hfirst, hlinked⟩ := hchain.linked
      subst hfirst
      have hb := hchain.made b List.mem_cons_self
      cases bs with
      | nil =>
          rw [purgesChain_one_iff hb hlinked]
          simp
      | cons c bs =>
          have hc := hchain.made c (List.mem_cons_of_mem _ List.mem_cons_self)
          have hno := not_purgesChain_two bs hb hc hlinked.1
          simp [hno]

end Chains

/-- For every chain of blocks, `mem_vblock_purge` frees it as it should if and only if there is no
block, or a single one of size zero. -/
theorem memVblockPurge_frees_chain_iff (h : Heap) (first : Nat) (bs : List Block)
    (hchain : VblockChain h first bs) :
    PurgesChain h first bs ↔ bs = [] ∨ ∃ b, bs = [b] ∧ b.size = 0 :=
  purgesChain_iff hchain

/-- A heap with one block at `0x10000`. -/
def oneBlock (size : Nat) (m : Mem) : Heap := ⟨m, [(0x10000, size + vblockTail)], 1⟩

theorem memVblockPurge_frees_empty_block :
    VblockChain (oneBlock 0 fun _ => 0) 0x10000 [⟨0x10000, 0⟩] ∧
      PurgesChain (oneBlock 0 fun _ => 0) 0x10000 [⟨0x10000, 0⟩] := by
  have hchain : VblockChain (oneBlock 0 fun _ => 0) 0x10000 [⟨0x10000, 0⟩] := by
    have hlast : vblockNext (fun _ => 0) 0x10000 = 0 := by decide
    refine ⟨?_, List.pairwise_singleton _ _, rfl, hlast⟩
    intro b hb
    rw [List.mem_singleton.mp hb]
    exact ⟨by decide, by decide, by decide, by decide, List.mem_cons_self, by decide⟩
  exact ⟨hchain, (memVblockPurge_frees_chain_iff _ _ _ hchain).mpr (Or.inr ⟨_, rfl, rfl⟩)⟩

/-- The bytes of the trailer of a block of 4096 bytes at `0x10000`. -/
def pageBlockMem : Mem := fun x => if x = 0x11009 then 16 else 0

/-- A single block of 4096 bytes: `vm_page_free` is called for `0x1000`. -/
theorem not_purgesChain_page :
    VblockChain (oneBlock 4096 pageBlockMem) 0x11000 [⟨0x10000, 4096⟩] ∧
      ¬ PurgesChain (oneBlock 4096 pageBlockMem) 0x11000 [⟨0x10000, 4096⟩] := by
  have hchain : VblockChain (oneBlock 4096 pageBlockMem) 0x11000 [⟨0x10000, 4096⟩] := by
    have hlast : vblockNext pageBlockMem 0x11000 = 0 := by decide
    refine ⟨?_, List.pairwise_singleton _ _, rfl, hlast⟩
    intro b hb
    rw [List.mem_singleton.mp hb]
    exact ⟨by decide, by decide, by decide, by decide, List.mem_cons_self, by decide⟩
  refine ⟨hchain, fun hpurges => ?_⟩
  rcases (purgesChain_iff hchain).mp hpurges with hnil | ⟨b, heq, hzero⟩
  · cases hnil
  · rw [List.cons.injEq] at heq
    rw [← heq.1] at hzero
    exact absurd hzero (by decide)

end OpenAAA.Vblock
