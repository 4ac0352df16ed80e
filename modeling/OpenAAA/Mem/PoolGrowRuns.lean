import OpenAAA.Mem.PoolGrow
import OpenAAA.Mem.PoolRuns

/-!
Runs of a pool with growing buffers. Next to what a run of `PoolCall`s keeps, the
program knows the buffer that it has open and whether the newest of its blocks is
the one that the pool allocated last, so that `mp_realloc` may be called for it. A
push allocates a block of the pool's own, and after a pop or a flush the pool has
forgotten which block was the last.
-/

namespace OpenAAA.Pool

open Memory Alloc Sys Linked

structure GrowRun where
  run : PoolRun
  latest : Bool
  opened : Option Block
  returned : Nat

/-- The calls of a run. `fill` is a write of the program into the open buffer, `finish`
is `mp_end` and `reopen` is `mp_open`. -/
inductive GrowCall where
  | pool (call : PoolCall)
  | start (size : Nat)
  | startNoalign (size : Nat)
  | grow (size : Nat)
  | expand
  | spread (p size : Nat)
  | fill (addr : Nat) (bytes : List Byte)
  | finish (behind : Nat)
  | reopen (ptr : Nat)
  | realloc (ptr size : Nat)
  | reallocZero (ptr size : Nat)

/-- Whether the newest held block is the last allocated one after the call. -/
def PoolCall.latest (before : Bool) : PoolCall → Bool
  | .alloc _ => true
  | .allocNoalign _ => true
  | .allocZero _ => true
  | .strdup str => str.isSome || before
  | .memdup _ => true
  | .push => false
  | .pop => false
  | .flush => false
  | .write _ _ => before

/-- The buffer is what `mp_ptr` and `mp_avail` say after the call. -/
def GrowRun.open (s : GrowRun) (pool : Nat) (aligned : Bool) (r : Nat × Heap) : GrowRun where
  run := { s.run with heap := r.2 }
  latest := false
  opened := some ⟨mpPtr r.2.mem pool, mpAvail r.2.mem pool, aligned⟩
  returned := r.1

/-- The newest block is exchanged for the one that was returned. -/
def GrowRun.exchange (s : GrowRun) (size : Nat) (r : Nat × Heap) : GrowRun where
  run := ⟨r.2, ⟨r.1, size, s.run.live.head?.any Block.aligned⟩ :: s.run.live.tail, s.run.saved⟩
  latest := true
  opened := none
  returned := r.1

def GrowRun.step (malloc realloc : Allocator) (pool : Nat) (s : GrowRun) :
    GrowCall → Except Fault GrowRun
  | .pool call => do
      let run ← s.run.step malloc pool call
      return { s with run := run, latest := call.latest s.latest }
  | .start size => do return s.open pool true (← mpStart malloc s.run.heap pool size)
  | .startNoalign size => do
      return s.open pool false (← mpStartNoalign malloc s.run.heap pool size)
  | .grow size => do
      return s.open pool (s.opened.any Block.aligned) (← mpGrow malloc realloc s.run.heap pool size)
  | .expand => do
      return s.open pool (s.opened.any Block.aligned) (← mpExpand malloc realloc s.run.heap pool)
  | .spread p size => do
      return s.open pool (s.opened.any Block.aligned)
        (← mpSpread malloc realloc s.run.heap pool p size)
  | .fill addr bytes =>
      .ok { s with run := { s.run with
        heap := { s.run.heap with mem := write s.run.heap.mem addr bytes } } }
  | .finish behind =>
      let (p, h) := mpEnd s.run.heap pool behind
      .ok ⟨⟨h, ⟨p, behind - p, s.opened.any Block.aligned⟩ :: s.run.live, s.run.saved⟩, true,
        none, p⟩
  | .reopen ptr =>
      let (size, h) := mpOpen s.run.heap pool ptr
      .ok ⟨⟨h, s.run.live.tail, s.run.saved⟩, false,
        some ⟨mpPtr h.mem pool, mpAvail h.mem pool, s.run.live.head?.any Block.aligned⟩, size⟩
  | .realloc ptr size => do
      return s.exchange size (← mpRealloc malloc realloc s.run.heap pool ptr size)
  | .reallocZero ptr size => do
      return s.exchange size (← mpReallocZero malloc realloc s.run.heap pool ptr size)

/-- What the caller owes: no pool calls while a buffer is open, pointers into the
buffer, only the last block reallocated, and sizes up to `MP_SIZE_MAX`. The size
of `mp_expand` is documented as `mp_avail(pool) + 1`. -/
def GrowCall.Legal (s : GrowRun) : GrowCall → Prop
  | .pool call => call.Legal False s.run ∧
      (s.opened = none ∨ ∃ addr bytes, call = .write addr bytes)
  | .start size => s.opened = none ∧ size ≤ mpSizeMax
  | .startNoalign size => s.opened = none ∧ size ≤ mpSizeMax
  | .grow size => (∃ b, s.opened = some b) ∧ size ≤ mpSizeMax
  | .expand => ∃ b, s.opened = some b ∧ b.size + 1 ≤ mpSizeMax
  | .spread p size => (∃ b, s.opened = some b ∧ b.addr ≤ p ∧ p ≤ b.addr + b.size) ∧
      size ≤ mpSizeMax
  | .fill addr bytes => ∃ b, s.opened = some b ∧ Inside addr bytes.length b.addr b.size
  | .finish behind => ∃ b, s.opened = some b ∧ b.addr ≤ behind ∧ behind ≤ b.addr + b.size
  | .reopen ptr => s.opened = none ∧ s.latest = true ∧
      s.run.live.head?.map Block.addr = some ptr
  | .realloc ptr size => s.opened = none ∧ s.latest = true ∧
      s.run.live.head?.map Block.addr = some ptr ∧ size ≤ mpSizeMax
  | .reallocZero ptr size => s.opened = none ∧ s.latest = true ∧
      s.run.live.head?.map Block.addr = some ptr ∧ size ≤ mpSizeMax

/-- `mp_spread` needs a buffer of the bytes before `p` and the ones behind it. The open
one is long enough, or the length is at most `MP_SIZE_MAX` as well. -/
def GrowCall.Fits (s : GrowRun) : GrowCall → Prop
  | .spread p size => ∀ b, s.opened = some b → p - b.addr + size ≤ max b.size mpSizeMax
  | _ => True

/-- Every call of the run meets the condition when it is made. -/
def EachCall (malloc realloc : Allocator) (pool : Nat) (C : GrowRun → GrowCall → Prop)
    (s : GrowRun) : List GrowCall → Prop
  | [] => True
  | call :: calls => C s call ∧
      ∀ s', s.step malloc realloc pool call = .ok s' → EachCall malloc realloc pool C s' calls

/-- The bytes of the blocks are the same in both memories. -/
def BlocksKept (m m' : Mem) (blocks : List Block) : Prop :=
  ∀ b ∈ blocks, Agree m m' b.addr b.size

/-- The bytes that two blocks have in common, counted from their starts. -/
def PrefixKept (m m' : Mem) (old new : Block) : Prop :=
  ∀ i < min old.size new.size, m' (new.addr + i) = m (old.addr + i)

/-- A buffer of at least `size` bytes has been opened. -/
structure StartSound (s s' : GrowRun) (size : Nat) (b : Block) : Prop where
  opened : s'.opened = some b
  returned : s'.returned = b.addr
  enough : size ≤ b.size
  live : s'.run.live = s.run.live
  others : BlocksKept s.run.heap.mem s'.run.heap.mem s.run.live

/-- The buffer `b` has become `b'`, with at least `size` bytes. -/
structure GrowSound (s s' : GrowRun) (size : Nat) (b b' : Block) : Prop where
  opened : s'.opened = some b'
  enough : size ≤ b'.size
  bytes : PrefixKept s.run.heap.mem s'.run.heap.mem b b'
  aligned : b'.aligned = b.aligned
  live : s'.run.live = s.run.live
  others : BlocksKept s.run.heap.mem s'.run.heap.mem s.run.live

/-- The block `b` has become the buffer `b'`, in place. -/
structure OpenSound (s s' : GrowRun) (b b' : Block) (others : List Block) : Prop where
  opened : s'.opened = some b'
  addr : b'.addr = b.addr
  enough : b.size ≤ b'.size
  bytes : PrefixKept s.run.heap.mem s'.run.heap.mem b b'
  aligned : b'.aligned = b.aligned
  live : s'.run.live = others
  others : BlocksKept s.run.heap.mem s'.run.heap.mem others

/-- The block `b` has been exchanged for one of `size` bytes. -/
structure ReallocSound (s s' : GrowRun) (size : Nat) (b : Block) (others : List Block) : Prop where
  live : s'.run.live = ⟨s'.returned, size, b.aligned⟩ :: others
  bytes : PrefixKept s.run.heap.mem s'.run.heap.mem b ⟨s'.returned, size, b.aligned⟩
  others : BlocksKept s.run.heap.mem s'.run.heap.mem others

/-- What each call promises. -/
def StepSound (s s' : GrowRun) : GrowCall → Prop
  | .pool _ => True
  | .start size => ∃ b, StartSound s s' size b ∧ b.aligned = true
  | .startNoalign size => ∃ b, StartSound s s' size b
  | .grow size => ∀ b, s.opened = some b →
      ∃ b', GrowSound s s' size b b' ∧ s'.returned = b'.addr
  | .expand => ∀ b, s.opened = some b →
      ∃ b', GrowSound s s' (b.size + 1) b b' ∧ s'.returned = b'.addr
  | .spread p size => ∀ b, s.opened = some b →
      ∃ b', GrowSound s s' 0 b b' ∧ s'.returned = b'.addr + (p - b.addr) ∧
        s'.returned + size ≤ b'.addr + b'.size
  | .fill addr bytes => s'.opened = s.opened ∧ s'.run.live = s.run.live ∧
      read s'.run.heap.mem addr bytes.length = bytes ∧
      BlocksKept s.run.heap.mem s'.run.heap.mem s.run.live
  | .finish behind => ∀ b, s.opened = some b →
      s'.returned = b.addr ∧ ReallocSound s s' (behind - b.addr) b s.run.live
  | .reopen _ => ∀ b others, s.run.live = b :: others →
      s'.returned = b.size ∧ ∃ b', OpenSound s s' b b' others
  | .realloc _ size => ∀ b others, s.run.live = b :: others → ReallocSound s s' size b others
  | .reallocZero _ size => ∀ b others, s.run.live = b :: others →
      ReallocSound s s' size b others ∧
        ∀ i, b.size ≤ i → i < size → s'.run.heap.mem (s'.returned + i) = 0

/-- The held blocks and the open buffer are sound. -/
def StateSound (pool : Nat) (s : GrowRun) : Prop :=
  BlocksSound pool { s.run with live := s.opened.toList ++ s.run.live }

/-- Every state of the run is sound, and every call returns, unless there is no
memory left, and does what it promises. -/
def SoundRun (malloc realloc : Allocator) (pool : Nat) (s : GrowRun) : List GrowCall → Prop
  | [] => StateSound pool s
  | call :: calls => StateSound pool s ∧
      Yields False (s.step malloc realloc pool call) (fun s' =>
        StepSound s s' call ∧ SoundRun malloc realloc pool s' calls)

/-- Where the pool stands: nothing is known of the last block, or the newest held
block is the tip, or the open buffer is. -/
inductive Placed (pool : Nat) (h : Heap) (saved : List Saved) :
    List Block → Bool → Option Block → Prop where
  | idle {live : List Block} {smalls bigs unused : List Nat}
      (body : Body h pool (loadMempool h.mem pool) [] smalls bigs unused
        (occupied pool live saved) saved)
      (lastBig : LastBigSound h.mem pool (loadMempool h.mem pool)) :
      Placed pool h saved live false none
  | closed {live : List Block} {b : Block} {idx avail : Nat}
      (tip : Tip h pool (loadMempool h.mem pool) (occupied pool live saved) saved b.size idx
        b.addr avail) : Placed pool h saved (b :: live) true none
  | opened {live : List Block} {b : Block}
      (ho : Opened h pool (occupied pool live saved) saved b.addr b.size) :
      Placed pool h saved live false (some b)

/-- The invariant of runs. -/
structure GrowInv (pool : Nat) (s : GrowRun) : Prop where
  placed : Placed pool s.run.heap s.run.saved s.run.live s.latest s.opened
  live : AlignedBlocks (s.opened.toList ++ s.run.live)
  saved : ∀ t ∈ s.run.saved, AlignedBlocks t.live

section Places

variable {pool : Nat} {h : Heap} {saved : List Saved} {live : List Block} {latest : Bool}
  {buffer : Option Block} {s : GrowRun} {m' : Mem} {a n : Nat}

/-- Without an open buffer, the pool is in order as its header says. -/
theorem Placed.settled (hp : Placed pool h saved live latest none) :
    (∃ smalls bigs unused, Body h pool (loadMempool h.mem pool) [] smalls bigs unused
      (occupied pool live saved) saved) ∧ LastBigSound h.mem pool (loadMempool h.mem pool) := by
  cases hp with
  | idle body lastBig => exact ⟨⟨_, _, _, body⟩, lastBig⟩
  | closed tip =>
      obtain ⟨v', smalls, bigs, unused, hbody, hsame⟩ := tip.filled tip.le
      rw [hsame rfl] at hbody
      exact ⟨⟨smalls, bigs, unused, hbody⟩, tip.lastBigSound⟩

theorem Placed.open_buffer {b : Block} (hp : Placed pool h saved live latest (some b)) :
    Opened h pool (occupied pool live saved) saved b.addr b.size := by
  cases hp with
  | opened ho => exact ho

/-- In any case it is in order under some header, with the open buffer in use. -/
theorem Placed.body (hp : Placed pool h saved live latest buffer) :
    ∃ v smalls bigs unused, Body h pool v [] smalls bigs unused
      (occupied pool (buffer.toList ++ live) saved) saved := by
  cases hp with
  | idle body lastBig => exact ⟨_, _, _, _, body⟩
  | closed tip =>
      obtain ⟨v', smalls, bigs, unused, hbody, _⟩ := tip.filled tip.le
      exact ⟨v', smalls, bigs, unused, hbody⟩
  | opened ho =>
      obtain ⟨v', smalls, bigs, unused, hbody, _⟩ := Tip.filled ho le_rfl
      exact ⟨v', smalls, bigs, unused, hbody⟩

theorem GrowInv.stateSound (hs : GrowInv pool s) : StateSound pool s := by
  obtain ⟨v, smalls, bigs, unused, hbody⟩ := hs.placed.body
  exact Body.blocksSound hbody hs.live

theorem GrowInv.runInv (hs : GrowInv pool s) (hnone : s.opened = none) : RunInv pool s.run := by
  have hplaced := hs.placed
  have hlive := hs.live
  rw [hnone] at hplaced hlive
  exact ⟨hplaced.settled.1, hlive, hs.saved⟩

theorem Placed.clear_of_legal {dies : Prop} {addr : Nat} {bytes : List Byte}
    (hp : Placed pool h saved live latest buffer)
    (hlegal : (PoolCall.write addr bytes).Legal dies ⟨h, live, saved⟩) :
    Clear h pool saved addr bytes.length := by
  obtain ⟨v, smalls, bigs, unused, hbody⟩ := hp.body
  exact hbody.clear_of_legal (List.subset_append_right _ _) hlegal

/-- Writes that miss the pool's own data. -/
theorem Placed.write (hp : Placed pool h saved live latest buffer)
    (hm : ChangesOnly h.mem m' a n) (hclear : Clear h pool saved a n) :
    Placed pool { h with mem := m' } saved live latest buffer := by
  have hsame := loadMempool_of_agree (hm.agree hclear.header)
  cases hp with
  | idle body lastBig =>
      obtain ⟨hbody, _, hsizes⟩ := body.write_clear hm hclear
      have hlast := lastBig.kept body rfl rfl (fun c hc => (hsizes c hc).2)
      rw [← hsame] at hbody hlast
      exact .idle hbody hlast
  | closed tip =>
      have htip := tip.write hm hclear
      rw [← hsame] at htip
      exact .closed htip
  | opened ho =>
      refine .opened ?_
      unfold Opened
      dsimp only
      rw [hsame]
      exact Tip.write ho hm hclear

end Places

section PoolCalls

variable {dies : Prop} {malloc : Allocator} {pool : Nat} {h : Heap} {v : Mempool}
  {smalls bigs unused : List Nat} {used : List (Nat × Nat)} {saved : List Saved}
  {n idx ptr avail size : Nat} {m' : Mem}

/-- Writes into the tip. -/
theorem Tip.fill (ht : Tip h pool (loadMempool h.mem pool) used saved n idx ptr avail)
    (hm : ChangesOnly h.mem m' ptr n) :
    Tip { h with mem := m' } pool (loadMempool m' pool) used saved n idx ptr avail := by
  have hle := ht.le
  have hclear := ht.clear.mono (show Inside ptr n ptr avail from ⟨le_rfl, by omega⟩)
  rw [loadMempool_of_agree (hm.agree hclear.header)]
  exact ht.write hm hclear

theorem mpAllocZero_tip (hmalloc : malloc.HandsOutFresh cpuStructAlign)
    (hb : Body h pool v [] smalls bigs unused used saved) (hv : loadMempool h.mem pool = v)
    (hbig : LastBigSound h.mem pool v) (hmax : size ≤ mpSizeMax ∨ dies) :
    Yields dies (mpAllocZero malloc h pool size) (fun r => ∃ idx avail,
      Tip r.2 pool (loadMempool r.2.mem pool) used saved size idx r.1 avail) := by
  refine (mpAllocFast_serves hmalloc hb hv hbig hmax).bind ?_
  rintro ⟨p, h'⟩ ⟨⟨idx, ⟨avail, ht⟩, _⟩, _⟩
  exact .ok ⟨idx, avail, ht.fill (store_changesOnly h'.mem p size 0)⟩

theorem mpMemdup_tip {s : List Byte} (hmalloc : malloc.HandsOutFresh cpuStructAlign)
    (hb : Body h pool v [] smalls bigs unused used saved) (hv : loadMempool h.mem pool = v)
    (hbig : LastBigSound h.mem pool v) (hmax : s.length ≤ mpSizeMax ∨ dies) :
    Yields dies (mpMemdup malloc h pool s) (fun r => ∃ idx avail,
      Tip r.2 pool (loadMempool r.2.mem pool) used saved s.length idx r.1 avail) := by
  refine (mpAllocFast_serves hmalloc hb hv hbig hmax).bind ?_
  rintro ⟨p, h'⟩ ⟨⟨idx, ⟨avail, ht⟩, _⟩, _⟩
  exact .ok ⟨idx, avail, ht.fill (write_changesOnly h'.mem p s)⟩

theorem mpStrdup_tip {s : List Byte} (hmalloc : malloc.HandsOutFresh cpuStructAlign)
    (hb : Body h pool v [] smalls bigs unused used saved) (hv : loadMempool h.mem pool = v)
    (hbig : LastBigSound h.mem pool v) (hmax : s.length + 1 ≤ mpSizeMax ∨ dies) :
    Yields dies (mpStrdup malloc h pool (some s)) (fun r => ∃ t idx avail, r.1 = some t ∧
      Tip r.2 pool (loadMempool r.2.mem pool) used saved ((s.length + 1) % 2 ^ 32) idx t
        avail) := by
  have hle : (s.length + 1) % 2 ^ 32 ≤ s.length + 1 := Nat.mod_le _ _
  rw [mpStrdup]
  refine (mpAllocFastNoalign_serves hmalloc hb hv hbig (hmax.imp_left hle.trans)).bind ?_
  rintro ⟨p, h'⟩ ⟨idx, ⟨avail, ht⟩, _⟩
  have hpart : ((s ++ [0]).take ((s.length + 1) % 2 ^ 32)).length = (s.length + 1) % 2 ^ 32 := by
    rw [List.length_take, List.length_append, List.length_singleton]
    exact Nat.min_eq_left hle
  have hm := write_changesOnly h'.mem p ((s ++ [0]).take ((s.length + 1) % 2 ^ 32))
  rw [hpart] at hm
  exact .ok ⟨p, idx, avail, rfl, ht.fill hm⟩

/-- A push leaves `last_big` alone. -/
theorem mpPush_lastBig (hmalloc : malloc.HandsOutFresh cpuStructAlign)
    (hb : Body h pool v [] smalls bigs unused used saved) (hv : loadMempool h.mem pool = v)
    (hbig : LastBigSound h.mem pool v) :
    Yields dies (mpPush malloc h pool)
      (fun r => LastBigSound r.2.mem pool (loadMempool r.2.mem pool)) := by
  refine (mpAllocFast_serves hmalloc hb hv hbig (Or.inl (by decide))).bind ?_
  rintro ⟨p, h₁⟩ ⟨⟨idx, ⟨avail, ht⟩, _⟩, _⟩
  have hfilled := ht.fill (storeState_changesOnly h₁.mem p (loadState h.mem pool))
  change Yields dies (.ok (p, { h₁ with
    mem := setNext (storeState h₁.mem p (loadState h.mem pool)) pool p })) _
  generalize storeState h₁.mem p (loadState h.mem pool) = m₁ at *
  obtain ⟨v₁, _, _, _, hbody, hsame⟩ := hfilled.filled hfilled.le
  rw [hsame rfl] at hbody
  have hm : ChangesOnly m₁ (setNext m₁ pool p) pool mempoolSize :=
    field_changesOnly _ pool 24 8 p (by decide)
  obtain ⟨_, hsizes, _⟩ := hbody.header_write hm
  refine .ok (hfilled.lastBigSound.kept hbody ?_ ?_ hsizes)
  · rw [loadMempool_setNext]
  · rw [loadMempool_setNext]

/-- A pop makes the pool forget the last big block. -/
theorem mpPop_lastBig {h' : Heap} (hpop : mpPop h pool = .ok h') :
    (loadMempool h'.mem pool).lastBig = (pool + 40) % 2 ^ 64 := by
  rw [mpPop] at hpop
  split at hpop
  · cases hpop
  · rw [mpRestore] at hpop
    obtain ⟨⟨_, m⟩, _, hpop⟩ := exists_of_bind_ok hpop
    obtain ⟨h₁, _, hpop⟩ := exists_of_bind_ok hpop
    cases hpop
    rw [loadMempool_setLastBig]

theorem mpFlush_lastBig {h' : Heap} (hflush : mpFlush h pool = .ok h') :
    (loadMempool h'.mem pool).lastBig = (pool + 40) % 2 ^ 64 := by
  rw [mpFlush] at hflush
  obtain ⟨h₁, _, hflush⟩ := exists_of_bind_ok hflush
  obtain ⟨⟨_, m⟩, _, hflush⟩ := exists_of_bind_ok hflush
  cases hflush
  rw [loadMempool_setLastBig]

/-- The pool's structure lies below the end of the address space. -/
theorem Body.header_lt {extra : List Nat} (hb : Body h pool v extra smalls bigs unused used saved) :
    (pool + 40) % 2 ^ 64 = pool + 40 := by
  obtain ⟨c, hc, hin⟩ := hb.used_inChunk hb.header_used
  have hbase := hb.owned.base c (mem_of_linked hc)
  have htop := hb.owned.lt_max (mem_of_linked hc)
  unfold InChunk Inside mempoolSize at hin
  exact Nat.mod_eq_of_lt (by omega)

/-- A forgotten last block, which a pop and a flush leave behind. -/
theorem RunInv.idle {s : PoolRun} (hs : RunInv pool s)
    (hlast : (loadMempool s.heap.mem pool).lastBig = (pool + 40) % 2 ^ 64) :
    Placed pool s.heap s.saved s.live false none := by
  obtain ⟨smalls, bigs, unused, hb⟩ := hs.body
  exact .idle hb (Or.inl (hlast.trans hb.header_lt))

/-- The calls of a run without growing buffers. -/
theorem Placed.pool_step {s : PoolRun} {latest : Bool}
    (hmalloc : malloc.HandsOutFresh cpuStructAlign) (hs : RunInv pool s)
    (hp : Placed pool s.heap s.saved s.live latest none) (call : PoolCall)
    (hlegal : call.Legal dies s) :
    Yields dies (s.step malloc pool call) (fun s' =>
      Placed pool s'.heap s'.saved s'.live (call.latest latest) none) := by
  obtain ⟨⟨smalls, bigs, unused, hb⟩, hbig⟩ := hp.settled
  cases call with
  | alloc size =>
      refine (mpAllocFast_serves hmalloc hb rfl hbig hlegal).bind ?_
      rintro r ⟨⟨idx, ⟨avail, ht⟩, _⟩, _⟩
      exact .ok (.closed ht)
  | allocNoalign size =>
      refine (mpAllocFastNoalign_serves hmalloc hb rfl hbig hlegal).bind ?_
      rintro r ⟨idx, ⟨avail, ht⟩, _⟩
      exact .ok (.closed ht)
  | allocZero size =>
      refine (mpAllocZero_tip hmalloc hb rfl hbig hlegal).bind ?_
      rintro r ⟨idx, avail, ht⟩
      exact .ok (.closed ht)
  | strdup str =>
      cases str with
      | none => exact .ok hp
      | some str =>
          refine (mpStrdup_tip hmalloc hb rfl hbig (hlegal str rfl)).bind ?_
          rintro ⟨_, h⟩ ⟨t, idx, avail, rfl, ht⟩
          exact .ok (.closed ht)
  | memdup bytes =>
      refine (mpMemdup_tip hmalloc hb rfl hbig hlegal).bind ?_
      rintro r ⟨idx, avail, ht⟩
      exact .ok (.closed ht)
  | push =>
      refine ((mpPush_yields hmalloc hb rfl).and (mpPush_lastBig hmalloc hb rfl hbig)).bind ?_
      rintro ⟨p, h⟩ ⟨⟨smalls', bigs', unused', hb'⟩, hlast⟩
      exact .ok (.idle hb' hlast)
  | pop =>
      refine (hs.step hmalloc .pop hlegal).with_eq.mono ?_
      rintro s' ⟨hstep, hs'⟩
      obtain ⟨h', hpop, heq⟩ := exists_of_bind_ok hstep
      have hheap : s'.heap = h' := by
        cases hsaved : s.saved with
        | nil =>
            rw [hsaved] at heq
            cases heq
            rfl
        | cons t saved =>
            rw [hsaved] at heq
            cases heq
            rfl
      refine hs'.idle ?_
      rw [hheap]
      exact mpPop_lastBig hpop
  | flush =>
      refine (hs.step hmalloc .flush hlegal).with_eq.mono ?_
      rintro s' ⟨hstep, hs'⟩
      obtain ⟨h', hflush, heq⟩ := exists_of_bind_ok hstep
      cases heq
      exact hs'.idle (mpFlush_lastBig hflush)
  | write addr bytes =>
      exact .ok (hp.write (write_changesOnly _ _ _) (hp.clear_of_legal hlegal))

end PoolCalls

section Steps

variable {malloc realloc : Allocator} {pool : Nat} {s : GrowRun} {b : Block} {size : Nat}

/-- There is one open buffer. -/
theorem forall_opened {P : Block → Prop} (hopen : s.opened = some b) (hb : P b) :
    ∀ b', s.opened = some b' → P b' := by
  intro b' hopen'
  rw [hopen] at hopen'
  cases hopen'
  exact hb

/-- There is one newest block. -/
theorem forall_newest {others : List Block} {P : Block → List Block → Prop}
    (hlive : s.run.live = b :: others) (hb : P b others) :
    ∀ b' others', s.run.live = b' :: others' → P b' others' := by
  intro b' others' hlive'
  rw [hlive] at hlive'
  cases hlive'
  exact hb

theorem GrowInv.pool_step (hmalloc : malloc.HandsOutFresh cpuStructAlign) (hs : GrowInv pool s)
    (call : PoolCall) (hlegal : (GrowCall.pool call).Legal s) :
    Yields False (s.step malloc realloc pool (.pool call)) (GrowInv pool) := by
  obtain ⟨hcall, hnone | ⟨addr, bytes, rfl⟩⟩ := hlegal
  · have hrun := hs.runInv hnone
    have hplaced := hs.placed
    rw [hnone] at hplaced
    refine ((hplaced.pool_step hmalloc hrun call hcall).and
      (hrun.step hmalloc call hcall)).bind ?_
    rintro run ⟨hplaced', hrun'⟩
    refine .ok ⟨?_, ?_, hrun'.saved⟩
    · rw [hnone]
      exact hplaced'
    · rw [hnone]
      exact hrun'.live
  · exact .ok ⟨hs.placed.write (write_changesOnly _ _ _) (hs.placed.clear_of_legal hcall),
      hs.live, hs.saved⟩

theorem GrowInv.header_apart (hs : GrowInv pool s) :
    ∀ b ∈ s.run.live, Apart b.addr b.size pool mempoolSize :=
  fun b hin => hs.stateSound.header b (List.mem_append_right _ hin)

/-- What holds of the ranges in use holds of the held blocks. -/
theorem UsedKept.blocks {m m' : Mem} {live : List Block} {saved : List Saved}
    (hkept : UsedKept m m' pool (occupied pool live saved))
    (hheader : ∀ b ∈ live, Apart b.addr b.size pool mempoolSize) : BlocksKept m m' live := by
  intro b hin
  have hused : (b.addr, b.size) ∈ occupied pool live saved :=
    List.mem_append_left _ (List.mem_map_of_mem hin)
  exact hkept _ hused (hheader b hin)

theorem DataKept.used {h h' : Heap} {v : Mempool} {smalls bigs unused : List Nat}
    {used : List (Nat × Nat)} {saved : List Saved} (hkept : DataKept h h' pool)
    (hb : Body h pool v [] smalls bigs unused used saved) : UsedKept h.mem h'.mem pool used := by
  intro r hr hpool
  obtain ⟨c, hc, hin⟩ := hb.used_inChunk hr
  exact hkept r.1 r.2 hpool (hb.owned.inData (mem_of_linked hc) hin)

/-- The buffer that a function has left open is the one of the new state. -/
theorem GrowInv.of_open {ptr avail : Nat} {r : Nat × Heap} (hs : GrowInv pool s) (aligned : Bool)
    (ho : Opened r.2 pool (occupied pool s.run.live s.run.saved) s.run.saved ptr avail)
    (hdvd : aligned = true → cpuStructAlign ∣ ptr) :
    (s.open pool aligned r).opened = some ⟨ptr, avail, aligned⟩ ∧
      GrowInv pool (s.open pool aligned r) := by
  have hopened : (s.open pool aligned r).opened = some ⟨ptr, avail, aligned⟩ := by
    rw [GrowRun.open, ho.ptr_eq, ho.avail_eq]
  refine ⟨hopened, ?_, ?_, hs.saved⟩
  · rw [hopened]
    exact .opened ho
  · rw [hopened]
    intro b hin haligned
    rcases List.mem_cons.mp hin with rfl | hold
    · exact hdvd haligned
    · exact hs.live b (List.mem_append_right _ hold) haligned

theorem GrowInv.start_step (hmalloc : malloc.HandsOutFresh cpuStructAlign) (hs : GrowInv pool s)
    (hlegal : (GrowCall.start size).Legal s) :
    Yields False (s.step malloc realloc pool (.start size)) (fun s' =>
      StepSound s s' (.start size) ∧ GrowInv pool s') := by
  obtain ⟨hnone, hmax⟩ := hlegal
  have hplaced := hs.placed
  rw [hnone] at hplaced
  obtain ⟨⟨smalls, bigs, unused, hb⟩, hbig⟩ := hplaced.settled
  refine (mpStartFast_opens hmalloc hb rfl hbig (Or.inl hmax)).bind ?_
  rintro ⟨p, h⟩ ⟨avail, hsize, ho, hkept, hdvd⟩
  obtain ⟨hopened, hs'⟩ := hs.of_open (r := (p, h)) true ho (fun _ => hdvd)
  exact .ok ⟨⟨_, ⟨hopened, rfl, hsize, rfl, (hkept.used hb).blocks hs.header_apart⟩, rfl⟩, hs'⟩

theorem GrowInv.startNoalign_step (hmalloc : malloc.HandsOutFresh cpuStructAlign)
    (hs : GrowInv pool s) (hlegal : (GrowCall.startNoalign size).Legal s) :
    Yields False (s.step malloc realloc pool (.startNoalign size)) (fun s' =>
      StepSound s s' (.startNoalign size) ∧ GrowInv pool s') := by
  obtain ⟨hnone, hmax⟩ := hlegal
  have hplaced := hs.placed
  rw [hnone] at hplaced
  obtain ⟨⟨smalls, bigs, unused, hb⟩, hbig⟩ := hplaced.settled
  refine (mpStartFastNoalign_opens hmalloc hb rfl hbig (Or.inl hmax)).bind ?_
  rintro ⟨p, h⟩ ⟨avail, hsize, ho, hkept⟩
  obtain ⟨hopened, hs'⟩ := hs.of_open (r := (p, h)) false ho nofun
  exact .ok ⟨⟨_, hopened, rfl, hsize, rfl, (hkept.used hb).blocks hs.header_apart⟩, hs'⟩

/-- The open buffer of a state. -/
theorem GrowInv.buffer (hs : GrowInv pool s) (hopen : s.opened = some b) :
    Opened s.run.heap pool (occupied pool s.run.live s.run.saved) s.run.saved b.addr b.size ∧
      (b.aligned = true → cpuStructAlign ∣ b.addr) := by
  have hplaced := hs.placed
  have hlive := hs.live
  rw [hopen] at hplaced hlive
  exact ⟨hplaced.open_buffer, hlive b List.mem_cons_self⟩

/-- A function that grows the buffer, whatever pointer it returns. -/
theorem GrowInv.grown {start avail' : Nat} {h' : Heap} (hs : GrowInv pool s)
    (hopen : s.opened = some b) (returned : Nat)
    (hgrown : Grown s.run.heap pool (occupied pool s.run.live s.run.saved) s.run.saved b.addr b.size
      size (start, h') avail') :
    GrowSound s (s.open pool (s.opened.any Block.aligned) (returned, h')) size b
        ⟨start, avail', b.aligned⟩ ∧
      GrowInv pool (s.open pool (s.opened.any Block.aligned) (returned, h')) := by
  have hflag : s.opened.any Block.aligned = b.aligned := by
    rw [hopen]
    rfl
  rw [hflag]
  have hdvd := (hs.buffer hopen).2
  obtain ⟨hopened, hs'⟩ := hs.of_open (r := (returned, h')) b.aligned hgrown.opened
    (fun haligned => hgrown.aligned (hdvd haligned))
  refine ⟨⟨hopened, hgrown.enough, ?_, rfl, rfl, hgrown.kept.blocks hs.header_apart⟩, hs'⟩
  exact fun i hi => hgrown.copied i (lt_of_lt_of_le hi (Nat.min_le_left _ _))

theorem GrowInv.grow_step (hmalloc : malloc.HandsOutFresh cpuStructAlign)
    (hrealloc : realloc.HandsOutFresh cpuStructAlign) (hs : GrowInv pool s)
    (hlegal : (GrowCall.grow size).Legal s) :
    Yields False (s.step malloc realloc pool (.grow size)) (fun s' =>
      StepSound s s' (.grow size) ∧ GrowInv pool s') := by
  obtain ⟨⟨b, hopen⟩, hmax⟩ := hlegal
  refine (mpGrow_grows hmalloc hrealloc (hs.buffer hopen).1 hmax).bind ?_
  rintro ⟨p, h⟩ ⟨avail', hgrown⟩
  obtain ⟨hsound, hs'⟩ := hs.grown hopen p hgrown
  refine .ok ⟨?_, hs'⟩
  refine forall_opened hopen ?_
  exact ⟨_, hsound, rfl⟩

theorem GrowInv.expand_step (hmalloc : malloc.HandsOutFresh cpuStructAlign)
    (hrealloc : realloc.HandsOutFresh cpuStructAlign) (hs : GrowInv pool s)
    (hlegal : GrowCall.expand.Legal s) :
    Yields False (s.step malloc realloc pool .expand) (fun s' =>
      StepSound s s' .expand ∧ GrowInv pool s') := by
  obtain ⟨b, hopen, hmax⟩ := hlegal
  refine (mpExpand_grows hmalloc hrealloc (hs.buffer hopen).1 hmax).bind ?_
  rintro ⟨p, h⟩ ⟨avail', hgrown⟩
  obtain ⟨hsound, hs'⟩ := hs.grown hopen p hgrown
  refine .ok ⟨?_, hs'⟩
  refine forall_opened hopen ?_
  exact ⟨_, hsound, rfl⟩

theorem GrowInv.spread_step {p : Nat} (hmalloc : malloc.HandsOutFresh cpuStructAlign)
    (hrealloc : realloc.HandsOutFresh cpuStructAlign) (hs : GrowInv pool s)
    (hlegal : (GrowCall.spread p size).Legal s) (hfits : (GrowCall.spread p size).Fits s) :
    Yields False (s.step malloc realloc pool (.spread p size)) (fun s' =>
      StepSound s s' (.spread p size) ∧ GrowInv pool s') := by
  obtain ⟨⟨b, hopen, hlow, hhigh⟩, _⟩ := hlegal
  have hmax := hfits b hopen
  obtain ⟨off, rfl⟩ := Nat.exists_eq_add_of_le hlow
  rw [Nat.add_sub_cancel_left] at hmax
  refine (mpSpread_grows hmalloc hrealloc (hs.buffer hopen).1 (by omega) hmax).bind ?_
  rintro ⟨q, h⟩ ⟨start, avail', hq, hgrown⟩
  dsimp only at hq
  subst hq
  obtain ⟨hsound, hs'⟩ := hs.grown hopen (start + off) hgrown
  have henough : off + size ≤ avail' := hgrown.enough
  refine .ok ⟨?_, hs'⟩
  refine forall_opened hopen ?_
  refine ⟨_, { hsound with enough := Nat.zero_le _ }, ?_, ?_⟩
  · rw [Nat.add_sub_cancel_left]
    rfl
  · change start + off + size ≤ start + avail'
    omega

theorem GrowInv.fill_step {addr : Nat} {bytes : List Byte} (hs : GrowInv pool s)
    (hlegal : (GrowCall.fill addr bytes).Legal s) :
    Yields False (s.step malloc realloc pool (.fill addr bytes)) (fun s' =>
      StepSound s s' (.fill addr bytes) ∧ GrowInv pool s') := by
  obtain ⟨b, hopen, hin⟩ := hlegal
  obtain ⟨ho, _⟩ := hs.buffer hopen
  have hm := write_changesOnly s.run.heap.mem addr bytes
  refine .ok ⟨⟨rfl, rfl, read_write_self _ _ _, ?_⟩, ?_, hs.live, hs.saved⟩
  · exact (ho.write hm hin).2.blocks hs.header_apart
  · exact hs.placed.write hm ((Tip.clear ho).mono hin)

theorem GrowInv.finish_step {behind : Nat} (hs : GrowInv pool s)
    (hlegal : (GrowCall.finish behind).Legal s) :
    Yields False (s.step malloc realloc pool (.finish behind)) (fun s' =>
      StepSound s s' (.finish behind) ∧ GrowInv pool s') := by
  obtain ⟨b, hopen, hlow, hhigh⟩ := hlegal
  obtain ⟨ho, hdvd⟩ := hs.buffer hopen
  obtain ⟨k, rfl⟩ := Nat.exists_eq_add_of_le hlow
  obtain ⟨m', hend, ⟨idx, avail, ht⟩, hkept, hbytes⟩ := ho.close (show k ≤ b.size by omega)
  have hk : b.addr + k - b.addr = k := Nat.add_sub_cancel_left _ _
  have hflag : s.opened.any Block.aligned = b.aligned := by
    rw [hopen]
    rfl
  rw [GrowRun.step, hend, hflag]
  dsimp only
  rw [hk]
  refine .ok ⟨?_, .closed ht, ?_, hs.saved⟩
  · refine forall_opened hopen ?_
    rw [hk]
    refine ⟨rfl, rfl, ?_, hkept.blocks hs.header_apart⟩
    exact fun i hi => hbytes i (lt_of_lt_of_le hi (Nat.min_le_left _ _))
  · intro b₀ hin haligned
    rcases List.mem_cons.mp hin with rfl | hold
    · exact hdvd haligned
    · exact hs.live b₀ (List.mem_append_right _ hold) haligned

/-- The block that may be reallocated. -/
theorem GrowInv.last_block {ptr : Nat} (hs : GrowInv pool s) (hnone : s.opened = none)
    (hlatest : s.latest = true) (hhead : s.run.live.head?.map Block.addr = some ptr) :
    ∃ b others idx avail, s.run.live = b :: others ∧ b.addr = ptr ∧
      Tip s.run.heap pool (loadMempool s.run.heap.mem pool) (occupied pool others s.run.saved)
        s.run.saved b.size idx ptr avail := by
  have hplaced := hs.placed
  rw [hnone, hlatest] at hplaced
  generalize s.run.live = live at hplaced hhead
  cases hplaced with
  | closed tip =>
      have haddr : Block.addr _ = ptr := Option.some.inj hhead
      rw [haddr] at tip
      exact ⟨_, _, _, _, rfl, haddr, tip⟩

/-- The blocks besides the newest one. -/
theorem GrowInv.others_apart {others : List Block} (hs : GrowInv pool s)
    (hlive : s.run.live = b :: others) :
    ∀ c ∈ others, Apart c.addr c.size pool mempoolSize ∧
      (c.aligned = true → cpuStructAlign ∣ c.addr) := by
  intro c hc
  have hmem : c ∈ s.run.live := by
    rw [hlive]
    exact List.mem_cons_of_mem b hc
  exact ⟨hs.header_apart c hmem, hs.live c (List.mem_append_right _ hmem)⟩

theorem GrowInv.reopen_step {ptr : Nat} (hs : GrowInv pool s)
    (hlegal : (GrowCall.reopen ptr).Legal s) :
    Yields False (s.step malloc realloc pool (.reopen ptr)) (fun s' =>
      StepSound s s' (.reopen ptr) ∧ GrowInv pool s') := by
  obtain ⟨hnone, hlatest, hhead⟩ := hlegal
  obtain ⟨b, others, idx, avail, hlive, rfl, ht⟩ := hs.last_block hnone hlatest hhead
  have hothers := hs.others_apart hlive
  have hdvd : b.aligned = true → cpuStructAlign ∣ b.addr :=
    hs.live b (List.mem_append_right _ (by simp [hlive]))
  obtain ⟨m', hopen, hm, ho⟩ := mpOpenFast_eq ht rfl
  obtain ⟨hkept, hbytes⟩ := ht.kept_of_header hm
  have hle := ht.le
  rw [GrowRun.step, mpOpen, hopen, hlive]
  dsimp only
  rw [ho.ptr_eq, ho.avail_eq]
  refine .ok ⟨?_, .opened ho, ?_, hs.saved⟩
  · refine forall_newest hlive ?_
    refine ⟨rfl, ⟨b.addr, avail, b.aligned⟩, rfl, rfl, hle, ?_, rfl, rfl, ?_⟩
    · intro i hi
      dsimp only at hi
      exact hbytes i (by omega)
    · exact hkept.blocks (fun c hc => (hothers c hc).1)
  · intro c hin haligned
    rcases List.mem_cons.mp hin with rfl | hold
    · exact hdvd haligned
    · exact (hothers c hold).2 haligned

/-- A function that reallocates the last block. -/
theorem GrowInv.resized {others : List Block} {r : Nat × Heap} (hs : GrowInv pool s)
    (hlive : s.run.live = b :: others)
    (hr : Resized s.run.heap pool (occupied pool others s.run.saved) s.run.saved b.addr b.size size
      r) :
    ReallocSound s (s.exchange size r) size b others ∧ GrowInv pool (s.exchange size r) := by
  have hblock : (s.exchange size r).run.live = ⟨r.1, size, b.aligned⟩ :: others := by
    rw [GrowRun.exchange, hlive]
    rfl
  have hothers := hs.others_apart hlive
  obtain ⟨idx, avail, ht⟩ := hr.tip
  refine ⟨⟨hblock, hr.copied, ?_⟩, ?_, ?_, hs.saved⟩
  · exact hr.kept.blocks (fun c hc => (hothers c hc).1)
  · rw [hblock]
    exact .closed ht
  · intro c hin haligned
    rw [hblock] at hin
    rcases List.mem_cons.mp hin with rfl | hold
    · have hmem : b ∈ s.run.live := by simp [hlive]
      exact hr.aligned (hs.live b (List.mem_append_right _ hmem) haligned)
    · exact (hothers c hold).2 haligned

theorem GrowInv.realloc_step {ptr : Nat} (hmalloc : malloc.HandsOutFresh cpuStructAlign)
    (hrealloc : realloc.HandsOutFresh cpuStructAlign) (hs : GrowInv pool s)
    (hlegal : (GrowCall.realloc ptr size).Legal s) :
    Yields False (s.step malloc realloc pool (.realloc ptr size)) (fun s' =>
      StepSound s s' (.realloc ptr size) ∧ GrowInv pool s') := by
  obtain ⟨hnone, hlatest, hhead, hmax⟩ := hlegal
  obtain ⟨b, others, idx, avail, hlive, rfl, ht⟩ := hs.last_block hnone hlatest hhead
  refine (mpRealloc_resizes hmalloc hrealloc ht rfl hmax).bind ?_
  intro r hr
  obtain ⟨hsound, hs'⟩ := hs.resized hlive hr
  exact .ok ⟨forall_newest hlive hsound, hs'⟩

theorem GrowInv.reallocZero_step {ptr : Nat} (hmalloc : malloc.HandsOutFresh cpuStructAlign)
    (hrealloc : realloc.HandsOutFresh cpuStructAlign) (hs : GrowInv pool s)
    (hlegal : (GrowCall.reallocZero ptr size).Legal s) :
    Yields False (s.step malloc realloc pool (.reallocZero ptr size)) (fun s' =>
      StepSound s s' (.reallocZero ptr size) ∧ GrowInv pool s') := by
  obtain ⟨hnone, hlatest, hhead, hmax⟩ := hlegal
  obtain ⟨b, others, idx, avail, hlive, rfl, ht⟩ := hs.last_block hnone hlatest hhead
  refine (mpReallocZero_resizes hmalloc hrealloc ht rfl hmax).bind ?_
  rintro r ⟨hr, hzero⟩
  obtain ⟨hsound, hs'⟩ := hs.resized hlive hr
  refine .ok ⟨?_, hs'⟩
  refine forall_newest hlive ?_
  exact ⟨hsound, hzero⟩

/-- Every call keeps the invariant and does what it promises. -/
theorem GrowInv.step (hmalloc : malloc.HandsOutFresh cpuStructAlign)
    (hrealloc : realloc.HandsOutFresh cpuStructAlign) (hs : GrowInv pool s) (call : GrowCall)
    (hlegal : call.Legal s) (hfits : call.Fits s) :
    Yields False (s.step malloc realloc pool call) (fun s' =>
      StepSound s s' call ∧ GrowInv pool s') := by
  cases call with
  | pool call => exact (hs.pool_step hmalloc call hlegal).mono (fun s' hs' => ⟨trivial, hs'⟩)
  | start size => exact hs.start_step hmalloc hlegal
  | startNoalign size => exact hs.startNoalign_step hmalloc hlegal
  | grow size => exact hs.grow_step hmalloc hrealloc hlegal
  | expand => exact hs.expand_step hmalloc hrealloc hlegal
  | spread p size => exact hs.spread_step hmalloc hrealloc hlegal hfits
  | fill addr bytes => exact hs.fill_step hlegal
  | finish behind => exact hs.finish_step hlegal
  | reopen ptr => exact hs.reopen_step hlegal
  | realloc ptr size => exact hs.realloc_step hmalloc hrealloc hlegal
  | reallocZero ptr size => exact hs.reallocZero_step hmalloc hrealloc hlegal

/-- The counter of the open buffer is an `unsigned int`. -/
theorem mpAvail_lt (m : Mem) (pool : Nat) : mpAvail m pool < 2 ^ 32 := by
  unfold mpAvail MempoolState.free
  dsimp only
  split
  · exact (loadState_fits m pool).free0
  · exact (loadState_fits m pool).free1

/-- A call of `mp_spread` that does not fit dies or breaks its promise. -/
theorem GrowInv.spread_fails {p : Nat} {s' : GrowRun} (hs : GrowInv pool s)
    (hlegal : (GrowCall.spread p size).Legal s) (hlong : ¬ (GrowCall.spread p size).Fits s)
    (hstep : s.step malloc realloc pool (.spread p size) = .ok s') :
    ¬ StepSound s s' (.spread p size) := by
  intro hsound
  obtain ⟨⟨b, hopen, hlow, hhigh⟩, _⟩ := hlegal
  obtain ⟨off, rfl⟩ := Nat.exists_eq_add_of_le hlow
  obtain ⟨ho, _⟩ := hs.buffer hopen
  have hsum : max b.size mpSizeMax < off + size := by
    by_contra hshort
    refine hlong ?_
    refine forall_opened hopen ?_
    rw [Nat.add_sub_cancel_left]
    omega
  obtain ⟨r, hr, heq⟩ := exists_of_bind_ok hstep
  cases heq
  obtain ⟨b', hgrown, hreturned, hspace⟩ := hsound b hopen
  have hb' : some _ = some b' := hgrown.opened
  cases hb'
  rw [Nat.add_sub_cancel_left] at hreturned
  rw [hreturned] at hspace
  -- Were the promise kept, then the sum would fit the counter, and be checked.
  have hcounter := mpAvail_lt r.2.mem pool
  have hfits : off + size < 2 ^ 32 := by
    dsimp only at hspace
    omega
  have hlast := Tip.last_eq ho
  have hlt := Tip.avail_lt ho
  have hbehind : ¬ size ≤ ((loadMempool s.run.heap.mem pool).state.last
      (loadMempool s.run.heap.mem pool).index - (b.addr + off)) % 2 ^ 32 := by
    rw [← hlast, Nat.mod_eq_of_lt (by omega)]
    omega
  have hmod : (b.addr + off - b.addr + size) % 2 ^ 32 = off + size := by
    rw [Nat.add_sub_cancel_left]
    exact Nat.mod_eq_of_lt hfits
  rw [mpSpread, if_neg hbehind, mpSpreadInternal, ho.ptr_eq, hmod, mpGrowInternal,
    if_pos (by omega)] at hr
  cases hr

theorem GrowInv.not_stepSound {call : GrowCall} {s' : GrowRun} (hs : GrowInv pool s)
    (hlegal : call.Legal s) (hlong : ¬ call.Fits s)
    (hstep : s.step malloc realloc pool call = .ok s') : ¬ StepSound s s' call := by
  cases call with
  | spread p size => exact hs.spread_fails hlegal hlong hstep
  | _ => exact absurd trivial hlong

theorem GrowInv.soundRun (hmalloc : malloc.HandsOutFresh cpuStructAlign)
    (hrealloc : realloc.HandsOutFresh cpuStructAlign) (calls : List GrowCall) :
    ∀ s, GrowInv pool s → EachCall malloc realloc pool GrowCall.Legal s calls →
      EachCall malloc realloc pool GrowCall.Fits s calls →
      SoundRun malloc realloc pool s calls := by
  induction calls with
  | nil => exact fun s hs _ _ => hs.stateSound
  | cons call calls ih =>
      rintro s hs ⟨hlegal, hlegals⟩ ⟨hfits, hfitting⟩
      refine ⟨hs.stateSound, ((hs.step hmalloc hrealloc call hlegal hfits).with_eq).mono ?_⟩
      rintro s' ⟨hstep, hsound, hs'⟩
      exact ⟨hsound, ih s' hs' (hlegals s' hstep) (hfitting s' hstep)⟩

/-- Where memory is never refused, only runs that fit are sound. -/
theorem GrowInv.fits_of_soundRun (hmalloc : malloc.HandsOutFresh cpuStructAlign)
    (hrealloc : realloc.HandsOutFresh cpuStructAlign) (calls : List GrowCall) :
    ∀ s, GrowInv pool s → EachCall malloc realloc pool GrowCall.Legal s calls →
      EachCall malloc realloc pool
        (fun s call => s.step malloc realloc pool call ≠ .error .outOfMemory) s calls →
      SoundRun malloc realloc pool s calls →
      EachCall malloc realloc pool GrowCall.Fits s calls := by
  induction calls with
  | nil => exact fun _ _ _ _ _ => trivial
  | cons call calls ih =>
      rintro s hs ⟨hlegal, hlegals⟩ ⟨hserved, hserveds⟩ ⟨_, hsound⟩
      have hfits : call.Fits s := by
        by_contra hlong
        cases hstep : s.step malloc realloc pool call with
        | ok s' => exact hs.not_stepSound hlegal hlong hstep (hsound.of_ok hstep).1
        | error e =>
            rw [hstep] at hsound hserved
            cases hsound with
            | outOfMemory => exact hserved rfl
            | die hdies => exact hdies
      refine ⟨hfits, ?_⟩
      intro s' hstep
      have hs' := ((hs.step hmalloc hrealloc call hlegal hfits).of_ok hstep).2
      exact ih s' hs' (hlegals s' hstep) (hserveds s' hstep) (hsound.of_ok hstep).2

end Steps

/-- A pool that `mp_new` has made, before the first call. -/
def GrowRun.new (h : Heap) : GrowRun := ⟨⟨h, [], []⟩, false, none, 0⟩

theorem storeMempool_lastBig (m : Mem) (pool : Nat) (v : Mempool) :
    (loadMempool (storeMempool m pool v) pool).lastBig = v.lastBig % 2 ^ 64 := by
  simp (disch := (unfold Apart; omega)) only [loadMempool, storeMempool, setLastBig, setIndex,
    load_store_apart, load_store_same]
  rfl

theorem GrowInv.new {malloc : Allocator} {m : Mem} {size pool : Nat} {h : Heap}
    (hmalloc : malloc.HandsOutFresh cpuStructAlign) (hsize : size ≤ chunkSizeMax)
    (hnew : mpNew malloc ⟨m, [], 0⟩ size = .ok (pool, h)) : GrowInv pool (GrowRun.new h) := by
  have hrun : RunInv pool ⟨h, [], []⟩ := RunInv.new hmalloc hsize hnew
  have hlast : (loadMempool h.mem pool).lastBig = (pool + 40) % 2 ^ 64 := by
    rw [mpNew] at hnew
    obtain ⟨⟨chunk, h₁⟩, _, heq⟩ := exists_of_bind_ok hnew
    cases heq
    exact storeMempool_lastBig _ _ _
  exact ⟨hrun.idle hlast, hrun.live, hrun.saved⟩

/-- In every run of a pool in which all calls of `mp_spread` fit, every call returns
what it promises: a buffer or block of at least the requested size that starts with the
bytes of the old one, added zeros from `mp_realloc_zero`, the pointer at the same
offset from `mp_spread`, and no change to the other blocks. Where the allocator does
not refuse, there are no other such runs. -/
theorem growing_buffers_sound (malloc realloc : Allocator)
    (hmalloc : malloc.HandsOutFresh cpuStructAlign)
    (hrealloc : realloc.HandsOutFresh cpuStructAlign) (m : Mem) (size pool : Nat) (h : Heap)
    (hsize : size ≤ chunkSizeMax) (hnew : mpNew malloc ⟨m, [], 0⟩ size = .ok (pool, h))
    (calls : List GrowCall)
    (hlegal : EachCall malloc realloc pool GrowCall.Legal (GrowRun.new h) calls) :
    (EachCall malloc realloc pool GrowCall.Fits (GrowRun.new h) calls →
      SoundRun malloc realloc pool (GrowRun.new h) calls) ∧
    (EachCall malloc realloc pool
        (fun s call => s.step malloc realloc pool call ≠ .error .outOfMemory)
        (GrowRun.new h) calls →
      SoundRun malloc realloc pool (GrowRun.new h) calls →
      EachCall malloc realloc pool GrowCall.Fits (GrowRun.new h) calls) := by
  have hstart := GrowInv.new hmalloc hsize hnew
  exact ⟨GrowInv.soundRun hmalloc hrealloc calls _ hstart hlegal,
    GrowInv.fits_of_soundRun hmalloc hrealloc calls _ hstart hlegal⟩

/-- A block that is reallocated into a big chunk, and a buffer that outgrows the first
chunk. -/
def grownCalls : List GrowCall :=
  [.pool (.alloc 10), .reallocZero 0x10040 60, .start 10, .grow 60]

theorem grownCalls_legal :
    EachCall wideMalloc wideMalloc 0x10000 GrowCall.Legal (GrowRun.new smallPool) grownCalls := by
  refine ⟨⟨Or.inl (by decide), Or.inl rfl⟩, fun s₁ h₁ => ⟨?_, fun s₂ h₂ => ⟨?_, fun s₃ h₃ =>
    ⟨?_, fun _ _ => trivial⟩⟩⟩⟩
  · obtain ⟨run, hrun, heq⟩ := exists_of_bind_ok h₁
    cases heq
    obtain ⟨r, hr, heq⟩ := exists_of_bind_ok hrun
    cases heq
    have hptr : (mpAlloc wideMalloc smallPool 0x10000 10).toOption.map Prod.fst =
        some 0x10040 := by decide +kernel
    rw [show mpAlloc wideMalloc smallPool 0x10000 10 = .ok r from hr] at hptr
    exact ⟨rfl, rfl, hptr, by decide⟩
  · obtain ⟨r, _, heq⟩ := exists_of_bind_ok h₂
    cases heq
    exact ⟨rfl, by decide⟩
  · obtain ⟨r, _, heq⟩ := exists_of_bind_ok h₃
    cases heq
    exact ⟨⟨_, rfl⟩, by decide⟩

theorem growing_buffers_sound_grown :
    EachCall wideMalloc wideMalloc 0x10000 GrowCall.Legal (GrowRun.new smallPool) grownCalls ∧
      SoundRun wideMalloc wideMalloc 0x10000 (GrowRun.new smallPool) grownCalls := by
  refine ⟨grownCalls_legal, (growing_buffers_sound wideMalloc wideMalloc
    (stride_handsOutFresh _ _ _) (stride_handsOutFresh _ _ _) (fun _ => 0) 100 0x10000 smallPool
    (by decide) smallPool_new grownCalls grownCalls_legal).1 ?_⟩
  exact ⟨trivial, fun _ _ => ⟨trivial, fun _ _ => ⟨trivial, fun _ _ => ⟨trivial,
    fun _ _ => trivial⟩⟩⟩⟩

/-- A buffer of 2 GiB of which the last pointer is to get 2 GiB more. -/
def wrappedCalls : List GrowCall := [.start 0x80000000, .spread 0x80020000 0x80000000]

/-- The lengths before and behind the pointer add up to zero in 32 bits, so
`mp_grow_internal` does not see that the buffer would be too long, and the space
behind the returned pointer is shorter than requested. -/
theorem spread_wraps :
    EachCall wideMalloc wideMalloc 0x10000 GrowCall.Legal (GrowRun.new smallPool) wrappedCalls ∧
      ¬ SoundRun wideMalloc wideMalloc 0x10000 (GrowRun.new smallPool) wrappedCalls := by
  have hstart : ((GrowRun.new smallPool).step wideMalloc wideMalloc 0x10000
      (.start 0x80000000)).toOption.bind GrowRun.opened = some ⟨0x20000, 0x80000000, true⟩ := by
    decide +kernel
  have hspread : ((GrowRun.new smallPool).step wideMalloc wideMalloc 0x10000 (.start 0x80000000) >>=
      fun s => s.step wideMalloc wideMalloc 0x10000
        (.spread 0x80020000 0x80000000)).toOption.map (fun s => (s.returned, s.opened)) =
      some (0x80030000, some ⟨0x30000, 0xffffeff0, true⟩) := by
    decide +kernel
  obtain ⟨s₁, h₁⟩ : ∃ s₁, (GrowRun.new smallPool).step wideMalloc wideMalloc 0x10000
      (.start 0x80000000) = .ok s₁ := exists_of_isOk (by decide +kernel)
  rw [h₁] at hstart
  rw [h₁, ok_bind] at hspread
  have hopen : s₁.opened = some ⟨0x20000, 0x80000000, true⟩ := hstart
  constructor
  · refine ⟨⟨rfl, by decide⟩, fun s hs => ⟨?_, fun _ _ => trivial⟩⟩
    rw [h₁] at hs
    cases hs
    exact ⟨⟨_, hopen, by decide, by decide⟩, by decide⟩
  · rintro ⟨_, hrun⟩
    obtain ⟨_, _, hnext⟩ := hrun.of_ok h₁
    cases hstep : s₁.step wideMalloc wideMalloc 0x10000 (.spread 0x80020000 0x80000000) with
    | error e =>
        rw [hstep] at hspread
        cases hspread
    | ok s₂ =>
        rw [hstep] at hspread
        obtain ⟨hreturned, hopened⟩ := Prod.mk.inj (Option.some.inj hspread)
        obtain ⟨hpromise, _⟩ := hnext.of_ok hstep
        obtain ⟨b', hgrown, _, hspace⟩ := hpromise _ hopen
        have hb' := hgrown.opened
        rw [hopened] at hb'
        cases hb'
        rw [hreturned] at hspace
        exact absurd hspace (by decide)

end OpenAAA.Pool
