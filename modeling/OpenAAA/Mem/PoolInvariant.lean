import OpenAAA.Mem.Pool

/-!
What holds of a pool between two calls. The chunks that `malloc` handed out are
the cells of three chains. The ranges in use, which are the pool's own structure,
the saved states and the blocks of the program, lie in the data areas of the
chunks of the first two chains and share no byte; in the newest small chunk they
end where its free bytes start. Every saved state describes such a situation on
suffixes of the chains, so going back to it needs no further knowledge.

Chunks on their way from one chain to another are listed as `extra`.
-/

namespace OpenAAA.Pool

open Memory Alloc Sys Linked

def ApartRange (r s : Nat × Nat) : Prop := Apart r.1 r.2 s.1 s.2

theorem ApartRange.symm {r s : Nat × Nat} (h : ApartRange r s) : ApartRange s r :=
  Apart.symm h

instance : Std.Symm ApartRange := ⟨fun _ _ => ApartRange.symm⟩

/-- The range that `malloc` handed out for a chunk. -/
def chunkBlock (m : Mem) (chunk : Nat) : Nat × Nat :=
  (chunk - chunkSize m chunk, chunkSize m chunk + mpChunkTail)

/-- The range lies in the data area of the chunk. -/
def InChunk (m : Mem) (chunk : Nat) (r : Nat × Nat) : Prop :=
  Inside r.1 r.2 (chunk - chunkSize m chunk) (chunkSize m chunk)

/-- The live ranges of the heap are those of the given chunks. -/
structure Owned (h : Heap) (chunks : List Nat) : Prop where
  blocks : h.blocks.Perm (chunks.map (chunkBlock h.mem))
  apart : chunks.Pairwise (fun c d => ApartRange (chunkBlock h.mem c) (chunkBlock h.mem d))
  base : ∀ c ∈ chunks, chunkSize h.mem c < c
  aligned : ∀ c ∈ chunks, cpuStructAlign ∣ c
  top : ∀ c ∈ chunks, c + mpChunkTail ≤ 2 ^ 64

section Owned

variable {h : Heap} {chunks : List Nat} {c d : Nat}

theorem Owned.perm {chunks' : List Nat} (ho : Owned h chunks) (hperm : chunks.Perm chunks') :
    Owned h chunks' where
  blocks := ho.blocks.trans (hperm.map _)
  apart := (hperm.pairwise_iff (fun {_ _} => ApartRange.symm)).mp ho.apart
  base := fun c hc => ho.base c (hperm.mem_iff.mpr hc)
  aligned := fun c hc => ho.aligned c (hperm.mem_iff.mpr hc)
  top := fun c hc => ho.top c (hperm.mem_iff.mpr hc)

theorem Owned.nodup (ho : Owned h chunks) : chunks.Nodup := by
  refine ho.apart.imp ?_
  rintro c d happart rfl
  have htail := mpChunkTail_eq
  simp only [ApartRange, chunkBlock, Apart] at happart
  omega

theorem Owned.ne_zero (ho : Owned h chunks) (hc : c ∈ chunks) : c ≠ 0 := by
  have hbase := ho.base c hc
  omega

theorem Owned.blocks_apart (ho : Owned h chunks) (hc : c ∈ chunks) (hd : d ∈ chunks)
    (hne : c ≠ d) : ApartRange (chunkBlock h.mem c) (chunkBlock h.mem d) := by
  have hsymm : Std.Symm (fun c d => ApartRange (chunkBlock h.mem c) (chunkBlock h.mem d)) :=
    ⟨fun _ _ => ApartRange.symm⟩
  exact ho.apart.forall hc hd hne

/-- Ranges in the data areas of two chunks are disjoint. -/
theorem Owned.data_apart (ho : Owned h chunks) (hc : c ∈ chunks) (hd : d ∈ chunks)
    (hne : c ≠ d) {r s : Nat × Nat} (hr : InChunk h.mem c r) (hs : InChunk h.mem d s) :
    ApartRange r s := by
  have happart := ho.blocks_apart hc hd hne
  simp only [ApartRange, chunkBlock, InChunk] at *
  refine happart.mono (hr.trans ?_) (hs.trans ?_)
  · exact ⟨le_rfl, by omega⟩
  · exact ⟨le_rfl, by omega⟩

theorem Owned.trailers_apart (ho : Owned h chunks) (hc : c ∈ chunks) (hd : d ∈ chunks)
    (hne : c ≠ d) : Apart c mpChunkTail d mpChunkTail := by
  have happart := ho.blocks_apart hc hd hne
  have hcbase := ho.base c hc
  have hdbase := ho.base d hd
  simp only [ApartRange, chunkBlock] at happart
  refine happart.mono ⟨by omega, by omega⟩ ⟨by omega, by omega⟩

/-- Data and trailers are disjoint, also in one chunk. -/
theorem Owned.data_apart_trailer (ho : Owned h chunks) (hc : c ∈ chunks) (hd : d ∈ chunks)
    {r : Nat × Nat} (hr : InChunk h.mem c r) : Apart r.1 r.2 d mpChunkTail := by
  have hcbase := ho.base c hc
  have hdbase := ho.base d hd
  by_cases hne : c = d
  · subst hne
    simp only [InChunk, Inside] at hr
    unfold Apart
    omega
  · have happart := ho.blocks_apart hc hd hne
    simp only [ApartRange, chunkBlock, InChunk] at *
    refine happart.mono (hr.trans ⟨le_rfl, by omega⟩) ⟨by omega, by omega⟩

/-- Writes that keep the sizes in the trailers keep the chunks. -/
theorem Owned.congr (ho : Owned h chunks) {m' : Mem}
    (hsize : ∀ c ∈ chunks, chunkSize m' c = chunkSize h.mem c) :
    Owned { h with mem := m' } chunks := by
  have hblock : ∀ c ∈ chunks, chunkBlock m' c = chunkBlock h.mem c := by
    intro c hc
    rw [chunkBlock, chunkBlock, hsize c hc]
  constructor
  · have hmap : chunks.map (chunkBlock m') = chunks.map (chunkBlock h.mem) :=
      List.map_congr_left hblock
    change h.blocks.Perm (chunks.map (chunkBlock m'))
    rw [hmap]
    exact ho.blocks
  · refine List.Pairwise.imp_of_mem ?_ ho.apart
    intro c d hc hd happart
    change ApartRange (chunkBlock m' c) (chunkBlock m' d)
    rwa [hblock c hc, hblock d hd]
  · intro c hc
    change chunkSize m' c < c
    rw [hsize c hc]
    exact ho.base c hc
  · exact ho.aligned
  · exact ho.top

end Owned

/-- A block that the program holds; `aligned` if a function promised that. -/
structure Block where
  addr : Nat
  size : Nat
  aligned : Bool
deriving DecidableEq, Repr

/-- A state on the push stack: where it is saved, its value, and the blocks that
were held when it was saved. -/
structure Saved where
  addr : Nat
  state : MempoolState
  live : List Block

/-- The ranges in use: the program's blocks, the saved states and the pool. -/
def occupied (pool : Nat) (live : List Block) (saved : List Saved) : List (Nat × Nat) :=
  live.map (fun b => (b.addr, b.size)) ++
    (saved.map (fun s => (s.addr, mempoolStateSize)) ++ [(pool, mempoolSize)])

/-- The address of the newest saved state, null if there is none. -/
def savedNext (saved : List Saved) : Nat :=
  (saved.head?.map Saved.addr).getD 0

/-- The ranges in use fit a pool state with the given chains: they are disjoint,
and each one lies in the used part of the newest small chunk or in one of the
other chunks. -/
structure Level (m : Mem) (size : Nat) (st : MempoolState) (smalls bigs : List Nat)
    (used : List (Nat × Nat)) : Prop where
  last0 : smalls.head? = some st.last0
  last1 : st.last1 = bigs.headD 0
  free0 : st.free0 ≤ size
  placed : ∀ r ∈ used, Inside r.1 r.2 (st.last0 - size) (size - st.free0) ∨
    ∃ c ∈ smalls.tail ++ bigs, InChunk m c r
  apart : used.Pairwise ApartRange

/-- Every saved state can be gone back to: it is still in memory and fits
suffixes of the chains. -/
def SavedLevels (m : Mem) (pool size : Nat) : List Nat → List Nat → List Saved → Prop
  | _, _, [] => True
  | smalls, bigs, s :: saved => ∃ smalls' bigs', smalls' <:+ smalls ∧ bigs' <:+ bigs ∧
      loadState m s.addr = s.state ∧ s.state.next = savedNext saved ∧
      Level m size s.state smalls' bigs' (occupied pool s.live saved) ∧
      SavedLevels m pool size smalls' bigs' saved

/-- The pool with the header `v`. The header is given apart from the memory,
where its fields are written one by one. -/
structure Body (h : Heap) (pool : Nat) (v : Mempool) (extra smalls bigs unused : List Nat)
    (used : List (Nat × Nat)) (saved : List Saved) : Prop where
  owned : Owned h (extra ++ (smalls ++ (bigs ++ unused)))
  size_min : mempoolSize ≤ v.chunkSize
  size_max : v.chunkSize < 2 ^ 32
  size_aligned : cpuStructAlign ∣ v.chunkSize
  threshold : v.threshold = v.chunkSize / 2
  small : ∀ c ∈ smalls ++ unused, chunkSize h.mem c = v.chunkSize
  bottom : smalls.getLast? = some (pool + v.chunkSize)
  smallChain : Chain (chunkNext h.mem) 0 v.state.last0 smalls
  bigChain : Chain (chunkNext h.mem) 0 v.state.last1 bigs
  unusedChain : Chain (chunkNext h.mem) 0 v.unused unused
  level : Level h.mem v.chunkSize v.state smalls bigs used
  header_used : (pool, mempoolSize) ∈ used
  saved_used : ∀ s ∈ saved, (s.addr, mempoolStateSize) ∈ used
  next : v.state.next = savedNext saved
  levels : SavedLevels h.mem pool v.chunkSize smalls bigs saved

section Members

variable {extra smalls bigs unused : List Nat} {c : Nat}

theorem mem_of_linked (hc : c ∈ smalls ++ bigs) :
    c ∈ extra ++ (smalls ++ (bigs ++ unused)) := by
  simp only [List.mem_append] at hc ⊢
  tauto

theorem mem_of_small (hc : c ∈ smalls ++ unused) :
    c ∈ extra ++ (smalls ++ (bigs ++ unused)) := by
  simp only [List.mem_append] at hc ⊢
  tauto

theorem mem_append_cons {front back : List Nat} (d : Nat) (hc : c ∈ front ++ back) :
    c ∈ front ++ d :: back := by
  simp only [List.mem_append, List.mem_cons] at hc ⊢
  tauto

theorem mem_of_recycled {d : Nat} (hd : d ∈ c :: extra ++ (smalls ++ (bigs ++ unused))) :
    d ∈ extra ++ (smalls ++ (bigs ++ c :: unused)) := by
  simp only [List.cons_append, List.mem_cons, List.mem_append] at hd ⊢
  tauto

theorem mem_of_tail (hc : c ∈ smalls.tail ++ bigs) : c ∈ smalls ++ bigs := by
  rcases List.mem_append.mp hc with hc | hc
  · exact List.mem_append_left _ (List.mem_of_mem_tail hc)
  · exact List.mem_append_right _ hc

end Members

section Levels

variable {m m' : Mem} {pool size : Nat} {st : MempoolState} {smalls bigs : List Nat}
  {used : List (Nat × Nat)} {saved : List Saved}

theorem InChunk.congr {c : Nat} {r : Nat × Nat} (hr : InChunk m c r)
    (hsize : chunkSize m' c = chunkSize m c) : InChunk m' c r := by
  rwa [InChunk, hsize]

theorem Level.congr (hl : Level m size st smalls bigs used)
    (hsize : ∀ c ∈ smalls ++ bigs, chunkSize m' c = chunkSize m c) :
    Level m' size st smalls bigs used := by
  refine ⟨hl.last0, hl.last1, hl.free0, ?_, hl.apart⟩
  intro r hr
  rcases hl.placed r hr with htop | ⟨c, hc, hin⟩
  · exact Or.inl htop
  · exact Or.inr ⟨c, hc, hin.congr (hsize c (mem_of_tail hc))⟩

theorem Level.perm {used' : List (Nat × Nat)} (hl : Level m size st smalls bigs used)
    (hperm : used.Perm used') : Level m size st smalls bigs used' where
  last0 := hl.last0
  last1 := hl.last1
  free0 := hl.free0
  placed := fun r hr => hl.placed r (hperm.mem_iff.mpr hr)
  apart := (hperm.pairwise_iff (fun {_ _} => ApartRange.symm)).mp hl.apart

/-- Every range in use lies in the data area of some chunk. -/
theorem Level.inChunk (hl : Level m size st smalls bigs used)
    (hsmall : ∀ c ∈ smalls, chunkSize m c = size) {r : Nat × Nat} (hr : r ∈ used) :
    ∃ c ∈ smalls ++ bigs, InChunk m c r := by
  obtain ⟨rest, hsmalls⟩ : ∃ rest, smalls = st.last0 :: rest :=
    List.head?_eq_some_iff.mp hl.last0
  rcases hl.placed r hr with htop | ⟨c, hc, hin⟩
  · have hmem : st.last0 ∈ smalls := by simp [hsmalls]
    refine ⟨st.last0, List.mem_append_left _ hmem, ?_⟩
    rw [InChunk, hsmall _ hmem]
    exact htop.trans ⟨le_rfl, by omega⟩
  · exact ⟨c, mem_of_tail hc, hin⟩

theorem SavedLevels.congr (hl : SavedLevels m pool size smalls bigs saved)
    (hsize : ∀ c ∈ smalls ++ bigs, chunkSize m' c = chunkSize m c)
    (hsaved : ∀ s ∈ saved, loadState m' s.addr = loadState m s.addr) :
    SavedLevels m' pool size smalls bigs saved := by
  induction saved generalizing smalls bigs with
  | nil => trivial
  | cons s saved ih =>
      obtain ⟨smalls', bigs', hsmalls, hbigs, hstate, hnext, hlevel, hrest⟩ := hl
      have hsize' : ∀ c ∈ smalls' ++ bigs', chunkSize m' c = chunkSize m c := by
        intro c hc
        apply hsize
        rcases List.mem_append.mp hc with hc | hc
        · exact List.mem_append_left _ (hsmalls.subset hc)
        · exact List.mem_append_right _ (hbigs.subset hc)
      refine ⟨smalls', bigs', hsmalls, hbigs, ?_, hnext, hlevel.congr hsize', ?_⟩
      · rw [hsaved s (by simp), hstate]
      · exact ih hrest hsize' (fun s hs => hsaved s (by simp [hs]))

/-- The saved states are in memory. -/
theorem SavedLevels.state_eq (hl : SavedLevels m pool size smalls bigs saved) :
    ∀ s ∈ saved, loadState m s.addr = s.state := by
  induction saved generalizing smalls bigs with
  | nil =>
      intro s hs
      cases hs
  | cons s saved ih =>
      obtain ⟨smalls', bigs', _, _, hstate, _, _, hrest⟩ := hl
      intro t ht
      rcases List.mem_cons.mp ht with rfl | hold
      · exact hstate
      · exact ih hrest t hold

theorem SavedLevels.mono {smalls' bigs' : List Nat}
    (hl : SavedLevels m pool size smalls bigs saved) (hsmalls : smalls <:+ smalls')
    (hbigs : bigs <:+ bigs') : SavedLevels m pool size smalls' bigs' saved := by
  cases saved with
  | nil => trivial
  | cons s saved =>
      obtain ⟨front, back, hfront, hback, hrest⟩ := hl
      exact ⟨front, back, hfront.trans hsmalls, hback.trans hbigs, hrest⟩

end Levels

section Body

variable {h : Heap} {pool : Nat} {v : Mempool} {extra smalls bigs unused : List Nat}
  {used : List (Nat × Nat)} {saved : List Saved} {m' : Mem} {a n c : Nat}

theorem Body.used_inChunk (hb : Body h pool v extra smalls bigs unused used saved)
    {r : Nat × Nat} (hr : r ∈ used) : ∃ c ∈ smalls ++ bigs, InChunk h.mem c r :=
  hb.level.inChunk (fun c hc => hb.small c (List.mem_append_left _ hc)) hr

theorem Body.used_apart_trailer (hb : Body h pool v extra smalls bigs unused used saved)
    {r : Nat × Nat} (hr : r ∈ used) (hc : c ∈ extra ++ (smalls ++ (bigs ++ unused))) :
    Apart r.1 r.2 c mpChunkTail := by
  obtain ⟨d, hd, hin⟩ := hb.used_inChunk hr
  exact hb.owned.data_apart_trailer (mem_of_linked hd) hc hin

/-- The pool's structure and the saved states are different ranges. -/
theorem Body.header_apart_saved (hb : Body h pool v extra smalls bigs unused used saved)
    {s : Saved} (hs : s ∈ saved) : Apart pool mempoolSize s.addr mempoolStateSize := by
  have hne : (pool, mempoolSize) ≠ (s.addr, mempoolStateSize) := by
    intro heq
    cases (Prod.mk.inj heq).2
  exact hb.level.apart.forall hb.header_used (hb.saved_used s hs) hne

/-- All that the invariant reads from memory: the sizes of the chunks, the links
of the chains and the saved states. -/
theorem Body.congr (hb : Body h pool v extra smalls bigs unused used saved)
    (hsize : ∀ c ∈ extra ++ (smalls ++ (bigs ++ unused)), chunkSize m' c = chunkSize h.mem c)
    (hnext : ∀ c ∈ smalls ++ (bigs ++ unused), chunkNext m' c = chunkNext h.mem c)
    (hsaved : ∀ s ∈ saved, loadState m' s.addr = loadState h.mem s.addr) :
    Body { h with mem := m' } pool v extra smalls bigs unused used saved := by
  have hlevels : ∀ c ∈ smalls ++ bigs, chunkSize m' c = chunkSize h.mem c :=
    fun c hc => hsize c (mem_of_linked hc)
  constructor
  · exact hb.owned.congr hsize
  · exact hb.size_min
  · exact hb.size_max
  · exact hb.size_aligned
  · exact hb.threshold
  · exact fun c hc => (hsize c (mem_of_small hc)).trans (hb.small c hc)
  · exact hb.bottom
  · exact hb.smallChain.congr (fun c hc => hnext c (by simp [hc]))
  · exact hb.bigChain.congr (fun c hc => hnext c (by simp [hc]))
  · exact hb.unusedChain.congr (fun c hc => hnext c (by simp [hc]))
  · exact hb.level.congr hlevels
  · exact hb.header_used
  · exact hb.saved_used
  · exact hb.next
  · exact hb.levels.congr hlevels hsaved

/-- Writes that miss the trailers and the saved states. -/
theorem Body.write (hb : Body h pool v extra smalls bigs unused used saved)
    (hm : ChangesOnly h.mem m' a n)
    (htrailer : ∀ c ∈ extra ++ (smalls ++ (bigs ++ unused)), Apart a n c mpChunkTail)
    (hsaved : ∀ s ∈ saved, Apart a n s.addr mempoolStateSize) :
    Body { h with mem := m' } pool v extra smalls bigs unused used saved := by
  apply hb.congr
  · intro c hc
    exact (trailer_of_agree (hm.agree (htrailer c hc))).2
  · intro c hc
    exact (trailer_of_agree (hm.agree (htrailer c (List.mem_append_right _ hc)))).1
  · intro s hs
    exact loadState_of_agree (hm.agree (hsaved s hs))

/-- Writes into the pool's own structure. -/
theorem Body.header_write (hb : Body h pool v extra smalls bigs unused used saved)
    (hm : ChangesOnly h.mem m' pool mempoolSize) :
    Body { h with mem := m' } pool v extra smalls bigs unused used saved ∧
      (∀ c ∈ extra ++ (smalls ++ (bigs ++ unused)), chunkSize m' c = chunkSize h.mem c) ∧
      ∀ c ∈ extra ++ (smalls ++ (bigs ++ unused)), chunkNext m' c = chunkNext h.mem c := by
  have htrailer : ∀ c ∈ extra ++ (smalls ++ (bigs ++ unused)),
      Apart pool mempoolSize c mpChunkTail :=
    fun c hc => hb.used_apart_trailer hb.header_used hc
  refine ⟨?_, ?_, ?_⟩
  · exact hb.write hm htrailer (fun s hs => hb.header_apart_saved hs)
  · intro c hc
    exact (trailer_of_agree (hm.agree (htrailer c hc))).2
  · intro c hc
    exact (trailer_of_agree (hm.agree (htrailer c hc))).1

/-- The link of a chunk that is in no chain. -/
theorem Body.extra_link (hb : Body h pool v extra smalls bigs unused used saved)
    (hc : c ∈ extra) (next : Nat) :
    Body { h with mem := setChunkNext h.mem c next } pool v extra smalls bigs unused used saved ∧
      loadMempool (setChunkNext h.mem c next) pool = loadMempool h.mem pool ∧
      (∀ d ∈ extra ++ (smalls ++ (bigs ++ unused)),
        chunkSize (setChunkNext h.mem c next) d = chunkSize h.mem d) ∧
      ∀ d ∈ extra ++ (smalls ++ (bigs ++ unused)), c ≠ d →
        chunkNext (setChunkNext h.mem c next) d = chunkNext h.mem d := by
  have hall : c ∈ extra ++ (smalls ++ (bigs ++ unused)) := List.mem_append_left _ hc
  have hm : ChangesOnly h.mem (setChunkNext h.mem c next) c mpChunkTail :=
    field_changesOnly h.mem c 0 8 next (by decide)
  have hother : ∀ d ∈ extra ++ (smalls ++ (bigs ++ unused)), c ≠ d →
      chunkNext (setChunkNext h.mem c next) d = chunkNext h.mem d ∧
        chunkSize (setChunkNext h.mem c next) d = chunkSize h.mem d :=
    fun d hd hne => trailer_of_agree (hm.agree (hb.owned.trailers_apart hall hd hne))
  have hsize : ∀ d ∈ extra ++ (smalls ++ (bigs ++ unused)),
      chunkSize (setChunkNext h.mem c next) d = chunkSize h.mem d := by
    intro d hd
    by_cases hne : c = d
    · subst hne
      exact chunkSize_setChunkNext _ _ _
    · exact (hother d hd hne).2
  refine ⟨hb.congr hsize ?_ ?_, ?_, hsize, fun d hd hne => (hother d hd hne).1⟩
  · intro d hd
    refine (hother d (List.mem_append_right _ hd) ?_).1
    rintro rfl
    exact List.disjoint_of_nodup_append hb.owned.nodup hc hd
  · intro s hs
    exact loadState_of_agree (hm.agree
      (hb.used_apart_trailer (hb.saved_used s hs) hall).symm)
  · exact loadMempool_of_agree (hm.agree (hb.used_apart_trailer hb.header_used hall).symm)

end Body

end OpenAAA.Pool
