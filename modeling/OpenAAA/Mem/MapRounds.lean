import OpenAAA.Mem.PageRuns

/-!
Closing and reopening a page map. Whatever was allocated, freed or written
before, the first `mmap_open` after a close finds a valid header, opens the file
and wipes the header; the second one finds the wiped header and initialises the
file again. Only the trivial history without a reopening keeps the map.
-/

namespace OpenAAA.Paging

open Memory Sys

def PageState.run (map : Nat) (s : PageState) (calls : List PageCall) : PageState :=
  calls.foldl (PageState.step map) s

/-- The world after `vm_area_init` and a sequence of calls on its map. -/
def areaAfter (w : World) (map shift total : Nat) (calls : List PageCall) : World :=
  let area := (vmAreaInit w map shift total).1
  { area with mem := (PageState.run map ⟨area.mem, []⟩ calls).mem }

/-- One `mmap_close` and `mmap_open`: the arguments of the latter and the
addresses its two calls of `mmap` would get. -/
structure Round where
  addr : Nat
  addr' : Nat
  shift : Nat
  total : Nat

/-- The reopened map shows what the closed one did. -/
structure SameMap (m : Mem) (map : Nat) (m' : Mem) (map' : Nat) : Prop where
  magic : (loadPagemap m' map').magic = (loadPagemap m map).magic
  size : (loadPagemap m' map').size = (loadPagemap m map).size
  total : (loadPagemap m' map').total = (loadPagemap m map).total
  shift : (loadPagemap m' map').shift = (loadPagemap m map).shift
  avail : (loadPagemap m' map').avail = (loadPagemap m map).avail
  list : (loadPagemap m' map').list = (loadPagemap m map).list
  pages : ∀ i, cpuPageSize ≤ i → i < (loadPagemap m map).size → m' (map' + i) = m (map + i)

/-- Every round reopens the file through `vm_area_open` and keeps the map. -/
def RoundsKeep : World → Nat → List Round → Prop
  | _, _, [] => True
  | w, map, r :: rounds =>
      let closed := (mmapClose w map).2
      let opened := (mmapOpen closed r.addr r.addr' r.shift r.total).1
      (∃ map', (vmAreaOpen closed r.addr).2 = some map' ∧
        SameMap w.mem map opened.mem map' ∧ RoundsKeep opened map' rounds)

theorem vmAreaSize_dvd (shift total : Nat) : cpuPageSize ∣ vmAreaSize shift total := by
  obtain ⟨pages, hpages⟩ := alignTo_dvd 32 (2 ^ shift % 2 ^ 32 * total % 2 ^ 32) cpuPageSize
  rw [vmAreaSize, hpages]
  unfold cpuPageSize
  omega

theorem cpuPageSize_le_vmAreaSize {shift total : Nat} (h : vmAreaSize shift total ≠ 0) :
    cpuPageSize ≤ vmAreaSize shift total :=
  Nat.le_of_dvd (Nat.pos_of_ne_zero h) (vmAreaSize_dvd shift total)

section Rounds

variable {w : World} {map shift total : Nat}

/-- What `vm_area_init` leaves the operating system with. -/
theorem vmAreaInit_mapping (hcreated : (vmAreaInit w map shift total).2 = some map) :
    vmAreaSize shift total ≠ 0 ∧
      (∃ file, (vmAreaInit w map shift total).1.file = some file) ∧
      (vmAreaInit w map shift total).1.mapping = some (map, vmAreaSize shift total) := by
  simp only [vmAreaInit] at *
  split at hcreated
  · cases hcreated
  · next hsize =>
      simp only [if_neg hsize]
      exact ⟨hsize, ⟨_, rfl⟩, trivial⟩

/-- Calls on the map leave the operating system alone. -/
theorem areaAfter_mapping (calls : List PageCall)
    (hcreated : (vmAreaInit w map shift total).2 = some map) :
    vmAreaSize shift total ≠ 0 ∧
      (∃ file, (areaAfter w map shift total calls).file = some file) ∧
      (areaAfter w map shift total calls).mapping = some (map, vmAreaSize shift total) := by
  obtain ⟨hsize, ⟨file, hfile⟩, hmapping⟩ := vmAreaInit_mapping hcreated
  refine ⟨hsize, ⟨file, ?_⟩, ?_⟩
  · simp only [areaAfter, hfile]
  · simp only [areaAfter, hmapping]

/-- A closed file holds the bytes of its mapping. -/
theorem mmapClose_file {file : File} {size : Nat} (hfile : w.file = some file)
    (hmapping : w.mapping = some (map, size)) :
    (mmapClose w map).2.file = some ⟨size, fun i => w.mem (map + i)⟩ := by
  have hpersist : w.persist.file = some ⟨size, fun i => w.mem (map + i)⟩ := by
    rw [World.persist, hfile, hmapping]
  rw [mmapClose]
  split
  · exact hpersist
  · exact hpersist

/-- The header that the next `vm_area_open` validates is the one that was
closed. -/
theorem loadPagemap_mapFile (m : Mem) {addr size : Nat} (hsize : cpuPageSize ≤ size) :
    loadPagemap (mapFile m addr ⟨size, fun i => w.mem (map + i)⟩) addr =
      loadPagemap w.mem map := by
  apply loadPagemap_congr
  intro i hi
  unfold pagemapSize cpuPageSize at *
  have hround : size ≤ roundUp size 4096 := by
    unfold roundUp
    omega
  have hin : addr ≤ addr + i ∧ addr + i < addr + roundUp size 4096 := by omega
  have hbyte : i < size := by omega
  simp only [mapFile, cpuPageSize, if_pos hin, Nat.add_sub_cancel_left, if_pos hbyte]

/-- A valid file is opened, and its header replaced by one that is zero but for
the page pointer. -/
theorem vmAreaOpen_valid {addr : Nat} {file : File} (hfile : w.file = some file)
    (hne : file.size ≠ 0)
    (hvalid : vmAreaValidate (mapFile w.mem addr file) addr file.size = false) :
    vmAreaOpen w addr = ({ w with
      mem := storePagemap (mapFile w.mem addr file) addr { page := addr + cpuPageSize }
      mapping := some (addr, file.size) }, some addr) := by
  simp only [vmAreaOpen, hfile, if_neg hne, hvalid]
  rfl

/-- Success means that the file was valid. -/
theorem vmAreaOpen_some {addr map' : Nat} {file : File} (hfile : w.file = some file)
    (hopened : (vmAreaOpen w addr).2 = some map') :
    file.size ≠ 0 ∧ vmAreaValidate (mapFile w.mem addr file) addr file.size = false := by
  simp only [vmAreaOpen, hfile] at hopened
  split at hopened
  · cases hopened
  · next hne =>
      split at hopened
      · cases hopened
      · next hvalid => exact ⟨hne, by simpa using hvalid⟩

theorem magic_of_validate {m : Mem} {fileSize : Nat}
    (hvalid : vmAreaValidate m map fileSize = false) :
    (loadPagemap m map).magic = pageHdrMagic := by
  by_contra hne
  simp [vmAreaValidate, hne] at hvalid

theorem magic_wiped (m : Mem) (addr page : Nat) :
    (loadPagemap (storePagemap m addr { page := page }) addr).magic = 0 := by
  simp (disch := (unfold Apart; omega)) only [loadPagemap, storePagemap, setMapList,
    setMapAvail, load_store_apart, load_store_same]
  rfl

/-- A first reopening either fails or brings a header back that was not closed. -/
theorem not_roundsKeep_cons (calls : List PageCall) (r : Round) (rounds : List Round)
    (hcreated : (vmAreaInit w map shift total).2 = some map) :
    ¬ RoundsKeep (areaAfter w map shift total calls) map (r :: rounds) := by
  obtain ⟨hsize, ⟨file, hfile⟩, hmapping⟩ := areaAfter_mapping calls hcreated
  rintro ⟨map', hopened, hsame, _⟩
  have hclosed : (mmapClose (areaAfter w map shift total calls) map).2.file =
      some ⟨vmAreaSize shift total, fun i => (areaAfter w map shift total calls).mem (map + i)⟩ :=
    mmapClose_file hfile hmapping
  obtain ⟨hne, hvalid⟩ := vmAreaOpen_some hclosed hopened
  have hcall := vmAreaOpen_valid hclosed hne hvalid
  have hbefore := magic_of_validate hvalid
  rw [loadPagemap_mapFile _ (cpuPageSize_le_vmAreaSize hsize)] at hbefore
  rw [hcall] at hopened
  obtain rfl := Option.some.inj hopened
  have hmagic := hsame.magic
  rw [mmapOpen, hcall, magic_wiped, hbefore] at hmagic
  cases hmagic

/-- For every area that `vm_area_init` created, every sequence of calls on it and
every number of reopenings, the map is kept if and only if it is not reopened. -/
theorem roundsKeep_iff (w : World) (map shift total : Nat) (calls : List PageCall)
    (rounds : List Round) (hcreated : (vmAreaInit w map shift total).2 = some map) :
    RoundsKeep (areaAfter w map shift total calls) map rounds ↔ rounds = [] := by
  constructor
  · intro hkeep
    cases rounds with
    | nil => rfl
    | cons r rounds => exact absurd hkeep (not_roundsKeep_cons calls r rounds hcreated)
  · rintro rfl
    trivial

/-- The stored header as `vm_area_init` wrote it, up to the free list. -/
structure HeaderKept (map shift total : Nat) (s : PageState) : Prop where
  magic : (loadPagemap s.mem map).magic = pageHdrMagic
  size : (loadPagemap s.mem map).size = vmAreaSize shift total
  total_eq : (loadPagemap s.mem map).total = total
  shift_eq : (loadPagemap s.mem map).shift = shift
  page : (loadPagemap s.mem map).page = map + cpuPageSize
  live : ∀ page ∈ s.live, map + cpuPageSize ≤ page

/-- Writes behind the first 4096 bytes of the area miss the header. -/
theorem loadPagemap_store_behind (m : Mem) {map a : Nat} (n v : Nat)
    (ha : map + cpuPageSize ≤ a) : loadPagemap (store m a n v) map = loadPagemap m map := by
  apply loadPagemap_of_agree
  apply store_agree
  unfold Apart pagemapSize
  unfold cpuPageSize at ha
  omega

theorem loadPagemap_pageForEachFrom {map p : Nat} (stop fuel : Nat) (m : Mem)
    (hp : map + cpuPageSize ≤ p) :
    loadPagemap (pageForEachFrom map (pageInit map) stop fuel m p) map = loadPagemap m map := by
  induction fuel generalizing m p with
  | zero => rfl
  | succ fuel ih =>
      have hbody : loadPagemap (pageInit map m p) map = loadPagemap m map := by
        apply loadPagemap_of_agree
        apply storePage_agree
        unfold Apart pagemapSize
        unfold cpuPageSize at hp
        omega
      rw [pageForEachFrom]
      split
      · rw [ih _ (by omega), hbody]
      · rfl

theorem HeaderKept.init (hcreated : (vmAreaInit w map shift total).2 = some map)
    (hshift : shift < 2 ^ 32) (htotal : total < 2 ^ 32) (haddr : map + cpuPageSize < 2 ^ 64) :
    HeaderKept map shift total ⟨(vmAreaInit w map shift total).1.mem, []⟩ := by
  obtain ⟨hsize, _, _⟩ := vmAreaInit_mapping hcreated
  have hfits := areaHeader_fits hshift htotal haddr
  have hmap : loadPagemap (vmAreaInit w map shift total).1.mem map =
      areaHeader map shift total := by
    rw [areaHeader] at *
    simp only [vmAreaInit, if_neg hsize, pageForEach]
    rw [loadPagemap_pageForEachFrom]
    · exact loadPagemap_storePagemap _ _ hfits
    · rw [getPage, loadPagemap_storePagemap _ _ hfits]
      exact Nat.le_add_right _ _
  refine ⟨?_, ?_, ?_, ?_, ?_, fun _ hlive => absurd hlive List.not_mem_nil⟩
  · rw [hmap]
    rfl
  · rw [hmap]
    rfl
  · rw [hmap]
    rfl
  · rw [hmap]
    rfl
  · rw [hmap]
    rfl

/-- A change of the header in `list` and `avail` at most. -/
theorem HeaderKept.update {s : PageState} (h : HeaderKept map shift total s) (s' : PageState)
    {list avail : Nat} (hmap : loadPagemap s'.mem map =
      { loadPagemap s.mem map with list := list, avail := avail })
    (hlive : ∀ page ∈ s'.live, map + cpuPageSize ≤ page) : HeaderKept map shift total s' := by
  refine ⟨?_, ?_, ?_, ?_, ?_, hlive⟩
  · rw [hmap]
    exact h.magic
  · rw [hmap]
    exact h.size
  · rw [hmap]
    exact h.total_eq
  · rw [hmap]
    exact h.shift_eq
  · rw [hmap]
    exact h.page

/-- Pages lie behind the header. -/
theorem HeaderKept.le_getPageSafe {s : PageState} (h : HeaderKept map shift total s)
    {i page : Nat} (hpage : getPageSafe s.mem map i = some page) : map + cpuPageSize ≤ page := by
  rw [getPageSafe] at hpage
  split at hpage
  · cases hpage
  · rw [h.page] at hpage
    rw [← Option.some.inj hpage]
    exact Nat.le_add_right _ _

theorem HeaderKept.step {s : PageState} (h : HeaderKept map shift total s) (call : PageCall)
    (hlegal : call.Legal map s) : HeaderKept map shift total (s.step map call) := by
  cases call with
  | alloc =>
      rw [PageState.step]
      cases hpage : getPageSafe s.mem map (loadPagemap s.mem map).list with
      | none =>
          simp only [pageAllocSafe, hpage]
          exact h
      | some page =>
          have hbehind := h.le_getPageSafe hpage
          simp only [pageAllocSafe, hpage]
          refine h.update _ (by
            rw [loadPagemap_setMapAvail, loadPagemap_setMapList, setPageHdr,
              loadPagemap_store_behind _ _ _ hbehind]) ?_
          intro other hother
          rcases List.mem_cons.mp hother with rfl | hold
          · exact hbehind
          · exact h.live other hold
  | free page =>
      have hbehind : map + cpuPageSize ≤ page := h.live page hlegal
      rw [PageState.step]
      refine h.update _ (by
        rw [pageFree, loadPagemap_setMapAvail, loadPagemap_setMapList, setPageAvail,
          loadPagemap_store_behind _ _ _ (by omega), setPageHdr,
          loadPagemap_store_behind _ _ _ hbehind]) ?_
      exact fun other hother => h.live other (List.mem_of_mem_erase hother)
  | write page off bytes =>
      have hbehind : map + cpuPageSize ≤ page := h.live page hlegal.1
      rw [PageState.step]
      have hapart : Apart (page + off) bytes.length map pagemapSize := by
        unfold Apart pagemapSize
        unfold cpuPageSize at hbehind
        omega
      exact h.update _ (loadPagemap_of_agree (write_agree hapart)) h.live

theorem HeaderKept.run (calls : List PageCall) :
    ∀ s, HeaderKept map shift total s → LegalRun map s calls →
      HeaderKept map shift total (s.run map calls) := by
  induction calls with
  | nil => exact fun _ h _ => h
  | cons call calls ih =>
      rintro s h ⟨hlegal, hrest⟩
      exact ih _ (h.step call hlegal) hrest

/-- A mapped file with a valid header is opened after its close. It is the same
file with the same pages, and its header is gone. -/
theorem vmAreaOpen_closed {file : File} {size : Nat} (hfile : w.file = some file)
    (hmapping : w.mapping = some (map, size)) (hpage : cpuPageSize ≤ size)
    (hvalid : vmAreaValidate w.mem map size = false) (addr : Nat) :
    ∃ opened, vmAreaOpen (mmapClose w map).2 addr = (opened, some addr) ∧
      opened.file = some ⟨size, fun i => w.mem (map + i)⟩ ∧
      opened.mapping = some (addr, size) ∧ (loadPagemap opened.mem addr).magic = 0 ∧
      ∀ i, cpuPageSize ≤ i → i < size → opened.mem (addr + i) = w.mem (map + i) := by
  have hclosed := mmapClose_file hfile hmapping
  have hne : size ≠ 0 := by
    unfold cpuPageSize at hpage
    omega
  have hstill : vmAreaValidate (mapFile (mmapClose w map).2.mem addr
      ⟨size, fun i => w.mem (map + i)⟩) addr size = false := by
    rw [vmAreaValidate, loadPagemap_mapFile _ hpage]
    exact hvalid
  generalize (mmapClose w map).2 = closed at hclosed hstill ⊢
  refine ⟨_, vmAreaOpen_valid hclosed hne hstill, hclosed, rfl, magic_wiped _ _ _, ?_⟩
  intro i hlow hhigh
  have hround : size ≤ roundUp size cpuPageSize := by
    unfold roundUp cpuPageSize
    omega
  have hin : addr ≤ addr + i ∧ addr + i < addr + roundUp size cpuPageSize := by omega
  have happart : Apart addr pagemapSize (addr + i) 1 := by
    unfold Apart pagemapSize
    unfold cpuPageSize at hlow
    omega
  refine (storePagemap_agree happart (addr + i) (le_refl _) (by omega)).trans ?_
  simp only [mapFile, if_pos hin, Nat.add_sub_cancel_left, if_pos hhigh]

/-- A mapped file whose header is gone is not opened after its close. -/
theorem vmAreaOpen_closed_wiped {file : File} {size : Nat} (hfile : w.file = some file)
    (hmapping : w.mapping = some (map, size)) (hpage : cpuPageSize ≤ size)
    (hwiped : (loadPagemap w.mem map).magic = 0) (addr : Nat) :
    ∃ refused, vmAreaOpen (mmapClose w map).2 addr = (refused, none) := by
  have hclosed := mmapClose_file hfile hmapping
  generalize (mmapClose w map).2 = closed at hclosed ⊢
  cases hopened : vmAreaOpen closed addr with
  | mk refused map' =>
      cases map' with
      | none => exact ⟨refused, rfl⟩
      | some map' =>
          obtain ⟨_, hvalid⟩ := vmAreaOpen_some hclosed (congrArg Prod.snd hopened)
          have hmagic := magic_of_validate hvalid
          rw [loadPagemap_mapFile _ hpage, hwiped] at hmagic
          cases hmagic

theorem mmapOpen_of_opened {w' : World} {addr addr' map' : Nat}
    (h : vmAreaOpen w addr = (w', some map')) :
    mmapOpen w addr addr' shift total = (w', some map') := by
  rw [mmapOpen, h]

theorem mmapOpen_of_refused {w' : World} {addr addr' : Nat} (h : vmAreaOpen w addr = (w', none)) :
    mmapOpen w addr addr' shift total = vmAreaInit w' addr' shift total := by
  rw [mmapOpen, h]

/-- What two reopenings do to an area after any legal calls: the first one opens
the file and keeps its pages, but its header is gone, so the second one is left
to `vm_area_init`. -/
theorem second_round_reinitialises (calls : List PageCall) (r r' : Round)
    (hcreated : (vmAreaInit w map shift total).2 = some map)
    (hshift : shift < 2 ^ 32) (htotal : total < 2 ^ 32) (haddr : map + cpuPageSize < 2 ^ 64)
    (hlegal : LegalRun map ⟨(vmAreaInit w map shift total).1.mem, []⟩ calls) :
    ∃ opened refused,
      mmapOpen (mmapClose (areaAfter w map shift total calls) map).2 r.addr r.addr' r.shift
        r.total = (opened, some r.addr) ∧
      (∀ i, cpuPageSize ≤ i → i < vmAreaSize shift total →
        opened.mem (r.addr + i) = (areaAfter w map shift total calls).mem (map + i)) ∧
      vmAreaOpen (mmapClose opened r.addr).2 r'.addr = (refused, none) ∧
      mmapOpen (mmapClose opened r.addr).2 r'.addr r'.addr' r'.shift r'.total =
        vmAreaInit refused r'.addr' r'.shift r'.total := by
  obtain ⟨hsize, ⟨file, hfile⟩, hmapping⟩ := areaAfter_mapping calls hcreated
  have hkept := HeaderKept.run calls _ (HeaderKept.init hcreated hshift htotal haddr) hlegal
  have hpage := cpuPageSize_le_vmAreaSize hsize
  have hvalid : vmAreaValidate (areaAfter w map shift total calls).mem map
      (vmAreaSize shift total) = false := by
    have hmem : (areaAfter w map shift total calls).mem =
        (PageState.run map ⟨(vmAreaInit w map shift total).1.mem, []⟩ calls).mem := by
      rw [areaAfter]
    rw [vmAreaValidate, hmem]
    simp only [hkept.magic, hkept.size, hkept.total_eq, hkept.shift_eq]
    simp
  obtain ⟨opened, hopened, hfile', hmapping', hwiped, hpages⟩ :=
    vmAreaOpen_closed hfile hmapping hpage hvalid r.addr
  obtain ⟨refused, hrefused⟩ :=
    vmAreaOpen_closed_wiped hfile' hmapping' hpage hwiped r'.addr
  exact ⟨opened, refused, mmapOpen_of_opened hopened, hpages, hrefused,
    mmapOpen_of_refused hrefused⟩

end Rounds

/-- A file of two pages, one of them allocated. -/
def onePageTaken : World := areaAfter ⟨fun _ => 0, none, none⟩ 0x10000 9 2 [.alloc]

theorem onePageTaken_created :
    (vmAreaInit ⟨fun _ => 0, none, none⟩ 0x10000 9 2).2 = some 0x10000 :=
  (vmAreaInit_freeList ⟨by decide, by decide, by decide, Or.inl (by decide)⟩ _).1

theorem roundsKeep_not_reopened : RoundsKeep onePageTaken 0x10000 [] :=
  (roundsKeep_iff _ 0x10000 9 2 [.alloc] [] onePageTaken_created).mpr rfl

/-- Two rounds of that file -/
theorem second_round_reinitialises_taken :
    LegalRun 0x10000 ⟨(vmAreaInit ⟨fun _ => 0, none, none⟩ 0x10000 9 2).1.mem, []⟩ [.alloc] ∧
      ∃ opened refused,
        mmapOpen (mmapClose onePageTaken 0x10000).2 0x20000 0x30000 9 2 =
          (opened, some 0x20000) ∧
        mmapOpen (mmapClose opened 0x20000).2 0x40000 0x50000 9 2 =
          vmAreaInit refused 0x50000 9 2 := by
  have hlegal : LegalRun 0x10000
      ⟨(vmAreaInit ⟨fun _ => 0, none, none⟩ 0x10000 9 2).1.mem, []⟩ [.alloc] := ⟨trivial, trivial⟩
  obtain ⟨opened, refused, hopened, -, -, hinit⟩ :=
    second_round_reinitialises [.alloc] ⟨0x20000, 0x30000, 9, 2⟩ ⟨0x40000, 0x50000, 9, 2⟩
      onePageTaken_created (by decide) (by decide) (by decide) hlegal
  exact ⟨hlegal, opened, refused, hopened, hinit⟩

/-- One reopening: the map comes back with `magic` zero. -/
theorem roundsKeep_fails_reopened :
    ¬ RoundsKeep onePageTaken 0x10000 [⟨0x20000, 0x30000, 9, 2⟩] :=
  not_roundsKeep_cons [.alloc] _ _ onePageTaken_created

end OpenAAA.Paging
