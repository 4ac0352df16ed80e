import OpenAAA.Mem.Map

/-!
Whole runs of `page_alloc_safe` and `page_free` on a map made by `vm_area_init`.
The invariant is the free list itself: a chain of distinct page indices, threaded
through the headers of exactly the pages that are not allocated, and ended by the
index `total`, because the last page is linked like all the others. Nothing in
`get_page_safe` refuses that index, so the list never looks empty: one allocation
more than there are pages gets the page behind the last.
-/

namespace OpenAAA.Paging

open Memory Sys Linked

/-- One call of the run. An application may also write into the body of a page
it holds, behind the page header. -/
inductive PageCall where
  | alloc
  | free (page : Nat)
  | write (page off : Nat) (bytes : List Byte)

/-- The memory, and the pages handed out and not yet freed. -/
structure PageState where
  mem : Mem
  live : List Nat

def PageState.step (map : Nat) (s : PageState) : PageCall → PageState
  | .alloc =>
      match pageAllocSafe s.mem map with
      | (none, m) => ⟨m, s.live⟩
      | (some page, m) => ⟨m, page :: s.live⟩
  | .free page => ⟨pageFree s.mem map page, s.live.erase page⟩
  | .write page off bytes => ⟨write s.mem (page + off) bytes, s.live⟩

/-- What a caller must respect. -/
def PageCall.Legal (map : Nat) (s : PageState) : PageCall → Prop
  | .alloc => True
  | .free page => page ∈ s.live
  | .write page off bytes =>
      page ∈ s.live ∧ pageSize ≤ off ∧
        off + bytes.length ≤ 2 ^ (loadPagemap s.mem map).shift

def LegalRun (map : Nat) : PageState → List PageCall → Prop
  | _, [] => True
  | s, call :: calls => call.Legal map s ∧ LegalRun map (s.step map call) calls

/-- All pages of the map are allocated. -/
def PageState.Exhausted (map : Nat) (s : PageState) : Prop :=
  ∀ i < (loadPagemap s.mem map).total, getPage s.mem map i ∈ s.live

instance (map : Nat) (s : PageState) : Decidable (s.Exhausted map) :=
  inferInstanceAs (Decidable (∀ i < (loadPagemap s.mem map).total, getPage s.mem map i ∈ s.live))

/-- The number of pages that are not allocated. -/
def PageState.unallocated (map : Nat) (s : PageState) : Nat :=
  ((List.range (loadPagemap s.mem map).total).filter
    (fun i => getPage s.mem map i ∉ s.live)).length

/-- The next `page_alloc_safe` hands out a page of the map that nobody holds, or
`NULL` if and only if there is none. -/
def PageState.AllocSound (map : Nat) (s : PageState) : Prop :=
  match (pageAllocSafe s.mem map).1 with
  | none => s.Exhausted map
  | some page =>
      ¬ s.Exhausted map ∧ pageIndex s.mem map page < (loadPagemap s.mem map).total ∧
        page ∉ s.live

/-- Every allocation of the run is sound, and `avail` counts the pages that are
not allocated, before and after every call. -/
def SoundRun (map : Nat) : PageState → List PageCall → Prop
  | s, [] => (loadPagemap s.mem map).avail = s.unallocated map
  | s, call :: calls =>
      (loadPagemap s.mem map).avail = s.unallocated map ∧
        (call = .alloc → s.AllocSound map) ∧ SoundRun map (s.step map call) calls

/-- No call of the run asks for a page when all pages are allocated. -/
def NeverExhausted (map : Nat) : PageState → List PageCall → Prop
  | _, [] => True
  | s, call :: calls =>
      (call = .alloc → ¬ s.Exhausted map) ∧ NeverExhausted map (s.step map call) calls

/-- A map that its addresses and its `struct page` headers fit into: the area is
inside the address space, the 32-bit size does not wrap, and two pages do not
share header bytes. -/
structure Geometry (map shift total : Nat) : Prop where
  some_page : 1 ≤ total
  size_fits : total * 2 ^ shift + 2 * cpuPageSize < 2 ^ 32
  addr_fits : map + cpuPageSize < 2 ^ 64
  header_fits : pageSize ≤ 2 ^ shift ∨ total = 1

/-- The address of page `i`. -/
def pageAt (map shift i : Nat) : Nat := map + cpuPageSize + i * 2 ^ shift

section Geometry

variable {map shift total : Nat}

theorem Geometry.shift_lt (g : Geometry map shift total) : shift < 32 := by
  have hpow : 2 ^ shift ≤ total * 2 ^ shift := Nat.le_mul_of_pos_left _ g.some_page
  have hsize := g.size_fits
  exact (Nat.pow_lt_pow_iff_right (by decide : 1 < 2)).mp (by omega)

theorem Geometry.total_lt (g : Geometry map shift total) : total + 1 < 2 ^ 32 := by
  have hpos : 0 < 2 ^ shift := by positivity
  have hle : total ≤ total * 2 ^ shift := Nat.le_mul_of_pos_right _ hpos
  have hsize := g.size_fits
  unfold cpuPageSize at hsize
  omega

/-- Different pages have their headers in different places. -/
theorem Geometry.pages_apart (g : Geometry map shift total) {i j : Nat}
    (hi : i < total) (hj : j < total) (hne : i ≠ j) :
    Apart (pageAt map shift i) pageSize (pageAt map shift j) pageSize := by
  rcases g.header_fits with hfit | hone
  · unfold Apart pageAt
    rcases Nat.lt_or_gt_of_ne hne with hlt | hgt
    · have hstep : (i + 1) * 2 ^ shift ≤ j * 2 ^ shift := Nat.mul_le_mul_right _ hlt
      rw [Nat.add_mul] at hstep
      omega
    · have hstep : (j + 1) * 2 ^ shift ≤ i * 2 ^ shift := Nat.mul_le_mul_right _ hgt
      rw [Nat.add_mul] at hstep
      omega
  · omega

theorem map_apart_page (map shift i n : Nat) :
    Apart map pagemapSize (pageAt map shift i) n := by
  unfold Apart pageAt pagemapSize cpuPageSize
  omega

theorem pageAt_injective (shift : Nat) {i j : Nat}
    (h : pageAt map shift i = pageAt map shift j) : i = j := by
  have hpos : 0 < 2 ^ shift := by positivity
  unfold pageAt at h
  exact Nat.eq_of_mul_eq_mul_right hpos (by omega)

variable {m : Mem}

theorem getPage_eq (hshift : (loadPagemap m map).shift = shift)
    (hpage : (loadPagemap m map).page = map + cpuPageSize) (i : Nat) :
    getPage m map i = pageAt map shift i := by
  rw [getPage, hshift, hpage, Nat.shiftLeft_eq, pageAt]

theorem pageIndex_pageAt (hshift : (loadPagemap m map).shift = shift)
    (hpage : (loadPagemap m map).page = map + cpuPageSize) {i : Nat} (hi : i < 2 ^ 32) :
    pageIndex m map (pageAt map shift i) = i := by
  have hpos : 0 < 2 ^ shift := by positivity
  rw [pageIndex, hshift, hpage, pageAt, Nat.add_sub_cancel_left,
    Nat.shiftRight_eq_div_pow, Nat.mul_div_cancel _ hpos, Nat.mod_eq_of_lt hi]

/-- A word of the map's structure is no page's link. -/
theorem pageAvailField_store_map (m : Mem) (map shift off v j : Nat) (hoff : off + 4 ≤ 48) :
    pageAvailField (store m (map + off) 4 v) (pageAt map shift j) =
      pageAvailField m (pageAt map shift j) := by
  apply load_store_apart
  apply (map_apart_page map shift j 32).mono
  · unfold Inside pagemapSize
    omega
  · unfold Inside
    omega

/-- A word of a page is not part of the map's structure. -/
theorem loadPagemap_store_page (m : Mem) (map shift i off n v : Nat) :
    loadPagemap (store m (pageAt map shift i + off) n v) map = loadPagemap m map := by
  apply loadPagemap_of_agree
  apply store_agree
  apply (map_apart_page map shift i (off + n)).symm.mono_left
  unfold Inside
  omega

theorem loadPagemap_setPageHdr (m : Mem) (map shift i v : Nat) :
    loadPagemap (setPageHdr m (pageAt map shift i) v) map = loadPagemap m map := by
  have hword := loadPagemap_store_page m map shift i 0 4 v
  rwa [Nat.add_zero] at hword

theorem pageAvailField_setPageHdr_self (m : Mem) (page v : Nat) :
    pageAvailField (setPageHdr m page v) page = pageAvailField m page := by
  apply load_store_apart
  unfold Apart
  omega

/-- A word in one page's header is not another page's link. -/
theorem Geometry.pageAvailField_store (g : Geometry map shift total) (m : Mem) {i j k : Nat}
    (hi : i < total) (hj : j < total) (hne : i ≠ j) (hk : k + 4 ≤ pageSize) (v : Nat) :
    pageAvailField (store m (pageAt map shift i + k) 4 v) (pageAt map shift j) =
      pageAvailField m (pageAt map shift j) := by
  apply load_store_apart
  apply (g.pages_apart hi hj hne).mono
  · unfold Inside
    omega
  · unfold Inside pageSize
    omega

theorem Geometry.pageAvailField_setPageHdr (g : Geometry map shift total) (m : Mem)
    {i j : Nat} (hi : i < total) (hj : j < total) (hne : i ≠ j) (v : Nat) :
    pageAvailField (setPageHdr m (pageAt map shift i) v) (pageAt map shift j) =
      pageAvailField m (pageAt map shift j) :=
  g.pageAvailField_store m (k := 0) hi hj hne (by decide) v

theorem Geometry.pageAvailField_setPageAvail (g : Geometry map shift total) (m : Mem)
    {i j : Nat} (hi : i < total) (hj : j < total) (hne : i ≠ j) (v : Nat) :
    pageAvailField (setPageAvail m (pageAt map shift i) v) (pageAt map shift j) =
      pageAvailField m (pageAt map shift j) :=
  g.pageAvailField_store m (k := 16) hi hj hne (by decide) v

end Geometry

/-- The map's free list is the chain `free`, and the pages that are not on it
are the ones handed out. -/
structure FreeList (map shift total : Nat) (s : PageState) (free : List Nat) : Prop where
  total_eq : (loadPagemap s.mem map).total = total
  shift_eq : (loadPagemap s.mem map).shift = shift
  page_eq : (loadPagemap s.mem map).page = map + cpuPageSize
  avail_eq : (loadPagemap s.mem map).avail = free.length
  chain : Chain (fun i => pageAvailField s.mem (pageAt map shift i)) total
    (loadPagemap s.mem map).list free
  nodup : free.Nodup
  bound : ∀ i ∈ free, i < total
  live_iff : ∀ page, page ∈ s.live ↔ ∃ i < total, i ∉ free ∧ page = pageAt map shift i
  live_nodup : s.live.Nodup

section Steps

variable {map shift total : Nat} {s : PageState} {free : List Nat}

theorem FreeList.getPage_mem_live (h : FreeList map shift total s free) {i : Nat}
    (hi : i < total) : getPage s.mem map i ∈ s.live ↔ i ∉ free := by
  rw [getPage_eq h.shift_eq h.page_eq, h.live_iff]
  constructor
  · rintro ⟨j, _, hfree, heq⟩
    rwa [pageAt_injective shift heq]
  · intro hfree
    exact ⟨i, hi, hfree, rfl⟩

theorem FreeList.exhausted_iff (h : FreeList map shift total s free) :
    s.Exhausted map ↔ free = [] := by
  unfold PageState.Exhausted
  rw [h.total_eq]
  constructor
  · intro hall
    apply List.eq_nil_iff_forall_not_mem.mpr
    intro i hfree
    have hi := h.bound i hfree
    exact (h.getPage_mem_live hi).mp (hall i hi) hfree
  · rintro rfl i hi
    exact (h.getPage_mem_live hi).mpr (by simp)

/-- The free list holds every unallocated page once. -/
theorem FreeList.avail_exact (h : FreeList map shift total s free) :
    (loadPagemap s.mem map).avail = s.unallocated map := by
  have hperm : ((List.range total).filter (fun i => getPage s.mem map i ∉ s.live)).Perm free := by
    apply (List.perm_ext_iff_of_nodup (List.nodup_range.filter _) h.nodup).mpr
    intro i
    rw [List.mem_filter, List.mem_range]
    constructor
    · rintro ⟨hi, hlive⟩
      have hnot : getPage s.mem map i ∉ s.live := by simpa using hlive
      by_contra hfree
      exact hnot ((h.getPage_mem_live hi).mpr hfree)
    · intro hfree
      have hi := h.bound i hfree
      have hnot : getPage s.mem map i ∉ s.live := fun hlive =>
        (h.getPage_mem_live hi).mp hlive hfree
      exact ⟨hi, by simpa using hnot⟩
  rw [h.avail_eq, PageState.unallocated, h.total_eq, hperm.length_eq]

/-- A change of memory that keeps the map's structure but for the two fields of
the free list. -/
theorem FreeList.update (h : FreeList map shift total s free) (s' : PageState)
    {free' : List Nat} {list : Nat}
    (hmap : loadPagemap s'.mem map =
      { loadPagemap s.mem map with list := list, avail := free'.length })
    (hchain : Chain (fun i => pageAvailField s'.mem (pageAt map shift i)) total list free')
    (hnodup : free'.Nodup) (hbound : ∀ i ∈ free', i < total)
    (hlive : ∀ page, page ∈ s'.live ↔ ∃ i < total, i ∉ free' ∧ page = pageAt map shift i)
    (hlives : s'.live.Nodup) : FreeList map shift total s' free' := by
  refine ⟨?_, ?_, ?_, ?_, ?_, hnodup, hbound, hlive, hlives⟩
  · rw [hmap]
    exact h.total_eq
  · rw [hmap]
    exact h.shift_eq
  · rw [hmap]
    exact h.page_eq
  · rw [hmap]
  · rw [hmap]
    exact hchain

theorem FreeList.not_live (h : FreeList map shift total s free) {i : Nat} (hi : i ∈ free) :
    pageAt map shift i ∉ s.live := by
  intro hlive
  obtain ⟨j, _, hfree, heq⟩ := (h.live_iff _).mp hlive
  rw [← pageAt_injective shift heq] at hfree
  exact hfree hi

/-- Every index up to `total` itself passes `get_page_safe`. -/
theorem FreeList.getPageSafe_eq (g : Geometry map shift total)
    (h : FreeList map shift total s free) {i : Nat} (hi : i ≤ total) :
    getPageSafe s.mem map i = some (pageAt map shift i) := by
  have htotal := g.total_lt
  have hrange : ¬ (i > total ∨ i = allOnes32) := by
    unfold allOnes32
    omega
  rw [getPageSafe, h.total_eq, if_neg hrange, h.shift_eq, h.page_eq, Nat.shiftLeft_eq, pageAt]

/-- The words that `page_alloc_safe` writes when page `i` heads the list. -/
theorem FreeList.pageAllocSafe_eq (g : Geometry map shift total) {i : Nat}
    (h : FreeList map shift total s (i :: free)) :
    pageAllocSafe s.mem map = (some (pageAt map shift i),
      setMapAvail (setMapList (setPageHdr s.mem (pageAt map shift i) 0) map
        (pageAvailField s.mem (pageAt map shift i))) map
        ((loadPagemap s.mem map).avail + 2 ^ 32 - 1)) := by
  have hhead : (loadPagemap s.mem map).list = i := h.chain.1
  have hsafe := h.getPageSafe_eq g (h.bound i (by simp)).le
  simp only [pageAllocSafe, hhead, hsafe, pageAvailField_setPageHdr_self, loadPagemap_setMapList,
    loadPagemap_setPageHdr]

theorem FreeList.loadPagemap_pageAllocSafe (g : Geometry map shift total) {i : Nat}
    (h : FreeList map shift total s (i :: free)) :
    loadPagemap (pageAllocSafe s.mem map).2 map = { loadPagemap s.mem map with
      list := pageAvailField s.mem (pageAt map shift i), avail := free.length } := by
  have hnext : pageAvailField s.mem (pageAt map shift i) < 2 ^ 32 := load_lt _ _ 4
  have havail : (loadPagemap s.mem map).avail < 2 ^ 32 := load_lt _ _ 4
  have hcount := h.avail_eq
  rw [List.length_cons] at hcount
  have hdec : ((loadPagemap s.mem map).avail + 2 ^ 32 - 1) % 2 ^ 32 = free.length := by omega
  rw [h.pageAllocSafe_eq g, loadPagemap_setMapAvail, loadPagemap_setMapList,
    loadPagemap_setPageHdr, hdec, Nat.mod_eq_of_lt hnext]

/-- The links of the other pages stay. -/
theorem FreeList.pageAvailField_pageAllocSafe (g : Geometry map shift total) {i j : Nat}
    (h : FreeList map shift total s (i :: free)) (hj : j ∈ free) :
    pageAvailField (pageAllocSafe s.mem map).2 (pageAt map shift j) =
      pageAvailField s.mem (pageAt map shift j) := by
  have hne : i ≠ j := by
    rintro rfl
    exact (List.nodup_cons.mp h.nodup).1 hj
  rw [h.pageAllocSafe_eq g, setMapAvail, pageAvailField_store_map _ _ _ _ _ _ (by decide),
    setMapList, pageAvailField_store_map _ _ _ _ _ _ (by decide),
    g.pageAvailField_setPageHdr s.mem (h.bound i (by simp)) (h.bound j (by simp [hj])) hne]

/-- An allocation takes the first page of the list. -/
theorem FreeList.alloc (g : Geometry map shift total) {i : Nat}
    (h : FreeList map shift total s (i :: free)) :
    (pageAllocSafe s.mem map).1 = some (pageAt map shift i) ∧
      FreeList map shift total (s.step map .alloc) free := by
  have hi : i < total := h.bound i (by simp)
  obtain ⟨hfresh, hnodup⟩ := List.nodup_cons.mp h.nodup
  have hpage : (pageAllocSafe s.mem map).1 = some (pageAt map shift i) := by
    rw [h.pageAllocSafe_eq g]
  have hstep : s.step map .alloc =
      ⟨(pageAllocSafe s.mem map).2, pageAt map shift i :: s.live⟩ := by
    rw [PageState.step, h.pageAllocSafe_eq g]
  refine ⟨hpage, ?_⟩
  rw [hstep]
  refine h.update ⟨_, _⟩ (h.loadPagemap_pageAllocSafe g) ?_ hnodup ?_ ?_ ?_
  · exact h.chain.2.congr (fun j hj => h.pageAvailField_pageAllocSafe g hj)
  · exact fun j hj => h.bound j (by simp [hj])
  · exact mem_live_cons_iff h.live_iff hi hfresh
  · exact List.nodup_cons.mpr ⟨h.not_live (by simp), h.live_nodup⟩

/-- With no page left, the head of the list is `total`, and the page behind the
last one is handed out. -/
theorem FreeList.alloc_exhausted (g : Geometry map shift total)
    (h : FreeList map shift total s []) :
    (pageAllocSafe s.mem map).1 = some (pageAt map shift total) := by
  have hhead : (loadPagemap s.mem map).list = total := h.chain
  simp only [pageAllocSafe, hhead, h.getPageSafe_eq g le_rfl]

theorem FreeList.length_lt (h : FreeList map shift total s free) {i : Nat} (hi : i < total)
    (hfree : i ∉ free) : free.length < total := by
  have hnodup : (i :: free).Nodup := List.nodup_cons.mpr ⟨hfree, h.nodup⟩
  have hsubset : (i :: free) ⊆ List.range total := by
    intro j hj
    rcases List.mem_cons.mp hj with rfl | hmem
    · exact List.mem_range.mpr hi
    · exact List.mem_range.mpr (h.bound j hmem)
  simpa using (hnodup.subperm hsubset).length_le

/-- The words that `page_free` writes for an allocated page. -/
theorem FreeList.pageFree_eq (g : Geometry map shift total)
    (h : FreeList map shift total s free) {i : Nat} (hi : i < total) :
    pageFree s.mem map (pageAt map shift i) =
      setMapAvail (setMapList (setPageAvail (setPageHdr s.mem (pageAt map shift i) allOnes32)
        (pageAt map shift i) (loadPagemap s.mem map).list) map i) map
        (free.length + 1) := by
  have htotal := g.total_lt
  have hlink : ∀ (m : Mem) v, loadPagemap (setPageAvail m (pageAt map shift i) v) map =
      loadPagemap m map := fun m v => loadPagemap_store_page m map shift i 16 4 v
  have hindex : ∀ m : Mem, loadPagemap m map = loadPagemap s.mem map →
      pageIndex m map (pageAt map shift i) = i := fun m hm =>
    pageIndex_pageAt (by rw [hm]; exact h.shift_eq) (by rw [hm]; exact h.page_eq) (by omega)
  simp only [pageFree, loadPagemap_setPageHdr, loadPagemap_setMapList, hlink, h.avail_eq]
  rw [hindex _ (by rw [hlink, loadPagemap_setPageHdr])]

theorem FreeList.loadPagemap_pageFree (g : Geometry map shift total)
    (h : FreeList map shift total s free) {i : Nat} (hi : i < total) (hfree : i ∉ free) :
    loadPagemap (pageFree s.mem map (pageAt map shift i)) map =
      { loadPagemap s.mem map with list := i, avail := free.length + 1 } := by
  have htotal := g.total_lt
  have hlength := h.length_lt hi hfree
  have hlink := loadPagemap_store_page (setPageHdr s.mem (pageAt map shift i) allOnes32) map shift
    i 16 4 (loadPagemap s.mem map).list
  rw [h.pageFree_eq g hi, loadPagemap_setMapAvail, loadPagemap_setMapList, setPageAvail, hlink,
    loadPagemap_setPageHdr, Nat.mod_eq_of_lt (by omega), Nat.mod_eq_of_lt (by omega)]

/-- The freed page is linked to the old head, the other links stay. -/
theorem FreeList.pageAvailField_pageFree (g : Geometry map shift total)
    (h : FreeList map shift total s free) {i j : Nat} (hi : i < total) (hj : j < total) :
    pageAvailField (pageFree s.mem map (pageAt map shift i)) (pageAt map shift j) =
      if j = i then (loadPagemap s.mem map).list else
        pageAvailField s.mem (pageAt map shift j) := by
  have hlist : (loadPagemap s.mem map).list < 2 ^ 32 := load_lt _ _ 4
  rw [h.pageFree_eq g hi, setMapAvail, pageAvailField_store_map _ _ _ _ _ _ (by decide),
    setMapList, pageAvailField_store_map _ _ _ _ _ _ (by decide)]
  split
  · next heq =>
      subst heq
      rw [pageAvailField, setPageAvail, load_store_same]
      exact Nat.mod_eq_of_lt hlist
  · next hne =>
      rw [g.pageAvailField_setPageAvail _ hi hj (Ne.symm hne),
        g.pageAvailField_setPageHdr _ hi hj (Ne.symm hne)]

/-- Freeing a page links it in front of the list. -/
theorem FreeList.free_page (g : Geometry map shift total)
    (h : FreeList map shift total s free) {page : Nat} (hlive : page ∈ s.live) :
    ∃ i, FreeList map shift total (s.step map (.free page)) (i :: free) := by
  obtain ⟨i, hi, hfree, rfl⟩ := (h.live_iff page).mp hlive
  refine ⟨i, h.update _ (h.loadPagemap_pageFree g hi hfree) ?_ ?_ ?_ ?_ ?_⟩
  · apply h.chain.push
    · exact (h.pageAvailField_pageFree g hi hi).trans (if_pos rfl)
    · intro j hj
      have hne : j ≠ i := by
        rintro rfl
        exact hfree hj
      exact (h.pageAvailField_pageFree g hi (h.bound j hj)).trans (if_neg hne)
  · exact List.nodup_cons.mpr ⟨hfree, h.nodup⟩
  · intro j hj
    rcases List.mem_cons.mp hj with rfl | hmem
    · exact hi
    · exact h.bound j hmem
  · exact mem_live_erase_iff h.live_iff h.live_nodup fun _ => pageAt_injective shift
  · exact h.live_nodup.erase _

/-- Writing into the body of a page touches neither the map nor a page header. -/
theorem FreeList.write_body (h : FreeList map shift total s free) {page off : Nat}
    {bytes : List Byte} (hlive : page ∈ s.live) (hoff : pageSize ≤ off) (hend : off + bytes.length ≤ 2 ^ shift) :
    FreeList map shift total (s.step map (.write page off bytes)) free := by
  obtain ⟨i, hi, _, rfl⟩ := (h.live_iff page).mp hlive
  have hmap : loadPagemap (write s.mem (pageAt map shift i + off) bytes) map =
      loadPagemap s.mem map := by
    apply loadPagemap_of_agree
    apply write_agree
    unfold Apart pageAt pagemapSize cpuPageSize
    omega
  have hfield : ∀ j, pageAvailField (write s.mem (pageAt map shift i + off) bytes)
      (pageAt map shift j) = pageAvailField s.mem (pageAt map shift j) := by
    intro j
    apply load_of_agree
    apply write_agree
    unfold Apart pageAt pageSize at *
    rcases Nat.lt_trichotomy i j with hlt | rfl | hgt
    · have hstep : (i + 1) * 2 ^ shift ≤ j * 2 ^ shift := Nat.mul_le_mul_right _ hlt
      rw [Nat.add_mul] at hstep
      omega
    · omega
    · have hstep : (j + 1) * 2 ^ shift ≤ i * 2 ^ shift := Nat.mul_le_mul_right _ hgt
      rw [Nat.add_mul] at hstep
      omega
  refine h.update _ ?_ (h.chain.congr (fun j _ => hfield j)) h.nodup h.bound h.live_iff
    h.live_nodup
  exact hmap.trans (by rw [← h.avail_eq])

end Steps

section Init

variable {map shift total : Nat}

theorem loadPagemap_pageInit (m : Mem) (map shift i : Nat) :
    loadPagemap (pageInit map m (pageAt map shift i)) map = loadPagemap m map := by
  apply loadPagemap_of_agree
  exact storePage_agree (map_apart_page map shift i pageSize).symm

theorem pageAt_succ (map shift k : Nat) :
    pageAt map shift (k + 1) = pageAt map shift k + 2 ^ shift := by
  unfold pageAt
  ring

/-- One turn of the initialising loop. -/
theorem Geometry.pageForEachFrom_step (g : Geometry map shift total) {k : Nat} (fuel : Nat)
    (m : Mem) (hk : k < total) (hsh : (loadPagemap m map).shift = shift) :
    pageForEachFrom map (pageInit map) (pageAt map shift total) (fuel + 1) m
        (pageAt map shift k) =
      pageForEachFrom map (pageInit map) (pageAt map shift total) fuel
        (pageInit map m (pageAt map shift k)) (pageAt map shift (k + 1)) := by
  have hpow : 2 ^ shift % 2 ^ 32 = 2 ^ shift :=
    Nat.mod_eq_of_lt (Nat.pow_lt_pow_right (by decide) g.shift_lt)
  have hbefore : pageAt map shift k < pageAt map shift total := by
    have hpos : 0 < 2 ^ shift := by positivity
    have hstep : k * 2 ^ shift < total * 2 ^ shift := Nat.mul_lt_mul_of_pos_right hk hpos
    unfold pageAt
    omega
  simp only [pageForEachFrom, if_pos hbefore, loadPagemap_pageInit, hsh, hpow, pageAt_succ]

/-- `page_init` links a page to the next index, even the last page. -/
theorem Geometry.pageAvailField_pageInit (g : Geometry map shift total) {k : Nat} {m : Mem}
    (hk : k < total) (htot : (loadPagemap m map).total = total)
    (hsh : (loadPagemap m map).shift = shift)
    (hpg : (loadPagemap m map).page = map + cpuPageSize) :
    pageAvailField (pageInit map m (pageAt map shift k)) (pageAt map shift k) = k + 1 := by
  have htotal := g.total_lt
  have hindex : pageIndex m map (pageAt map shift k) = k := pageIndex_pageAt hsh hpg (by omega)
  have hsucc : k + 1 < 2 ^ 32 := by omega
  rw [pageInit, pageAvailField_storePage, hindex, htot, if_neg (Nat.not_le_of_lt hk)]
  exact Nat.mod_eq_of_lt hsucc

/-- The initialising loop from page `k` on: memory in front of that page keeps
its contents, and every page from there on is linked to its successor. When
nothing is left to do, all of memory keeps its contents. -/
theorem pageForEachFrom_init (g : Geometry map shift total) (d : Nat) :
    ∀ (k fuel : Nat) (m : Mem), d + k = total → d ≤ fuel →
      (loadPagemap m map).total = total → (loadPagemap m map).shift = shift →
      (loadPagemap m map).page = map + cpuPageSize →
      (∀ a n, a + n ≤ pageAt map shift k ∨ d = 0 →
        Agree m (pageForEachFrom map (pageInit map) (pageAt map shift total) fuel m
          (pageAt map shift k)) a n) ∧
      ∀ j, k ≤ j → j < total →
        pageAvailField (pageForEachFrom map (pageInit map) (pageAt map shift total) fuel m
          (pageAt map shift k)) (pageAt map shift j) = j + 1 := by
  induction d with
  | zero =>
      intro k fuel m hk _ _ _ _
      obtain rfl : k = total := by omega
      have hdone : pageForEachFrom map (pageInit map) (pageAt map shift k) fuel m
          (pageAt map shift k) = m := by
        cases fuel with
        | zero => rfl
        | succ fuel => rw [pageForEachFrom, if_neg (lt_irrefl _)]
      rw [hdone]
      exact ⟨fun a n _ => Agree.refl m a n, fun j hkj hj => by omega⟩
  | succ d ih =>
      intro k fuel m hk hfuel htot hsh hpg
      have hlast : k < total := by omega
      obtain ⟨fuel, rfl⟩ : ∃ left, fuel = left + 1 :=
        Nat.exists_eq_add_of_le' (Nat.le_of_add_left_le hfuel)
      have hheader := loadPagemap_pageInit m map shift k
      obtain ⟨hkeep, hlinks⟩ := ih (k + 1) fuel (pageInit map m (pageAt map shift k))
        (by omega) (by omega) (by rw [hheader, htot]) (by rw [hheader, hsh])
        (by rw [hheader, hpg])
      rw [g.pageForEachFrom_step fuel m hlast hsh]
      rw [pageAt_succ] at *
      have hpos : 0 < 2 ^ shift := by positivity
      constructor
      · intro a n hfront
        have hbody : Agree m (pageInit map m (pageAt map shift k)) a n := by
          apply storePage_agree
          unfold Apart
          omega
        exact hbody.trans (hkeep a n (by omega))
      · intro j hkj hj
        rcases Nat.lt_or_eq_of_le hkj with hlt | rfl
        · exact hlinks j hlt hj
        · -- Later turns start behind this page's header, or there are none.
          have hroom : pageAt map shift k + pageSize ≤ pageAt map shift k + 2 ^ shift ∨ d = 0 := by
            rcases g.header_fits with hfit | hone
            · omega
            · omega
          have hagree := (hkeep _ _ hroom).mono (b := pageAt map shift k + 16) (k := 4)
            (by unfold Inside pageSize; omega)
          exact (load_of_agree hagree).trans (g.pageAvailField_pageInit hlast htot hsh hpg)

theorem chain_range' (next : Nat → Nat) (stop : Nat) (d : Nat) :
    ∀ k, d + k = stop → (∀ j, k ≤ j → j < stop → next j = j + 1) →
      Chain next stop k (List.range' k d) := by
  induction d with
  | zero => exact fun k hk _ => by simpa [Chain] using hk
  | succ d ih =>
      intro k hk hnext
      refine ⟨rfl, ?_⟩
      rw [hnext k (le_refl k) (by omega)]
      exact ih (k + 1) (by omega) (fun j hkj hj => hnext j (by omega) hj)

theorem Geometry.vmAreaSize_eq (g : Geometry map shift total) :
    vmAreaSize shift total = cpuPageSize + roundUp (total * 2 ^ shift) cpuPageSize := by
  have hsize := g.size_fits
  have hpow : 2 ^ shift < 2 ^ 32 := Nat.pow_lt_pow_right (by decide) g.shift_lt
  have hround : roundUp (total * 2 ^ shift) cpuPageSize ≤ total * 2 ^ shift + cpuPageSize - 1 :=
    Nat.div_mul_le_self _ _
  have hproduct : total * 2 ^ shift < 2 ^ 32 := by omega
  rw [vmAreaSize, Nat.mod_eq_of_lt hpow, Nat.mul_comm (2 ^ shift), Nat.mod_eq_of_lt hproduct,
    alignTo_eq_roundUp (by omega), Nat.mod_eq_of_lt (by omega)]

/-- The header that `vm_area_init` writes. -/
def areaHeader (map shift total : Nat) : Pagemap where
  size := vmAreaSize shift total
  magic := pageHdrMagic
  align := cpuStructAlign
  total := total
  shift := shift
  avail := total
  list := 0
  init := 1
  page := map + cpuPageSize

theorem areaHeader_fits (hshift : shift < 2 ^ 32) (htotal : total < 2 ^ 32)
    (haddr : map + cpuPageSize < 2 ^ 64) : (areaHeader map shift total).Fits := by
  have hbound : vmAreaSize shift total < 2 ^ 32 := Nat.mod_lt _ (by decide)
  constructor
  all_goals
    simp only [areaHeader, pageHdrMagic, cpuStructAlign]
    omega

/-- `vm_area_init` writes the header and runs the loop over the pages. -/
theorem Geometry.vmAreaInit_eq (g : Geometry map shift total) (w : World) :
    ∃ m, loadPagemap m map = areaHeader map shift total ∧
      (vmAreaInit w map shift total).2 = some map ∧
      (vmAreaInit w map shift total).1.mem = pageForEachFrom map (pageInit map)
        (pageAt map shift total) (pageAt map shift total - pageAt map shift 0) m
        (pageAt map shift 0) := by
  have hne : vmAreaSize shift total ≠ 0 := by
    rw [g.vmAreaSize_eq]
    unfold cpuPageSize
    omega
  generalize hm : storePagemap (mapFile w.mem map
    ((w.file.getD ⟨0, fun _ => 0⟩).truncate (vmAreaSize shift total))) map
    (areaHeader map shift total) = m
  have hheader : loadPagemap m map = areaHeader map shift total := by
    have hshift := g.shift_lt
    have htotal := g.total_lt
    rw [← hm]
    exact loadPagemap_storePagemap _ _ (areaHeader_fits (by omega) (by omega) g.addr_fits)
  have hpage : ∀ i, getPage m map i = pageAt map shift i :=
    getPage_eq (by rw [hheader]; rfl) (by rw [hheader]; rfl)
  have htotal : (loadPagemap m map).total = total := by
    rw [hheader]
    rfl
  rw [areaHeader] at hm
  refine ⟨m, hheader, ?_, ?_⟩
  · simp only [vmAreaInit, if_neg hne]
  · simp only [vmAreaInit, if_neg hne, hm, pageForEach, htotal, hpage]

/-- The map that `vm_area_init` builds has all its pages on the free list, in
order. -/
theorem vmAreaInit_freeList (g : Geometry map shift total) (w : World) :
    (vmAreaInit w map shift total).2 = some map ∧
      FreeList map shift total ⟨(vmAreaInit w map shift total).1.mem, []⟩ (List.range total) := by
  obtain ⟨m, hheader, hcreated, hmem⟩ := g.vmAreaInit_eq w
  have hfuel : total ≤ pageAt map shift total - pageAt map shift 0 := by
    have hpos : 0 < 2 ^ shift := by positivity
    have hle : total ≤ total * 2 ^ shift := Nat.le_mul_of_pos_right _ hpos
    unfold pageAt
    omega
  obtain ⟨hkeep, hlinks⟩ := pageForEachFrom_init g total 0 _ m rfl hfuel
    (by rw [hheader]; rfl) (by rw [hheader]; rfl) (by rw [hheader]; rfl)
  have hfront : map + pagemapSize ≤ pageAt map shift 0 := by
    unfold pageAt pagemapSize cpuPageSize
    omega
  have hmap := loadPagemap_of_agree (hkeep map pagemapSize (Or.inl hfront))
  rw [← hmem, hheader] at hmap
  rw [← hmem] at hlinks
  refine ⟨hcreated, ?_⟩
  generalize (vmAreaInit w map shift total).1.mem = mem at *
  constructor
  · rw [hmap]
    rfl
  · rw [hmap]
    rfl
  · rw [hmap]
    rfl
  · rw [hmap, List.length_range]
    rfl
  · rw [hmap, List.range_eq_range']
    exact chain_range' _ total total 0 (by omega) hlinks
  · exact List.nodup_range
  · exact fun i hi => List.mem_range.mp hi
  · intro page
    constructor
    · intro hlive
      cases hlive
    · rintro ⟨i, hi, hfree, _⟩
      exact absurd (List.mem_range.mpr hi) hfree
  · exact List.nodup_nil

end Init

section Runs

variable {map shift total : Nat}

/-- An allocation from a list that is not empty is sound. -/
theorem FreeList.allocSound (g : Geometry map shift total) {s : PageState} {i : Nat}
    {free : List Nat} (h : FreeList map shift total s (i :: free)) : s.AllocSound map := by
  have hi : i < total := h.bound i (by simp)
  have htotal := g.total_lt
  rw [PageState.AllocSound, (h.alloc g).1]
  refine ⟨?_, ?_, ?_⟩
  · rw [h.exhausted_iff]
    simp
  · rw [pageIndex_pageAt h.shift_eq h.page_eq (by omega), h.total_eq]
    exact hi
  · exact h.not_live (by simp)

/-- From any state with a free list, a legal run is sound exactly as long as it
does not allocate from an exhausted map. -/
theorem FreeList.soundRun_iff (g : Geometry map shift total) (calls : List PageCall) :
    ∀ (s : PageState) (free : List Nat), FreeList map shift total s free →
      LegalRun map s calls → (SoundRun map s calls ↔ NeverExhausted map s calls) := by
  induction calls with
  | nil =>
      intro s free h _
      exact ⟨fun _ => trivial, fun _ => h.avail_exact⟩
  | cons call calls ih =>
      intro s free h hlegal
      obtain ⟨hcall, hrest⟩ := hlegal
      have hcount := h.avail_exact
      cases call with
      | alloc =>
          cases free with
          | nil =>
              have hex : s.Exhausted map := h.exhausted_iff.mpr rfl
              constructor
              · rintro ⟨_, hsound, _⟩
                have halloc := hsound rfl
                rw [PageState.AllocSound, h.alloc_exhausted g] at halloc
                exact absurd hex halloc.1
              · rintro ⟨hnever, _⟩
                exact absurd hex (hnever rfl)
          | cons i free =>
              have htail := ih _ free (h.alloc g).2 hrest
              have hnot : ¬ s.Exhausted map := by
                rw [h.exhausted_iff]
                simp
              constructor
              · rintro ⟨_, _, hsound⟩
                exact ⟨fun _ => hnot, htail.mp hsound⟩
              · rintro ⟨_, hnever⟩
                exact ⟨hcount, fun _ => h.allocSound g, htail.mpr hnever⟩
      | free page =>
          obtain ⟨i, hfree⟩ := h.free_page g hcall
          have htail := ih _ (i :: free) hfree hrest
          constructor
          · rintro ⟨_, _, hsound⟩
            exact ⟨nofun, htail.mp hsound⟩
          · rintro ⟨_, hnever⟩
            exact ⟨hcount, nofun, htail.mpr hnever⟩
      | write page off bytes =>
          obtain ⟨hlive, hoff, hend⟩ := hcall
          rw [h.shift_eq] at hend
          have htail := ih _ free (h.write_body hlive hoff hend) hrest
          constructor
          · rintro ⟨_, _, hsound⟩
            exact ⟨nofun, htail.mp hsound⟩
          · rintro ⟨_, hnever⟩
            exact ⟨hcount, nofun, htail.mpr hnever⟩

end Runs

/-- Every legal run on a fresh map, of any length and in any order of
allocations, frees and writes into held pages, is sound if and only if it never
allocates when all pages are allocated. -/
theorem page_runs_sound_iff (map shift total : Nat) (g : Geometry map shift total)
    (w : World) (calls : List PageCall)
    (hlegal : LegalRun map ⟨(vmAreaInit w map shift total).1.mem, []⟩ calls) :
    (vmAreaInit w map shift total).2 = some map ∧
      (SoundRun map ⟨(vmAreaInit w map shift total).1.mem, []⟩ calls ↔
        NeverExhausted map ⟨(vmAreaInit w map shift total).1.mem, []⟩ calls) := by
  obtain ⟨hopened, hfree⟩ := vmAreaInit_freeList g w
  exact ⟨hopened, hfree.soundRun_iff g calls _ _ hlegal⟩

/-- A fresh map of two pages of 512 bytes. -/
def twoPages : PageState :=
  ⟨(vmAreaInit ⟨fun _ => 0, none, none⟩ 0x10000 9 2).1.mem, []⟩

theorem page_runs_sound_two_pages :
    LegalRun 0x10000 twoPages [.alloc, .alloc, .free 0x11000, .alloc] ∧
      SoundRun 0x10000 twoPages [.alloc, .alloc, .free 0x11000, .alloc] := by
  have hlegal : LegalRun 0x10000 twoPages [.alloc, .alloc, .free 0x11000, .alloc] :=
    ⟨trivial, trivial, (by decide +kernel : 0x11000 ∈ _), trivial, trivial⟩
  refine ⟨hlegal, (page_runs_sound_iff 0x10000 9 2 ?_ _ _ hlegal).2.mpr ?_⟩
  · exact ⟨by decide, by decide, by decide, Or.inl (by decide)⟩
  · exact ⟨fun _ => by decide +kernel, fun _ => by decide +kernel, nofun,
      fun _ => by decide +kernel, trivial⟩

/-- One page of 32 bytes, allocated twice: the second call returns the page with
index 1, which does not exist. -/
theorem page_runs_unsound_one_page :
    LegalRun 0x10000 ⟨(vmAreaInit ⟨fun _ => 0, none, none⟩ 0x10000 5 1).1.mem, []⟩
        [.alloc, .alloc] ∧
      ¬ SoundRun 0x10000 ⟨(vmAreaInit ⟨fun _ => 0, none, none⟩ 0x10000 5 1).1.mem, []⟩
        [.alloc, .alloc] := by
  have g : Geometry 0x10000 5 1 :=
    ⟨by decide, by decide, by decide, Or.inl (by decide)⟩
  refine ⟨⟨trivial, trivial, trivial⟩, ?_⟩
  rintro ⟨_, _, _, hsound, _⟩
  obtain ⟨_, hfree⟩ := vmAreaInit_freeList g ⟨fun _ => 0, none, none⟩
  have hempty := (hfree.alloc g).2
  have halloc := hsound rfl
  rw [PageState.AllocSound, hempty.alloc_exhausted g] at halloc
  exact halloc.1 (hempty.exhausted_iff.mpr rfl)

end OpenAAA.Paging
