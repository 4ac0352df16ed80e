import OpenAAA.Lib.Runs
import OpenAAA.Mem.PageRuns

/-!
Runs of `page_alloc_safe` and `page_free` on a map that `page_range_init` prepared. There
the last page ends the list with `~0U`, which `get_page_safe` refuses, so the list can run
empty and be filled again. The pages may be anywhere, as long as their headers and the map
have no byte in common.
-/

namespace OpenAAA.Paging

open Memory Sys Linked Runs

/-- The header of page `i`. -/
def headerAt (page shift i : Nat) : Nat := page + i <<< shift

/-- The map, the headers of its pages, and the addresses they are at. -/
structure Layout (map page shift total : Nat) : Prop where
  map_apart : ∀ i < total, Apart map pagemapSize (headerAt page shift i) pageSize
  pages_apart : ∀ i < total, ∀ j < total, i ≠ j →
    Apart (headerAt page shift i) pageSize (headerAt page shift j) pageSize
  addr_fits : page + total <<< shift ≤ 2 ^ 64
  index_fits : total < allOnes32

theorem headerAt_injective {page shift i j : Nat}
    (h : headerAt page shift i = headerAt page shift j) : i = j := by
  have hpos : 0 < 2 ^ shift := by positivity
  simp only [headerAt, Nat.shiftLeft_eq] at h
  exact Nat.eq_of_mul_eq_mul_right hpos (by omega)

section Words

variable {map page shift total : Nat} (g : Layout map page shift total)
include g

/-- A word of a header is not part of the map's structure. -/
theorem Layout.loadPagemap_store (m : Mem) {i off : Nat} (v : Nat) (hi : i < total)
    (hoff : off + 4 ≤ pageSize) :
    loadPagemap (store m (headerAt page shift i + off) 4 v) map = loadPagemap m map := by
  apply loadPagemap_of_agree
  apply store_agree
  apply (g.map_apart i hi).symm.mono_left
  unfold Inside
  omega

/-- A word of the map's structure is not part of a header. -/
theorem Layout.load_store_map (m : Mem) {i off off' : Nat} (v : Nat) (hi : i < total)
    (hoff : off + 4 ≤ pagemapSize) (hoff' : off' + 4 ≤ pageSize) :
    load (store m (map + off) 4 v) (headerAt page shift i + off') 4 =
      load m (headerAt page shift i + off') 4 := by
  apply load_store_apart
  apply (g.map_apart i hi).mono
  · unfold Inside
    omega
  · unfold Inside
    omega

/-- A word of one header is not part of another. -/
theorem Layout.load_store_other (m : Mem) {i j off off' : Nat} (v : Nat) (hi : i < total)
    (hj : j < total) (hne : i ≠ j) (hoff : off + 4 ≤ pageSize) (hoff' : off' + 4 ≤ pageSize) :
    load (store m (headerAt page shift i + off) 4 v) (headerAt page shift j + off') 4 =
      load m (headerAt page shift j + off') 4 := by
  apply load_store_apart
  apply (g.pages_apart i hi j hj hne).mono
  · unfold Inside
    omega
  · unfold Inside
    omega

theorem Layout.loadPagemap_setPageHdr (m : Mem) {i : Nat} (v : Nat) (hi : i < total) :
    loadPagemap (setPageHdr m (headerAt page shift i) v) map = loadPagemap m map := by
  have hword := g.loadPagemap_store m v hi (show 0 + 4 ≤ pageSize by decide)
  rwa [Nat.add_zero] at hword

theorem Layout.loadPagemap_setPageAvail (m : Mem) {i : Nat} (v : Nat) (hi : i < total) :
    loadPagemap (setPageAvail m (headerAt page shift i) v) map = loadPagemap m map :=
  g.loadPagemap_store m v hi (show 16 + 4 ≤ pageSize by decide)

theorem Layout.pageAvailField_map (m : Mem) {i off : Nat} (v : Nat) (hi : i < total)
    (hoff : off + 4 ≤ pagemapSize) :
    pageAvailField (store m (map + off) 4 v) (headerAt page shift i) =
      pageAvailField m (headerAt page shift i) :=
  g.load_store_map m v hi hoff (show 16 + 4 ≤ pageSize by decide)

theorem Layout.pageHdrField_map (m : Mem) {i off : Nat} (v : Nat) (hi : i < total)
    (hoff : off + 4 ≤ pagemapSize) :
    pageHdrField (store m (map + off) 4 v) (headerAt page shift i) =
      pageHdrField m (headerAt page shift i) :=
  g.load_store_map m v hi hoff (show 0 + 4 ≤ pageSize by decide)

/-- A word other than the link leaves all links. -/
theorem Layout.pageAvailField_store (m : Mem) {i j off : Nat} (v : Nat) (hi : i < total)
    (hj : j < total) (hoff : off + 4 ≤ pageSize) (hother : off + 4 ≤ 16 ∨ 20 ≤ off) :
    pageAvailField (store m (headerAt page shift i + off) 4 v) (headerAt page shift j) =
      pageAvailField m (headerAt page shift j) := by
  by_cases hne : i = j
  · subst hne
    apply load_store_apart
    unfold Apart
    omega
  · exact g.load_store_other m v hi hj hne hoff (show 16 + 4 ≤ pageSize by decide)

/-- A word other than the mark leaves all marks. -/
theorem Layout.pageHdrField_store (m : Mem) {i j off : Nat} (v : Nat) (hi : i < total)
    (hj : j < total) (hoff : off + 4 ≤ pageSize) (hother : 4 ≤ off) :
    pageHdrField (store m (headerAt page shift i + off) 4 v) (headerAt page shift j) =
      pageHdrField m (headerAt page shift j) := by
  by_cases hne : i = j
  · subst hne
    apply load_store_apart
    unfold Apart
    omega
  · exact g.load_store_other m v hi hj hne hoff (show 0 + 4 ≤ pageSize by decide)

theorem Layout.pageAvailField_setPageHdr (m : Mem) {i j : Nat} (v : Nat) (hi : i < total)
    (hj : j < total) : pageAvailField (setPageHdr m (headerAt page shift i) v)
      (headerAt page shift j) = pageAvailField m (headerAt page shift j) :=
  g.pageAvailField_store m v hi hj (show 0 + 4 ≤ pageSize by decide) (by decide)

theorem Layout.pageHdrField_setPageHdr (m : Mem) {i j v : Nat} (hi : i < total) (hj : j < total)
    (hv : v < 2 ^ 32) : pageHdrField (setPageHdr m (headerAt page shift i) v)
      (headerAt page shift j) = if j = i then v else pageHdrField m (headerAt page shift j) := by
  by_cases hne : j = i
  · subst hne
    rw [if_pos rfl, pageHdrField, setPageHdr, load_store_same]
    exact Nat.mod_eq_of_lt hv
  · rw [if_neg hne]
    exact g.load_store_other m v hi hj (Ne.symm hne) (show 0 + 4 ≤ pageSize by decide)
      (show 0 + 4 ≤ pageSize by decide)

theorem Layout.pageAvailField_setPageAvail (m : Mem) {i j v : Nat} (hi : i < total)
    (hj : j < total) (hv : v < 2 ^ 32) :
    pageAvailField (setPageAvail m (headerAt page shift i) v) (headerAt page shift j) =
      if j = i then v else pageAvailField m (headerAt page shift j) := by
  by_cases hne : j = i
  · subst hne
    rw [if_pos rfl, pageAvailField, setPageAvail, load_store_same]
    exact Nat.mod_eq_of_lt hv
  · rw [if_neg hne]
    exact g.load_store_other m v hi hj (Ne.symm hne) (show 16 + 4 ≤ pageSize by decide)
      (show 16 + 4 ≤ pageSize by decide)

theorem Layout.pageHdrField_setPageAvail (m : Mem) {i j : Nat} (v : Nat) (hi : i < total)
    (hj : j < total) : pageHdrField (setPageAvail m (headerAt page shift i) v)
      (headerAt page shift j) = pageHdrField m (headerAt page shift j) :=
  g.pageHdrField_store m v hi hj (show 16 + 4 ≤ pageSize by decide) (by decide)

end Words

/-! ## The calls -/

/-- A call of a run. -/
inductive RangeCall where
  | alloc
  | free (page : Nat)

def PageState.rangeStep (map : Nat) (s : PageState) : RangeCall → PageState
  | .alloc => s.step map .alloc
  | .free page => s.step map (.free page)

/-- Only allocated pages are freed. -/
def RangeCall.Legal (s : PageState) : RangeCall → Prop
  | .alloc => True
  | .free page => page ∈ s.live

/-- The free list is `free`: distinct pages of the map, linked from the map's `list` to the end
mark `~0U` and counted by `avail`, and exactly these are marked with `hdr = ~0U`. -/
structure FreePages (m : Mem) (map : Nat) (free : List Nat) : Prop where
  chain : Chain (fun i => pageAvailField m (getPage m map i)) allOnes32 (loadPagemap m map).list free
  nodup : free.Nodup
  bound : ∀ i ∈ free, i < (loadPagemap m map).total
  counted : (loadPagemap m map).avail = free.length
  marked : ∀ i < (loadPagemap m map).total,
    pageHdrField m (getPage m map i) = allOnes32 ↔ i ∈ free

/-- The map keeps its pages and has a free list, and the other pages are allocated. -/
structure FreeRange (map page shift total : Nat) (s : PageState) (free : List Nat) : Prop where
  total_eq : (loadPagemap s.mem map).total = total
  shift_eq : (loadPagemap s.mem map).shift = shift
  page_eq : (loadPagemap s.mem map).page = page
  list : FreePages s.mem map free
  live_iff : ∀ p, p ∈ s.live ↔ ∃ i < total, i ∉ free ∧ p = headerAt page shift i
  live_nodup : s.live.Nodup

section Calls

variable {map page shift total : Nat} {s : PageState} {free : List Nat}

theorem FreeRange.getPage_eq (h : FreeRange map page shift total s free) (i : Nat) :
    getPage s.mem map i = headerAt page shift i := by
  rw [getPage, h.shift_eq, h.page_eq, headerAt]

theorem FreeRange.getPageSafe_eq (g : Layout map page shift total)
    (h : FreeRange map page shift total s free) {i : Nat} (hi : i < total) :
    getPageSafe s.mem map i = some (headerAt page shift i) := by
  have htotal := g.index_fits
  have hrange : ¬ (i > total ∨ i = allOnes32) := by omega
  rw [getPageSafe, h.total_eq, if_neg hrange, h.shift_eq, h.page_eq, headerAt]

/-- A change of memory that keeps the map but for its two words about the free list, with what it
does to links and marks. -/
theorem FreeRange.update (h : FreeRange map page shift total s free) (s' : PageState)
    {free' : List Nat} {list : Nat}
    (hmap : loadPagemap s'.mem map =
      { loadPagemap s.mem map with list := list, avail := free'.length })
    (hchain : Chain (fun i => pageAvailField s'.mem (headerAt page shift i)) allOnes32 list free')
    (hnodup : free'.Nodup) (hbound : ∀ i ∈ free', i < total)
    (hmarked : ∀ i < total, pageHdrField s'.mem (headerAt page shift i) = allOnes32 ↔ i ∈ free')
    (hlive : ∀ p, p ∈ s'.live ↔ ∃ i < total, i ∉ free' ∧ p = headerAt page shift i)
    (hlives : s'.live.Nodup) : FreeRange map page shift total s' free' := by
  have htotal : (loadPagemap s'.mem map).total = total := by
    rw [hmap]
    exact h.total_eq
  have hshift : (loadPagemap s'.mem map).shift = shift := by
    rw [hmap]
    exact h.shift_eq
  have hpage : (loadPagemap s'.mem map).page = page := by
    rw [hmap]
    exact h.page_eq
  have hget : ∀ i, getPage s'.mem map i = headerAt page shift i := by
    intro i
    rw [getPage, hshift, hpage, headerAt]
  refine ⟨htotal, hshift, hpage, ⟨?_, hnodup, ?_, ?_, ?_⟩, hlive, hlives⟩
  · simp only [hget]
    rw [hmap]
    exact hchain
  · rwa [htotal]
  · rw [hmap]
  · rw [htotal]
    intro i hi
    rw [hget]
    exact hmarked i hi

/-- The words that `page_alloc_safe` writes when page `i` heads the list. -/
theorem FreeRange.pageAllocSafe_eq (g : Layout map page shift total) {i : Nat}
    (h : FreeRange map page shift total s (i :: free)) :
    pageAllocSafe s.mem map = (some (headerAt page shift i),
      setMapAvail (setMapList (setPageHdr s.mem (headerAt page shift i) 0) map
        (pageAvailField s.mem (headerAt page shift i))) map
        ((loadPagemap s.mem map).avail + 2 ^ 32 - 1)) := by
  have hi : i < total := by
    rw [← h.total_eq]
    exact h.list.bound i (by simp)
  have hhead : (loadPagemap s.mem map).list = i := h.list.chain.1
  simp only [pageAllocSafe, hhead, h.getPageSafe_eq g hi, pageAvailField_setPageHdr_self,
    loadPagemap_setMapList, g.loadPagemap_setPageHdr s.mem 0 hi]

theorem FreeRange.bound_total (h : FreeRange map page shift total s free) {i : Nat}
    (hi : i ∈ free) : i < total := by
  rw [← h.total_eq]
  exact h.list.bound i hi

/-- The chain in the addresses of the map. -/
theorem FreeRange.chain (h : FreeRange map page shift total s free) :
    Chain (fun i => pageAvailField s.mem (headerAt page shift i)) allOnes32
      (loadPagemap s.mem map).list free := by
  have hchain := h.list.chain
  simp only [h.getPage_eq] at hchain
  exact hchain

theorem FreeRange.marked (h : FreeRange map page shift total s free) {i : Nat} (hi : i < total) :
    pageHdrField s.mem (headerAt page shift i) = allOnes32 ↔ i ∈ free := by
  have hmark := h.list.marked i (by rwa [h.total_eq])
  rwa [h.getPage_eq] at hmark

/-- An allocation takes the first page of the list. -/
theorem FreeRange.alloc (g : Layout map page shift total) {i : Nat}
    (h : FreeRange map page shift total s (i :: free)) :
    (pageAllocSafe s.mem map).1 = some (headerAt page shift i) ∧
      FreeRange map page shift total (s.step map .alloc) free := by
  have hi : i < total := h.bound_total (by simp)
  obtain ⟨hfresh, hnodup⟩ := List.nodup_cons.mp h.list.nodup
  have hcall := h.pageAllocSafe_eq g
  have hstep : s.step map .alloc =
      ⟨(pageAllocSafe s.mem map).2, headerAt page shift i :: s.live⟩ := by
    rw [PageState.step, hcall]
  have hnext : pageAvailField s.mem (headerAt page shift i) < 2 ^ 32 := load_lt _ _ 4
  have hcount := h.list.counted
  have havail : (loadPagemap s.mem map).avail < 2 ^ 32 := load_lt _ _ 4
  rw [List.length_cons] at hcount
  have hdec : ((loadPagemap s.mem map).avail + 2 ^ 32 - 1) % 2 ^ 32 = free.length := by omega
  have hmap : loadPagemap (pageAllocSafe s.mem map).2 map = { loadPagemap s.mem map with
      list := pageAvailField s.mem (headerAt page shift i), avail := free.length } := by
    rw [hcall, loadPagemap_setMapAvail, loadPagemap_setMapList,
      g.loadPagemap_setPageHdr s.mem 0 hi, hdec, Nat.mod_eq_of_lt hnext]
  have hlinks : ∀ j < total, pageAvailField (pageAllocSafe s.mem map).2 (headerAt page shift j) =
      pageAvailField s.mem (headerAt page shift j) := by
    intro j hj
    rw [hcall, setMapAvail, g.pageAvailField_map _ _ hj (by decide), setMapList,
      g.pageAvailField_map _ _ hj (by decide), g.pageAvailField_setPageHdr _ _ hi hj]
  have hmarks : ∀ j < total, pageHdrField (pageAllocSafe s.mem map).2 (headerAt page shift j) =
      if j = i then 0 else pageHdrField s.mem (headerAt page shift j) := by
    intro j hj
    rw [hcall, setMapAvail, g.pageHdrField_map _ _ hj (by decide), setMapList,
      g.pageHdrField_map _ _ hj (by decide), g.pageHdrField_setPageHdr _ hi hj (by decide)]
  refine ⟨by rw [hcall], ?_⟩
  rw [hstep]
  refine h.update ⟨_, _⟩ hmap ?_ hnodup ?_ ?_ ?_ ?_
  · exact h.chain.2.congr fun j hj => hlinks j (h.bound_total (by simp [hj]))
  · exact fun j hj => h.bound_total (by simp [hj])
  · intro j hj
    rw [hmarks j hj]
    by_cases hij : j = i
    · subst hij
      rw [if_pos rfl]
      exact ⟨fun hzero => absurd hzero (by decide), fun hin => absurd hin hfresh⟩
    · rw [if_neg hij, h.marked hj, List.mem_cons, or_iff_right hij]
  · exact mem_live_cons_iff h.live_iff hi hfresh
  · refine List.nodup_cons.mpr ⟨?_, h.live_nodup⟩
    intro hlive
    obtain ⟨j, _, hfree, heq⟩ := (h.live_iff _).mp hlive
    rw [← headerAt_injective heq] at hfree
    exact hfree (by simp)

/-- With no page left `page_alloc_safe` returns `NULL` and changes nothing. -/
theorem FreeRange.alloc_empty (h : FreeRange map page shift total s []) :
    pageAllocSafe s.mem map = (none, s.mem) := by
  have hhead : (loadPagemap s.mem map).list = allOnes32 := h.list.chain
  have hnull : getPageSafe s.mem map allOnes32 = none := if_pos (Or.inr rfl)
  simp only [pageAllocSafe, hhead, hnull]

theorem FreeRange.length_lt (h : FreeRange map page shift total s free) {i : Nat} (hi : i < total)
    (hfree : i ∉ free) : free.length < total := by
  have hnodup : (i :: free).Nodup := List.nodup_cons.mpr ⟨hfree, h.list.nodup⟩
  have hsubset : (i :: free) ⊆ List.range total := by
    intro j hj
    rcases List.mem_cons.mp hj with rfl | hmem
    · exact List.mem_range.mpr hi
    · exact List.mem_range.mpr (h.bound_total hmem)
  simpa using (hnodup.subperm hsubset).length_le

theorem FreeRange.pageIndex_eq (g : Layout map page shift total) {m : Mem}
    (h : FreeRange map page shift total s free) (hm : loadPagemap m map = loadPagemap s.mem map)
    {i : Nat} (hi : i < total) : pageIndex m map (headerAt page shift i) = i := by
  have hpos : 0 < 2 ^ shift := by positivity
  have htotal := g.index_fits
  have hlt : i < 2 ^ 32 := by
    unfold allOnes32 at htotal
    omega
  rw [pageIndex, hm, h.shift_eq, h.page_eq, headerAt, Nat.add_sub_cancel_left, Nat.shiftLeft_eq,
    Nat.shiftRight_eq_div_pow, Nat.mul_div_cancel _ hpos, Nat.mod_eq_of_lt hlt]

/-- The words that `page_free` writes. -/
theorem FreeRange.pageFree_eq (g : Layout map page shift total)
    (h : FreeRange map page shift total s free) {i : Nat} (hi : i < total) :
    pageFree s.mem map (headerAt page shift i) =
      setMapAvail (setMapList (setPageAvail (setPageHdr s.mem (headerAt page shift i) allOnes32)
        (headerAt page shift i) (loadPagemap s.mem map).list) map i) map (free.length + 1) := by
  have hsame : loadPagemap (setPageAvail (setPageHdr s.mem (headerAt page shift i) allOnes32)
      (headerAt page shift i) (loadPagemap s.mem map).list) map = loadPagemap s.mem map := by
    rw [g.loadPagemap_setPageAvail _ _ hi, g.loadPagemap_setPageHdr _ _ hi]
  simp only [pageFree, g.loadPagemap_setPageHdr s.mem allOnes32 hi, loadPagemap_setMapList, hsame,
    h.pageIndex_eq g hsame hi, h.list.counted]

/-- Freeing an allocated page links it in front of the list. -/
theorem FreeRange.free_page (g : Layout map page shift total)
    (h : FreeRange map page shift total s free) {p : Nat} (hlive : p ∈ s.live) :
    ∃ i, p = headerAt page shift i ∧
      FreeRange map page shift total (s.step map (.free p)) (i :: free) := by
  obtain ⟨i, hi, hfree, rfl⟩ := (h.live_iff p).mp hlive
  have hcall := h.pageFree_eq g hi
  have htotal := g.index_fits
  have hlength := h.length_lt hi hfree
  have hlist : (loadPagemap s.mem map).list < 2 ^ 32 := load_lt _ _ 4
  unfold allOnes32 at htotal
  have hmap : loadPagemap (pageFree s.mem map (headerAt page shift i)) map =
      { loadPagemap s.mem map with list := i, avail := free.length + 1 } := by
    rw [hcall, loadPagemap_setMapAvail, loadPagemap_setMapList, g.loadPagemap_setPageAvail _ _ hi,
      g.loadPagemap_setPageHdr _ _ hi, Nat.mod_eq_of_lt (by omega), Nat.mod_eq_of_lt (by omega)]
  have hlinks : ∀ j < total, pageAvailField (pageFree s.mem map (headerAt page shift i))
      (headerAt page shift j) = if j = i then (loadPagemap s.mem map).list else
        pageAvailField s.mem (headerAt page shift j) := by
    intro j hj
    rw [hcall, setMapAvail, g.pageAvailField_map _ _ hj (by decide), setMapList,
      g.pageAvailField_map _ _ hj (by decide), g.pageAvailField_setPageAvail _ hi hj hlist,
      g.pageAvailField_setPageHdr _ _ hi hj]
  have hmarks : ∀ j < total, pageHdrField (pageFree s.mem map (headerAt page shift i))
      (headerAt page shift j) = if j = i then allOnes32 else
        pageHdrField s.mem (headerAt page shift j) := by
    intro j hj
    rw [hcall, setMapAvail, g.pageHdrField_map _ _ hj (by decide), setMapList,
      g.pageHdrField_map _ _ hj (by decide), g.pageHdrField_setPageAvail _ _ hi hj,
      g.pageHdrField_setPageHdr _ hi hj (by decide)]
  refine ⟨i, rfl, h.update _ hmap ?_ ?_ ?_ ?_ ?_ ?_⟩
  · apply h.chain.push
    · exact (hlinks i hi).trans (if_pos rfl)
    · intro j hj
      have hne : j ≠ i := by
        rintro rfl
        exact hfree hj
      exact (hlinks j (h.bound_total hj)).trans (if_neg hne)
  · exact List.nodup_cons.mpr ⟨hfree, h.list.nodup⟩
  · intro j hj
    rcases List.mem_cons.mp hj with rfl | hmem
    · exact hi
    · exact h.bound_total hmem
  · intro j hj
    refine (Eq.congr_left (hmarks j hj)).trans ?_
    by_cases hij : j = i
    · simp [hij]
    · rw [if_neg hij, h.marked hj, List.mem_cons, or_iff_right hij]
  · exact mem_live_erase_iff h.live_iff h.live_nodup fun _ => headerAt_injective
  · exact h.live_nodup.erase _

end Calls

/-! ## The preparation -/

section Init

variable {map page shift total : Nat}

/-- What a turn of the loop of `page_range_init` writes. -/
def initPage (m : Mem) (p i : Nat) : Mem :=
  setPageAvail (setPageHdr (store (store m (p + 20) 4 allOnes32) (p + 24) 4 allOnes32) p allOnes32)
    p (i + 1)

theorem pageRangeInitFrom_turn {m : Mem} {i range : Nat} (hi : i < range) (p : Option Nat) :
    pageRangeInitFrom map range m i p =
      pageRangeInitFrom map range (initPage m (getPage m map i) i) (i + 1) (some (getPage m map i)) := by
  rw [pageRangeInitFrom, if_pos hi]
  rfl

theorem Layout.loadPagemap_initPage (g : Layout map page shift total) (m : Mem) {i : Nat}
    (hi : i < total) : loadPagemap (initPage m (headerAt page shift i) i) map = loadPagemap m map := by
  rw [initPage, g.loadPagemap_setPageAvail _ _ hi, g.loadPagemap_setPageHdr _ _ hi,
    g.loadPagemap_store _ _ hi (by decide), g.loadPagemap_store _ _ hi (by decide)]

theorem Layout.pageAvailField_initPage (g : Layout map page shift total) (m : Mem) {i j : Nat}
    (hi : i < total) (hj : j < total) :
    pageAvailField (initPage m (headerAt page shift i) i) (headerAt page shift j) =
      if j = i then i + 1 else pageAvailField m (headerAt page shift j) := by
  have htotal := g.index_fits
  unfold allOnes32 at htotal
  rw [initPage, g.pageAvailField_setPageAvail _ hi hj (by omega),
    g.pageAvailField_setPageHdr _ _ hi hj,
    g.pageAvailField_store _ _ hi hj (by decide) (by decide),
    g.pageAvailField_store _ _ hi hj (by decide) (by decide)]

theorem Layout.pageHdrField_initPage (g : Layout map page shift total) (m : Mem) {i j : Nat}
    (hi : i < total) (hj : j < total) :
    pageHdrField (initPage m (headerAt page shift i) i) (headerAt page shift j) =
      if j = i then allOnes32 else pageHdrField m (headerAt page shift j) := by
  rw [initPage, g.pageHdrField_setPageAvail _ _ hi hj,
    g.pageHdrField_setPageHdr _ hi hj (by decide),
    g.pageHdrField_store _ _ hi hj (by decide) (by decide),
    g.pageHdrField_store _ _ hi hj (by decide) (by decide)]

/-- The loop from page `i` on: every page from there on is marked and linked to the next index,
those in front of it stay, and the last page is remembered. -/
theorem Layout.pageRangeInitFrom_eq (g : Layout map page shift total) {m : Mem} {i : Nat}
    (hshift : (loadPagemap m map).shift = shift) (hpage : (loadPagemap m map).page = page)
    (hi : i ≤ total) (p : Option Nat) :
    (pageRangeInitFrom map total m i p).1 =
        (if i < total then some (headerAt page shift (total - 1)) else p) ∧
      loadPagemap (pageRangeInitFrom map total m i p).2 map = loadPagemap m map ∧
      ∀ j < total,
        pageAvailField (pageRangeInitFrom map total m i p).2 (headerAt page shift j) =
            (if i ≤ j then j + 1 else pageAvailField m (headerAt page shift j)) ∧
          pageHdrField (pageRangeInitFrom map total m i p).2 (headerAt page shift j) =
            (if i ≤ j then allOnes32 else pageHdrField m (headerAt page shift j)) := by
  induction hd : total - i generalizing m i p with
  | zero =>
      have hdone : ¬ i < total := by omega
      rw [pageRangeInitFrom, if_neg hdone, if_neg hdone]
      refine ⟨rfl, rfl, ?_⟩
      intro j hj
      rw [if_neg (by omega), if_neg (by omega)]
      exact ⟨rfl, rfl⟩
  | succ d ih =>
      have hlt : i < total := by omega
      have hget : getPage m map i = headerAt page shift i := by
        rw [getPage, hshift, hpage, headerAt]
      have hmap := g.loadPagemap_initPage m hlt
      obtain ⟨hlast, hkeep, hpages⟩ := ih (m := initPage m (headerAt page shift i) i) (i := i + 1)
        (by rw [hmap, hshift]) (by rw [hmap, hpage]) hlt (some (headerAt page shift i)) (by omega)
      rw [pageRangeInitFrom_turn hlt, hget, if_pos hlt]
      refine ⟨?_, hkeep.trans hmap, ?_⟩
      · rw [hlast]
        by_cases hmore : i + 1 < total
        · rw [if_pos hmore]
        · have heq : total - 1 = i := by omega
          rw [if_neg hmore, heq]
      · intro j hj
        obtain ⟨hlink, hmark⟩ := hpages j hj
        rw [hlink, hmark, g.pageAvailField_initPage m hlt hj, g.pageHdrField_initPage m hlt hj]
        rcases Nat.lt_trichotomy j i with hji | rfl | hji
        · rw [if_neg (by omega), if_neg (by omega), if_neg (by omega), if_neg (by omega),
            if_neg (by omega), if_neg (by omega)]
          exact ⟨rfl, rfl⟩
        · rw [if_neg (by omega), if_pos rfl, if_pos (le_refl _), if_neg (by omega), if_pos rfl,
            if_pos (le_refl _)]
          exact ⟨rfl, rfl⟩
        · rw [if_pos (by omega), if_pos (by omega), if_pos (by omega), if_pos (by omega)]
          exact ⟨rfl, rfl⟩

/-- Links to the next index, and an end mark behind the last. -/
theorem chain_range'_ended {next : Nat → Nat} {stop : Nat} (d k : Nat)
    (hnext : ∀ j, k ≤ j → j < k + d → next j = j + 1) (hlast : next (k + d) = stop) :
    Chain next stop k (List.range' k (d + 1)) := by
  induction d generalizing k with
  | zero => exact ⟨rfl, hlast⟩
  | succ d ih =>
      refine ⟨rfl, ?_⟩
      rw [hnext k (le_refl k) (by omega)]
      apply ih (k + 1)
      · intro j hkj hj
        exact hnext j (by omega) (by omega)
      · rw [Nat.add_right_comm]
        exact hlast

/-- After `page_range_init` all pages are free. -/
theorem freeRange_pageRangeInit (g : Layout map page shift total) {m : Mem}
    (htotal : (loadPagemap m map).total = total) (hshift : (loadPagemap m map).shift = shift)
    (hpage : (loadPagemap m map).page = page) (hlist : (loadPagemap m map).list = 0)
    (havail : (loadPagemap m map).avail = total) (hsome : 1 ≤ total) :
    FreeRange map page shift total ⟨pageRangeInit m map 0 total, []⟩ (List.range total) := by
  have hlast : total - 1 < total := by omega
  obtain ⟨hpageLast, hmap, hpages⟩ := g.pageRangeInitFrom_eq hshift hpage (Nat.zero_le total) none
  rw [if_pos (show 0 < total from hsome)] at hpageLast
  have hinit : pageRangeInit m map 0 total = setPageAvail (pageRangeInitFrom map total m 0 none).2
      (headerAt page shift (total - 1)) allOnes32 := by
    rw [pageRangeInit]
    split
    · next heq =>
        rw [heq] at hpageLast
        exact absurd hpageLast (by simp)
    · next p m' heq =>
        rw [heq] at hpageLast ⊢
        rw [Option.some.inj hpageLast]
  have hsame : loadPagemap (pageRangeInit m map 0 total) map = loadPagemap m map := by
    rw [hinit, g.loadPagemap_setPageAvail _ _ hlast, hmap]
  have hlink : ∀ j < total, pageAvailField (pageRangeInit m map 0 total) (headerAt page shift j) =
      if j = total - 1 then allOnes32 else j + 1 := by
    intro j hj
    rw [hinit, g.pageAvailField_setPageAvail _ hlast hj (by decide), (hpages j hj).1,
      if_pos (Nat.zero_le j)]
  have hmark : ∀ j < total,
      pageHdrField (pageRangeInit m map 0 total) (headerAt page shift j) = allOnes32 := by
    intro j hj
    rw [hinit, g.pageHdrField_setPageAvail _ _ hlast hj, (hpages j hj).2, if_pos (Nat.zero_le j)]
  have hget : ∀ j, getPage (pageRangeInit m map 0 total) map j = headerAt page shift j := by
    intro j
    rw [getPage, hsame, hshift, hpage, headerAt]
  refine ⟨by rw [hsame, htotal], by rw [hsame, hshift], by rw [hsame, hpage],
    ⟨?_, List.nodup_range, ?_, ?_, ?_⟩, ?_, List.nodup_nil⟩
  · simp only [hget]
    rw [hsame, hlist, List.range_eq_range']
    obtain ⟨d, rfl⟩ := Nat.exists_eq_add_of_le' hsome
    apply chain_range'_ended
    · intro j _ hj
      rw [hlink j (by omega), if_neg (by omega)]
    · rw [hlink (0 + d) (by omega), if_pos (by omega)]
  · intro j hj
    rw [hsame, htotal]
    exact List.mem_range.mp hj
  · rw [hsame, havail, List.length_range]
  · intro j hj
    rw [hsame, htotal] at hj
    rw [hget, List.mem_range]
    exact iff_of_true (hmark j hj) hj
  · intro p
    refine iff_of_false (by simp) ?_
    rintro ⟨j, hj, hfree, -⟩
    exact hfree (List.mem_range.mpr hj)

end Init

/-- The free list is well formed and has the pages that are not allocated. The next allocation
takes one of them; it returns `NULL`, and changes nothing, exactly when there is none. A page
that is freed is the next that is allocated. -/
def RangeSound (map : Nat) (s : PageState) : Prop :=
  ∃ free, FreePages s.mem map free ∧
    (∀ p, p ∈ s.live ↔
      ∃ i < (loadPagemap s.mem map).total, i ∉ free ∧ p = getPage s.mem map i) ∧
    ((pageAllocSafe s.mem map).1 = none ↔ free = []) ∧
    (free = [] → (pageAllocSafe s.mem map).2 = s.mem) ∧
    (∀ p, (pageAllocSafe s.mem map).1 = some p → ∃ i ∈ free, p = getPage s.mem map i) ∧
    ∀ p ∈ s.live, (pageAllocSafe (pageFree s.mem map p) map).1 = some p

section Runs

variable {map page shift total : Nat} {s : PageState}

theorem FreeRange.sound (g : Layout map page shift total) {free : List Nat}
    (h : FreeRange map page shift total s free) : RangeSound map s := by
  refine ⟨free, h.list, ?_, ?_, ?_, ?_, ?_⟩
  · intro p
    simp only [h.getPage_eq, h.total_eq]
    exact h.live_iff p
  · cases free with
    | nil => simp [h.alloc_empty]
    | cons i free => simp [(h.alloc g).1]
  · rintro rfl
    rw [h.alloc_empty]
  · intro p hp
    cases free with
    | nil => simp [h.alloc_empty] at hp
    | cons i free =>
        rw [(h.alloc g).1] at hp
        refine ⟨i, List.mem_cons_self, ?_⟩
        rw [h.getPage_eq]
        exact (Option.some.inj hp).symm
  · intro p hp
    obtain ⟨i, rfl, hfreed⟩ := h.free_page g hp
    exact (hfreed.alloc g).1

theorem FreeRange.step (g : Layout map page shift total)
    (h : ∃ free, FreeRange map page shift total s free) {call : RangeCall} (hlegal : call.Legal s) :
    ∃ free, FreeRange map page shift total (s.rangeStep map call) free := by
  obtain ⟨free, hfree⟩ := h
  cases call with
  | alloc =>
      cases free with
      | nil =>
          have hsame : s.step map .alloc = s := by
            rw [PageState.step, hfree.alloc_empty]
          refine ⟨[], ?_⟩
          rw [PageState.rangeStep, hsame]
          exact hfree
      | cons i free => exact ⟨free, (hfree.alloc g).2⟩
  | free p =>
      obtain ⟨i, -, hfreed⟩ := hfree.free_page g hlegal
      exact ⟨i :: free, hfreed⟩

end Runs

/-- `page_range_init` builds a well-formed free list of all pages, and any run of
`page_alloc_safe` and of `page_free` of allocated pages keeps it well formed. -/
theorem pageRange_runs_sound {m : Mem} {map : Nat}
    (g : Layout map (loadPagemap m map).page (loadPagemap m map).shift (loadPagemap m map).total)
    (hsome : 1 ≤ (loadPagemap m map).total) (hlist : (loadPagemap m map).list = 0)
    (havail : (loadPagemap m map).avail = (loadPagemap m map).total) {calls : List RangeCall}
    (hlegal : EachStep (PageState.rangeStep map) RangeCall.Legal
      ⟨pageRangeInit m map 0 (loadPagemap m map).total, []⟩ calls) :
    Throughout (PageState.rangeStep map) (RangeSound map)
      ⟨pageRangeInit m map 0 (loadPagemap m map).total, []⟩ calls := by
  have hinit := freeRange_pageRangeInit g rfl rfl rfl hlist havail hsome
  refine throughout_of_invariant (I := fun s => ∃ free, FreeRange map _ _ _ s free) ?_ ?_
    ⟨_, hinit⟩ hlegal
  · rintro s ⟨free, hfree⟩
    exact hfree.sound g
  · intro s call hs hcall
    exact FreeRange.step g hs hcall

/-- A map of two pages. -/
def pairMap : Pagemap := { total := 2, avail := 2, shift := 5, page := 64 }

/-- Both pages of a map are allocated, and there is no third. -/
theorem pageRange_runs_sound_two :
    Throughout (PageState.rangeStep 0) (RangeSound 0)
      ⟨pageRangeInit (storePagemap (fun _ => 0) 0 pairMap) 0 0 2, []⟩ [.alloc, .alloc, .alloc] := by
  have hload : loadPagemap (storePagemap (fun _ => 0) 0 pairMap) 0 = pairMap := by
    apply loadPagemap_storePagemap
    constructor <;> decide
  have hlayout : Layout 0 pairMap.page pairMap.shift pairMap.total := by
    constructor <;> decide
  have hrun := @pageRange_runs_sound (storePagemap (fun _ => 0) 0 pairMap) 0
  rw [hload] at hrun
  exact hrun hlayout (by decide) rfl rfl ⟨trivial, trivial, trivial, trivial⟩

/-- A map of two pages that are shorter than their headers. -/
def narrowMap : Pagemap := { total := 2, avail := 2, shift := 4, page := 64 }

/-- The mark of the second page is written over the link of the first, so the list ends behind the
first page, and `avail` is two. -/
theorem pageRange_narrow_not_sound :
    loadPagemap (storePagemap (fun _ => 0) 0 narrowMap) 0 = narrowMap ∧
      ¬ RangeSound 0 ⟨pageRangeInit (storePagemap (fun _ => 0) 0 narrowMap) 0 0 2, []⟩ := by
  refine ⟨loadPagemap_storePagemap _ _ (by constructor <;> decide), ?_⟩
  rintro ⟨free, hpages, -⟩
  have hmap : loadPagemap (pageRangeInit (storePagemap (fun _ => 0) 0 narrowMap) 0 0 2) 0 =
      narrowMap := by decide +kernel
  have hlink : pageAvailField (pageRangeInit (storePagemap (fun _ => 0) 0 narrowMap) 0 0 2)
      (getPage (pageRangeInit (storePagemap (fun _ => 0) 0 narrowMap) 0 0 2) 0 0) = allOnes32 := by
    decide +kernel
  have hcount : 2 = free.length := by
    rw [← hpages.counted, hmap]
    rfl
  obtain ⟨i, j, rfl⟩ := List.length_eq_two.mp hcount.symm
  obtain ⟨hfirst, hsecond, -⟩ := hpages.chain
  rw [hmap] at hfirst
  obtain rfl : 0 = i := hfirst
  have hend : allOnes32 = j := hlink.symm.trans hsecond
  have hbound := hpages.bound j (by simp)
  rw [← hend, hmap] at hbound
  exact absurd hbound (by decide)

end OpenAAA.Paging
