import OpenAAA.Lib.Linked
import OpenAAA.Sys.Compiler

/-!
`mem/page.h`: a map of equal pages whose free pages are linked through their own
headers. The map and the pages are C structures in memory, so they are read and
written field by field at the offsets of the x86-64 layout; a page is known by
its address and the free list by page indices.
-/

namespace OpenAAA.Paging

open Memory Sys

/-- `PAGE_HDR_MAGIC` -/
def pageHdrMagic : Nat := 0x40000000

/-- `(u32)~0U`, the mark of a free page and of the end of a page list. -/
def allOnes32 : Nat := 2 ^ 32 - 1

/-- `struct pagemap`. Fields that an initialiser leaves out are zero. -/
structure Pagemap where
  size : Nat := 0
  magic : Nat := 0
  list : Nat := 0
  avail : Nat := 0
  parts : Nat := 0
  total : Nat := 0
  shift : Nat := 0
  partsMax : Nat := 0
  init : Nat := 0
  align : Nat := 0
  page : Nat := 0
deriving DecidableEq

/-- `sizeof(struct pagemap)` -/
def pagemapSize : Nat := 48

def loadPagemap (m : Mem) (map : Nat) : Pagemap where
  size := load m map 8
  magic := load m (map + 8) 4
  list := load m (map + 12) 4
  avail := load m (map + 16) 4
  parts := load m (map + 20) 4
  total := load m (map + 24) 4
  shift := load m (map + 28) 4
  partsMax := load m (map + 32) 2
  init := load m (map + 34) 2
  align := load m (map + 36) 2
  page := load m (map + 40) 8

def setMapList (m : Mem) (map v : Nat) : Mem := store m (map + 12) 4 v

def setMapAvail (m : Mem) (map v : Nat) : Mem := store m (map + 16) 4 v

/-- `(*map) = (struct pagemap) { ... }` -/
def storePagemap (m : Mem) (map : Nat) (v : Pagemap) : Mem :=
  let m := store m map 8 v.size
  let m := store m (map + 8) 4 v.magic
  let m := setMapList m map v.list
  let m := setMapAvail m map v.avail
  let m := store m (map + 20) 4 v.parts
  let m := store m (map + 24) 4 v.total
  let m := store m (map + 28) 4 v.shift
  let m := store m (map + 32) 2 v.partsMax
  let m := store m (map + 34) 2 v.init
  let m := store m (map + 36) 2 v.align
  store m (map + 40) 8 v.page

/-- `struct page`, the header at the start of every page. -/
structure Page where
  hdr : Nat := 0
  chk : Nat := 0
  rcu : Nat := 0
  avail : Nat := 0
  hash : Nat := 0
  part : Nat := 0
deriving DecidableEq

/-- `sizeof(struct page)` -/
def pageSize : Nat := 32

def pageHdrField (m : Mem) (page : Nat) : Nat := load m page 4

def pageAvailField (m : Mem) (page : Nat) : Nat := load m (page + 16) 4

def setPageHdr (m : Mem) (page v : Nat) : Mem := store m page 4 v

def setPageAvail (m : Mem) (page v : Nat) : Mem := store m (page + 16) 4 v

/-- `(*page) = (struct page) { ... }` -/
def storePage (m : Mem) (page : Nat) (v : Page) : Mem :=
  let m := setPageHdr m page v.hdr
  let m := store m (page + 4) 4 v.chk
  let m := store m (page + 8) 8 v.rcu
  let m := setPageAvail m page v.avail
  let m := store m (page + 20) 4 v.hash
  store m (page + 24) 4 v.part

/-- `get_page(map, index)` -/
def getPage (m : Mem) (map index : Nat) : Nat :=
  (loadPagemap m map).page + index <<< (loadPagemap m map).shift

def getPageSafe (m : Mem) (map index : Nat) : Option Nat :=
  if index > (loadPagemap m map).total ∨ index = allOnes32 then none
  else some ((loadPagemap m map).page + index <<< (loadPagemap m map).shift)

def pageIndex (m : Mem) (map page : Nat) : Nat :=
  ((page - (loadPagemap m map).page) >>> (loadPagemap m map).shift) % 2 ^ 32

/-- The page that `page_alloc_safe` returns, `none` for `NULL`, and the memory
after the call. -/
def pageAllocSafe (m : Mem) (map : Nat) : Option Nat × Mem :=
  match getPageSafe m map (loadPagemap m map).list with
  | none => (none, m)
  | some page =>
      let m := setPageHdr m page 0
      let m := setMapList m map (pageAvailField m page)
      let m := setMapAvail m map ((loadPagemap m map).avail + 2 ^ 32 - 1)
      (some page, m)

def pageFree (m : Mem) (map page : Nat) : Mem :=
  let m := setPageHdr m page allOnes32
  let m := setPageAvail m page (loadPagemap m map).list
  let m := setMapList m map (pageIndex m map page)
  setMapAvail m map ((loadPagemap m map).avail + 1)

/-- `page_for_each`: `p` runs from the first page up to `stop`, which was computed
once, in steps of `1U << map->shift`, which is read again at every step. The
distance between the two bounds the number of turns. -/
def pageForEachFrom (map : Nat) (body : Mem → Nat → Mem) (stop : Nat) :
    Nat → Mem → Nat → Mem
  | 0, m, _ => m
  | fuel + 1, m, p =>
      if p < stop then
        let m := body m p
        pageForEachFrom map body stop fuel m (p + 2 ^ (loadPagemap m map).shift % 2 ^ 32)
      else m

def pageForEach (m : Mem) (map : Nat) (body : Mem → Nat → Mem) : Mem :=
  let first := getPage m map 0
  let stop := getPage m map (loadPagemap m map).total
  pageForEachFrom map body stop (stop - first) m first

/-- The initialiser that `vm_area_init` and `mmap_pages_init` run on every page:
each page links to the one after it, and a page beyond the last would end the
list. -/
def pageInit (map : Nat) (m : Mem) (page : Nat) : Mem :=
  let index := pageIndex m map page
  storePage m page {
    hdr := allOnes32
    part := allOnes32
    hash := allOnes32
    avail := if index ≥ (loadPagemap m map).total then allOnes32 else index + 1 }

/-- The loop of `page_range_init`, with the last `page`. -/
def pageRangeInitFrom (map range : Nat) (m : Mem) (i : Nat) (page : Option Nat) :
    Option Nat × Mem :=
  if i < range then
    let page := getPage m map i
    let m := store m (page + 20) 4 allOnes32
    let m := store m (page + 24) 4 allOnes32
    let m := setPageHdr m page allOnes32
    let m := setPageAvail m page (i + 1)
    pageRangeInitFrom map range m (i + 1) (some page)
  else (page, m)
termination_by range - i

/-- `page_range_init` -/
def pageRangeInit (m : Mem) (map base range : Nat) : Mem :=
  match pageRangeInitFrom map range m base none with
  | (none, m) => m
  | (some page, m) => setPageAvail m page allOnes32

section Fields

variable {m m' : Mem} {map page : Nat}

/-- The values that the fields of `struct pagemap` can hold. -/
structure Pagemap.Fits (v : Pagemap) : Prop where
  size : v.size < 2 ^ 64
  magic : v.magic < 2 ^ 32
  list : v.list < 2 ^ 32
  avail : v.avail < 2 ^ 32
  parts : v.parts < 2 ^ 32
  total : v.total < 2 ^ 32
  shift : v.shift < 2 ^ 32
  partsMax : v.partsMax < 2 ^ 16
  init : v.init < 2 ^ 16
  align : v.align < 2 ^ 16
  page : v.page < 2 ^ 64

/-- The map's structure is read from its own bytes, wherever they are. -/
theorem loadPagemap_congr {map' : Nat}
    (h : ∀ i < pagemapSize, m' (map' + i) = m (map + i)) :
    loadPagemap m' map' = loadPagemap m map := by
  have hfield : ∀ off n, off + n ≤ 48 → load m' (map' + off) n = load m (map + off) n := by
    intro off n hfit
    apply load_congr
    intro i hi
    rw [Nat.add_assoc, Nat.add_assoc]
    exact h (off + i) (by unfold pagemapSize; omega)
  have hsize := hfield 0 8 (by decide)
  rw [Nat.add_zero, Nat.add_zero] at hsize
  simp only [loadPagemap, hsize, hfield 8 4 (by decide), hfield 12 4 (by decide),
    hfield 16 4 (by decide), hfield 20 4 (by decide), hfield 24 4 (by decide),
    hfield 28 4 (by decide), hfield 32 2 (by decide), hfield 34 2 (by decide),
    hfield 36 2 (by decide), hfield 40 8 (by decide)]

theorem loadPagemap_of_agree (h : Agree m m' map pagemapSize) :
    loadPagemap m' map = loadPagemap m map :=
  loadPagemap_congr (fun i hi => h (map + i) (by omega) (by omega))

theorem loadPagemap_setMapList (m : Mem) (map v : Nat) :
    loadPagemap (setMapList m map v) map =
      { loadPagemap m map with list := v % 2 ^ 32 } := by
  simp (disch := (unfold Apart; omega)) only [loadPagemap, setMapList, load_store_apart,
    load_store_same]
  rfl

theorem loadPagemap_setMapAvail (m : Mem) (map v : Nat) :
    loadPagemap (setMapAvail m map v) map =
      { loadPagemap m map with avail := v % 2 ^ 32 } := by
  simp (disch := (unfold Apart; omega)) only [loadPagemap, setMapAvail, load_store_apart,
    load_store_same]
  rfl

theorem loadPagemap_storePagemap (m : Mem) (map : Nat) {v : Pagemap} (hv : v.Fits) :
    loadPagemap (storePagemap m map v) map = v := by
  obtain ⟨h1, h2, h3, h4, h5, h6, h7, h8, h9, h10, h11⟩ := hv
  simp (disch := (unfold Apart; omega)) only [loadPagemap, storePagemap, setMapList,
    setMapAvail, load_store_apart, load_store_same]
  have h256 : 256 ^ 8 = 2 ^ 64 ∧ 256 ^ 4 = 2 ^ 32 ∧ 256 ^ 2 = 2 ^ 16 := by decide
  rw [h256.1, h256.2.1, h256.2.2, Nat.mod_eq_of_lt h1, Nat.mod_eq_of_lt h2,
    Nat.mod_eq_of_lt h3, Nat.mod_eq_of_lt h4, Nat.mod_eq_of_lt h5, Nat.mod_eq_of_lt h6,
    Nat.mod_eq_of_lt h7, Nat.mod_eq_of_lt h8, Nat.mod_eq_of_lt h9, Nat.mod_eq_of_lt h10,
    Nat.mod_eq_of_lt h11]

/-- Writing the map's structure changes nothing outside it. -/
theorem storePagemap_agree {v : Pagemap} {a n : Nat}
    (h : Apart map pagemapSize a n) : Agree m (storePagemap m map v) a n := by
  have hfield : ∀ (m : Mem) (off k x : Nat), off + k ≤ 48 →
      Agree m (store m (map + off) k x) a n := by
    intro m off k x hfit
    apply store_agree
    apply h.mono_left
    unfold Inside pagemapSize
    omega
  intro x hl hu
  simp only [storePagemap, setMapList, setMapAvail]
  rw [hfield _ 40 8 _ (by decide) x hl hu, hfield _ 36 2 _ (by decide) x hl hu,
    hfield _ 34 2 _ (by decide) x hl hu, hfield _ 32 2 _ (by decide) x hl hu,
    hfield _ 28 4 _ (by decide) x hl hu, hfield _ 24 4 _ (by decide) x hl hu,
    hfield _ 20 4 _ (by decide) x hl hu, hfield _ 16 4 _ (by decide) x hl hu,
    hfield _ 12 4 _ (by decide) x hl hu, hfield _ 8 4 _ (by decide) x hl hu]
  exact hfield m 0 8 v.size (by decide) x hl hu

theorem storePage_agree {v : Page} {a n : Nat} (h : Apart page pageSize a n) :
    Agree m (storePage m page v) a n := by
  have hfield : ∀ (m : Mem) (off k x : Nat), off + k ≤ 32 →
      Agree m (store m (page + off) k x) a n := by
    intro m off k x hfit
    apply store_agree
    apply h.mono_left
    unfold Inside pageSize
    omega
  intro x hl hu
  simp only [storePage, setPageHdr, setPageAvail]
  rw [hfield _ 24 4 _ (by decide) x hl hu, hfield _ 20 4 _ (by decide) x hl hu,
    hfield _ 16 4 _ (by decide) x hl hu, hfield _ 8 8 _ (by decide) x hl hu,
    hfield _ 4 4 _ (by decide) x hl hu]
  exact hfield m 0 4 v.hdr (by decide) x hl hu

theorem pageAvailField_storePage (m : Mem) (page : Nat) (v : Page) :
    pageAvailField (storePage m page v) page = v.avail % 2 ^ 32 := by
  simp (disch := (unfold Apart; omega)) only [pageAvailField, storePage, setPageHdr,
    setPageAvail, load_store_apart, load_store_same]
  rfl

end Fields

end OpenAAA.Paging
