import OpenAAA.Mem.Page

/-!
`mem/map.c`: page maps in files. The operating system is a file that may exist,
a place in memory where it is mapped, and the promise that a shared mapping is
the file: closing the map leaves the mapped bytes in it. System calls that have
no reason to fail succeed, and the addresses that `mmap` picks are arguments.

Opening an existing file validates the stored header and then overwrites all of
it, `magic`, `size` and `total` included. The file that was opened once is
therefore not valid any more, and the next `mmap_open` initialises it again.
-/

namespace OpenAAA.Paging

open Memory Sys

/-- `vm_area_size`: all operands are at most 32 bits wide, and only the result
is widened. -/
def vmAreaSize (shift total : Nat) : Nat :=
  (cpuPageSize + alignTo 32 (2 ^ shift % 2 ^ 32 * total % 2 ^ 32) cpuPageSize) % 2 ^ 32

/-- A regular file. -/
structure File where
  size : Nat
  data : Nat → Byte

/-- `ftruncate`: cut, or grown by zero bytes. -/
def File.truncate (file : File) (size : Nat) : File :=
  ⟨size, fun i => if i < file.size then file.data i else 0⟩

/-- The process, the file behind the name, and where the file is mapped. -/
structure World where
  mem : Mem
  file : Option File
  mapping : Option (Nat × Nat)

/-- `mmap` of the whole file: whole pages appear, zero behind the file's end. -/
def mapFile (m : Mem) (addr : Nat) (file : File) : Mem := fun x =>
  if addr ≤ x ∧ x < addr + roundUp file.size cpuPageSize then
    if x - addr < file.size then file.data (x - addr) else 0
  else m x

/-- True for a header that is not valid, as in the source. -/
def vmAreaValidate (m : Mem) (map fileSize : Nat) : Bool :=
  let v := loadPagemap m map
  v.magic ≠ pageHdrMagic ∨ v.size ≠ vmAreaSize v.shift v.total ∨ v.size ≠ fileSize

def vmAreaOpen (w : World) (addr : Nat) : World × Option Nat :=
  match w.file with
  | none => (w, none)
  | some file =>
      -- An empty file cannot be mapped.
      if file.size = 0 then (w, none)
      else
        let m := mapFile w.mem addr file
        if vmAreaValidate m addr file.size then ({ w with mem := m, mapping := none }, none)
        else
          let m := storePagemap m addr { init := 0, list := 0, page := addr + cpuPageSize }
          ({ w with mem := m, mapping := some (addr, file.size) }, some addr)

def vmAreaInit (w : World) (addr shift total : Nat) : World × Option Nat :=
  let size := vmAreaSize shift total
  let file := (w.file.getD ⟨0, fun _ => 0⟩).truncate size
  if size = 0 then ({ w with file := some file, mapping := none }, none)
  else
    let m := mapFile w.mem addr file
    let m := storePagemap m addr {
      size := size
      magic := pageHdrMagic
      align := cpuStructAlign
      total := total
      shift := shift
      avail := total
      list := 0
      init := 1
      page := addr + cpuPageSize }
    let m := pageForEach m addr (pageInit addr)
    (⟨m, some file, some (addr, size)⟩, some addr)

/-- `mmap_open`; the two calls map the file at `addr` and at `addr'`. -/
def mmapOpen (w : World) (addr addr' shift total : Nat) : World × Option Nat :=
  match vmAreaOpen w addr with
  | (w, some map) => (w, some map)
  | (w, none) => vmAreaInit w addr' shift total

/-- The shared mapping is the file. -/
def World.persist (w : World) : World :=
  match w.file, w.mapping with
  | some _, some (addr, size) =>
      { w with file := some ⟨size, fun i => w.mem (addr + i)⟩ }
  | _, _ => w

/-- `mmap_close`: the result of `munmap`, which refuses the length zero and then
leaves the mapping in place. The bytes of the mapping are in the file either way. -/
def mmapClose (w : World) (map : Nat) : Int × World :=
  if (loadPagemap w.mem map).size = 0 then (-1, w.persist)
  else (0, { w.persist with mapping := none })

end OpenAAA.Paging
