import OpenAAA.Lib.Files
import OpenAAA.Opt.FastbufReads

/-!
`generic/opt/fb-file.c`: the back-end for files. It keeps the window of the file that is in the
buffer, to read from it again after a seek, and delays its own seeks. The system may read or write
less than it was asked to; how much it does at its n-th call is the parameter `io`.
-/

namespace OpenAAA.Fastbufs

open Memory Files

/-- `struct fb_file` behind its `struct fastbuf`, the file with the offset of its descriptor, and
the number of the system calls so far. -/
structure FbFile where
  keepBackBuf : Bool
  wpos : Nat
  wlen : Nat
  file : List Byte
  offset : Nat
  calls : Nat

/-- `memmove` inside the buffer -/
def memmove (buf : Nat → Byte) (dest src n : Nat) : Nat → Byte :=
  fun i => if dest ≤ i ∧ i < dest + n then buf (src + (i - dest)) else buf i

section System

variable (io : Nat → Nat)

/-- `read` of at most `n` bytes -/
def FbFile.sysRead (F : FbFile) (n : Nat) : List Byte × FbFile :=
  let data := (F.file.drop F.offset).take (min (max 1 (io F.calls)) n)
  (data, { F with offset := F.offset + data.length, calls := F.calls + 1 })

/-- `write`: how many of the bytes it has written. -/
def FbFile.sysWrite (F : FbFile) (data : List Byte) : Nat × FbFile :=
  let n := min (max 1 (io F.calls)) data.length
  (n, { F with
    file := overwrite 0 F.file F.offset (data.take n)
    offset := F.offset + n, calls := F.calls + 1 })

/-! ## Reading -/

/-- `eof:` -/
def atEof (f : Fastbuf FbFile) : Fastbuf FbFile × Bool :=
  ({ f with bptr := 0, bstop := 0, back := { f.back with wlen := 0 } }, false)

/-- The end of `bfd_refill`, with `readLen` bytes of the buffer left. -/
def finishRead (f : Fastbuf FbFile) (readPtr readLen : Nat) : Fastbuf FbFile × Bool :=
  let bstop := if readLen ≠ 0 then readPtr else f.bstop
  ({ f with
    bstop := bstop, pos := f.pos + (bstop - f.bptr), back := { f.back with wlen := bstop } },
    bstop ≠ f.bptr)

/-- `do ... while (read_ptr <= f->bptr);` -/
def readLoop : Nat → Fastbuf FbFile → Nat → Nat → Except FbFault (Fastbuf FbFile × Bool)
  | 0, _, _, _ => .error .stuck
  | fuel + 1, f, readPtr, readLen =>
    let r := f.back.sysRead io readLen
    if r.1.isEmpty then
      let f := { f with back := r.2 }
      .ok (if readPtr < f.bptr then atEof f else finishRead f readPtr readLen)
    else
      let f := { f with
        buf := memcpy f.buf readPtr r.1, back := { r.2 with wpos := r.2.wpos + r.1.length } }
      if readPtr + r.1.length ≤ f.bptr then
        readLoop fuel f (readPtr + r.1.length) (readLen - r.1.length)
      else .ok (finishRead f (readPtr + r.1.length) (readLen - r.1.length))

/-- `seek:` and what follows, with `back` bytes in front of the position. -/
def seekAndRead (f : Fastbuf FbFile) (back : Nat) : Except FbFault (Fastbuf FbFile × Bool) :=
  readLoop io (f.bufend + 1)
    { f with
      bptr := back, bstop := f.bufend
      back := { f.back with wpos := f.pos - back, offset := f.pos - back } } 0 f.bufend

/-- `while (skip)`: whether it got to the end of what was to be skipped. -/
def skipLoop : Nat → Fastbuf FbFile → Nat → Except FbFault (Fastbuf FbFile × Bool)
  | 0, f, skip => if skip = 0 then .ok (f, true) else .error .stuck
  | fuel + 1, f, skip =>
    if skip = 0 then .ok (f, true)
    else
      let r := f.back.sysRead io (min skip f.bufend)
      if r.1.isEmpty then
        .ok ({ f with back := { r.2 with wpos := r.2.wpos - skip } }, false)
      else skipLoop fuel { f with buf := memcpy f.buf 0 r.1, back := r.2 } (skip - r.1.length)

/-- A short seek forward reads what is skipped. -/
def skipAndRead (f : Fastbuf FbFile) (back skip : Nat) :
    Except FbFault (Fastbuf FbFile × Bool) := do
  let (f, reached) ← skipLoop io skip { f with back := { f.back with wpos := f.back.wpos + skip } } skip
  if reached then
    readLoop io (f.bufend + 1) { f with bptr := back, bstop := f.bufend } 0 f.bufend
  else pure (atEof f)

/-- Forward or no seek. -/
def refillForward (f : Fastbuf FbFile) (back : Nat) : Except FbFault (Fastbuf FbFile × Bool) :=
  let diff := f.pos - f.back.wpos
  if 4 * f.bufend < diff then seekAndRead io f back
  else if back ≤ diff % 2 ^ 32 then skipAndRead io f back ((diff - back) % 2 ^ 32)
  else
    let keep := back - diff % 2 ^ 32
    if f.back.wlen ≤ keep then
      readLoop io (f.bufend + 1) { f with bptr := diff + f.back.wlen, bstop := f.bufend }
        f.back.wlen (f.bufend - f.back.wlen)
    else
      readLoop io (f.bufend + 1)
        { f with
          buf := memmove f.buf 0 (f.back.wlen - keep) keep, bptr := back, bstop := f.bufend }
        keep (f.bufend - keep)

/-- Backwards seek. -/
def refillBackward (f : Fastbuf FbFile) (back : Nat) : Except FbFault (Fastbuf FbFile × Bool) :=
  let diff := f.back.wpos - f.pos
  if 2 * f.bufend < diff then seekAndRead io f (min back f.pos)
  else if diff % 2 ^ 32 ≤ f.back.wlen then
    .ok ({ f with bstop := f.back.wlen, bptr := f.back.wlen - diff, pos := f.back.wpos }, true)
  else
    let back := min (back * 3) f.pos
    let keep := f.bufend + f.back.wlen - (back + diff)
    if f.back.wlen ≠ 0 ∧ f.bufend ≤ back + diff ∧ back + diff < f.bufend + f.back.wlen then
      seekAndRead io { f with buf := memmove f.buf (f.bufend - keep) 0 keep } back
    else seekAndRead io f back

def bfdRefill (f : Fastbuf FbFile) : Except FbFault (Fastbuf FbFile × Bool) :=
  let back := if f.back.keepBackBuf then f.bufend / 4 else 0
  if f.back.wpos ≤ f.pos then refillForward io f back else refillBackward io f back

/-! ## Writing and seeking -/

/-- `while (l)` -/
def writeLoop : Nat → FbFile → List Byte → Except FbFault FbFile
  | 0, F, data => if data.isEmpty then .ok F else .error .stuck
  | fuel + 1, F, data =>
    if data.isEmpty then .ok F
    else
      let r := F.sysWrite io data
      writeLoop fuel r.2 (data.drop r.1)

def bfdSpout (f : Fastbuf FbFile) : Except FbFault (Fastbuf FbFile) := do
  let data := (List.range f.bptr).map f.buf
  let F := { f.back with
    offset := if f.back.wpos ≠ f.pos then f.pos else f.back.offset
    wpos := f.pos + f.bptr, wlen := 0 }
  let F ← writeLoop io data.length F data
  pure { f with pos := f.pos + f.bptr, bptr := 0, bstop := 0, back := F }

def bfdSeek (f : Fastbuf FbFile) (pos : Int) (whence : Whence) :
    Except FbFault (Fastbuf FbFile) :=
  if f.bptr ≠ f.bstop then .error .assertion
  else
    match whence with
    | .set => .ok { f with pos := pos.toNat }
    | .cur => .error .assertion
    | .ending =>
      let l := f.back.file.length + pos
      if l < 0 then .error .seek
      else .ok { f with
        pos := l.toNat
        back := { f.back with wpos := l.toNat, wlen := 0, offset := l.toNat } }

def fileBackEnd : BackEnd FbFile where
  refill := some (bfdRefill io)
  spout := some (bfdSpout io)
  seek := some bfdSeek

end System

/-- `bfdopen_internal` for a file that has just been opened -/
def bfdopenInternal (file : List Byte) (bufLen : Nat) (keepBackBuf dieOnEof : Bool) :
    Fastbuf FbFile where
  buf := fun _ => 0
  bptr := 0
  bstop := 0
  bufend := bufLen
  pos := 0
  dieOnEof := dieOnEof
  back := ⟨keepBackBuf, 0, 0, file, 0, 0⟩

end OpenAAA.Fastbufs
