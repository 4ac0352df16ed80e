import OpenAAA.Lib.Memory

/-!
`generic/opt/fastbuf.c`, the front end of buffered input and output, and the line reader of
`ff-string.c`. The buffer starts at offset 0, pointers are offsets into it. What a back-end does
is given by its callbacks, on the state that it keeps behind `struct fastbuf`.
-/

namespace OpenAAA.Fastbufs

open Memory

inductive FbFault where
  | assertion
  | outOfBounds
  | dead
  | eof
  | read
  | write
  | seek
  | stuck
deriving DecidableEq

/-- `struct fastbuf`; `back` is what the back-end keeps. -/
structure Fastbuf (σ : Type) where
  buf : Nat → Byte
  bptr : Nat
  bstop : Nat
  bufend : Nat
  pos : Nat
  dieOnEof : Bool
  back : σ

inductive Whence where
  | set
  | cur
  | ending
deriving DecidableEq

/-- The callbacks that a back-end may have. `refill` also says whether there is something to
read. -/
structure BackEnd (σ : Type) where
  refill : Option (Fastbuf σ → Except FbFault (Fastbuf σ × Bool))
  spout : Option (Fastbuf σ → Except FbFault (Fastbuf σ))
  seek : Option (Fastbuf σ → Int → Whence → Except FbFault (Fastbuf σ))

variable {σ : Type}

def btell (f : Fastbuf σ) : Int := f.pos + f.bptr - f.bstop

/-- A sum of `off_t`, which wraps. One of two that are not negative is then negative, and
`bsetpos` throws. -/
def offT (x : Int) : Int := (x + 2 ^ 63) % 2 ^ 64 - 2 ^ 63

/-- `bavailr`, the difference of two pointers as an `uint` -/
def bavailr (f : Fastbuf σ) : Nat := (f.bstop + 2 ^ 32 - f.bptr) % 2 ^ 32

def bavailw (f : Fastbuf σ) : Nat := (f.bufend + 2 ^ 32 - f.bptr) % 2 ^ 32

/-- The `n` bytes at the cursor; reading them must not leave the buffer. -/
def bytesAt (f : Fastbuf σ) (n : Nat) : Except FbFault (List Byte) :=
  if f.bufend < f.bptr + n then .error .outOfBounds
  else .ok ((List.range n).map fun i => f.buf (f.bptr + i))

/-- `memcpy` of `data` to the offset `p` -/
def memcpy (buf : Nat → Byte) (p : Nat) (data : List Byte) : Nat → Byte :=
  fun i => if p ≤ i then data.getD (i - p) (buf i) else buf i

def Fastbuf.advance (f : Fastbuf σ) (n : Nat) : Fastbuf σ := { f with bptr := f.bptr + n }

/-- `data` is written at the cursor. -/
def Fastbuf.put (f : Fastbuf σ) (data : List Byte) : Fastbuf σ :=
  { f with buf := memcpy f.buf f.bptr data, bptr := f.bptr + data.length }

section FrontEnd

variable (be : BackEnd σ)

/-! ## The callbacks -/

/-- The pointers of a buffer that is flushed or written. -/
def Fastbuf.Flushed (f : Fastbuf σ) : Prop := f.bstop ≤ f.bptr ∧ f.bptr ≤ f.bufend

instance (f : Fastbuf σ) : Decidable f.Flushed := inferInstanceAs (Decidable (_ ∧ _))

/-- What `brefill` asks of `refill` afterwards. -/
def refillChecked (f : Fastbuf σ) (more : Bool) : Bool :=
  if more then f.bptr < f.bstop && f.bstop ≤ f.bufend
  else f.bptr == f.bstop && f.bstop ≤ f.bufend

def brefill (f : Fastbuf σ) (allowEof : Bool) : Except FbFault (Fastbuf σ × Bool) :=
  if ¬ f.Flushed then .error .assertion
  else
    match be.refill with
    | none => .error .read
    | some refill =>
      match refill f with
      | .error fault => .error fault
      | .ok (f, more) =>
        if !refillChecked f more then .error .assertion
        else if !more && !allowEof && f.dieOnEof then .error .eof
        else .ok (f, more)

def doSpout (f : Fastbuf σ) : Except FbFault (Fastbuf σ) :=
  if ¬ f.Flushed then .error .assertion
  else
    match be.spout with
    | none => .error .write
    | some spout =>
      match spout f with
      | .error fault => .error fault
      | .ok f => if f.Flushed then .ok f else .error .assertion

def bspout (f : Fastbuf σ) : Except FbFault (Fastbuf σ) :=
  match doSpout be f with
  | .error fault => .error fault
  | .ok f =>
    if f.bstop = f.bufend then
      match doSpout be f with
      | .error fault => .error fault
      | .ok f => if f.bstop < f.bufend then .ok f else .error .assertion
    else .ok f

def bflush (f : Fastbuf σ) : Except FbFault (Fastbuf σ) :=
  if f.bstop < f.bptr then doSpout be f else .ok { f with bptr := f.bstop }

/-! ## Seeking -/

def doSeek (f : Fastbuf σ) (pos : Int) (whence : Whence) : Except FbFault (Fastbuf σ) := do
  let f ← bflush be f
  match be.seek with
  | none => .error .seek
  | some seek => do
    let f ← seek f pos whence
    if ¬ f.Flushed then .error .assertion
    else if whence = .set ∧ btell f ≠ pos ∨ whence ≠ .set ∧ btell f < 0 then .error .assertion
    else .ok f

def bsetpos (f : Fastbuf σ) (pos : Int) : Except FbFault (Fastbuf σ) :=
  if f.bptr < f.bstop ∧ pos ≤ f.pos ∧ (f.pos : Int) - f.bstop ≤ pos then
    .ok { f with bptr := (f.bstop + (pos - f.pos)).toNat }
  else if pos ≠ btell f then
    if pos < 0 then .error .seek else doSeek be f pos .set
  else .ok f

def bseek (f : Fastbuf σ) (pos : Int) (whence : Whence) : Except FbFault (Fastbuf σ) :=
  match whence with
  | .set => bsetpos be f pos
  | .cur => bsetpos be f (offT (btell f + pos))
  | .ending => if 0 < pos then .error .seek else doSeek be f pos .ending

def brewind (f : Fastbuf σ) : Except FbFault (Fastbuf σ) := do
  let f ← bflush be f
  bsetpos be f 0

def bfilesize (f : Fastbuf σ) : Except FbFault (Fastbuf σ × Int) :=
  match be.seek with
  | none => .ok (f, -1)
  | some seek => do
    let pos := btell f
    let f ← bflush be f
    let f ← seek f 0 .ending
    let len := btell f
    let f ← bsetpos be f pos
    pure (f, len)

/-! ## Reading -/

def byteAt (f : Fastbuf σ) : Except FbFault Byte :=
  if f.bptr < f.bufend then .ok (f.buf f.bptr) else .error .outOfBounds

/-- `bpeekc`, with `bpeekc_slow` -/
def bpeekc (f : Fastbuf σ) : Except FbFault (Fastbuf σ × Option Byte) :=
  if f.bptr < f.bstop then do
    let c ← byteAt f
    pure (f, some c)
  else do
    let (f, more) ← brefill be f false
    if more then do
      let c ← byteAt f
      pure (f, some c)
    else pure (f, none)

/-- `bgetc`, with `bgetc_slow` -/
def bgetc (f : Fastbuf σ) : Except FbFault (Fastbuf σ × Option Byte) := do
  let (f, c) ← bpeekc be f
  pure (if c.isSome then f.advance 1 else f, c)

def bungetc (f : Fastbuf σ) : Except FbFault (Fastbuf σ) :=
  if f.bptr = 0 then .error .outOfBounds else .ok { f with bptr := f.bptr - 1 }

/-- `beof`, with `beof_slow` -/
def beof (f : Fastbuf σ) : Except FbFault (Fastbuf σ × Bool) :=
  if f.bptr < f.bstop then .ok (f, false)
  else (brefill be f true).map fun r => (r.1, !r.2)

/-- `if (!k) { brefill(f, check); k = f->bstop - f->bptr; }` -/
def available (f : Fastbuf σ) (check : Bool) : Except FbFault (Fastbuf σ × Nat) :=
  if bavailr f ≠ 0 then .ok (f, bavailr f)
  else (brefill be f check).map fun r => (r.1, bavailr r.1)

/-- The loop of `bread_slow` -/
def breadLoop (check : Bool) : Nat → Fastbuf σ → Nat → Except FbFault (Fastbuf σ × List Byte)
  | 0, f, l => if l = 0 then .ok (f, []) else .error .stuck
  | fuel + 1, f, l =>
    if l = 0 then .ok (f, [])
    else do
      let (f, k) ← available be f check
      if k = 0 then pure (f, [])
      else do
        let data ← bytesAt f (min k l)
        let (f, more) ← breadLoop check fuel (f.advance (min k l)) (l - min k l)
        pure (f, data ++ more)

/-- `bread_slow` -/
def breadSlow (f : Fastbuf σ) (l : Nat) (check : Bool) :
    Except FbFault (Fastbuf σ × List Byte) := do
  let (f, data) ← breadLoop be check l f l
  if check ∧ data ≠ [] ∧ data.length < l then .error .eof else pure (f, data)

/-- `bread`, and `breadb` with the check -/
def bread (f : Fastbuf σ) (l : Nat) (check : Bool) : Except FbFault (Fastbuf σ × List Byte) :=
  if l ≤ bavailr f then (bytesAt f l).map fun data => (f.advance l, data)
  else breadSlow be f l check

/-- `bdirect_read_prepare`: how much there is to be read. It asks `refill` without the checks of
`brefill`. -/
def bdirectReadPrepare (f : Fastbuf σ) : Except FbFault (Fastbuf σ × Nat) :=
  if f.bptr = f.bstop then
    match be.refill with
    | none => .error .read
    | some refill =>
      match refill f with
      | .error fault => .error fault
      | .ok (f, more) => .ok (f, if more then bavailr f else 0)
  else .ok (f, bavailr f)

def bskipSlow : Nat → Fastbuf σ → Nat → Except FbFault (Fastbuf σ × Bool)
  | 0, f, len => if len = 0 then .ok (f, true) else .error .stuck
  | fuel + 1, f, len =>
    if len = 0 then .ok (f, true)
    else do
      let (f, l) ← bdirectReadPrepare be f
      if l = 0 then pure (f, false) else bskipSlow fuel (f.advance (min l len)) (len - min l len)

def bskip (f : Fastbuf σ) (len : Nat) : Except FbFault (Fastbuf σ × Bool) :=
  if len ≤ bavailr f then .ok (f.advance len, true) else bskipSlow be len f len

/-! ## Lines -/

/-- What the line readers of ff-string.c come to. -/
inductive Gets where
  | nothing
  | line (bytes : List Byte)
  | long (bytes : List Byte)
deriving DecidableEq

/-- The loop of `bgets_nodie`: `srcLen` bytes are there, `l` more fit. -/
def bgetsLoop : Nat → Fastbuf σ → Nat → Nat → List Byte → Except FbFault (Fastbuf σ × Gets)
  | 0, _, _, _, _ => .error .stuck
  | fuel + 1, f, srcLen, l, b => do
    let data ← bytesAt f (min l srcLen)
    let part := data.takeWhile (· ≠ 10)
    if part.length < data.length then pure (f.advance (part.length + 1), .line (b ++ part))
    else if min l srcLen = l then pure (f.advance l, .long (b ++ data))
    else do
      let (f, next) ← bdirectReadPrepare be (f.advance srcLen)
      if next = 0 then pure (f, .line (b ++ data))
      else bgetsLoop fuel f next (l - srcLen) (b ++ data)

/-- `bgets_nodie` -/
def bgetsNodie (f : Fastbuf σ) (l : Nat) : Except FbFault (Fastbuf σ × Gets) :=
  if l = 0 then .error .assertion
  else do
    let (f, srcLen) ← bdirectReadPrepare be f
    if srcLen = 0 then pure (f, .nothing) else bgetsLoop be l f srcLen l []

/-! ## Writing -/

/-- `bputc`, with `bputc_slow` -/
def bputc (f : Fastbuf σ) (c : Byte) : Except FbFault (Fastbuf σ) :=
  if f.bptr < f.bufend then .ok (f.put [c])
  else (bspout be f).map fun f => f.put [c]

/-- `if (!k) { bspout(f); k = f->bufend - f->bptr; }` -/
def writable (f : Fastbuf σ) : Except FbFault (Fastbuf σ) :=
  if bavailw f ≠ 0 then .ok f else bspout be f

def bwriteSlow : Nat → Fastbuf σ → List Byte → Except FbFault (Fastbuf σ)
  | 0, f, data => if data.isEmpty then .ok f else .error .stuck
  | fuel + 1, f, data =>
    if data.isEmpty then .ok f
    else do
      let f ← writable be f
      bwriteSlow fuel (f.put (data.take (bavailw f))) (data.drop (bavailw f))

def bwrite (f : Fastbuf σ) (data : List Byte) : Except FbFault (Fastbuf σ) :=
  if data.length ≤ bavailw f then .ok (f.put data) else bwriteSlow be data.length f data

end FrontEnd

end OpenAAA.Fastbufs
