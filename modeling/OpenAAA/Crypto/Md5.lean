import OpenAAA.Lib.BlockHash
import OpenAAA.Sys.Compiler

/-!
`crypto/md5.c` for the little-endian build, where `byterev` does nothing. What a
pointer argument reads is looked up when it is read: the bytes of the caller, or
the chaining words of the context that the function works on.
-/

namespace OpenAAA.Md5

open Memory Sys BlockHash

abbrev Word := BitVec 32

/-- `u32 buf[4]`, and the variables `a` to `d` of `md5_transform` -/
structure Words where
  a : Word
  b : Word
  c : Word
  d : Word
  deriving DecidableEq

/-! ## The compression function -/

def F1 (x y z : Word) : Word := z ^^^ (x &&& (y ^^^ z))

def F2 (x y z : Word) : Word := F1 z x y

def F3 (x y z : Word) : Word := x ^^^ y ^^^ z

def F4 (x y z : Word) : Word := y ^^^ (x ||| ~~~z)

/-- `MD5STEP`, the new value of `w` -/
def md5Step (f : Word → Word → Word → Word) (w x y z data : Word) (s : Nat) : Word :=
  let w := w + (f x y z + data)
  let w := (w <<< s) ||| (w >>> (32 - s))
  w + x

/-- The word of the block, the constant and the shift of each `MD5STEP`. -/
def steps : List (Nat × Word × Nat) :=
  [ (0, 0xd76aa478, 7), (1, 0xe8c7b756, 12), (2, 0x242070db, 17), (3, 0xc1bdceee, 22),
    (4, 0xf57c0faf, 7), (5, 0x4787c62a, 12), (6, 0xa8304613, 17), (7, 0xfd469501, 22),
    (8, 0x698098d8, 7), (9, 0x8b44f7af, 12), (10, 0xffff5bb1, 17), (11, 0x895cd7be, 22),
    (12, 0x6b901122, 7), (13, 0xfd987193, 12), (14, 0xa679438e, 17), (15, 0x49b40821, 22),
    (1, 0xf61e2562, 5), (6, 0xc040b340, 9), (11, 0x265e5a51, 14), (0, 0xe9b6c7aa, 20),
    (5, 0xd62f105d, 5), (10, 0x02441453, 9), (15, 0xd8a1e681, 14), (4, 0xe7d3fbc8, 20),
    (9, 0x21e1cde6, 5), (14, 0xc33707d6, 9), (3, 0xf4d50d87, 14), (8, 0x455a14ed, 20),
    (13, 0xa9e3e905, 5), (2, 0xfcefa3f8, 9), (7, 0x676f02d9, 14), (12, 0x8d2a4c8a, 20),
    (5, 0xfffa3942, 4), (8, 0x8771f681, 11), (11, 0x6d9d6122, 16), (14, 0xfde5380c, 23),
    (1, 0xa4beea44, 4), (4, 0x4bdecfa9, 11), (7, 0xf6bb4b60, 16), (10, 0xbebfbc70, 23),
    (13, 0x289b7ec6, 4), (0, 0xeaa127fa, 11), (3, 0xd4ef3085, 16), (6, 0x04881d05, 23),
    (9, 0xd9d4d039, 4), (12, 0xe6db99e5, 11), (15, 0x1fa27cf8, 16), (2, 0xc4ac5665, 23),
    (0, 0xf4292244, 6), (7, 0x432aff97, 10), (14, 0xab9423a7, 15), (5, 0xfc93a039, 21),
    (12, 0x655b59c3, 6), (3, 0x8f0ccc92, 10), (10, 0xffeff47d, 15), (1, 0x85845dd1, 21),
    (8, 0x6fa87e4f, 6), (15, 0xfe2ce6e0, 10), (6, 0xa3014314, 15), (13, 0x4e0811a1, 21),
    (4, 0xf7537e82, 6), (11, 0xbd3af235, 10), (2, 0x2ad7d2bb, 15), (9, 0xeb86d391, 21) ]

/-- The lines of `md5_transform`: the functions change every sixteen of them, the variables
take turns. -/
def md5Line (input : List Word) (v : Words) (i : Nat) : Words :=
  let f := if i < 16 then F1 else if i < 32 then F2 else if i < 48 then F3 else F4
  let (k, constant, s) := steps.getD i (0, 0, 0)
  let data := input.getD k 0 + constant
  match i % 4 with
  | 0 => { v with a := md5Step f v.a v.b v.c v.d data s }
  | 1 => { v with d := md5Step f v.d v.a v.b v.c data s }
  | 2 => { v with c := md5Step f v.c v.d v.a v.b data s }
  | _ => { v with b := md5Step f v.b v.c v.d v.a data s }

/-- `md5_transform` -/
def md5Transform (buf : Words) (input : List Word) : Words :=
  let v := (List.range 64).foldl (md5Line input) buf
  ⟨buf.a + v.a, buf.b + v.b, buf.c + v.c, buf.d + v.d⟩

/-! ## The context -/

/-- `struct md5` -/
structure Context where
  buf : Words
  bits0 : Word
  bits1 : Word
  input : Mem

/-- The bytes of a word in memory. -/
def wordBytes (w : Word) : List Byte :=
  [w.extractLsb' 0 8, w.extractLsb' 8 8, w.extractLsb' 16 8, w.extractLsb' 24 8]

/-- `(byte *) md5->buf` -/
def bufBytes (v : Words) : List Byte :=
  wordBytes v.a ++ wordBytes v.b ++ wordBytes v.c ++ wordBytes v.d

/-- The words of a block, as `(u32 *)` reads its bytes. -/
def blockWords (block : List Byte) : List Word :=
  (List.range 16).map fun i => block.getD (4 * i + 3) 0 ++ block.getD (4 * i + 2) 0 ++
    block.getD (4 * i + 1) 0 ++ block.getD (4 * i) 0

/-- What `const byte *buf` points to. -/
inductive Source where
  /-- bytes that no function here writes to -/
  | bytes (bs : List Byte)
  /-- the member `buf` of the context itself -/
  | ownBuf

/-- The `n` bytes at an offset of a source, as they are now. -/
def Source.read (c : Context) (offset n : Nat) : Source → List Byte
  | .bytes bs => (bs.drop offset).take n
  | .ownBuf => ((bufBytes c.buf).drop offset).take n

def initial : Words := ⟨0x67452301, 0xefcdab89, 0x98badcfe, 0x10325476⟩

/-- `md5_init`; `in` keeps what it had. -/
def md5Init (c : Context) : Context := { c with buf := initial, bits0 := 0, bits1 := 0 }

/-- `memcpy(md5->in + at, …)` -/
def Context.copyIn (c : Context) (at₀ : Nat) (bs : List Byte) : Context :=
  { c with input := write c.input at₀ bs }

/-- `md5_transform(md5->buf, (u32 *) md5->in)` -/
def Context.transform (c : Context) : Context :=
  { c with buf := md5Transform c.buf (blockWords (read c.input 0 64)) }

/-- The loop over whole blocks of `md5_update` and the `memcpy` behind it -/
def md5Blocks (c : Context) (buf : Source) (offset len : Nat) : Context :=
  if 64 ≤ len then
    md5Blocks (c.copyIn 0 (buf.read c offset 64)).transform buf (offset + 64) (len - 64)
  else c.copyIn 0 (buf.read c offset len)
termination_by len

/-- The first lines of `md5_update`: the number of bits. -/
def countBits (c : Context) (len : Nat) : Context :=
  let t := c.bits0
  let c := { c with bits0 := t + BitVec.ofNat 32 len <<< 3 }
  let c := if c.bits0 < t then { c with bits1 := c.bits1 + 1 } else c
  { c with bits1 := c.bits1 + BitVec.ofNat 32 len >>> 29 }

/-- `md5_update` -/
def md5Update (c : Context) (buf : Source) (len : Nat) : Context :=
  let t := ((c.bits0 >>> 3) &&& 0x3f).toNat
  let c := countBits c len
  if t ≠ 0 then
    let p := t
    let t := 64 - t
    if len < t then c.copyIn p (buf.read c 0 len)
    else md5Blocks (c.copyIn p (buf.read c 0 t)).transform buf t (len - t)
  else md5Blocks c buf 0 len

/-- `md5_final`, which returns the member `buf` of the context -/
def md5Final (c : Context) : Context :=
  let count := ((c.bits0 >>> 3) &&& 0x3f).toNat
  let c := c.copyIn count [0x80]
  let p := count + 1
  let count := 64 - 1 - count
  let c :=
    if count < 8 then (c.copyIn p (List.replicate count 0)).transform.copyIn 0 (List.replicate 56 0)
    else c.copyIn p (List.replicate (count - 8) 0)
  (c.copyIn 56 (wordBytes c.bits0 ++ wordBytes c.bits1)).transform

/-- `md5_hash`, with the bytes it writes to `out` -/
def md5Hash (c : Context) (buf : Buffer) : List Byte :=
  bufBytes (md5Final (md5Update (md5Init c) (.bytes buf.bytes) buf.bytes.length)).buf

/-! ## The keyed digest -/

/-- The local variables of `md5_hmac` that are used before they are assigned. -/
structure Locals where
  md5 : Context
  ctx : Context
  tk : List Byte
  tk_length : tk.length = 16

/-- The words that `memcpy` of sixteen bytes leaves in `buf`. -/
def bufOf (bs : List Byte) : Words :=
  let w := blockWords bs
  ⟨w.getD 0 0, w.getD 1 0, w.getD 2 0, w.getD 3 0⟩

/-- The branch for a long key: `memcpy(md5_final(&ctx), tk, MD5_SIZE)` puts `tk` where the digest
is. -/
def hashKey (locals : Locals) (key : Buffer) : Locals :=
  let ctx := md5Init locals.ctx
  let ctx := md5Update ctx (.bytes key.bytes) key.bytes.length
  let ctx := md5Final ctx
  { locals with ctx := { ctx with buf := bufOf locals.tk } }

/-- `memset(pad, 0, 64); memcpy(pad, key, klen);` and the loop that xors it -/
def pad (key : List Byte) (x : Byte) : List Byte :=
  (key ++ List.replicate (64 - key.length) 0).map (· ^^^ x)

/-- `md5_hmac`, with the bytes at the pointer it returns -/
def md5Hmac (locals : Locals) (buf key : Buffer) : List Byte :=
  let long := 64 < key.bytes.length
  let locals := if long then hashKey locals key else locals
  let key := if long then locals.tk else key.bytes
  let ipad := pad key 0x36
  let opad := pad key 0x5c
  let md5 := md5Init locals.md5
  let md5 := md5Update md5 (.bytes ipad) 64
  let md5 := md5Update md5 (.bytes buf.bytes) buf.bytes.length
  let md5 := md5Final md5
  let digest := Source.ownBuf
  let md5 := md5Init md5
  let md5 := md5Update md5 (.bytes opad) 64
  let md5 := md5Update md5 digest 16
  bufBytes (md5Final md5).buf

end OpenAAA.Md5
