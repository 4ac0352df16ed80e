import OpenAAA.Lib.Fips180
import OpenAAA.Sys.Compiler

/-!
`crypto/sha1.c`. The caller's bytes are a list, of which `len` counts the
length and `*buf++` takes the head. `sha1_update` calls itself, so it is given
the number of calls that may be nested; with none left it has no result.
-/

namespace OpenAAA.Sha

open Memory Sys Fips180

/-- `struct sha1` -/
structure Sha1 where
  h0 : Word
  h1 : Word
  h2 : Word
  h3 : Word
  h4 : Word
  nblocks : Word
  buf : Mem
  count : Nat

/-- `sha1_init`; the buffer keeps what it had. -/
def sha1Init (s : Sha1) : Sha1 :=
  { s with
    h0 := 0x67452301, h1 := 0xefcdab89, h2 := 0x98badcfe, h3 := 0x10325476, h4 := 0xc3d2e1f0
    nblocks := 0, count := 0 }

def F1 (x y z : Word) : Word := z ^^^ (x &&& (y ^^^ z))

def F2 (x y z : Word) : Word := x ^^^ y ^^^ z

def F3 (x y z : Word) : Word := (x &&& y) ||| (z &&& (x ||| y))

def F4 (x y z : Word) : Word := x ^^^ y ^^^ z

/-- `_rol` -/
def rol (x : Word) (bits : Nat) : Word := (x <<< bits) ||| (x >>> (32 - bits))

/-- The five working variables of `transform`. -/
inductive Var where
  | va
  | vb
  | vc
  | vd
  | ve
  deriving DecidableEq

def get (v : Words) : Var → Word
  | .va => v.a
  | .vb => v.b
  | .vc => v.c
  | .vd => v.d
  | .ve => v.e

def set (v : Words) (x : Word) : Var → Words
  | .va => { v with a := x }
  | .vb => { v with b := x }
  | .vc => { v with c := x }
  | .vd => { v with d := x }
  | .ve => { v with e := x }

/-- The macro `R` -/
def R (v : Words) (a b c d e : Var) (f : Word → Word → Word → Word) (k m : Word) : Words :=
  let v := set v (get v e + (rol (get v a) 5 + f (get v b) (get v c) (get v d) + k + m)) e
  set v (rol (get v b) 30) b

/-- The macro `M`: the word and the ring it is stored in. -/
def M (x : List Word) (i : Nat) : Word × List Word :=
  let tm := x.getD (i % 16) 0 ^^^ x.getD ((i - 14) % 16) 0 ^^^ x.getD ((i - 8) % 16) 0 ^^^
    x.getD ((i - 3) % 16) 0
  (rol tm 1, x.set (i % 16) (rol tm 1))

/-- The function and the constant of the lines of `R`, twenty lines each. -/
def line (i : Nat) : (Word → Word → Word → Word) × Word :=
  if i < 20 then (F1, 0x5A827999)
  else if i < 40 then (F2, 0x6ED9EBA1)
  else if i < 60 then (F3, 0x8F1BBCDC)
  else (F4, 0xCA62C1D6)

/-- The variables of a line: each line has those of the line before it, turned by one. -/
def vars (i : Nat) : Var × Var × Var × Var × Var :=
  match i % 5 with
  | 0 => (.va, .vb, .vc, .vd, .ve)
  | 1 => (.ve, .va, .vb, .vc, .vd)
  | 2 => (.vd, .ve, .va, .vb, .vc)
  | 3 => (.vc, .vd, .ve, .va, .vb)
  | _ => (.vb, .vc, .vd, .ve, .va)

/-- One line of `R`, with `x[i]` in the first sixteen and `M(i)` in the others. -/
def round (s : Words × List Word) (i : Nat) : Words × List Word :=
  let m := if i < 16 then (s.2.getD i 0, s.2) else M s.2 i
  match vars i with
  | (a, b, c, d, e) => (R s.1 a b c d e (line i).1 (line i).2 m.1, m.2)

/-- `transform` -/
def transform (s : Sha1) (data : Mem) : Sha1 :=
  let v : Words := ⟨s.h0, s.h1, s.h2, s.h3, s.h4⟩
  let x : List Word := (List.range 16).map fun i => BitVec.ofNat 32 (getU32Be data (4 * i))
  let w := ((List.range 80).foldl round (v, x)).1
  { s with h0 := s.h0 + w.a, h1 := s.h1 + w.b, h2 := s.h2 + w.c, h3 := s.h3 + w.d,
           h4 := s.h4 + w.e }

/-- `sha1->buf[sha1->count++] = b;` -/
def push (s : Sha1) (b : Byte) : Sha1 :=
  { s with buf := Function.update s.buf s.count b, count := s.count + 1 }

/-- `for (;len && sha1->count < 64; len--) sha1->buf[sha1->count++] = *buf++;` -/
def fill (s : Sha1) : List Byte → Sha1 × List Byte
  | [] => (s, [])
  | b :: bs => if s.count < 64 then fill (push s b) bs else (s, b :: bs)

/-- `transform(sha1, data); sha1->count = 0; sha1->nblocks++;` -/
def transformBlock (s : Sha1) (data : Mem) : Sha1 :=
  { transform s data with count := 0, nblocks := s.nblocks + 1 }

/-- The bytes a pointer into the caller's buffer leads to. -/
def bytesAt (bs : List Byte) : Mem := fun i => bs.getD i 0

/-- `while (len >= 64)` -/
def wholeBlocks (s : Sha1) (bs : List Byte) : Sha1 × List Byte :=
  if 64 ≤ bs.length then wholeBlocks (transformBlock s (bytesAt bs)) (bs.drop 64)
  else (s, bs)
termination_by bs.length
decreasing_by
  rw [List.length_drop]
  omega

/-- `sha1_update` -/
def sha1Update : Nat → Sha1 → List Byte → Option Sha1
  | 0, _, _ => none
  | fuel + 1, s, bs =>
      let s := if s.count = 64 then transformBlock s s.buf else s
      if s.count ≠ 0 then
        let filled := fill s bs
        (sha1Update fuel filled.1 []).bind fun s =>
          if filled.2 = [] then some s
          else
            let rest := wholeBlocks s filled.2
            some (fill rest.1 rest.2).1
      else
        let rest := wholeBlocks s bs
        some (fill rest.1 rest.2).1

/-- `while (sha1->count < n) sha1->buf[sha1->count++] = 0;` -/
def zeroTo (n : Nat) (s : Sha1) : Sha1 :=
  if s.count < n then zeroTo n (push s 0) else s
termination_by n - s.count
decreasing_by
  simp only [push]
  omega

/-- `sha1->buf[at] = x >> 24;` and the three bytes behind it -/
def storeWord (buf : Mem) (at₀ : Nat) (x : Word) : Mem :=
  write buf at₀ [(x >>> 24).setWidth 8, (x >>> 16).setWidth 8, (x >>> 8).setWidth 8, x.setWidth 8]

/-- The words `msb` and `lsb` of `sha1_final`: the length in bits. -/
def bitLength (s : Sha1) : Word × Word :=
  let t := s.nblocks
  let lsb := t <<< 6
  let msb := t >>> 26
  let t := lsb
  let lsb := lsb + BitVec.ofNat 32 s.count
  let msb := if lsb < t then msb + 1 else msb
  let t := lsb
  let lsb := lsb <<< 3
  let msb := msb <<< 3
  let msb := msb ||| (t >>> 29)
  (msb, lsb)

/-- The lines `X(0)` to `X(4)` of `sha1_final` -/
def putWords (s : Sha1) : Mem :=
  let p := putU32Be s.buf 0 s.h0.toNat
  let p := putU32Be p 4 s.h1.toNat
  let p := putU32Be p 8 s.h2.toNat
  let p := putU32Be p 12 s.h3.toNat
  putU32Be p 16 s.h4.toNat

/-- `sha1_final`, with the buffer it returns -/
def sha1Final (fuel : Nat) (s : Sha1) : Option Mem :=
  (sha1Update fuel s []).bind fun s =>
    let length := bitLength s
    let padded :=
      if s.count < 56 then some (zeroTo 56 (push s 0x80))
      else (sha1Update fuel (zeroTo 64 (push s 0x80)) []).map fun s =>
        { s with buf := write s.buf 0 (List.replicate 56 0) }
    padded.map fun s =>
      let s := { s with buf := storeWord (storeWord s.buf 56 length.1) 60 length.2 }
      putWords (transform s s.buf)

def message (chunks : List Buffer) : List Byte := chunks.flatMap Buffer.bytes

/-- One `sha1_update` for each chunk. -/
def sha1Updates (fuel : Nat) (s : Sha1) (chunks : List Buffer) : Option Sha1 :=
  chunks.foldlM (fun s c => sha1Update fuel s c.bytes) s

/-- `sha1_init`, the updates and `sha1_final` on a context with any contents -/
def sha1Digest (fuel : Nat) (s : Sha1) (chunks : List Buffer) : Option Mem :=
  (sha1Updates fuel (sha1Init s) chunks).bind (sha1Final fuel)

/-- `sha1_hash`, with the bytes it writes to `outbuf` -/
def sha1Hash (fuel : Nat) (s : Sha1) (buf : Buffer) : Option (List Byte) :=
  (sha1Update fuel (sha1Init s) buf.bytes).bind fun s =>
    (sha1Final fuel s).map fun p => read p 0 20

end OpenAAA.Sha
