import OpenAAA.Lib.Fips180

/-!
SHA-256 of the secure hash standard FIPS 180-2. The padding is that of SHA-1. A block is
expanded to 64 words, which are worked into eight chaining words; the constants and the
first chaining words are bits of the roots of the first primes.
-/

namespace OpenAAA.Fips180.Sha256

open Memory BlockHash

/-- The working variables, and the chaining words. -/
structure Words where
  a : Word
  b : Word
  c : Word
  d : Word
  e : Word
  f : Word
  g : Word
  h : Word
  deriving DecidableEq

/-- The integer part of the root of a number below `2 ^ (40 * e)`. -/
def root (e n : Nat) : Nat :=
  (List.range 40).reverse.foldl (fun r i => if (r + 2 ^ i) ^ e ≤ n then r + 2 ^ i else r) 0

/-- The first sixty-four primes. -/
def primes : List Nat :=
  [ 2, 3, 5, 7, 11, 13, 17, 19, 23, 29, 31, 37, 41, 43, 47, 53, 59, 61, 67, 71, 73, 79, 83, 89, 97,
    101, 103, 107, 109, 113, 127, 131, 137, 139, 149, 151, 157, 163, 167, 173, 179, 181, 191, 193,
    197, 199, 211, 223, 227, 229, 233, 239, 241, 251, 257, 263, 269, 271, 277, 281, 283, 293, 307,
    311 ]

/-- The first 32 bits of the fractional part of the cube root of a prime. -/
def k (t : Nat) : Word := BitVec.ofNat 32 (root 3 (primes.getD t 0 * 2 ^ 96))

/-- The first 32 bits of the fractional part of the square root of a prime. -/
def squareRootBits (t : Nat) : Word := BitVec.ofNat 32 (root 2 (primes.getD t 0 * 2 ^ 64))

def initial : Words :=
  ⟨squareRootBits 0, squareRootBits 1, squareRootBits 2, squareRootBits 3, squareRootBits 4,
    squareRootBits 5, squareRootBits 6, squareRootBits 7⟩

def ch (x y z : Word) : Word := (x &&& y) ^^^ (~~~x &&& z)

def maj (x y z : Word) : Word := (x &&& y) ^^^ (x &&& z) ^^^ (y &&& z)

def bigSigma0 (x : Word) : Word := x.rotateRight 2 ^^^ x.rotateRight 13 ^^^ x.rotateRight 22

def bigSigma1 (x : Word) : Word := x.rotateRight 6 ^^^ x.rotateRight 11 ^^^ x.rotateRight 25

def smallSigma0 (x : Word) : Word := x.rotateRight 7 ^^^ x.rotateRight 18 ^^^ (x >>> 3)

def smallSigma1 (x : Word) : Word := x.rotateRight 17 ^^^ x.rotateRight 19 ^^^ (x >>> 10)

def extend (w : List Word) : List Word :=
  let t := w.length
  w ++ [smallSigma1 (w.getD (t - 2) 0) + w.getD (t - 7) 0 + smallSigma0 (w.getD (t - 15) 0) +
    w.getD (t - 16) 0]

/-- `W(0)` to `W(63)` -/
def schedule (block : List Byte) : List Word := extend^[48] ((List.range 16).map (wordAt block))

/-- One turn of the loop over `t`. -/
def turn (w : List Word) (s : Words) (t : Nat) : Words :=
  let t₁ := s.h + bigSigma1 s.e + ch s.e s.f s.g + k t + w.getD t 0
  let t₂ := bigSigma0 s.a + maj s.a s.b s.c
  ⟨t₁ + t₂, s.a, s.b, s.c, s.d + t₁, s.e, s.f, s.g⟩

def compress (h : Words) (block : List Byte) : Words :=
  let s := (List.range 64).foldl (turn (schedule block)) h
  ⟨h.a + s.a, h.b + s.b, h.c + s.c, h.d + s.d, h.e + s.e, h.f + s.f, h.g + s.g, h.h + s.h⟩

def digest (h : Words) : List Byte :=
  wordBytes h.a ++ wordBytes h.b ++ wordBytes h.c ++ wordBytes h.d ++ wordBytes h.e ++
    wordBytes h.f ++ wordBytes h.g ++ wordBytes h.h

/-- The message digest. -/
def sha256 (m : List Byte) : List Byte :=
  let padded := m ++ padding m.length
  digest (absorb compress 64 (padded.length / 64) initial padded)

-- the digest of "abc" in the appendix of the standard
example : sha256 [0x61, 0x62, 0x63] = wordBytes 0xba7816bf ++ wordBytes 0x8f01cfea ++
    wordBytes 0x414140de ++ wordBytes 0x5dae2223 ++ wordBytes 0xb00361a3 ++ wordBytes 0x96177a9c ++
    wordBytes 0xb410ff61 ++ wordBytes 0xf20015ad := by
  decide +kernel

theorem extended_length (block : List Byte) (n : Nat) :
    (extend^[n] ((List.range 16).map (wordAt block))).length = 16 + n := by
  induction n with
  | zero => simp
  | succ n ih => simp [Function.iterate_succ_apply', extend, ih, Nat.add_assoc]

end OpenAAA.Fips180.Sha256
