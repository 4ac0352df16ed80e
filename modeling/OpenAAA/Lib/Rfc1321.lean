import OpenAAA.Lib.BlockHash
import OpenAAA.Lib.Memory

/-!
The message digest of RFC 1321. The message is padded with a one bit, zeros and the low
64 bits of its length to whole blocks of sixteen words, the least significant byte of a
word first. Each block is worked into four chaining words by 64 operations, in four
rounds that take the words of the block in four orders.
-/

namespace OpenAAA.Rfc1321

open Memory BlockHash

abbrev Word := BitVec 32

/-- The words `A` to `D`. -/
structure Words where
  a : Word
  b : Word
  c : Word
  d : Word
  deriving DecidableEq

def initial : Words := ⟨0x67452301, 0xefcdab89, 0x98badcfe, 0x10325476⟩

def F (x y z : Word) : Word := (x &&& y) ||| (~~~x &&& z)

def G (x y z : Word) : Word := (x &&& z) ||| (y &&& ~~~z)

def H (x y z : Word) : Word := x ^^^ y ^^^ z

def I (x y z : Word) : Word := y ^^^ (x ||| ~~~z)

/-- The function of the round that the operation `i` is in. -/
def auxiliary (i : Nat) : Word → Word → Word → Word :=
  if i < 16 then F else if i < 32 then G else if i < 48 then H else I

/-- The word of the block for the operation `i`. -/
def index (i : Nat) : Nat :=
  if i < 16 then i else if i < 32 then (5 * i + 1) % 16 else if i < 48 then (3 * i + 5) % 16
  else 7 * i % 16

/-- The shift of the operation `i`. -/
def shift (i : Nat) : Nat :=
  if i < 16 then [7, 12, 17, 22].getD (i % 4) 0
  else if i < 32 then [5, 9, 14, 20].getD (i % 4) 0
  else if i < 48 then [4, 11, 16, 23].getD (i % 4) 0
  else [6, 10, 15, 21].getD (i % 4) 0

/-- `T[i + 1]`, the integer part of 4294967296 times the sine of `i + 1` without its sign. -/
def table : List Word :=
  [ 0xd76aa478, 0xe8c7b756, 0x242070db, 0xc1bdceee, 0xf57c0faf, 0x4787c62a, 0xa8304613, 0xfd469501,
    0x698098d8, 0x8b44f7af, 0xffff5bb1, 0x895cd7be, 0x6b901122, 0xfd987193, 0xa679438e, 0x49b40821,
    0xf61e2562, 0xc040b340, 0x265e5a51, 0xe9b6c7aa, 0xd62f105d, 0x02441453, 0xd8a1e681, 0xe7d3fbc8,
    0x21e1cde6, 0xc33707d6, 0xf4d50d87, 0x455a14ed, 0xa9e3e905, 0xfcefa3f8, 0x676f02d9, 0x8d2a4c8a,
    0xfffa3942, 0x8771f681, 0x6d9d6122, 0xfde5380c, 0xa4beea44, 0x4bdecfa9, 0xf6bb4b60, 0xbebfbc70,
    0x289b7ec6, 0xeaa127fa, 0xd4ef3085, 0x04881d05, 0xd9d4d039, 0xe6db99e5, 0x1fa27cf8, 0xc4ac5665,
    0xf4292244, 0x432aff97, 0xab9423a7, 0xfc93a039, 0x655b59c3, 0x8f0ccc92, 0xffeff47d, 0x85845dd1,
    0x6fa87e4f, 0xfe2ce6e0, 0xa3014314, 0x4e0811a1, 0xf7537e82, 0xbd3af235, 0x2ad7d2bb, 0xeb86d391 ]

/-- The word at `k` of a block, the first byte the least significant. -/
def wordAt (block : List Byte) (k : Nat) : Word :=
  block.getD (4 * k + 3) 0 ++ block.getD (4 * k + 2) 0 ++ block.getD (4 * k + 1) 0 ++
    block.getD (4 * k) 0

/-- The operation `[abcd k s i]`, after which the words take turns. -/
def operation (block : List Byte) (s : Words) (i : Nat) : Words :=
  ⟨s.d, s.b + (s.a + auxiliary i s.b s.c s.d + wordAt block (index i) + table.getD i 0).rotateLeft
    (shift i), s.b, s.c⟩

def compress (h : Words) (block : List Byte) : Words :=
  let s := (List.range 64).foldl (operation block) h
  ⟨h.a + s.a, h.b + s.b, h.c + s.c, h.d + s.d⟩

/-- The low 64 bits of a number in eight bytes. -/
def lengthBytes (bits : Nat) : List Byte :=
  (List.range 8).map fun i => BitVec.ofNat 8 ((bits % 2 ^ 64) >>> (8 * i))

def padding (length : Nat) : List Byte :=
  0x80 :: (List.replicate ((119 - length % 64) % 64) 0 ++ lengthBytes (8 * length))

def wordBytes (w : Word) : List Byte :=
  [w.extractLsb' 0 8, w.extractLsb' 8 8, w.extractLsb' 16 8, w.extractLsb' 24 8]

/-- The message digest. -/
def md5 (m : List Byte) : List Byte :=
  let padded := m ++ padding m.length
  let h := absorb compress 64 (padded.length / 64) initial padded
  wordBytes h.a ++ wordBytes h.b ++ wordBytes h.c ++ wordBytes h.d

-- the digest of "abc" in the test suite of the standard
example : md5 [0x61, 0x62, 0x63] =
    [0x90, 0x01, 0x50, 0x98, 0x3c, 0xd2, 0x4f, 0xb0, 0xd6, 0x96, 0x3f, 0x7d, 0x28, 0xe1, 0x7f,
      0x72] := by
  decide +kernel

end OpenAAA.Rfc1321
