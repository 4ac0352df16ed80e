import OpenAAA.Lib.BlockHash
import OpenAAA.Lib.Memory
import Mathlib.Data.List.GetD

/-!
The secure hash standard FIPS 180-1. The message is padded with a one bit, zeros
and its length in bits to whole blocks of sixteen words; each block is expanded
to eighty words, which are worked into five chaining words one after the other.
-/

namespace OpenAAA.Fips180

open Memory BlockHash

abbrev Word := BitVec 32

/-- The words `A` to `E`, and the chaining words `H0` to `H4`. -/
structure Words where
  a : Word
  b : Word
  c : Word
  d : Word
  e : Word
  deriving DecidableEq

def initial : Words := ⟨0x67452301, 0xefcdab89, 0x98badcfe, 0x10325476, 0xc3d2e1f0⟩

/-- The word at `t` of a block, the first byte the most significant. -/
def wordAt (block : List Byte) (t : Nat) : Word :=
  block.getD (4 * t) 0 ++ block.getD (4 * t + 1) 0 ++ block.getD (4 * t + 2) 0 ++
    block.getD (4 * t + 3) 0

def extend (w : List Word) : List Word :=
  let t := w.length
  w ++ [(w.getD (t - 3) 0 ^^^ w.getD (t - 8) 0 ^^^ w.getD (t - 14) 0 ^^^
    w.getD (t - 16) 0).rotateLeft 1]

/-- `W(0)` to `W(79)` -/
def schedule (block : List Byte) : List Word :=
  extend^[64] ((List.range 16).map (wordAt block))

/-- `f(t; B, C, D)` -/
def f (t : Nat) (b c d : Word) : Word :=
  if t < 20 then (b &&& c) ||| (~~~b &&& d)
  else if t < 40 then b ^^^ c ^^^ d
  else if t < 60 then (b &&& c) ||| (b &&& d) ||| (c &&& d)
  else b ^^^ c ^^^ d

/-- `K(t)` -/
def k (t : Nat) : Word :=
  if t < 20 then 0x5A827999
  else if t < 40 then 0x6ED9EBA1
  else if t < 60 then 0x8F1BBCDC
  else 0xCA62C1D6

/-- One turn of the loop over `t`. -/
def turn (w : List Word) (s : Words) (t : Nat) : Words :=
  ⟨s.a.rotateLeft 5 + f t s.b s.c s.d + s.e + w.getD t 0 + k t, s.a, s.b.rotateLeft 30, s.c, s.d⟩

def compress (h : Words) (block : List Byte) : Words :=
  let s := (List.range 80).foldl (turn (schedule block)) h
  ⟨h.a + s.a, h.b + s.b, h.c + s.c, h.d + s.d, h.e + s.e⟩

/-- A number of bits in eight bytes. -/
def lengthBytes (bits : Nat) : List Byte :=
  (List.range 8).map fun i => BitVec.ofNat 8 (bits >>> (8 * (7 - i)))

def padding (length : Nat) : List Byte :=
  0x80 :: (List.replicate ((119 - length % 64) % 64) 0 ++ lengthBytes (8 * length))

def wordBytes (w : Word) : List Byte :=
  [w.extractLsb' 24 8, w.extractLsb' 16 8, w.extractLsb' 8 8, w.extractLsb' 0 8]

def digest (h : Words) : List Byte :=
  wordBytes h.a ++ wordBytes h.b ++ wordBytes h.c ++ wordBytes h.d ++ wordBytes h.e

/-- The message digest. -/
def sha1 (m : List Byte) : List Byte :=
  let padded := m ++ padding m.length
  digest (absorb compress 64 (padded.length / 64) initial padded)

-- the digest of "abc" in the appendix of the standard
example : sha1 [0x61, 0x62, 0x63] = wordBytes 0xA9993E36 ++ wordBytes 0x4706816A ++
    wordBytes 0xBA3E2571 ++ wordBytes 0x7850C26C ++ wordBytes 0x9CD0D89D := by
  decide +kernel

section Schedule

variable (block : List Byte)

theorem extended_length (n : Nat) :
    (extend^[n] ((List.range 16).map (wordAt block))).length = 16 + n := by
  induction n with
  | zero => simp
  | succ n ih => simp [Function.iterate_succ_apply', extend, ih, Nat.add_assoc]

/-- Words that are there stay. -/
theorem extended_getD_of_lt {n t : Nat} (ht : t < 16 + n) (k : Nat) :
    (extend^[n + k] ((List.range 16).map (wordAt block))).getD t 0 =
      (extend^[n] ((List.range 16).map (wordAt block))).getD t 0 := by
  induction k with
  | zero => rfl
  | succ k ih =>
      have hlt : t < (extend^[n + k] ((List.range 16).map (wordAt block))).length := by
        rw [extended_length]
        omega
      rw [← ih, ← Nat.add_assoc, Function.iterate_succ_apply', extend]
      exact List.getD_append _ _ _ _ hlt

theorem schedule_getD_lt {t : Nat} (ht : t < 16) : (schedule block).getD t 0 = wordAt block t := by
  have hstart := extended_getD_of_lt block (n := 0) (t := t) (by omega) 64
  rw [Nat.zero_add] at hstart
  rw [schedule, hstart]
  simp [ht]

theorem schedule_getD_ge {t : Nat} (ht : 16 ≤ t) (hlt : t < 80) :
    (schedule block).getD t 0 = ((schedule block).getD (t - 3) 0 ^^^
      (schedule block).getD (t - 8) 0 ^^^ (schedule block).getD (t - 14) 0 ^^^
        (schedule block).getD (t - 16) 0).rotateLeft 1 := by
  obtain ⟨n, rfl⟩ := Nat.exists_eq_add_of_le ht
  have hwhole : 64 = n + (64 - n) := by omega
  have hmore : 64 = n + 1 + (63 - n) := by omega
  have hold : ∀ u < 16 + n, (schedule block).getD u 0 =
      (extend^[n] ((List.range 16).map (wordAt block))).getD u 0 := by
    intro u hu
    rw [schedule]
    nth_rewrite 1 [hwhole]
    exact extended_getD_of_lt block hu _
  have hnew : (schedule block).getD (16 + n) 0 =
      (extend^[n + 1] ((List.range 16).map (wordAt block))).getD (16 + n) 0 := by
    rw [schedule]
    nth_rewrite 1 [hmore]
    exact extended_getD_of_lt block (by omega) _
  rw [hnew, hold _ (by omega), hold _ (by omega), hold _ (by omega), hold _ (by omega),
    Function.iterate_succ_apply', extend]
  simp only [extended_length]
  rw [List.getD_append_right _ _ _ _ (by rw [extended_length]), extended_length, Nat.sub_self]
  rfl

end Schedule

end OpenAAA.Fips180
