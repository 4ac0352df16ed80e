import OpenAAA.Lib.Memory

/-!
The macros of `sys/compiler.h` and `sys/cpu.h` and the byte-order accessors of
`mem/unaligned.h` that the modelled files use, for the x86-64 build: 64-bit
pointers, little-endian words, `CPU_STRUCT_ALIGN` 8 and `CPU_PAGE_SIZE` 4096.
-/

namespace OpenAAA.Sys

open Memory

def cpuStructAlign : Nat := 8

def cpuPageSize : Nat := 4096

/-- `CPU_CACHE_LINE`, four of the default `1 << L1_CACHE_SHIFT` lines. -/
def cpuCacheLine : Nat := 4 * 2 ^ 5

/-- `_align_to(s, a)` in unsigned arithmetic of the given width. The mask
`~(a-1)` of a power of two clears the remainder. -/
def alignTo (width s a : Nat) : Nat :=
  let t := (s + a - 1) % 2 ^ width
  t - t % a

/-- Bytes of which a caller passes the number as an `unsigned int`. -/
structure Buffer where
  bytes : List Byte
  short : bytes.length < 2 ^ 32

theorem cpuStructAlign_dvd_cpuPageSize : cpuStructAlign ∣ cpuPageSize := by
  decide

/-- The least multiple of `a` that is at least `s`. -/
def roundUp (s a : Nat) : Nat := (s + a - 1) / a * a

/-- Where the addition does not wrap, the macro rounds up. -/
theorem alignTo_eq_roundUp {width s a : Nat} (hfit : s + a - 1 < 2 ^ width) :
    alignTo width s a = roundUp s a := by
  have hdiv := Nat.div_add_mod (s + a - 1) a
  simp only [alignTo, roundUp, Nat.mod_eq_of_lt hfit]
  rw [Nat.mul_comm] at hdiv
  omega

theorem alignTo_dvd (width s a : Nat) : a ∣ alignTo width s a :=
  Nat.dvd_sub_mod _

/-- `get_u16_be`: `(c[0] << 8) | c[1]` -/
def getU16Be (m : Mem) (p : Nat) : Nat :=
  (m p).toNat <<< 8 ||| (m (p + 1)).toNat

theorem getU16Be_eq (m : Mem) (p : Nat) :
    getU16Be m p = 256 * (m p).toNat + (m (p + 1)).toNat := by
  have hlow := (m (p + 1)).isLt
  rw [getU16Be, ← Nat.shiftLeft_add_eq_or_of_lt hlow, Nat.shiftLeft_eq]
  omega

theorem getU16Be_lt (m : Mem) (p : Nat) : getU16Be m p < 2 ^ 16 := by
  have hhigh := (m p).isLt
  have hlow := (m (p + 1)).isLt
  rw [getU16Be_eq]
  omega

/-- `get_u32_be`: `(c[0] << 24) | (c[1] << 16) | (c[2] << 8) | c[3]` -/
def getU32Be (m : Mem) (p : Nat) : Nat :=
  (m p).toNat <<< 24 ||| (m (p + 1)).toNat <<< 16 ||| (m (p + 2)).toNat <<< 8 |||
    (m (p + 3)).toNat

/-- `put_u32_be`: `c[0] = x >> 24`, and so on down to `c[3] = x`. -/
def putU32Be (m : Mem) (p x : Nat) : Mem :=
  write m p [BitVec.ofNat 8 (x >>> 24), BitVec.ofNat 8 (x >>> 16), BitVec.ofNat 8 (x >>> 8),
    BitVec.ofNat 8 x]

/-- `cpu_be32`: `put_u32_be` into a local word, read back in the machine's order. -/
def cpuBe32 (x : Nat) : Nat :=
  load (putU32Be (fun _ => 0) 0 x) 0 4

/-- `be32_cpu`: `get_u32_be` of the parameter's own bytes. -/
def be32Cpu (x : Nat) : Nat :=
  getU32Be (store (fun _ => 0) 0 4 x) 0

theorem getU32Be_eq (m : Mem) (p : Nat) :
    getU32Be m p = 2 ^ 24 * (m p).toNat + 2 ^ 16 * (m (p + 1)).toNat +
      2 ^ 8 * (m (p + 2)).toNat + (m (p + 3)).toNat := by
  have h1 := (m (p + 1)).isLt
  have h2 := (m (p + 2)).isLt
  have h3 := (m (p + 3)).isLt
  have hor : ∀ a b k, b < 2 ^ k → a * 2 ^ k ||| b = a * 2 ^ k + b := fun a b k hb => by
    rw [← Nat.shiftLeft_eq, Nat.shiftLeft_add_eq_or_of_lt hb]
  simp only [getU32Be, Nat.shiftLeft_eq]
  -- Byte by byte, each term stays below the last shift of the ones before it.
  rw [hor _ _ 24 (by omega)]
  have hfirst : (m p).toNat * 2 ^ 24 + (m (p + 1)).toNat * 2 ^ 16 =
      ((m p).toNat * 2 ^ 8 + (m (p + 1)).toNat) * 2 ^ 16 := by ring
  rw [hfirst, hor _ _ 16 (by omega)]
  have hsecond : ((m p).toNat * 2 ^ 8 + (m (p + 1)).toNat) * 2 ^ 16 +
      (m (p + 2)).toNat * 2 ^ 8 =
      (((m p).toNat * 2 ^ 8 + (m (p + 1)).toNat) * 2 ^ 8 + (m (p + 2)).toNat) * 2 ^ 8 := by
    ring
  rw [hsecond, hor _ _ 8 (by omega)]
  ring

theorem getU32Be_congr {m m' : Mem} {p p' : Nat} (h : ∀ i < 4, m' (p' + i) = m (p + i)) :
    getU32Be m' p' = getU32Be m p := by
  have h0 : m' p' = m p := h 0 (by decide)
  simp only [getU32Be, h0, h 1 (by decide), h 2 (by decide), h 3 (by decide)]

/-- A big-endian word determines its four bytes. -/
theorem getU32Be_injective {m m' : Mem} {p p' : Nat}
    (h : getU32Be m' p' = getU32Be m p) (i : Nat) (hi : i < 4) :
    m' (p' + i) = m (p + i) := by
  have h0 := (m p).isLt
  have h1 := (m (p + 1)).isLt
  have h2 := (m (p + 2)).isLt
  have h3 := (m (p + 3)).isLt
  have h0' := (m' p').isLt
  have h1' := (m' (p' + 1)).isLt
  have h2' := (m' (p' + 2)).isLt
  have h3' := (m' (p' + 3)).isLt
  rw [getU32Be_eq, getU32Be_eq] at h
  apply BitVec.eq_of_toNat_eq
  obtain rfl | rfl | rfl | rfl : i = 0 ∨ i = 1 ∨ i = 2 ∨ i = 3 := by omega
  · change (m' p').toNat = (m p).toNat
    omega
  · omega
  · omega
  · omega

theorem getU32Be_putU32Be (m : Mem) (p x : Nat) (hx : x < 2 ^ 32) :
    getU32Be (putU32Be m p x) p = x := by
  rw [getU32Be_eq]
  simp only [putU32Be, write, le_refl, if_true, Nat.le_add_right, Nat.sub_self,
    Nat.add_sub_cancel_left, List.getElem?_cons_zero, List.getElem?_cons_succ,
    Option.getD_some, BitVec.toNat_ofNat, Nat.shiftRight_eq_div_pow]
  omega

/-- Reading a stored word through `be32_cpu` is reading its bytes in network
order. -/
theorem be32Cpu_load (m : Mem) (p : Nat) : be32Cpu (load m p 4) = getU32Be m p := by
  apply getU32Be_congr
  intro i hi
  exact store_load_byte m _ p 0 4 i hi

/-- Writing a word through `cpu_be32` puts its bytes in network order. -/
theorem getU32Be_store_cpuBe32 (m : Mem) (p x : Nat) (hx : x < 2 ^ 32) :
    getU32Be (store m p 4 (cpuBe32 x)) p = x := by
  have hbytes : getU32Be (store m p 4 (cpuBe32 x)) p = getU32Be (putU32Be (fun _ => 0) 0 x) 0 := by
    apply getU32Be_congr
    intro i hi
    exact store_load_byte _ m 0 p 4 i hi
  rw [hbytes, getU32Be_putU32Be _ 0 x hx]

end OpenAAA.Sys
