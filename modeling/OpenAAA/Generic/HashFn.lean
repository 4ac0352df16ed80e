import OpenAAA.Lib.Fibres

/-!
The multiplicative hashes of `generic/hash/fn.h`, on 64-bit and on 32-bit values, and
`hash_fast` of `generic/hash/table.h`, which chooses between them by the size of the key.
-/

namespace OpenAAA.Hash

open Fibres

/-- `HASH_RATIO_PRIME_32`, an `unsigned long` -/
def hashRatioPrime32 : BitVec 64 := 0x9e370001

/-- `HASH_RATIO_PRIME_64` -/
def hashRatioPrime64 : BitVec 64 := 0x9e37fffffffc0001

/-- `hash_64` -/
def hash64 (val : BitVec 64) (bits : Nat) : BitVec 64 :=
  let hash := val
  let n := hash
  let n := n <<< 18
  let hash := hash - n
  let n := n <<< 33
  let hash := hash - n
  let n := n <<< 3
  let hash := hash + n
  let n := n <<< 3
  let hash := hash - n
  let n := n <<< 4
  let hash := hash + n
  let n := n <<< 2
  let hash := hash + n
  hash >>> (64 - bits)

/-- `hash_32`. The product is one of `unsigned long` values. -/
def hash32 (val : BitVec 32) (bits : Nat) : BitVec 32 :=
  let hash := (val.setWidth 64 * hashRatioPrime32).setWidth 32
  hash >>> (32 - bits)

/-- `hash_fast` for a key of `size` bytes, on a machine with 64-bit longs -/
def hashFast (size : Nat) (val : BitVec 64) (bits : Nat) : BitVec 64 :=
  if size ≤ 4 then (hash32 (val.setWidth 32) bits).setWidth 64 else hash64 val bits

/-- The ladder adds up to the factor. -/
theorem hash64_eq (val : BitVec 64) (bits : Nat) :
    hash64 val bits = (val * hashRatioPrime64) >>> (64 - bits) := by
  have hfactor : hashRatioPrime64 = 1 - BitVec.twoPow 64 18 - BitVec.twoPow 64 51 +
      BitVec.twoPow 64 54 - BitVec.twoPow 64 57 + BitVec.twoPow 64 61 + BitVec.twoPow 64 63 := by
    decide
  have h51 : val <<< 18 <<< 33 = val <<< 51 := (BitVec.shiftLeft_add val 18 33).symm
  have h54 : val <<< 51 <<< 3 = val <<< 54 := (BitVec.shiftLeft_add val 51 3).symm
  have h57 : val <<< 54 <<< 3 = val <<< 57 := (BitVec.shiftLeft_add val 54 3).symm
  have h61 : val <<< 57 <<< 4 = val <<< 61 := (BitVec.shiftLeft_add val 57 4).symm
  have h63 : val <<< 61 <<< 2 = val <<< 63 := (BitVec.shiftLeft_add val 61 2).symm
  have hsum : ∀ a b c d e f : BitVec 64, val - val * a - val * b + val * c - val * d + val * e +
      val * f = val * (1 - a - b + c - d + e + f) := by
    intro a b c d e f
    ring
  unfold hash64
  dsimp only
  rw [h51, h54, h57, h61, h63, hfactor, ← hsum]
  simp only [BitVec.mul_twoPow_eq_shiftLeft]

theorem hash32_eq (val : BitVec 32) (bits : Nat) :
    hash32 val bits = (val * 0x9e370001) >>> (32 - bits) := by
  have hproduct : (val.setWidth 64 * hashRatioPrime32).setWidth 32 = val * 0x9e370001 := by
    apply BitVec.eq_of_toNat_eq
    have hlt := val.isLt
    have hwide : hashRatioPrime32.toNat = 0x9e370001 := rfl
    have hword : (0x9e370001 : BitVec 32).toNat = 0x9e370001 := rfl
    rw [BitVec.toNat_setWidth, BitVec.toNat_mul, BitVec.toNat_mul, BitVec.toNat_setWidth, hwide, hword]
    omega
  rw [hash32, hproduct]

/-- What is left of a word by a shift to the right. -/
theorem shiftRight_lt {w bits : Nat} (x : BitVec w) (hbits : bits ≤ w) :
    (x >>> (w - bits)).toNat < 2 ^ bits := by
  have hsplit : 2 ^ w = 2 ^ (w - bits) * 2 ^ bits := by
    rw [← pow_add, Nat.sub_add_cancel hbits]
  rw [BitVec.toNat_ushiftRight, Nat.shiftRight_eq_div_pow]
  apply Nat.div_lt_of_lt_mul
  rw [← hsplit]
  exact x.isLt

theorem card_hash64 {bits r : Nat} (hbits : bits ≤ 64) (hr : r < 2 ^ bits) :
    Nat.card {val : BitVec 64 // (hash64 val bits).toNat = r} = 2 ^ (64 - bits) := by
  have hinverse : hashRatioPrime64 * 0x6208001000040001 = 1 := by decide
  simp only [hash64_eq]
  rw [card_mul hinverse fun x => (x >>> (64 - bits)).toNat = r]
  apply card_shiftRight (Nat.sub_le 64 bits)
  rw [Nat.sub_sub_self hbits]
  exact hr

theorem card_hash32 {bits r : Nat} (hbits : bits ≤ 32) (hr : r < 2 ^ bits) :
    Nat.card {val : BitVec 32 // (hash32 val bits).toNat = r} = 2 ^ (32 - bits) := by
  have hinverse : (0x9e370001 : BitVec 32) * 0x61c90001 = 1 := by decide
  simp only [hash32_eq]
  rw [card_mul hinverse fun x => (x >>> (32 - bits)).toNat = r]
  apply card_shiftRight (Nat.sub_le 32 bits)
  rw [Nat.sub_sub_self hbits]
  exact hr

theorem hashFast_lt {size bits : Nat} (val : BitVec 64)
    (hbits : bits ≤ if size ≤ 4 then 32 else 64) : (hashFast size val bits).toNat < 2 ^ bits := by
  unfold hashFast
  by_cases hsize : size ≤ 4
  · rw [if_pos hsize] at hbits ⊢
    have hlt := shiftRight_lt (val.setWidth 32 * 0x9e370001) hbits
    rw [← hash32_eq] at hlt
    rw [BitVec.toNat_setWidth, Nat.mod_eq_of_lt (by omega)]
    exact hlt
  · rw [if_neg hsize] at hbits ⊢
    rw [hash64_eq]
    exact shiftRight_lt _ hbits

/-- Both hashes are the top bits of a product with an odd factor, so an index is always in
range and every index of a table has the same number of keys. -/
theorem hashes_equidistributed :
    (∀ (val : BitVec 64) (bits : Nat), 1 ≤ bits → bits ≤ 64 →
      hash64 val bits = (val * 0x9e37fffffffc0001) >>> (64 - bits) ∧
      (hash64 val bits).toNat < 2 ^ bits) ∧
    (∀ bits, 1 ≤ bits → bits ≤ 64 → ∀ r < 2 ^ bits,
      Nat.card {val : BitVec 64 // (hash64 val bits).toNat = r} = 2 ^ (64 - bits)) ∧
    (∀ bits, 1 ≤ bits → bits ≤ 32 → (∀ val, (hash32 val bits).toNat < 2 ^ bits) ∧
      ∀ r < 2 ^ bits,
        Nat.card {val : BitVec 32 // (hash32 val bits).toNat = r} = 2 ^ (32 - bits)) ∧
    ∀ (size bits : Nat) (val : BitVec 64), 1 ≤ bits → (bits ≤ if size ≤ 4 then 32 else 64) →
      (hashFast size val bits).toNat < 2 ^ bits := by
  refine ⟨?_, ?_, ?_, ?_⟩
  · intro val bits _ hbits
    refine ⟨hash64_eq val bits, ?_⟩
    rw [hash64_eq]
    exact shiftRight_lt _ hbits
  · intro bits _ hbits r hr
    exact card_hash64 hbits hr
  · intro bits _ hbits
    refine ⟨fun val => ?_, fun r hr => card_hash32 hbits hr⟩
    rw [hash32_eq]
    exact shiftRight_lt _ hbits
  · intro size bits val _ hbits
    exact hashFast_lt val hbits

theorem hashes_equidistributed_ten_bits :
    hash64 1 10 = 0x278 ∧ Nat.card {val : BitVec 64 // (hash64 val 10).toNat = 5} = 2 ^ 54 ∧
      Nat.card {val : BitVec 32 // (hash32 val 10).toNat = 5} = 2 ^ 22 := by
  obtain ⟨_, hwide, hnarrow, _⟩ := hashes_equidistributed
  refine ⟨by decide, ?_, ?_⟩
  · exact hwide 10 (by decide) (by decide) 5 (by decide)
  · exact (hnarrow 10 (by decide) (by decide)).2 5 (by decide)

end OpenAAA.Hash
