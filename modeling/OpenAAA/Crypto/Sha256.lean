import OpenAAA.Lib.Fips180Sha256
import OpenAAA.Sys.Compiler

/-!
`crypto/sha256.c` for the little-endian build, against FIPS 180. The bytes of a message go
into the buffer of the context one by one, and the buffer is taken in when it is full. The
length is counted in bits, by blocks, in two words; the bytes of the last block are only
added to it in `sha256_final`.
-/

namespace OpenAAA.Sha2

open Memory Sys BlockHash
open Fips180 (Word wordAt wordBytes padding lengthBytes)
open Fips180.Sha256 (Words)

/-- The macro `DBL_INT_ADD` -/
def dblIntAdd (a b c : Word) : Word × Word :=
  let b := if a > 0xffffffff - c then b + 1 else b
  (a + c, b)

/-- The macro `ROTRIGHT` -/
def rotRight (a : Word) (b : Nat) : Word := (a >>> b) ||| (a <<< (32 - b))

def CH (x y z : Word) : Word := (x &&& y) ^^^ (~~~x &&& z)

def MAJ (x y z : Word) : Word := (x &&& y) ^^^ (x &&& z) ^^^ (y &&& z)

def EP0 (x : Word) : Word := rotRight x 2 ^^^ rotRight x 13 ^^^ rotRight x 22

def EP1 (x : Word) : Word := rotRight x 6 ^^^ rotRight x 11 ^^^ rotRight x 25

def SIG0 (x : Word) : Word := rotRight x 7 ^^^ rotRight x 18 ^^^ (x >>> 3)

def SIG1 (x : Word) : Word := rotRight x 17 ^^^ rotRight x 19 ^^^ (x >>> 10)

/-- `struct sha256` -/
structure Sha256 where
  data : Mem
  len : Nat
  bitlen0 : Word
  bitlen1 : Word
  /-- `state[0]` to `state[7]` -/
  state : Words

/-- `sha256_k` -/
def sha256K : List Word :=
  [ 0x428a2f98, 0x71374491, 0xb5c0fbcf, 0xe9b5dba5, 0x3956c25b, 0x59f111f1, 0x923f82a4, 0xab1c5ed5,
    0xd807aa98, 0x12835b01, 0x243185be, 0x550c7dc3, 0x72be5d74, 0x80deb1fe, 0x9bdc06a7, 0xc19bf174,
    0xe49b69c1, 0xefbe4786, 0x0fc19dc6, 0x240ca1cc, 0x2de92c6f, 0x4a7484aa, 0x5cb0a9dc, 0x76f988da,
    0x983e5152, 0xa831c66d, 0xb00327c8, 0xbf597fc7, 0xc6e00bf3, 0xd5a79147, 0x06ca6351, 0x14292967,
    0x27b70a85, 0x2e1b2138, 0x4d2c6dfc, 0x53380d13, 0x650a7354, 0x766a0abb, 0x81c2c92e, 0x92722c85,
    0xa2bfe8a1, 0xa81a664b, 0xc24b8b70, 0xc76c51a3, 0xd192e819, 0xd6990624, 0xf40e3585, 0x106aa070,
    0x19a4c116, 0x1e376c08, 0x2748774c, 0x34b0bcb5, 0x391c0cb3, 0x4ed8aa4a, 0x5b9cca4f, 0x682e6ff3,
    0x748f82ee, 0x78a5636f, 0x84c87814, 0x8cc70208, 0x90befffa, 0xa4506ceb, 0xbef9a3f7, 0xc67178f2 ]

/-- `(data[j] << 24) | (data[j + 1] << 16) | (data[j + 2] << 8) | (data[j + 3])` -/
def word (data : Mem) (j : Nat) : Word :=
  ((data j).setWidth 32 <<< 24) ||| ((data (j + 1)).setWidth 32 <<< 16) |||
    ((data (j + 2)).setWidth 32 <<< 8) ||| (data (j + 3)).setWidth 32

/-- The array `m` after the first loop of `sha256_transform`. -/
def firstWords (data : Mem) (m : Nat → Word) : Nat → Word :=
  (List.range 16).foldl (fun m i => Function.update m i (word data (4 * i))) m

/-- The array `m` after `n` turns of the second loop. -/
def moreWords (m : Nat → Word) (n : Nat) : Nat → Word :=
  (List.range' 16 n).foldl (fun m i => Function.update m i
    (SIG1 (m (i - 2)) + m (i - 7) + SIG0 (m (i - 15)) + m (i - 16))) m

/-- A turn of the last loop of `sha256_transform`. -/
def round (m : Nat → Word) (v : Words) (i : Nat) : Words :=
  let t1 := v.h + EP1 v.e + CH v.e v.f v.g + sha256K.getD i 0 + m i
  let t2 := EP0 v.a + MAJ v.a v.b v.c
  ⟨t1 + t2, v.a, v.b, v.c, v.d + t1, v.e, v.f, v.g⟩

/-- `sha256_transform`. What `m` has in it at first is not read. -/
def sha256Transform (s : Sha256) (data : Mem) : Sha256 :=
  let m := moreWords (firstWords data fun _ => 0) 48
  let v := (List.range 64).foldl (round m) s.state
  { s with state := ⟨s.state.a + v.a, s.state.b + v.b, s.state.c + v.c, s.state.d + v.d,
      s.state.e + v.e, s.state.f + v.f, s.state.g + v.g, s.state.h + v.h⟩ }

/-- `sha256_init`; `data` keeps what it had. -/
def sha256Init (s : Sha256) : Sha256 :=
  { s with
    len := 0, bitlen0 := 0, bitlen1 := 0
    state := ⟨0x6a09e667, 0xbb67ae85, 0x3c6ef372, 0xa54ff53a, 0x510e527f, 0x9b05688c, 0x1f83d9ab,
      0x5be0cd19⟩ }

/-- The body of the loop of `sha256_update`. -/
def updateByte (s : Sha256) (b : Byte) : Sha256 :=
  let s := { s with data := write s.data s.len [b], len := s.len + 1 }
  if s.len = 64 then
    let s := sha256Transform s s.data
    let bits := dblIntAdd s.bitlen0 s.bitlen1 512
    { s with bitlen0 := bits.1, bitlen1 := bits.2, len := 0 }
  else s

/-- `sha256_update` -/
def sha256Update (s : Sha256) (data : List Byte) : Sha256 := data.foldl updateByte s

/-- `while (i < n) sha256->data[i++] = 0x00;` -/
def zeroTo (n : Nat) (data : Mem) (i : Nat) : Mem :=
  if i < n then zeroTo n (write data i [0]) (i + 1) else data
termination_by n - i

/-- The first branches of `sha256_final`. -/
def pad (s : Sha256) : Sha256 :=
  let i := s.len
  if s.len < 56 then
    { s with data := zeroTo 56 (write s.data i [0x80]) (i + 1) }
  else
    let s := { s with data := zeroTo 64 (write s.data i [0x80]) (i + 1) }
    let s := sha256Transform s s.data
    { s with data := write s.data 0 (List.replicate 56 0) }

/-- The lines from `sha256->data[63] = sha256->bitlen[0]` on. -/
def putBitlen (data : Mem) (bitlen0 bitlen1 : Word) : Mem :=
  let data := Function.update data 63 (bitlen0.setWidth 8)
  let data := Function.update data 62 ((bitlen0 >>> 8).setWidth 8)
  let data := Function.update data 61 ((bitlen0 >>> 16).setWidth 8)
  let data := Function.update data 60 ((bitlen0 >>> 24).setWidth 8)
  let data := Function.update data 59 (bitlen1.setWidth 8)
  let data := Function.update data 58 ((bitlen1 >>> 8).setWidth 8)
  let data := Function.update data 57 ((bitlen1 >>> 16).setWidth 8)
  Function.update data 56 ((bitlen1 >>> 24).setWidth 8)

/-- A turn of the loop at the end of `sha256_final`. -/
def putBytes (state : Words) (hash : Mem) (i : Nat) : Mem :=
  let hash := Function.update hash i ((state.a >>> (24 - i * 8) &&& 0xff).setWidth 8)
  let hash := Function.update hash (i + 4) ((state.b >>> (24 - i * 8) &&& 0xff).setWidth 8)
  let hash := Function.update hash (i + 8) ((state.c >>> (24 - i * 8) &&& 0xff).setWidth 8)
  let hash := Function.update hash (i + 12) ((state.d >>> (24 - i * 8) &&& 0xff).setWidth 8)
  let hash := Function.update hash (i + 16) ((state.e >>> (24 - i * 8) &&& 0xff).setWidth 8)
  let hash := Function.update hash (i + 20) ((state.f >>> (24 - i * 8) &&& 0xff).setWidth 8)
  let hash := Function.update hash (i + 24) ((state.g >>> (24 - i * 8) &&& 0xff).setWidth 8)
  Function.update hash (i + 28) ((state.h >>> (24 - i * 8) &&& 0xff).setWidth 8)

/-- `sha256_final`, with what it leaves at `hash` -/
def sha256Final (s : Sha256) (hash : Mem) : Mem :=
  let s := pad s
  let bits := dblIntAdd s.bitlen0 s.bitlen1 (BitVec.ofNat 32 (s.len * 8))
  let s := { s with bitlen0 := bits.1, bitlen1 := bits.2 }
  let s := { s with data := putBitlen s.data s.bitlen0 s.bitlen1 }
  let s := sha256Transform s s.data
  (List.range 4).foldl (putBytes s.state) hash

/-! ## The compression function -/

theorem rotRight_eq (x : Word) {n : Nat} (hn : n < 32) : rotRight x n = x.rotateRight n := by
  rw [BitVec.rotateRight_def, Nat.mod_eq_of_lt hn, rotRight]

theorem EP0_eq (x : Word) : EP0 x = Fips180.Sha256.bigSigma0 x := by
  simp [EP0, Fips180.Sha256.bigSigma0, rotRight_eq]

theorem EP1_eq (x : Word) : EP1 x = Fips180.Sha256.bigSigma1 x := by
  simp [EP1, Fips180.Sha256.bigSigma1, rotRight_eq]

theorem SIG0_eq (x : Word) : SIG0 x = Fips180.Sha256.smallSigma0 x := by
  simp [SIG0, Fips180.Sha256.smallSigma0, rotRight_eq]

theorem SIG1_eq (x : Word) : SIG1 x = Fips180.Sha256.smallSigma1 x := by
  simp [SIG1, Fips180.Sha256.smallSigma1, rotRight_eq]

/-- The table has the bits of the cube roots. -/
theorem sha256K_eq {t : Nat} (ht : t < 64) : sha256K.getD t 0 = Fips180.Sha256.k t := by
  revert t
  decide +kernel

theorem initial_eq : (⟨0x6a09e667, 0xbb67ae85, 0x3c6ef372, 0xa54ff53a, 0x510e527f, 0x9b05688c,
    0x1f83d9ab, 0x5be0cd19⟩ : Words) = Fips180.Sha256.initial := by
  decide +kernel

theorem shiftedBytes_eq (a b c d : Byte) :
    (a.setWidth 32 <<< 24) ||| (b.setWidth 32 <<< 16) ||| (c.setWidth 32 <<< 8) ||| d.setWidth 32 =
      (a ++ b ++ c ++ d : Word) := by
  have hd := d.isLt
  have hshift : ∀ (x : Byte) {n : Nat}, n ≤ 24 →
      (x.toNat % 2 ^ 32) <<< n % 2 ^ 32 = x.toNat <<< n := by
    intro x n hn
    have hx := x.isLt
    have hpow : 2 ^ n ≤ 2 ^ 24 := Nat.pow_le_pow_right (by decide) hn
    have hprod : x.toNat * 2 ^ n < 2 ^ 8 * 2 ^ 24 := Nat.mul_lt_mul_of_lt_of_le hx hpow (by decide)
    have hlow : x.toNat % 2 ^ 32 = x.toNat := Nat.mod_eq_of_lt (by omega)
    rw [hlow, Nat.shiftLeft_eq, Nat.mod_eq_of_lt (by omega)]
  apply BitVec.eq_of_toNat_eq
  simp only [BitVec.toNat_or, BitVec.toNat_shiftLeft, BitVec.toNat_setWidth, BitVec.toNat_append,
    Nat.shiftLeft_or_distrib, ← Nat.shiftLeft_add]
  rw [hshift a (by decide), hshift b (by decide), hshift c (by decide),
    Nat.mod_eq_of_lt (by omega)]

theorem word_eq (data : Mem) {i : Nat} (hi : i < 16) :
    word data (4 * i) = wordAt (read data 0 64) i := by
  have hbyte : ∀ j < 64, (read data 0 64).getD j 0 = data j := by
    intro j hj
    rw [List.getD_eq_getElem?_getD, read_getElem? hj, Nat.zero_add]
    rfl
  rw [word, wordAt, hbyte _ (by omega), hbyte _ (by omega), hbyte _ (by omega), hbyte _ (by omega)]
  exact shiftedBytes_eq _ _ _ _

/-- The loop over the first words. -/
theorem firstWords_apply (data : Mem) (m : Nat → Word) {i : Nat} (hi : i < 16) :
    firstWords data m i = word data (4 * i) :=
  foldl_update_apply (fun i => word data (4 * i)) m hi

/-- After `n` turns of the second loop, `m` has the words of the schedule up to there. -/
theorem moreWords_apply (data : Mem) (m : Nat → Word) (n : Nat) {i : Nat} (hi : i < 16 + n) :
    moreWords (firstWords data m) n i = (Fips180.Sha256.extend^[n]
      ((List.range 16).map (wordAt (read data 0 64)))).getD i 0 := by
  induction n generalizing i with
  | zero =>
      rw [moreWords, List.range'_zero, List.foldl_nil, firstWords_apply data m hi, word_eq data hi]
      simp [hi]
  | succ n ih =>
      have hlen := Fips180.Sha256.extended_length (read data 0 64) n
      rw [moreWords, List.range'_concat, List.foldl_append, ← moreWords, List.foldl_cons,
        List.foldl_nil, Function.iterate_succ_apply', Fips180.Sha256.extend]
      have hat : 16 + 1 * n = 16 + n := by omega
      rw [hat]
      by_cases hlast : i = 16 + n
      · subst hlast
        rw [Function.update_self, List.getD_append_right _ _ _ _ (by omega), hlen, Nat.sub_self,
          ih (by omega), ih (by omega), ih (by omega), ih (by omega), SIG0_eq, SIG1_eq]
        rfl
      · rw [Function.update_of_ne hlast, List.getD_append _ _ _ _ (by omega), ih (by omega)]

theorem round_eq {m : Nat → Word} {w : List Word} {i : Nat} (hi : i < 64) (hm : m i = w.getD i 0)
    (v : Words) : round m v i = Fips180.Sha256.turn w v i := by
  rw [round, hm, sha256K_eq hi, EP0_eq, EP1_eq]
  rfl

theorem rounds_eq {m : Nat → Word} {w : List Word} (hm : ∀ i < 64, m i = w.getD i 0) (v : Words) :
    (List.range 64).foldl (round m) v = (List.range 64).foldl (Fips180.Sha256.turn w) v := by
  apply List.foldl_ext
  intro v i hi
  have hi64 : i < 64 := List.mem_range.mp hi
  exact round_eq hi64 (hm i hi64) v

/-- `sha256_transform` is the compression function. -/
theorem sha256Transform_eq (s : Sha256) (data : Mem) : sha256Transform s data =
    { s with state := Fips180.Sha256.compress s.state (read data 0 64) } := by
  have hm : ∀ i < 64, moreWords (firstWords data fun _ => 0) 48 i =
      (Fips180.Sha256.schedule (read data 0 64)).getD i 0 := by
    intro i hi
    exact moreWords_apply data _ 48 hi
  rw [sha256Transform, rounds_eq hm]
  rfl

/-! ## The length -/

/-- The carry of `DBL_INT_ADD`. -/
theorem dblIntAdd_eq (x : Nat) {c : Nat} (hc : c < 2 ^ 32) :
    dblIntAdd (BitVec.ofNat 32 x) (BitVec.ofNat 32 (x / 2 ^ 32)) (BitVec.ofNat 32 c) =
      (BitVec.ofNat 32 (x + c), BitVec.ofNat 32 ((x + c) / 2 ^ 32)) := by
  have hones : (0xffffffff : Word).toNat = 2 ^ 32 - 1 := rfl
  have hdiff : ((0xffffffff : Word) - BitVec.ofNat 32 c).toNat = 2 ^ 32 - 1 - c := by
    rw [BitVec.toNat_sub, hones, BitVec.toNat_ofNat, Nat.mod_eq_of_lt hc]
    omega
  have hcarry : BitVec.ofNat 32 x > 0xffffffff - BitVec.ofNat 32 c ↔ 2 ^ 32 ≤ x % 2 ^ 32 + c := by
    rw [gt_iff_lt, BitVec.lt_def, hdiff, BitVec.toNat_ofNat]
    omega
  have hone : (1 : Word) = BitVec.ofNat 32 1 := rfl
  rw [dblIntAdd, BitVec.ofNat_add]
  by_cases hover : 2 ^ 32 ≤ x % 2 ^ 32 + c
  · have hnext : (x + c) / 2 ^ 32 = x / 2 ^ 32 + 1 := by omega
    rw [if_pos (hcarry.mpr hover), hnext, hone, BitVec.ofNat_add (x / 2 ^ 32) 1]
  · have hsame : (x + c) / 2 ^ 32 = x / 2 ^ 32 := by omega
    rw [if_neg (mt hcarry.mp hover), hsame]

/-! ## The context -/

/-- The context has taken in `n` blocks of the message and counted them, and its buffer has the
bytes behind them. -/
structure After (s : Sha256) (m : List Byte) (n : Nat) : Prop where
  absorbed : Absorbed Fips180.Sha256.compress 64 Fips180.Sha256.initial s.state
    (read s.data 0 s.len) m n
  short : s.len < 64
  low : s.bitlen0 = BitVec.ofNat 32 (512 * n)
  high : s.bitlen1 = BitVec.ofNat 32 (512 * n / 2 ^ 32)

theorem after_sha256Init (s : Sha256) : After (sha256Init s) [] 0 := by
  refine ⟨?_, by simp [sha256Init], rfl, rfl⟩
  simp only [sha256Init, initial_eq]
  exact Absorbed.nil _

section Steps

variable {s : Sha256} {m : List Byte} {n : Nat}

/-- Bytes are written behind those of the buffer. -/
theorem read_written (data : Mem) (r : Nat) (bs : List Byte) :
    read (write data r bs) 0 (r + bs.length) = read data 0 r ++ bs := by
  have hread := read_write_append data 0 r bs
  rwa [Nat.zero_add] at hread

theorem updateByte_of_full (hfull : s.len + 1 = 64) (b : Byte) : updateByte s b =
    ⟨write s.data s.len [b], 0, (dblIntAdd s.bitlen0 s.bitlen1 512).1,
      (dblIntAdd s.bitlen0 s.bitlen1 512).2,
      Fips180.Sha256.compress s.state (read (write s.data s.len [b]) 0 64)⟩ := by
  simp only [updateByte, if_pos hfull, sha256Transform_eq]

theorem updateByte_of_room (hroom : s.len + 1 ≠ 64) (b : Byte) :
    updateByte s b = { s with data := write s.data s.len [b], len := s.len + 1 } := by
  simp only [updateByte, if_neg hroom]

/-- A byte is put into the buffer, which is taken in when it is full. -/
theorem After.updateByte (h : After s m n) (b : Byte) :
    ∃ n', After (updateByte s b) (m ++ [b]) n' := by
  have hshort := h.short
  have happend := h.absorbed.append [b]
  rw [← read_written, List.length_singleton] at happend
  by_cases hfull : s.len + 1 = 64
  · rw [hfull] at happend
    have hbits := dblIntAdd_eq (512 * n) (show 512 < 2 ^ 32 by decide)
    have hmul : 512 * (n + 1) = 512 * n + 512 := by omega
    have h512 : (512 : Word) = BitVec.ofNat 32 512 := rfl
    rw [← h.low, ← h.high, ← hmul, ← h512] at hbits
    rw [updateByte_of_full hfull]
    refine ⟨n + 1, happend.block (read_length _ _ _), Nat.zero_lt_succ _, ?_, ?_⟩
    · simp only [hbits]
    · simp only [hbits]
  · rw [updateByte_of_room hfull]
    exact ⟨n, happend, Nat.lt_of_le_of_ne hshort hfull, h.low, h.high⟩

theorem After.update (h : After s m n) (bs : List Byte) :
    ∃ n', After (sha256Update s bs) (m ++ bs) n' := by
  induction bs generalizing s m n with
  | nil =>
      rw [List.append_nil]
      exact ⟨n, h⟩
  | cons b bs ih =>
      obtain ⟨n₁, hbyte⟩ := h.updateByte b
      obtain ⟨n', hrest⟩ := ih hbyte
      rw [List.append_assoc, List.singleton_append] at hrest
      exact ⟨n', hrest⟩

/-! ## The last blocks -/

theorem zeroTo_eq (bound : Nat) (data : Mem) {i : Nat} (hi : i ≤ bound) :
    zeroTo bound data i = write data i (List.replicate (bound - i) 0) := by
  induction hk : bound - i generalizing data i with
  | zero =>
      rw [zeroTo, if_neg (by omega), List.replicate_zero, write_nil]
  | succ k ih =>
      rw [zeroTo, if_pos (by omega), ih _ (by omega) (by omega), List.replicate_succ]
      exact write_write_append data i [0] (List.replicate k 0)

/-- The one bit and zeros up to `bound`. -/
theorem padded_data (data : Mem) {r bound : Nat} (hr : r < bound) :
    zeroTo bound (write data r [0x80]) (r + 1) =
      write data r (0x80 :: List.replicate (bound - 1 - r) 0) := by
  have hcount : bound - (r + 1) = bound - 1 - r := by omega
  rw [zeroTo_eq bound _ hr, hcount]
  exact write_write_append data r [0x80] (List.replicate (bound - 1 - r) 0)

theorem pad_counts (s : Sha256) :
    (pad s).len = s.len ∧ (pad s).bitlen0 = s.bitlen0 ∧ (pad s).bitlen1 = s.bitlen1 := by
  simp only [pad, sha256Transform_eq]
  split_ifs <;> exact ⟨rfl, rfl, rfl⟩

/-- The padding up to the length, in the same block or in one more. -/
theorem After.pad (h : After s m n) :
    ∃ n', Absorbed Fips180.Sha256.compress 64 Fips180.Sha256.initial (pad s).state
      (read (pad s).data 0 56)
      (m ++ (0x80 :: List.replicate ((119 - m.length % 64) % 64) 0)) n' := by
  have hlen := h.absorbed.length
  have hshort := h.short
  rw [read_length] at hlen
  simp only [Sha2.pad, sha256Transform_eq]
  by_cases hroom : s.len < 56
  · have hzeros : (119 - m.length % 64) % 64 = 56 - 1 - s.len := by omega
    have happend := h.absorbed.append (0x80 :: List.replicate (56 - 1 - s.len) 0)
    have h56 : s.len + (0x80 :: List.replicate (56 - 1 - s.len) (0 : Byte)).length = 56 := by
      rw [List.length_cons, List.length_replicate]
      omega
    rw [← read_written, h56, ← padded_data _ hroom, ← hzeros] at happend
    rw [if_pos hroom]
    exact ⟨n, happend⟩
  · have hzeros : (119 - m.length % 64) % 64 = 64 - 1 - s.len + 56 := by omega
    have happend := h.absorbed.append (0x80 :: List.replicate (64 - 1 - s.len) 0)
    have h64 : s.len + (0x80 :: List.replicate (64 - 1 - s.len) (0 : Byte)).length = 64 := by
      rw [List.length_cons, List.length_replicate]
      omega
    rw [← read_written, h64, ← padded_data _ hshort] at happend
    have hblock := (happend.block (read_length _ _ _)).append (List.replicate 56 0)
    have hread := read_write_self (zeroTo 64 (write s.data s.len [0x80]) (s.len + 1)) 0
      (List.replicate 56 0)
    rw [List.length_replicate] at hread
    rw [List.append_assoc, List.cons_append, ← List.replicate_add, ← hzeros, List.nil_append,
      ← hread] at hblock
    rw [if_neg hroom]
    exact ⟨n + 1, hblock⟩

theorem putBitlen_eq (data : Mem) (bitlen0 bitlen1 : Word) : putBitlen data bitlen0 bitlen1 =
    write data 56 [(bitlen1 >>> 24).setWidth 8, (bitlen1 >>> 16).setWidth 8,
      (bitlen1 >>> 8).setWidth 8, bitlen1.setWidth 8, (bitlen0 >>> 24).setWidth 8,
      (bitlen0 >>> 16).setWidth 8, (bitlen0 >>> 8).setWidth 8, bitlen0.setWidth 8] := by
  funext x
  by_cases hin : 56 ≤ x ∧ x < 64
  · obtain ⟨hlow, hhigh⟩ := hin
    interval_cases x <;> rfl
  · have hout := write_changesOnly data 56 [(bitlen1 >>> 24).setWidth 8,
      (bitlen1 >>> 16).setWidth 8, (bitlen1 >>> 8).setWidth 8, bitlen1.setWidth 8,
      (bitlen0 >>> 24).setWidth 8, (bitlen0 >>> 16).setWidth 8, (bitlen0 >>> 8).setWidth 8,
      bitlen0.setWidth 8] x (by simp only [List.length_cons, List.length_nil]; omega)
    rw [hout]
    simp only [putBitlen]
    rw [Function.update_of_ne (by omega), Function.update_of_ne (by omega),
      Function.update_of_ne (by omega), Function.update_of_ne (by omega),
      Function.update_of_ne (by omega), Function.update_of_ne (by omega),
      Function.update_of_ne (by omega), Function.update_of_ne (by omega)]

/-- The eight bytes of both words are the length. -/
theorem bitlen_bytes (bits : Nat) :
    [(BitVec.ofNat 32 (bits / 2 ^ 32) >>> 24).setWidth 8,
      (BitVec.ofNat 32 (bits / 2 ^ 32) >>> 16).setWidth 8,
      (BitVec.ofNat 32 (bits / 2 ^ 32) >>> 8).setWidth 8,
      (BitVec.ofNat 32 (bits / 2 ^ 32)).setWidth 8, (BitVec.ofNat 32 bits >>> 24).setWidth 8,
      (BitVec.ofNat 32 bits >>> 16).setWidth 8, (BitVec.ofNat 32 bits >>> 8).setWidth 8,
      (BitVec.ofNat 32 bits).setWidth 8] = lengthBytes bits := by
  have hrange : List.range 8 = [0, 1, 2, 3, 4, 5, 6, 7] := rfl
  rw [lengthBytes, hrange]
  simp only [List.map_cons, List.map_nil, List.cons.injEq, and_true]
  refine ⟨?_, ?_, ?_, ?_, ?_, ?_, ?_, ?_⟩
  all_goals
    apply BitVec.eq_of_toNat_eq
    simp only [BitVec.toNat_setWidth, BitVec.toNat_ushiftRight, BitVec.toNat_ofNat,
      Nat.shiftRight_eq_div_pow]
    omega

theorem maskedByte_eq (w : Word) (i : Nat) :
    (w >>> i &&& 0xff).setWidth 8 = w.extractLsb' i 8 := by
  apply BitVec.eq_of_toNat_eq
  have hmask : (0xff : Word).toNat = 2 ^ 8 - 1 := rfl
  rw [BitVec.toNat_setWidth, BitVec.toNat_and, BitVec.toNat_ushiftRight, hmask,
    Nat.and_two_pow_sub_one_eq_mod, BitVec.extractLsb'_toNat, Nat.mod_mod]

theorem putBytes_outside (v : Words) (hash : Mem) {i x : Nat} (hi : i < 4) (hx : 32 ≤ x) :
    putBytes v hash i x = hash x := by
  simp only [putBytes]
  rw [Function.update_of_ne (by omega), Function.update_of_ne (by omega),
    Function.update_of_ne (by omega), Function.update_of_ne (by omega),
    Function.update_of_ne (by omega), Function.update_of_ne (by omega),
    Function.update_of_ne (by omega), Function.update_of_ne (by omega)]

/-- The loop at the end writes the digest. -/
theorem putBytes_eq (v : Words) (hash : Mem) :
    (List.range 4).foldl (putBytes v) hash = write hash 0 (Fips180.Sha256.digest v) := by
  have hrange : List.range 4 = [0, 1, 2, 3] := rfl
  rw [hrange]
  simp only [List.foldl_cons, List.foldl_nil]
  funext x
  by_cases hin : x < 32
  · simp only [putBytes, maskedByte_eq]
    interval_cases x <;> rfl
  · have hx : 32 ≤ x := Nat.le_of_not_lt hin
    rw [write_changesOnly hash 0 (Fips180.Sha256.digest v) x (Or.inr hx),
      putBytes_outside v _ (by decide) hx, putBytes_outside v _ (by decide) hx,
      putBytes_outside v _ (by decide) hx, putBytes_outside v _ (by decide) hx]

/-- `sha256_final` takes in the padding. -/
theorem After.final (h : After s m n) (hash : Mem) :
    sha256Final s hash = write hash 0 (Fips180.Sha256.sha256 m) := by
  have hlen := h.absorbed.length
  have hshort := h.short
  rw [read_length] at hlen
  obtain ⟨hplen, hplow, hphigh⟩ := pad_counts s
  have hbits : dblIntAdd (Sha2.pad s).bitlen0 (Sha2.pad s).bitlen1
      (BitVec.ofNat 32 ((Sha2.pad s).len * 8)) =
        (BitVec.ofNat 32 (8 * m.length), BitVec.ofNat 32 (8 * m.length / 2 ^ 32)) := by
    have hsum : 512 * n + s.len * 8 = 8 * m.length := by omega
    rw [hplen, hplow, hphigh, h.low, h.high, dblIntAdd_eq _ (by omega), hsum]
  obtain ⟨n', hpadded⟩ := h.pad
  have hwritten := read_written (Sha2.pad s).data 56 (lengthBytes (8 * m.length))
  have h64 : 56 + (lengthBytes (8 * m.length)).length = 64 := rfl
  have hlast := hpadded.append (lengthBytes (8 * m.length))
  rw [h64] at hwritten
  rw [← hwritten, List.append_assoc, List.cons_append, ← padding] at hlast
  have hdone := hlast.block (read_length _ _ _)
  have hblocks : (m ++ padding m.length).length / 64 = n' + 1 := by
    rw [hdone.length, List.length_nil]
    omega
  simp only [sha256Final, hbits, sha256Transform_eq, putBytes_eq, putBitlen_eq, bitlen_bytes]
  rw [hdone.chain, Fips180.Sha256.sha256, hblocks]

end Steps

/-- One `sha256_update` for each chunk. -/
def sha256Updates (s : Sha256) (chunks : List Buffer) : Sha256 :=
  chunks.foldl (fun s c => sha256Update s c.bytes) s

theorem After.updates {s : Sha256} {m : List Byte} {n : Nat} (h : After s m n)
    (chunks : List Buffer) :
    ∃ n', After (sha256Updates s chunks) (m ++ chunks.flatMap Buffer.bytes) n' := by
  induction chunks generalizing s m n with
  | nil =>
      rw [List.flatMap_nil, List.append_nil]
      exact ⟨n, h⟩
  | cons c chunks ih =>
      obtain ⟨n₁, hchunk⟩ := h.update c.bytes
      obtain ⟨n', hrest⟩ := ih hchunk
      rw [List.append_assoc, ← List.flatMap_cons] at hrest
      exact ⟨n', hrest⟩

/-- Whatever was in the context and however the message is split, `sha256_init`, one
`sha256_update` for each chunk and `sha256_final` write its digest. -/
theorem sha256_of_chunks_eq_fips180 (s : Sha256) (hash : Mem) (chunks : List Buffer) :
    sha256Final (sha256Updates (sha256Init s) chunks) hash =
      write hash 0 (Fips180.Sha256.sha256 (chunks.flatMap Buffer.bytes)) := by
  obtain ⟨n, hafter⟩ := (after_sha256Init s).updates chunks
  exact hafter.final hash

end OpenAAA.Sha2
