import OpenAAA.Crypto.CrcTables

/-!
`crypto/crc.c` on a little-endian machine: the three update functions that
`crc32_init` chooses from, the one-shot `crc32_hash`, and `crc32_generate` with
its own table and its own loop. All of them read the message from memory at an
address, because the word loops depend on how that address is aligned.

The reference is the bit-by-bit reflected CRC for the polynomial that the file
calls `CRC32C_POLY`. The update functions compute it for every state, address
and length that covers the alignment prologue. `crc32_generate` counts its
bytes with an `int`, which is where it stops agreeing.
-/

namespace OpenAAA.Crypto

open Memory

/-- `CRC32C_POLY`, in the unreflected notation of the source. -/
def crc32cPoly : BitVec 32 := 0x1EDC6F41

/-- The bit-by-bit reflected CRC-32C (Castagnoli) update. -/
def crc32c (state : BitVec 32) (bytes : List Byte) : BitVec 32 :=
  Crc.update crc32cPoly.reverse state bytes

/-- `table[x & 0x000000FF]` -/
def lookup (table : List (BitVec 32)) (x : BitVec 32) : BitVec 32 :=
  table.getD (x &&& 0x000000FF).toNat 0

/-- `while (len--) crc = table_il8_o32[(crc ^ *buf++) & 0xFF] ^ (crc >> 8);` -/
def crc32Bytes (m : Mem) : Nat → Nat → BitVec 32 → BitVec 32
  | 0, _, crc => crc
  | len + 1, buf, crc =>
      crc32Bytes m len (buf + 1)
        (lookup tableIl8O32 (crc ^^^ (m buf).setWidth 32) ^^^ (crc >>> 8))

def crc32UpdateBy1 (m : Mem) (state : BitVec 32) (buf len : Nat) : BitVec 32 :=
  crc32Bytes m len buf state

/-- `*buf32`, one aligned little-endian word. -/
def word32 (m : Mem) (buf : Nat) : BitVec 32 :=
  BitVec.ofNat 32 (load m buf 4)

/-- The body of the word loop of `crc32_update_by4`. -/
def crc32Words (m : Mem) : Nat → Nat → BitVec 32 → BitVec 32
  | 0, _, crc => crc
  | words + 1, buf, crc =>
      let crc := crc ^^^ word32 m buf
      let term1 := lookup tableIl8O56 crc ^^^ lookup tableIl8O48 (crc >>> 8)
      let term2 := crc >>> 16
      crc32Words m words (buf + 4)
        (term1 ^^^ lookup tableIl8O40 term2 ^^^ lookup tableIl8O32 (term2 >>> 8))

/-- How many bytes the prologue consumes to reach a multiple of `align`. -/
def initBytes (align buf : Nat) : Nat :=
  if buf % align = 0 then 0 else align - buf % align

/-- `len -= init_bytes` on an `unsigned int`: a message shorter than the
prologue wraps around. -/
def lenAfter (align buf len : Nat) : Nat :=
  (len + 2 ^ 32 - initBytes align buf) % 2 ^ 32

def crc32UpdateBy4 (m : Mem) (state : BitVec 32) (buf len : Nat) : BitVec 32 :=
  let init := initBytes 4 buf
  let crc := crc32Bytes m init buf state
  let len := lenAfter 4 buf len
  let words := len / 4
  let crc := crc32Words m words (buf + init) crc
  crc32Bytes m (len - 4 * words) (buf + init + 4 * words) crc

/-- The body of the loop of `crc32_update_by8`: two words a turn, the second
one looked up without the running state. -/
def crc32Quads (m : Mem) : Nat → Nat → BitVec 32 → BitVec 32
  | 0, _, crc => crc
  | quads + 1, buf, crc =>
      let crc := crc ^^^ word32 m buf
      let term1 := lookup tableIl8O88 crc ^^^ lookup tableIl8O80 (crc >>> 8)
      let term2 := crc >>> 16
      let crc := term1 ^^^ lookup tableIl8O72 term2 ^^^ lookup tableIl8O64 (term2 >>> 8)
      let next := word32 m (buf + 4)
      let term1 := lookup tableIl8O56 next ^^^ lookup tableIl8O48 (next >>> 8)
      let term2 := next >>> 16
      crc32Quads m quads (buf + 8)
        (crc ^^^ term1 ^^^ lookup tableIl8O40 term2 ^^^ lookup tableIl8O32 (term2 >>> 8))

def crc32UpdateBy8 (m : Mem) (state : BitVec 32) (buf len : Nat) : BitVec 32 :=
  let init := initBytes 8 buf
  let crc := crc32Bytes m init buf state
  let len := lenAfter 8 buf len
  let quads := len / 8
  let crc := crc32Quads m quads (buf + init) crc
  crc32Bytes m (len - 8 * quads) (buf + init + 8 * quads) crc

/-- The modes `crc32_init` accepts; any other number reaches its `assert(0)`. -/
inductive Crc32Mode where
  | default
  | small
  | big
deriving DecidableEq

/-- `struct crc32`: the running state and the update function it was given. -/
structure Crc32 where
  state : BitVec 32
  update : Mem → BitVec 32 → Nat → Nat → BitVec 32

def crc32Init : Crc32Mode → Crc32
  | .default => ⟨0xffffffff, crc32UpdateBy4⟩
  | .small => ⟨0xffffffff, crc32UpdateBy1⟩
  | .big => ⟨0xffffffff, crc32UpdateBy8⟩

def crc32Update (m : Mem) (crc32 : Crc32) (buf len : Nat) : Crc32 :=
  { crc32 with state := crc32.update m crc32.state buf len }

def crc32Final (crc32 : Crc32) : BitVec 32 :=
  crc32.state ^^^ 0xffffffff

def crc32Hash (m : Mem) (buf len : Nat) : BitVec 32 :=
  crc32Final (crc32Update m (crc32Init .default) buf len)

/-- `CRC32C(c, d)`: the entry of `crc_c` is 64 bits wide and is cut back to the
32 bits of `c` by the assignment. -/
def crc32cMacro (c : BitVec 32) (d : Byte) : BitVec 32 :=
  ((c >>> 8).setWidth 64 ^^^
    crcC.getD ((c ^^^ d.setWidth 32) &&& 0xFF).toNat 0).setWidth 32

/-- The greatest value of the `int i` that counts the bytes in `crc32_generate`. -/
def intMax : Nat := 2 ^ 31 - 1

/-- `for (int i = 0; i < len; i++) CRC32C(c32, buf[i]);` with `rest` turns to
go. Incrementing `i` past `INT_MAX` is signed overflow: the program has no
defined result, here `none`. -/
def crc32GenerateLoop (m : Mem) (buf : Nat) : Nat → Nat → BitVec 32 → Option (BitVec 32)
  | 0, _, c32 => some c32
  | rest + 1, i, c32 =>
      let c32 := crc32cMacro c32 (m (buf + i))
      if i = intMax then none else crc32GenerateLoop m buf rest (i + 1) c32

def crc32Generate (m : Mem) (buf len : Nat) : Option (BitVec 32) :=
  (crc32GenerateLoop m buf len 0 0xffffffff).map fun (c32 : BitVec 32) =>
    let res := ~~~c32
    let b0 := res &&& 0xff
    let b1 := (res >>> 8) &&& 0xff
    let b2 := (res >>> 16) &&& 0xff
    let b3 := (res >>> 24) &&& 0xff
    (b0 <<< 24) ||| (b1 <<< 16) ||| (b2 <<< 8) ||| b3

/-- The four bytes of a word in the opposite order. -/
def byteReversal (x : BitVec 32) : BitVec 32 :=
  x.extractLsb' 0 8 ++ x.extractLsb' 8 8 ++ x.extractLsb' 16 8 ++ x.extractLsb' 24 8

section Tables

open Crc (IsTable bitSteps)

theorem crc32cPoly_msb : crc32cPoly.reverse.msb = true := by decide +kernel

theorem tableIl8O32_isTable : IsTable crc32cPoly.reverse 8 tableIl8O32 := by
  unfold IsTable
  decide +kernel

theorem tableIl8O40_isTable : IsTable crc32cPoly.reverse 16 tableIl8O40 :=
  tableIl8O32_isTable.next _ (by decide +kernel)

theorem tableIl8O48_isTable : IsTable crc32cPoly.reverse 24 tableIl8O48 :=
  tableIl8O40_isTable.next _ (by decide +kernel)

theorem tableIl8O56_isTable : IsTable crc32cPoly.reverse 32 tableIl8O56 :=
  tableIl8O48_isTable.next _ (by decide +kernel)

theorem tableIl8O64_isTable : IsTable crc32cPoly.reverse 40 tableIl8O64 :=
  tableIl8O56_isTable.next _ (by decide +kernel)

theorem tableIl8O72_isTable : IsTable crc32cPoly.reverse 48 tableIl8O72 :=
  tableIl8O64_isTable.next _ (by decide +kernel)

theorem tableIl8O80_isTable : IsTable crc32cPoly.reverse 56 tableIl8O80 :=
  tableIl8O72_isTable.next _ (by decide +kernel)

theorem tableIl8O88_isTable : IsTable crc32cPoly.reverse 64 tableIl8O88 :=
  tableIl8O80_isTable.next _ (by decide +kernel)

theorem crcC_eq : crcC = tableIl8O32.map (BitVec.setWidth 64) := by decide +kernel

theorem lookup_isTable {n : Nat} {t : List (BitVec 32)}
    (h : IsTable crc32cPoly.reverse n t) (x : BitVec 32) :
    lookup t x = bitSteps crc32cPoly.reverse n (x &&& BitVec.ofNat 32 255) :=
  h.lookup _ _ (Crc.and_255_toNat_lt (by decide) x)

/-- Four lookups, one for each byte of `x`, divide the whole word. -/
theorem lookup_word {n : Nat} {t3 t2 t1 t0 : List (BitVec 32)}
    (h3 : IsTable crc32cPoly.reverse (n + 32) t3)
    (h2 : IsTable crc32cPoly.reverse (n + 24) t2)
    (h1 : IsTable crc32cPoly.reverse (n + 16) t1)
    (h0 : IsTable crc32cPoly.reverse (n + 8) t0) (x : BitVec 32) :
    lookup t3 x ^^^ lookup t2 (x >>> 8) ^^^ lookup t1 (x >>> 16) ^^^
        lookup t0 (x >>> 16 >>> 8) =
      bitSteps crc32cPoly.reverse (n + 32) x := by
  have hout : x >>> 8 >>> 8 >>> 8 >>> 8 = 0#32 := by
    simp only [← BitVec.shiftRight_add]
    exact BitVec.ushiftRight_eq_zero (by decide)
  have hzero : bitSteps crc32cPoly.reverse n 0#32 = 0#32 := by
    rw [Crc.bitSteps_of_low_clear _ _ _ (by simp)]
    simp
  have hslice : ∀ k (y : BitVec 32), bitSteps crc32cPoly.reverse (k + 8) y =
      bitSteps crc32cPoly.reverse (k + 8) (y &&& BitVec.ofNat 32 255) ^^^
        bitSteps crc32cPoly.reverse k (y >>> 8) := by
    intro k y
    rw [Nat.add_comm k]
    exact Crc.bitSteps_slice _ k y
  rw [lookup_isTable h3, lookup_isTable h2, lookup_isTable h1, lookup_isTable h0,
    hslice (n + 24) x, hslice (n + 16) (x >>> 8), hslice (n + 8) (x >>> 8 >>> 8),
    hslice n (x >>> 8 >>> 8 >>> 8), hout, hzero, BitVec.xor_zero]
  simp only [← BitVec.shiftRight_add, BitVec.xor_assoc]

end Tables

theorem crc32c_append (state : BitVec 32) (xs ys : List Byte) :
    crc32c state (xs ++ ys) = crc32c (crc32c state xs) ys :=
  Crc.update_append _ state xs ys

theorem lookup_byte (crc : BitVec 32) (b : Byte) :
    lookup tableIl8O32 (crc ^^^ b.setWidth 32) ^^^ (crc >>> 8) =
      Crc.updateByte crc32cPoly.reverse crc b := by
  have hbyte : b.setWidth 32 >>> 8 = 0#32 := by
    ext i
    simp
  have hslice := Crc.bitSteps_slice crc32cPoly.reverse 0 (crc ^^^ b.setWidth 32)
  rw [Crc.updateByte, hslice, lookup_isTable tableIl8O32_isTable,
    BitVec.ushiftRight_xor_distrib, hbyte, BitVec.xor_zero]
  rfl

/-- The byte loop is the reference update of the bytes it reads. -/
theorem crc32Bytes_eq (m : Mem) (len buf : Nat) (crc : BitVec 32) :
    crc32Bytes m len buf crc = crc32c crc (read m buf len) := by
  induction len generalizing buf crc with
  | zero => rfl
  | succ len ih =>
      have hread : read m buf (len + 1) = m buf :: read m (buf + 1) len := by
        rw [Nat.add_comm, read_append]
        rfl
      rw [crc32Bytes, lookup_byte, ih, hread]
      rfl

theorem crc32c_word (m : Mem) (buf : Nat) (crc : BitVec 32) :
    crc32c crc (read m buf 4) =
      Crc.bitSteps crc32cPoly.reverse 32 (crc ^^^ word32 m buf) := by
  rw [crc32c, Crc.update_eq_bitSteps _ _ _ (by simp), read_length, word32,
    Crc.ofNat_load]

theorem crc32Words_eq (m : Mem) (words buf : Nat) (crc : BitVec 32) :
    crc32Words m words buf crc = crc32c crc (read m buf (4 * words)) := by
  induction words generalizing buf crc with
  | zero => rfl
  | succ words ih =>
      have hbytes : 4 * (words + 1) = 4 + 4 * words := by ring
      rw [hbytes, read_append, crc32c_append,
        crc32c_word, ← lookup_word (n := 0) tableIl8O56_isTable tableIl8O48_isTable
          tableIl8O40_isTable tableIl8O32_isTable, ← ih]
      rfl

/-- Two words at once: the first is divided by sixty-four steps, and the second
joins after thirty-two of them. -/
theorem crc32c_quad (m : Mem) (buf : Nat) (crc : BitVec 32) :
    crc32c crc (read m buf 8) =
      Crc.bitSteps crc32cPoly.reverse 64 (crc ^^^ word32 m buf) ^^^
        Crc.bitSteps crc32cPoly.reverse 32 (word32 m (buf + 4)) := by
  have hsteps := Crc.bitSteps_add crc32cPoly.reverse 32 32 (crc ^^^ word32 m buf)
  rw [read_append m buf 4 4, crc32c_append, crc32c_word, crc32c_word, Crc.bitSteps_xor, hsteps]

theorem crc32Quads_eq (m : Mem) (quads buf : Nat) (crc : BitVec 32) :
    crc32Quads m quads buf crc = crc32c crc (read m buf (8 * quads)) := by
  induction quads generalizing buf crc with
  | zero => rfl
  | succ quads ih =>
      have hbytes : 8 * (quads + 1) = 8 + 8 * quads := by ring
      rw [hbytes, read_append, crc32c_append,
        crc32c_quad, ← lookup_word (n := 32) tableIl8O88_isTable tableIl8O80_isTable
          tableIl8O72_isTable tableIl8O64_isTable,
        ← lookup_word (n := 0) tableIl8O56_isTable tableIl8O48_isTable
          tableIl8O40_isTable tableIl8O32_isTable, ← ih]
      simp only [crc32Quads, BitVec.xor_assoc]

/-- Prologue, word loop and tail read the message once, front to back. -/
theorem crc32c_three_parts (m : Mem) (state : BitVec 32) (buf len init n : Nat)
    (hinit : init ≤ len) (hn : n ≤ len - init) :
    crc32c (crc32c (crc32c state (read m buf init)) (read m (buf + init) n))
        (read m (buf + init + n) (len - init - n)) =
      crc32c state (read m buf len) := by
  rw [← crc32c_append, ← crc32c_append, ← read_append, ← read_append]
  congr 2
  omega

theorem lenAfter_eq {align buf len : Nat} (hlen : len < 2 ^ 32)
    (hinit : initBytes align buf ≤ len) :
    lenAfter align buf len = len - initBytes align buf := by
  unfold lenAfter
  omega

theorem crc32UpdateBy1_eq (m : Mem) (state : BitVec 32) (buf len : Nat) :
    crc32UpdateBy1 m state buf len = crc32c state (read m buf len) :=
  crc32Bytes_eq m len buf state

theorem crc32UpdateBy4_eq (m : Mem) (state : BitVec 32) (buf len : Nat)
    (hlen : len < 2 ^ 32) (hinit : initBytes 4 buf ≤ len) :
    crc32UpdateBy4 m state buf len = crc32c state (read m buf len) := by
  simp only [crc32UpdateBy4, crc32Bytes_eq, crc32Words_eq, lenAfter_eq hlen hinit]
  exact crc32c_three_parts m state buf len _ _ hinit (by omega)

theorem crc32UpdateBy8_eq (m : Mem) (state : BitVec 32) (buf len : Nat)
    (hlen : len < 2 ^ 32) (hinit : initBytes 8 buf ≤ len) :
    crc32UpdateBy8 m state buf len = crc32c state (read m buf len) := by
  simp only [crc32UpdateBy8, crc32Bytes_eq, crc32Quads_eq, lenAfter_eq hlen hinit]
  exact crc32c_three_parts m state buf len _ _ hinit (by omega)

theorem crc32Hash_eq (m : Mem) (buf len : Nat) (hlen : len < 2 ^ 32)
    (hinit : initBytes 4 buf ≤ len) :
    crc32Hash m buf len = crc32c 0xffffffff (read m buf len) ^^^ 0xffffffff := by
  simp only [crc32Hash, crc32Final, crc32Update, crc32Init]
  rw [crc32UpdateBy4_eq m _ buf len hlen hinit]

theorem crc32cMacro_eq (c : BitVec 32) (d : Byte) :
    crc32cMacro c d = Crc.updateByte crc32cPoly.reverse c d := by
  have hwide : ∀ x : BitVec 32, (x.setWidth 64).setWidth 32 = x := fun x => by
    rw [BitVec.setWidth_setWidth_of_le x (by decide), BitVec.setWidth_eq]
  have hentry : (crcC.getD ((c ^^^ d.setWidth 32) &&& 0xFF).toNat 0).setWidth 32 =
      lookup tableIl8O32 (c ^^^ d.setWidth 32) := by
    rw [crcC_eq, lookup, List.getD_eq_getElem?_getD, List.getD_eq_getElem?_getD,
      List.getElem?_map]
    cases tableIl8O32[((c ^^^ d.setWidth 32) &&& 0xFF).toNat]? with
    | none => rfl
    | some entry => exact hwide entry
  rw [← lookup_byte, crc32cMacro, BitVec.setWidth_xor, hwide, hentry, BitVec.xor_comm]

/-- The loop of `crc32_generate` is the reference update as long as its counter
stays in range, and undefined from then on. -/
theorem crc32GenerateLoop_eq (m : Mem) (buf rest i : Nat) (c32 : BitVec 32)
    (hi : i ≤ intMax) :
    crc32GenerateLoop m buf rest i c32 =
      if i + rest ≤ intMax then some (crc32c c32 (read m (buf + i) rest)) else none := by
  induction rest generalizing i c32 with
  | zero => simp [crc32GenerateLoop, hi]; rfl
  | succ rest ih =>
      have hread : read m (buf + i) (rest + 1) =
          m (buf + i) :: read m (buf + (i + 1)) rest := by
        rw [Nat.add_comm rest, read_append]
        rfl
      by_cases hlast : i = intMax
      · have hover : ¬ i + (rest + 1) ≤ intMax := by omega
        simp [crc32GenerateLoop, hlast]
      · rw [crc32GenerateLoop, if_neg hlast, ih (i + 1) _ (by omega), hread,
          crc32cMacro_eq, Nat.add_assoc i, Nat.add_comm 1]
        rfl

theorem byteReversal_eq (x : BitVec 32) :
    ((x &&& 0xff) <<< 24) ||| (((x >>> 8) &&& 0xff) <<< 16) |||
        (((x >>> 16) &&& 0xff) <<< 8) ||| ((x >>> 24) &&& 0xff) =
      byteReversal x := by
  apply BitVec.eq_of_getLsbD_eq
  intro i hi
  simp only [byteReversal, BitVec.getLsbD_or, BitVec.getLsbD_shiftLeft, BitVec.getLsbD_and,
    BitVec.getLsbD_ushiftRight, BitVec.ofNat_eq_ofNat, BitVec.getLsbD_ofNat, Crc.testBit_255,
    BitVec.getLsbD_append, BitVec.getLsbD_extractLsb']
  -- Each of the four byte positions sees one of the four terms.
  interval_cases i <;> simp

/-- `crc32_generate` reverses the one-shot value, for every length its counter
can reach. -/
theorem crc32Generate_eq (m : Mem) (buf len : Nat) :
    crc32Generate m buf len =
      if len ≤ intMax then
        some (byteReversal (crc32c 0xffffffff (read m buf len) ^^^ 0xffffffff))
      else none := by
  have hloop := crc32GenerateLoop_eq m buf len 0 0xffffffff (by decide)
  rw [crc32Generate, hloop]
  simp only [Nat.zero_add, Nat.add_zero]
  split
  · simp only [Option.map_some, byteReversal_eq]
    congr 2
    exact BitVec.xor_allOnes.symm
  · rfl

/-- What the functions of this file promise together for one running state, one
buffer and one length: the same bit-by-bit update from each of them, where the
message covers the alignment prologue, and the reversed one-shot value from
`crc32_generate`. -/
structure CrcFunctionsAgree (m : Mem) (state : BitVec 32) (buf len : Nat) : Prop where
  by1 : crc32UpdateBy1 m state buf len = crc32c state (read m buf len)
  by4 : initBytes 4 buf ≤ len →
    crc32UpdateBy4 m state buf len = crc32c state (read m buf len)
  by8 : initBytes 8 buf ≤ len →
    crc32UpdateBy8 m state buf len = crc32c state (read m buf len)
  generate : initBytes 4 buf ≤ len →
    crc32Generate m buf len = some (byteReversal (crc32Hash m buf len))

/-- The functions keep their promise exactly for the lengths below `2^31`: the
three updates never break it, and `crc32_generate` does as soon as its `int`
counter overflows. -/
theorem crcFunctionsAgree_iff (m : Mem) (state : BitVec 32) (buf len : Nat)
    (hlen : len < 2 ^ 32) :
    CrcFunctionsAgree m state buf len ↔ len < 2 ^ 31 := by
  constructor
  · intro hagree
    by_contra hlong
    have hprologue : initBytes 4 buf ≤ len := by
      unfold initBytes
      split <;> omega
    have hgen := hagree.generate hprologue
    have hmax : ¬ len ≤ intMax := by
      unfold intMax
      omega
    rw [crc32Generate_eq, if_neg hmax] at hgen
    cases hgen
  · intro hshort
    have hmax : len ≤ intMax := by
      unfold intMax
      omega
    refine ⟨crc32UpdateBy1_eq m state buf len, crc32UpdateBy4_eq m state buf len hlen,
      crc32UpdateBy8_eq m state buf len hlen, ?_⟩
    intro hprologue
    rw [crc32Generate_eq, if_pos hmax, crc32Hash_eq m buf len hlen hprologue]

theorem crcFunctionsAgree_unaligned_nine :
    9 < 2 ^ 32 ∧ CrcFunctionsAgree (fun x => BitVec.ofNat 8 x) 0x12345678 4097 9 :=
  ⟨by decide, (crcFunctionsAgree_iff _ _ 4097 9 (by decide)).mpr (by decide)⟩

/-- A buffer of `2^31 + 1` zero bytes: to reach the last one, `i` has to pass
`INT_MAX`. -/
theorem crcFunctionsAgree_fails_two_gib :
    ¬ CrcFunctionsAgree (fun _ => 0) 0xffffffff 4096 (2 ^ 31 + 1) := by
  intro hagree
  have hgen := hagree.generate (by decide)
  have hmax : ¬ 2 ^ 31 + 1 ≤ intMax := by decide
  rw [crc32Generate_eq, if_neg hmax] at hgen
  cases hgen

end OpenAAA.Crypto
