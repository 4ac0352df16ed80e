import OpenAAA.Crypto.Md5
import Mathlib.Data.List.GetD

/-!
What `md5_hmac` computes. The digest of a message is defined by blocks, and
`md5_init`, `md5_update` and `md5_final` compute it however the message comes.
In `md5_hmac` the inner digest is only a pointer into the context, which has
gone on to the outer pass when the pointer is read; and a long key is replaced
by a variable that nothing was assigned to. So the outer pass hashes eighty
bytes in which the message has no part.
-/

namespace OpenAAA.Md5

open Memory Sys BlockHash

/-! ## The digest -/

def compress (h : Words) (block : List Byte) : Words := md5Transform h (blockWords block)

/-- A number of bits in eight bytes, the least significant first. -/
def lengthBytes (bits : Nat) : List Byte := (List.range 8).map fun i => BitVec.ofNat 8 (bits >>> (8 * i))

def padding (length : Nat) : List Byte :=
  0x80 :: (List.replicate ((119 - length % 64) % 64) 0 ++ lengthBytes (8 * length))

/-- The digest of a message. -/
def md5 (m : List Byte) : List Byte :=
  let padded := m ++ padding m.length
  bufBytes (absorb compress 64 (padded.length / 64) initial padded)

/-- The context has taken in `n` blocks of the message, and `r` bytes follow them in `in`. -/
structure Chained (c : Context) (m : List Byte) (n r : Nat) : Prop where
  chain : c.buf = absorb compress 64 n initial m
  length : m.length = 64 * n + r
  rest : read c.input 0 r = m.drop (64 * n)

/-- `bits` has the length of the message. -/
structure Counted (c : Context) (m : List Byte) : Prop where
  low : c.bits0 = BitVec.ofNat 32 (8 * m.length)
  high : c.bits1 = BitVec.ofNat 32 (8 * m.length / 2 ^ 32)

section Steps

variable {c : Context} {m bs : List Byte} {n r : Nat}

theorem chained_md5Init (c : Context) : Chained (md5Init c) [] 0 0 := ⟨rfl, rfl, rfl⟩

theorem counted_md5Init (c : Context) : Counted (md5Init c) [] := ⟨rfl, rfl⟩

theorem Chained.absorbed (h : Chained c m n r) :
    Absorbed compress 64 initial c.buf (read c.input 0 r) m n := by
  refine ⟨h.chain, ?_, h.rest⟩
  rw [read_length]
  exact h.length

theorem Chained.of_absorbed (hread : Absorbed compress 64 initial c.buf (read c.input 0 r) m n) :
    Chained c m n r := by
  have hlen := hread.length
  rw [read_length] at hlen
  exact ⟨hread.chain, hlen, hread.rest⟩

theorem Chained.copyIn (h : Chained c m n r) (bs : List Byte) :
    Chained (c.copyIn r bs) (m ++ bs) n (r + bs.length) := by
  apply Chained.of_absorbed
  have hread := read_write_append c.input 0 r bs
  rw [Nat.zero_add] at hread
  have happend := h.absorbed.append bs
  rw [← hread] at happend
  exact happend

theorem Chained.transform (h : Chained c m n 64) : Chained c.transform m (n + 1) 0 :=
  Chained.of_absorbed (h.absorbed.block (read_length _ _ _))

theorem read_bytes (c : Context) (offset len : Nat) :
    (Source.bytes bs).read c offset len = (bs.drop offset).take len := rfl

/-- The whole blocks and what is behind them. -/
theorem Chained.blocks (h : Chained c m n 0) (bs : List Byte) (offset len : Nat)
    (hlen : offset + len = bs.length) :
    ∃ n' r', Chained (md5Blocks c (.bytes bs) offset len) (m ++ bs.drop offset) n' r' ∧ r' < 64 := by
  induction len using Nat.strong_induction_on generalizing c m n offset with
  | _ len ih =>
      rw [md5Blocks, read_bytes]
      by_cases hblock : 64 ≤ len
      · rw [if_pos hblock]
        have htake : ((bs.drop offset).take 64).length = 64 := by
          rw [List.length_take, List.length_drop]
          omega
        have hcopied := h.copyIn ((bs.drop offset).take 64)
        rw [htake] at hcopied
        obtain ⟨n', r', hafter, hlt⟩ := ih (len - 64) (by omega) hcopied.transform
          (offset + 64) (by omega)
        rw [List.append_assoc, ← List.drop_drop, List.take_append_drop] at hafter
        exact ⟨n', r', hafter, hlt⟩
      · rw [if_neg hblock]
        have htake : (bs.drop offset).take len = bs.drop offset := by
          apply List.take_of_length_le
          rw [List.length_drop]
          omega
        have hcopied := h.copyIn (bs.drop offset)
        refine ⟨n, 0 + (bs.drop offset).length, ?_, ?_⟩
        · rw [read_bytes, htake]
          exact hcopied
        · rw [List.length_drop]
          omega

@[simp]
theorem copyIn_bits0 (c : Context) (at₀ : Nat) (bs : List Byte) :
    (c.copyIn at₀ bs).bits0 = c.bits0 := rfl

@[simp]
theorem copyIn_bits1 (c : Context) (at₀ : Nat) (bs : List Byte) :
    (c.copyIn at₀ bs).bits1 = c.bits1 := rfl

@[simp]
theorem transform_bits0 (c : Context) : c.transform.bits0 = c.bits0 := by
  unfold Context.transform
  rfl

@[simp]
theorem transform_bits1 (c : Context) : c.transform.bits1 = c.bits1 := by
  unfold Context.transform
  rfl

theorem md5Blocks_bits (c : Context) (buf : Source) (offset len : Nat) :
    (md5Blocks c buf offset len).bits0 = c.bits0 ∧ (md5Blocks c buf offset len).bits1 = c.bits1 := by
  induction c, offset, len using md5Blocks.induct buf with
  | case1 c offset len hblock ih =>
      rw [md5Blocks, if_pos hblock, ih.1, ih.2]
      simp
  | case2 c offset len hblock =>
      rw [md5Blocks, if_neg hblock]
      exact ⟨rfl, rfl⟩

/-- The fill of `in` as `md5_update` and `md5_final` get it from `bits`. -/
theorem Counted.fill (h : Counted c m) : ((c.bits0 >>> 3) &&& 0x3f).toNat = m.length % 64 := by
  have hmask : (0x3f : Word).toNat = 2 ^ 6 - 1 := rfl
  rw [h.low, BitVec.toNat_and, BitVec.toNat_ushiftRight, BitVec.toNat_ofNat, hmask,
    Nat.and_two_pow_sub_one_eq_mod, Nat.shiftRight_eq_div_pow]
  omega

/-- Eight bits for each byte, with a carry into the high word. -/
theorem Counted.countBits (h : Counted c m) (hlen : bs.length < 2 ^ 32) :
    Counted (countBits c bs.length) (m ++ bs) := by
  obtain ⟨hlow, hhigh⟩ := h
  have hlow' : c.bits0.toNat = 8 * m.length % 2 ^ 32 := by
    rw [hlow, BitVec.toNat_ofNat]
  have hhigh' : c.bits1.toNat = 8 * m.length / 2 ^ 32 % 2 ^ 32 := by
    rw [hhigh, BitVec.toNat_ofNat]
  have hsum : (c.bits0 + BitVec.ofNat 32 bs.length <<< 3).toNat =
      8 * (m.length + bs.length) % 2 ^ 32 := by
    rw [BitVec.toNat_add, BitVec.toNat_shiftLeft, BitVec.toNat_ofNat, Nat.mod_eq_of_lt hlen, hlow',
      Nat.shiftLeft_eq]
    omega
  have hshift : (BitVec.ofNat 32 bs.length >>> 29).toNat = bs.length / 2 ^ 29 := by
    rw [BitVec.toNat_ushiftRight, BitVec.toNat_ofNat, Nat.mod_eq_of_lt hlen,
      Nat.shiftRight_eq_div_pow]
  have hone : (1 : Word).toNat = 1 := rfl
  constructor
  · apply BitVec.eq_of_toNat_eq
    have hbits : (Md5.countBits c bs.length).bits0 = c.bits0 + BitVec.ofNat 32 bs.length <<< 3 := by
      simp only [Md5.countBits]
      split <;> rfl
    rw [hbits, hsum, BitVec.toNat_ofNat, List.length_append]
  · apply BitVec.eq_of_toNat_eq
    rw [BitVec.toNat_ofNat, List.length_append]
    simp only [Md5.countBits]
    split
    · rename_i hcarry
      rw [BitVec.lt_def, hsum, hlow'] at hcarry
      rw [BitVec.toNat_add, BitVec.toNat_add, hhigh', hshift, hone]
      omega
    · rename_i hcarry
      rw [BitVec.lt_def, hsum, hlow'] at hcarry
      rw [BitVec.toNat_add, hhigh', hshift]
      omega

theorem countBits_same (c : Context) (len : Nat) :
    (countBits c len).buf = c.buf ∧ (countBits c len).input = c.input := by
  simp only [countBits]
  split <;> exact ⟨rfl, rfl⟩

theorem Chained.countBits (h : Chained c m n r) (len : Nat) : Chained (countBits c len) m n r := by
  obtain ⟨hbuf, hinput⟩ := countBits_same c len
  exact ⟨hbuf.trans h.chain, h.length, by rw [hinput, h.rest]⟩

theorem Counted.of_bits {c' : Context} (h : Counted c m) (h0 : c'.bits0 = c.bits0)
    (h1 : c'.bits1 = c.bits1) : Counted c' m := ⟨h0.trans h.low, h1.trans h.high⟩

theorem Chained.fill (h : Chained c m n r) (hr : r < 64) (hcounted : Counted c m) :
    ((c.bits0 >>> 3) &&& 0x3f).toNat = r := by
  have hlen := h.length
  rw [hcounted.fill]
  omega

/-- `md5_update` with bytes that are not its own. -/
theorem Chained.update (h : Chained c m n r) (hr : r < 64) (hcounted : Counted c m)
    (hlen : bs.length < 2 ^ 32) :
    ∃ n' r', Chained (md5Update c (.bytes bs) bs.length) (m ++ bs) n' r' ∧ r' < 64 ∧
      Counted (md5Update c (.bytes bs) bs.length) (m ++ bs) := by
  have hstart := h.countBits bs.length
  have hbits := hcounted.countBits hlen
  rw [md5Update, h.fill hr hcounted]
  simp only [read_bytes, List.drop_zero]
  by_cases hr0 : r = 0
  · rw [if_neg (by simpa using hr0)]
    subst hr0
    obtain ⟨n', r', hafter, hlt⟩ := hstart.blocks bs 0 _ (Nat.zero_add _)
    exact ⟨n', r', hafter, hlt, hbits.of_bits (md5Blocks_bits _ _ _ _).1 (md5Blocks_bits _ _ _ _).2⟩
  · rw [if_pos hr0]
    by_cases hshort : bs.length < 64 - r
    · rw [if_pos hshort, List.take_length]
      exact ⟨n, r + bs.length, hstart.copyIn bs, by omega, hbits.of_bits rfl rfl⟩
    · rw [if_neg hshort]
      have htake : r + (bs.take (64 - r)).length = 64 := by
        rw [List.length_take]
        omega
      have hcopied := hstart.copyIn (bs.take (64 - r))
      rw [htake] at hcopied
      obtain ⟨n', r', hafter, hlt⟩ := hcopied.transform.blocks bs (64 - r)
        (bs.length - (64 - r)) (by omega)
      rw [List.append_assoc, List.take_append_drop] at hafter
      obtain ⟨hlow, hhigh⟩ := md5Blocks_bits (((Md5.countBits c bs.length).copyIn r
        (bs.take (64 - r))).transform) (.bytes bs) (64 - r) (bs.length - (64 - r))
      exact ⟨n', r', hafter, hlt, hbits.of_bits (by simpa using hlow) (by simpa using hhigh)⟩

/-- Both words of `bits` in memory are the length of the message. -/
theorem Counted.bytes (h : Counted c m) :
    wordBytes c.bits0 ++ wordBytes c.bits1 = lengthBytes (8 * m.length) := by
  have hrange : List.range 8 = [0, 1, 2, 3, 4, 5, 6, 7] := rfl
  rw [h.low, h.high, lengthBytes, hrange]
  simp only [wordBytes, List.map_cons, List.map_nil, List.cons_append, List.nil_append,
    List.cons.injEq, and_true]
  refine ⟨?_, ?_, ?_, ?_, ?_, ?_, ?_, ?_⟩
  all_goals
    apply BitVec.eq_of_toNat_eq
    simp only [BitVec.extractLsb'_toNat, BitVec.toNat_ofNat, Nat.shiftRight_eq_div_pow]
    omega

/-- The padding of `md5_final` up to the length. -/
def padded (c : Context) (count : Nat) : Context :=
  let c := c.copyIn count [0x80]
  let p := count + 1
  let count := 64 - 1 - count
  if count < 8 then (c.copyIn p (List.replicate count 0)).transform.copyIn 0 (List.replicate 56 0)
  else c.copyIn p (List.replicate (count - 8) 0)

theorem md5Final_eq (c : Context) : md5Final c =
    ((padded c ((c.bits0 >>> 3) &&& 0x3f).toNat).copyIn 56 (wordBytes c.bits0 ++
      wordBytes c.bits1)).transform := by
  rw [md5Final, padded]
  split <;> simp

theorem Chained.padded (h : Chained c m n r) (hr : r < 64) :
    ∃ n', Chained (padded c r) (m ++ (0x80 :: List.replicate ((119 - m.length % 64) % 64) 0)) n' 56 := by
  have hlen := h.length
  have hone := h.copyIn [0x80]
  rw [List.length_singleton] at hone
  rw [Md5.padded]
  by_cases hfull : 64 - 1 - r < 8
  · rw [if_pos hfull]
    have hzeros : (119 - m.length % 64) % 64 = 64 - 1 - r + 56 := by omega
    have hblock := hone.copyIn (List.replicate (64 - 1 - r) 0)
    have h64 : r + 1 + (List.replicate (64 - 1 - r) (0 : Byte)).length = 64 := by
      rw [List.length_replicate]
      omega
    rw [h64] at hblock
    have hrest := hblock.transform.copyIn (List.replicate 56 0)
    rw [List.length_replicate, List.append_assoc, List.append_assoc, ← List.replicate_add,
      List.singleton_append, ← hzeros] at hrest
    exact ⟨n + 1, hrest⟩
  · rw [if_neg hfull]
    have hzeros : (119 - m.length % 64) % 64 = 64 - 1 - r - 8 := by omega
    have hrest := hone.copyIn (List.replicate (64 - 1 - r - 8) 0)
    have h56 : r + 1 + (List.replicate (64 - 1 - r - 8) (0 : Byte)).length = 56 := by
      rw [List.length_replicate]
      omega
    rw [h56, List.append_assoc, List.singleton_append] at hrest
    rw [hzeros]
    exact ⟨n, hrest⟩

/-- `md5_final` takes in the padding. -/
theorem Chained.final (h : Chained c m n r) (hr : r < 64) (hcounted : Counted c m) :
    bufBytes (md5Final c).buf = md5 m := by
  obtain ⟨n', hpadded⟩ := h.padded hr
  have hlast := hpadded.copyIn (lengthBytes (8 * m.length))
  have h64 : 56 + (lengthBytes (8 * m.length)).length = 64 := by simp [lengthBytes]
  rw [h64, List.append_assoc, List.cons_append, ← padding] at hlast
  have hdone := hlast.transform
  have hblocks : (m ++ padding m.length).length / 64 = n' + 1 := by
    rw [hdone.length]
    omega
  rw [md5Final_eq, h.fill hr hcounted, hcounted.bytes, hdone.chain, md5, hblocks]

end Steps

/-- `md5_init`, `md5_update` and `md5_final` compute the digest of the bytes. -/
theorem md5Hash_eq_md5 (c : Context) (buf : Buffer) : md5Hash c buf = md5 buf.bytes := by
  obtain ⟨n, r, hafter, hlt, hcounted⟩ :=
    (chained_md5Init c).update (by decide) (counted_md5Init c) buf.short
  exact hafter.final hlt hcounted

/-! ## The keyed digest -/

/-- A key of more than a block is replaced by its digest. -/
def shortKey (key : List Byte) : List Byte := if 64 < key.length then md5 key else key

/-- The eighty bytes that the outer pass should take in. -/
def outerMessage (key m : List Byte) : List Byte :=
  pad (shortKey key) 0x5c ++ md5 (pad (shortKey key) 0x36 ++ m)

/-- RFC 2104 with the digest above. -/
def hmac (key m : List Byte) : List Byte := md5 (outerMessage key m)

/-- The key that `md5_hmac` makes its pads from. -/
def usedKey (locals : Locals) (key : Buffer) : List Byte :=
  if 64 < key.bytes.length then locals.tk else key.bytes

/-- The eighty bytes that the outer pass of `md5_hmac` takes in: behind the outer pad, its own
chaining value. -/
def outerInput (k : List Byte) : List Byte :=
  pad k 0x5c ++ bufBytes (compress initial (pad k 0x5c))

theorem pad_length {k : List Byte} (hk : k.length ≤ 64) (x : Byte) : (pad k x).length = 64 := by
  simp only [pad, List.length_map, List.length_append, List.length_replicate]
  omega

theorem bufBytes_length (v : Words) : (bufBytes v).length = 16 := rfl

/-- The bytes of the context's own `buf` are those it has when they are copied. -/
theorem Chained.update_ownBuf {c : Context} {m : List Byte} {n : Nat} (h : Chained c m n 0)
    (hcounted : Counted c m) :
    md5Update c .ownBuf 16 = md5Update c (.bytes (bufBytes c.buf)) 16 := by
  have hread : Source.ownBuf.read (Md5.countBits c 16) 0 16 =
      (Source.bytes (bufBytes c.buf)).read (Md5.countBits c 16) 0 16 := by
    simp only [Source.read, (countBits_same c 16).1]
  rw [md5Update, md5Update, h.fill (by decide) hcounted, if_neg (by simp), if_neg (by simp),
    md5Blocks, if_neg (by decide), hread]
  rw [md5Blocks, if_neg (by decide)]

/-- The outer pass, in a context that was used before. -/
theorem outer_pass (c : Context) {opad : List Byte} (hopad : opad.length = 64) :
    bufBytes (md5Final (md5Update (md5Update (md5Init c) (.bytes opad) 64) .ownBuf 16)).buf =
      md5 (opad ++ bufBytes (compress initial opad)) := by
  obtain ⟨n, r, hafter, hlt, hcounted⟩ := (chained_md5Init c).update (by decide)
    (counted_md5Init c) (show opad.length < 2 ^ 32 by rw [hopad]; decide)
  rw [hopad, List.nil_append] at hafter hcounted
  have hlength := hafter.length
  obtain ⟨rfl, rfl⟩ : n = 1 ∧ r = 0 := by omega
  have hchain : (md5Update (md5Init c) (.bytes opad) 64).buf = compress initial opad := by
    rw [hafter.chain, absorb, absorb_zero, List.take_of_length_le (Nat.le_of_eq hopad)]
  obtain ⟨n', r', hafter', hlt', hcounted'⟩ := hafter.update hlt hcounted
    (show (bufBytes (compress initial opad)).length < 2 ^ 32 by rw [bufBytes_length]; decide)
  rw [hafter.update_ownBuf hcounted, hchain]
  exact hafter'.final hlt' hcounted'

theorem usedKey_length (locals : Locals) (key : Buffer) : (usedKey locals key).length ≤ 64 := by
  rw [usedKey]
  split
  · rw [locals.tk_length]
    decide
  · omega

/-- What `md5_hmac` returns does not depend on the message. -/
theorem md5Hmac_eq (locals : Locals) (buf key : Buffer) :
    md5Hmac locals buf key = md5 (outerInput (usedKey locals key)) := by
  have hkey : (if 64 < key.bytes.length then
      (if 64 < key.bytes.length then hashKey locals key else locals).tk else key.bytes) =
        usedKey locals key := by
    rw [usedKey]
    split <;> rfl
  simp only [md5Hmac, hkey]
  exact outer_pass _ (pad_length (usedKey_length locals key) 0x5c)

/-- The faults do no harm: a long key's digest is what was in `tk` anyway, and the inner digest
is the chaining value behind the outer pad. -/
def Coincides (locals : Locals) (buf key : Buffer) : Prop :=
  (64 < key.bytes.length → locals.tk = md5 key.bytes) ∧
    bufBytes (compress initial (pad (shortKey key.bytes) 0x5c)) =
      md5 (pad (shortKey key.bytes) 0x36 ++ buf.bytes)

theorem pad_injective {k k' : List Byte} {x : Byte} (hlen : k.length = k'.length)
    (h : pad k x = pad k' x) : k = k' := by
  have hxor : Function.Injective fun b : Byte => b ^^^ x := by
    intro a b hab
    have hback := congrArg (· ^^^ x) hab
    simpa [BitVec.xor_assoc] using hback
  have happend := List.map_injective_iff.mpr hxor h
  exact List.append_inj_left happend hlen

theorem shortKey_length (key : List Byte) : (shortKey key).length ≤ 64 := by
  rw [shortKey]
  split
  · exact (by decide : 16 ≤ 64)
  · omega

theorem outerInput_eq_iff (locals : Locals) (buf key : Buffer) :
    outerInput (usedKey locals key) = outerMessage key.bytes buf.bytes ↔
      Coincides locals buf key := by
  have hkey : usedKey locals key = shortKey key.bytes ↔
      (64 < key.bytes.length → locals.tk = md5 key.bytes) := by
    rw [usedKey, shortKey]
    split
    · rename_i hlong
      exact ⟨fun h _ => h, fun h => h hlong⟩
    · rename_i hshort
      exact ⟨fun _ hlong => absurd hlong hshort, fun _ => rfl⟩
  have hlength : (usedKey locals key).length = (shortKey key.bytes).length := by
    rw [usedKey, shortKey]
    split
    · exact locals.tk_length
    · rfl
  rw [Coincides, ← hkey]
  constructor
  · intro h
    have hpads := List.append_inj h (by
      rw [pad_length (usedKey_length locals key), pad_length (shortKey_length key.bytes)])
    have hsame := pad_injective hlength hpads.1
    exact ⟨hsame, by rw [← hpads.2, hsame]⟩
  · rintro ⟨hsame, hinner⟩
    rw [outerInput, outerMessage, hsame, hinner]

/-- `md5_hmac` computes the keyed digest if its faults do no harm. Where they do, what it computes
is the digest of another message than the one it should take in. -/
theorem md5Hmac_eq_hmac_of_coincides (locals : Locals) (buf key : Buffer) :
    (Coincides locals buf key → md5Hmac locals buf key = hmac key.bytes buf.bytes) ∧
      (¬ Coincides locals buf key →
        md5Hmac locals buf key = md5 (outerInput (usedKey locals key)) ∧
          hmac key.bytes buf.bytes = md5 (outerMessage key.bytes buf.bytes) ∧
          outerInput (usedKey locals key) ≠ outerMessage key.bytes buf.bytes) := by
  refine ⟨fun hsame => ?_, fun hharm => ⟨md5Hmac_eq locals buf key, rfl, ?_⟩⟩
  · rw [md5Hmac_eq, (outerInput_eq_iff locals buf key).mpr hsame]
    rfl
  · exact fun h => hharm ((outerInput_eq_iff locals buf key).mp h)

def noBytes : Buffer := ⟨[], by decide⟩

/-- Local variables that hold zeros. -/
def zeroLocals : Locals :=
  ⟨⟨⟨0, 0, 0, 0⟩, 0, 0, fun _ => 0⟩, ⟨⟨0, 0, 0, 0⟩, 0, 0, fun _ => 0⟩, List.replicate 16 0, rfl⟩

/-- The empty message under the empty key. -/
theorem md5Hmac_ne_hmac_empty : md5Hmac zeroLocals noBytes noBytes ≠ hmac [] [] := by
  have hdigests : md5 (outerInput []) ≠ md5 (outerMessage [] []) := by
    decide +kernel
  rw [md5Hmac_eq, hmac]
  exact hdigests

end OpenAAA.Md5
